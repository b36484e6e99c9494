import Trellis.Proofs.Pointers.Stripping
import Trellis.Schema.Registration

/-!
Registrations that agree.

Two registrations agree if, from registries that are the same without pointers, they come to
results and registries that are, or are refused with the same error, apart from the names of host
types. Only a transformation can tell the spellings of one type apart: it is refused if its type is
spelled otherwise than that of its property.
-/

namespace Trellis

theorem Entries.getD_lookup_congr {κ α β : Type} [BEq κ] {f : α → β}
    {entries entries' : List (κ × α)}
    (h : entries.map (Prod.map id f) = entries'.map (Prod.map id f)) (key : κ) (default : α) :
    f ((entries.lookup key).getD default) = f ((entries'.lookup key).getD default) := by
  have hlookup := congrArg (List.lookup key) h
  rw [lookup_map, lookup_map] at hlookup
  rw [← Option.getD_map f default, hlookup, Option.getD_map]

theorem Entries.isSome_lookup_congr {κ α β : Type} [BEq κ] {f : α → β}
    {entries entries' : List (κ × α)}
    (h : entries.map (Prod.map id f) = entries'.map (Prod.map id f)) (key : κ) :
    (entries.lookup key).isSome = (entries'.lookup key).isSome := by
  have hlookup := congrArg (List.lookup key) h
  rw [lookup_map, lookup_map] at hlookup
  rw [← Option.isSome_map, hlookup, Option.isSome_map]

theorem Entries.filter_congr {κ α β : Type} [DecidableEq κ] {f : α → β}
    {entries entries' : List (κ × α)}
    (h : entries.map (Prod.map id f) = entries'.map (Prod.map id f)) (key : κ) :
    (entries.filter (·.1 ≠ key)).map (Prod.map id f) =
      (entries'.filter (·.1 ≠ key)).map (Prod.map id f) := by
  have hfilter (entries : List (κ × α)) : (entries.filter (·.1 ≠ key)).map (Prod.map id f) =
      (entries.map (Prod.map id f)).filter (·.1 ≠ key) := by
    rw [List.filter_map]
    rfl
  rw [hfilter, h, hfilter]

/-! ### What is declared and registered, without pointers -/

def PropertyDeclaration.bare (d : PropertyDeclaration) : PropertyDeclaration :=
  { d with resolver := d.resolver.map Resolver.bare }

def TransformationDeclaration.bare (d : TransformationDeclaration) : TransformationDeclaration :=
  { d with transformation := d.transformation.map Transformation.bare }

def TypeDeclaration.bare (d : TypeDeclaration) : TypeDeclaration := { d with
  type := d.type.bare
  transformations := d.transformations.map TransformationDeclaration.bare
  properties := d.properties.map PropertyDeclaration.bare }

def UnionDeclaration.bare (d : UnionDeclaration) : UnionDeclaration :=
  { d with members := d.members.map TypeRef.bare }

/-- The declaration of a function is the same without pointers as that of one with the pointers
elsewhere. -/
theorem Universe.Function.Respells.bare_declaration {u : Universe} {f f' : u.Function}
    (h : f.Respells f') (d : PropertyDeclaration) :
    ({ d with resolver := some f.resolver } : PropertyDeclaration).bare =
      ({ d with resolver := some f'.resolver } : PropertyDeclaration).bare := by
  simp only [PropertyDeclaration.bare, Option.map_some, h.bare_resolver]

theorem Universe.Mapping.Respells.bare_declaration {u : Universe} {m m' : u.Mapping}
    (h : m.Respells m') (property : String) (arguments : List String) :
    (TransformationDeclaration.mk property arguments (some m.transformation)).bare =
      (TransformationDeclaration.mk property arguments (some m'.transformation)).bare := by
  simp only [TransformationDeclaration.bare, Option.map_some, h.bare_transformation]

/-- Two programs declare the same without pointers. -/
structure Declarations.Alike (d d' : Declarations) : Prop where
  queries : d.queries.map PropertyDeclaration.bare = d'.queries.map PropertyDeclaration.bare
  mutations : d.mutations.map PropertyDeclaration.bare = d'.mutations.map PropertyDeclaration.bare
  types : d.types.map (Prod.map id TypeDeclaration.bare) =
    d'.types.map (Prod.map id TypeDeclaration.bare)
  enums : d.enums = d'.enums
  unions : d.unions.map (Prod.map id UnionDeclaration.bare) =
    d'.unions.map (Prod.map id UnionDeclaration.bare)
  scalars : d.scalars = d'.scalars
  inputs : d.inputs.map TypeRef.bare = d'.inputs.map TypeRef.bare

def Property.bare (p : Property) : Property := { p with
  resolver := p.resolver.bare
  transformations := p.transformations.map Transformation.bare }

def ObjectType.bare (o : ObjectType) : ObjectType :=
  { o with properties := o.properties.map Property.bare }

def TypeNode.bare : TypeNode → TypeNode
  | .object o => .object o.bare
  | node => node

def TypeGraph.bare (g : TypeGraph) : TypeGraph :=
  { g with types := g.types.map (Prod.map id TypeNode.bare) }

/-- Two registries are the same without pointers. -/
structure Registry.Alike (r r' : Registry) : Prop where
  types : r.types.map (Prod.map id (Option.map TypeNode.bare)) =
    r'.types.map (Prod.map id (Option.map TypeNode.bare))
  outputs : r.outputs = r'.outputs
  inputs : r.inputs = r'.inputs
  scalarNames : r.scalarNames = r'.scalarNames
  typeDeclarations : r.typeDeclarations.map (Prod.map id TypeDeclaration.bare) =
    r'.typeDeclarations.map (Prod.map id TypeDeclaration.bare)
  enumDeclarations : r.enumDeclarations = r'.enumDeclarations
  unionNames : r.unionNames = r'.unionNames

@[simp] theorem TypeNode.name_bare (node : TypeNode) : node.bare.name = node.name := by
  cases node <;> rfl

namespace SchemaError

/-- The error without the names of host types that may have pointers in them. -/
def anonymous : SchemaError → SchemaError
  | .transformationType typeName property _ _ => .transformationType typeName property "" ""
  | .invalidUnionMember union _ => .invalidUnionMember union ""
  | .invalidTypeUsage _ usage => .invalidTypeUsage "" usage
  | e => e

/-- A transformation is refused although its type and that of its property point to the same. -/
inductive Misspells : SchemaError → Prop
  | transformation {expected found : HostType} (typeName property : String) : expected ≠ found →
    expected.pointee = found.pointee →
    Misspells (.transformationType typeName property expected.name found.name)

end SchemaError

namespace Registering

/-- What two registrations come to, as far as a view of results shows. -/
inductive EndsAlike {α β : Type} (view : α → β) :
    Except Stop (α × Registry) → Except Stop (α × Registry) → Prop
  | done {a b : α} {s s' : Registry} : view a = view b → s.Alike s' →
    EndsAlike view (.ok (a, s)) (.ok (b, s'))
  | refused {e e' : SchemaError} : e.anonymous = e'.anonymous →
    EndsAlike view (.error (.refused e)) (.error (.refused e'))
  | tooDeep : EndsAlike view (.error .tooDeep) (.error .tooDeep)
  | first {e : SchemaError} (outcome : Except Stop (α × Registry)) : e.Misspells →
    EndsAlike view (.error (.refused e)) outcome
  | second {e : SchemaError} (outcome : Except Stop (α × Registry)) : e.Misspells →
    EndsAlike view outcome (.error (.refused e))

/-- Two steps agree from all registries that are the same without pointers. -/
structure Agrees {α β : Type} (view : α → β) (op op' : Registering α) : Prop where
  endsAlike : ∀ {r r' : Registry}, r.Alike r' → EndsAlike view (op.run r) (op'.run r')

namespace Agrees

variable {α β γ δ : Type} {view : α → β} {view' : γ → δ}

theorem pure {a b : α} (h : view a = view b) : Agrees view (Pure.pure a) (Pure.pure b) :=
  ⟨fun hr => .done h hr⟩

theorem refuse {e e' : SchemaError} (h : e.anonymous = e'.anonymous) :
    Agrees view (Registering.refuse e) (Registering.refuse e') := ⟨fun _ => .refused h⟩

theorem tooDeep : Agrees view (throw .tooDeep) (throw .tooDeep) := ⟨fun _ => .tooDeep⟩

theorem misspelled {e : SchemaError} (h : e.Misspells) (op : Registering α) :
    Agrees view (Registering.refuse e) op := ⟨fun _ => .first _ h⟩

theorem misspelled' {e : SchemaError} (h : e.Misspells) (op : Registering α) :
    Agrees view op (Registering.refuse e) := ⟨fun _ => .second _ h⟩

theorem bind {op op' : Registering α} {next next' : α → Registering γ} (h : Agrees view op op')
    (hnext : ∀ a b, view a = view b → Agrees view' (next a) (next' b)) :
    Agrees view' (op >>= next) (op' >>= next') := by
  refine ⟨fun {r r'} hr => ?_⟩
  change EndsAlike view' ((op.run r).bind fun done => (next done.1).run done.2)
    ((op'.run r').bind fun done => (next' done.1).run done.2)
  generalize op.run r = outcome, op'.run r' = outcome', h.endsAlike hr = hends
  cases hends with
  | done hab hs => exact (hnext _ _ hab).endsAlike hs
  | refused he => exact .refused he
  | tooDeep => exact .tooDeep
  | first _ he => exact .first _ he
  | second _ he => exact .second _ he

theorem get_bind {next next' : Registry → Registering α}
    (h : ∀ r r', r.Alike r' → Agrees view (next r) (next' r')) :
    Agrees view (get >>= next) (get >>= next') := ⟨fun hr => (h _ _ hr).endsAlike hr⟩

theorem modify_bind {change change' : Registry → Registry} {next next' : Unit → Registering α}
    (h : ∀ r r', r.Alike r' → (change r).Alike (change' r'))
    (hnext : Agrees view (next ()) (next' ())) :
    Agrees view (modify change >>= next) (modify change' >>= next') :=
  ⟨fun hr => hnext.endsAlike (h _ _ hr)⟩

theorem modifies {change change' : Registry → Registry}
    (h : ∀ r r', r.Alike r' → (change r).Alike (change' r')) :
    Agrees id (modify change) (modify change') := ⟨fun hr => .done rfl (h _ _ hr)⟩

theorem map {op op' : Registering α} {f f' : α → γ} (h : Agrees view op op')
    (hf : ∀ a b, view a = view b → view' (f a) = view' (f' b)) :
    Agrees view' (f <$> op) (f' <$> op') := by
  rw [map_eq_pure_bind, map_eq_pure_bind]
  exact h.bind fun a b hab => .pure (hf a b hab)

theorem discard {op op' : Registering α} (h : Agrees view op op') :
    Agrees id (Functor.discard op) (Functor.discard op') := h.map fun _ _ _ => rfl

theorem optional {c : Prop} [Decidable c] {op op' : Registering Unit} {next next' : Registering α}
    (h : Agrees id op op') (hnext : Agrees view next next') :
    Agrees view (if c then op >>= fun _ => next else next)
      (if c then op' >>= fun _ => next' else next') := by
  split
  · exact h.bind fun _ _ _ => hnext
  · exact hnext

theorem mapM {ι : Type} {f f' : ι → Registering α} {items items' : List ι}
    (h : List.Forall₂ (fun item item' => Agrees view (f item) (f' item')) items items') :
    Agrees (List.map view) (items.mapM f) (items'.mapM f') := by
  induction h with
  | nil =>
    rw [List.mapM_nil, List.mapM_nil]
    exact .pure rfl
  | cons hitem _ ih =>
    rw [List.mapM_cons, List.mapM_cons]
    refine hitem.bind fun a b hab => ih.bind fun as bs habs => .pure ?_
    rw [List.map_cons, List.map_cons, hab, habs]

theorem foldlM {ι : Type} {f f' : α → ι → Registering α} {items items' : List ι}
    (h : List.Forall₂ (fun item item' => ∀ a b, view a = view b →
      Agrees view (f a item) (f' b item')) items items') {a b : α} (hab : view a = view b) :
    Agrees view (items.foldlM f a) (items'.foldlM f' b) := by
  induction h generalizing a b with
  | nil => exact .pure hab
  | cons hitem _ ih =>
    rw [List.foldlM_cons, List.foldlM_cons]
    exact (hitem a b hab).bind fun _ _ hnext => ih hnext

theorem forM {ι : Type} {f f' : ι → Registering Unit} {items items' : List ι}
    (h : List.Forall₂ (fun item item' => Agrees id (f item) (f' item')) items items') :
    Agrees id (items.forM f) (items'.forM f') := by
  induction h with
  | nil => exact .pure rfl
  | cons hitem _ ih => exact hitem.bind fun _ _ _ => ih

end Agrees

end Registering

end Trellis
