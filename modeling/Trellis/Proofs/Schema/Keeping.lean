import Trellis.Proofs.Schema.Transferring

/-!
What holds of all properties of a schema.

The properties of a registered object read its fields or come from declarations. Afterwards they only
get new metadata and transformations. So a kind of properties that each of these steps keeps to is the
kind of all properties of a schema, whatever is declared and in whatever order types are met.
-/

namespace Trellis

namespace Registering

variable {α β : Type} {I : Registry → Prop} {Q : α → Prop} {R : β → Prop}

/-- A step keeps what holds of registries, and its results are of some kind. -/
def Preserves (I : Registry → Prop) (op : Registering α) (Q : α → Prop) : Prop :=
  ∀ r a s, Runs op r a s → I r → I s ∧ Q a

namespace Preserves

variable {op : Registering α}

theorem pure {a : α} (h : Q a) : Preserves I (Pure.pure a) Q := by
  intro r b s hruns hr
  obtain ⟨rfl, rfl⟩ := runs_pure.mp hruns
  exact ⟨hr, h⟩

theorem refuse (e : SchemaError) : Preserves I (Registering.refuse e : Registering α) Q :=
  fun _ _ _ hruns _ => absurd hruns not_runs_refuse

theorem change {f : Registry → Registry} (h : ∀ r, I r → I (f r)) :
    Preserves I (modify f) fun _ => True := by
  intro r u s hruns hr
  obtain rfl := runs_modify.mp hruns
  exact ⟨h r hr, trivial⟩

theorem get_bind {next : Registry → Registering α} (h : ∀ r, I r → Preserves I (next r) Q) :
    Preserves I (get >>= next) Q :=
  fun r a s hruns hr => h r hr r a s (runs_get_bind.mp hruns) hr

theorem bind {next : α → Registering β} (h : Preserves I op Q)
    (hnext : ∀ a, Q a → Preserves I (next a) R) : Preserves I (op >>= next) R := by
  intro r b s hruns hr
  obtain ⟨a, t, hop, hrest⟩ := runs_bind.mp hruns
  obtain ⟨ht, ha⟩ := h r a t hop hr
  exact hnext a ha t b s hrest ht

theorem optional {c : Prop} [Decidable c] {first : Registering Unit}
    (h : Preserves I first fun _ => True) (hop : Preserves I op Q) :
    Preserves I (if c then first >>= fun _ => op else op) Q := by
  split
  · exact h.bind fun _ _ => hop
  · exact hop

theorem map (f : α → β) (h : Preserves I op fun _ => True) : Preserves I (f <$> op) fun _ => True := by
  rw [map_eq_pure_bind]
  exact h.bind fun _ _ => .pure trivial

theorem with_result (h : Preserves I op fun _ => True) (hQ : ∀ r a s, Runs op r a s → Q a) :
    Preserves I op Q :=
  fun r a s hruns hr => ⟨(h r a s hruns hr).1, hQ r a s hruns⟩

theorem foldlM {f : β → α → Registering β} {items : List α} {b : β} (hb : R b)
    (h : ∀ item ∈ items, ∀ b, R b → Preserves I (f b item) R) : Preserves I (items.foldlM f b) R := by
  induction items generalizing b with
  | nil => exact .pure hb
  | cons item items ih =>
    rw [List.foldlM_cons]
    exact (h item List.mem_cons_self b hb).bind fun next hnext =>
      ih hnext fun other hmem => h other (List.mem_cons_of_mem _ hmem)

theorem mapM {f : α → Registering β} {items : List α}
    (h : ∀ item ∈ items, Preserves I (f item) fun _ => True) :
    Preserves I (items.mapM f) fun _ => True := by
  induction items with
  | nil => exact .pure trivial
  | cons item items ih =>
    rw [List.mapM_cons]
    refine (h item List.mem_cons_self).bind fun _ _ => Preserves.bind (ih fun other hmem => ?_)
      fun _ _ => .pure trivial
    exact h other (List.mem_cons_of_mem _ hmem)

theorem forM {f : α → Registering Unit} {items : List α}
    (h : ∀ item ∈ items, Preserves I (f item) fun _ => True) :
    Preserves I (items.forM f) fun _ => True := by
  induction items with
  | nil => exact .pure trivial
  | cons item items ih =>
    exact (h item List.mem_cons_self).bind fun _ _ => ih fun other hmem =>
      h other (List.mem_cons_of_mem _ hmem)

end Preserves

end Registering

namespace Declarations

open Registering

variable (d : Declarations) (catalogue : Catalogue) (P : Property → Prop)

def properties : List PropertyDeclaration :=
  d.queries ++ d.mutations ++ d.types.flatMap (·.2.properties)

def transformations : List TransformationDeclaration := d.types.flatMap (·.2.transformations)

/-- A kind of properties that registration keeps to: fields of objects and declared properties are of
the kind, and they stay so when they are changed and when a transformation is attached. -/
structure KeepsTo : Prop where
  field : ∀ host (field : ObjectField) type,
    P ⟨field.name, none, .current, type, [], .native, .ofField host field, []⟩
  property : ∀ declaration ∈ d.properties, ∀ depth walk owner r p s,
    Runs (Registering.property catalogue depth walk owner declaration) r p s → P p
  configure : ∀ change p, P p → P (configure change p)
  attach : ∀ declaration ∈ d.transformations, ∀ depth owner p r p' s,
    p.name = declaration.property → P p →
      Runs (Registering.attach catalogue depth owner declaration p) r p' s → P p'

/-- The properties of all objects of a registry are of some kind, and the customizations that are left
were declared. -/
structure Consists (r : Registry) : Prop where
  properties : ∀ {name : String} {object : ObjectType}, (name, some (.object object)) ∈ r.types →
    ∀ p ∈ object.properties, P p
  customizations : r.typeDeclarations ⊆ d.types

variable {d catalogue P}

theorem preserves_reserve (name : String) : Preserves (d.Consists P) (reserve name) fun _ => True := by
  refine .get_bind fun r hr => ?_
  split
  · exact .refuse _
  · refine .change fun r hr => ⟨fun hmem => ?_, hr.customizations⟩
    rcases List.mem_append.mp hmem with hmem | hmem
    · exact hr.properties hmem
    · cases List.mem_singleton.mp hmem

theorem preserves_fill {node : TypeNode}
    (h : ∀ object, node = .object object → ∀ p ∈ object.properties, P p) :
    Preserves (d.Consists P) (fill node) fun _ => True := by
  refine .change fun r hr => ⟨fun hmem => ?_, hr.customizations⟩
  rcases Tidy.mem_fill.mp hmem with ⟨-, hslot, -⟩ | ⟨-, hmem⟩
  · exact h _ (Option.some.inj hslot).symm
  · exact hr.properties hmem

theorem preserves_addScalar (scalar : ScalarType) :
    Preserves (d.Consists P) (addScalar scalar) fun _ => True := by
  refine .get_bind fun r hr => ?_
  split
  · exact .refuse _
  · refine (preserves_reserve _).bind fun _ _ => Preserves.bind (.change fun r hr => ?_) fun _ _ =>
      preserves_fill nofun
    exact ⟨hr.properties, hr.customizations⟩

theorem preserves_scalarName (host : HostType) :
    Preserves (d.Consists P) (scalarName host) fun _ => True := by
  refine .get_bind fun r hr => ?_
  split
  · exact .pure trivial
  · exact .refuse _

theorem preserves_registerEnum (host : HostType) (shape : EnumShape) :
    Preserves (d.Consists P) (registerEnum host shape) fun _ => True := by
  refine .get_bind fun r hr => ?_
  split
  · exact .pure trivial
  · refine .get_bind fun r hr => Preserves.bind (.change fun r hr => ?_) fun _ _ =>
      (preserves_reserve _).bind fun _ _ => Preserves.bind (.change fun r hr => ?_) fun _ _ =>
        (preserves_fill nofun).bind fun _ _ => .pure trivial
    · exact ⟨hr.properties, hr.customizations⟩
    · exact ⟨hr.properties, hr.customizations⟩

theorem preserves_inputType {walk : HostType → HostType → Registering String}
    (hwalk : ∀ host outline, Preserves (d.Consists P) (walk host outline) fun _ => True)
    (ref : TypeRef) : Preserves (d.Consists P) (inputType walk ref) fun _ => True := by
  induction ref with
  | nullable host inner ih => exact .map _ ih
  | list host inner ih => exact .map _ ih
  | scalar host => exact .map _ (preserves_scalarName host)
  | enumeration host shape => exact .map _ (preserves_registerEnum host shape)
  | inputObject host outline => exact .map _ (hwalk host outline)
  | object | union | function | generic => exact .refuse _

theorem preserves_registerInput (depth : Nat) (host outline : HostType) :
    Preserves (d.Consists P) (registerInput catalogue depth host outline) fun _ => True := by
  induction depth generalizing host outline with
  | zero => exact fun _ _ _ hruns => absurd hruns not_runs_throw
  | succ depth ih =>
    refine .get_bind fun r hr => ?_
    split
    · exact .pure trivial
    · refine (preserves_reserve _).bind fun _ _ => Preserves.bind (.change fun r hr => ?_) fun _ _ =>
        Preserves.bind (.mapM fun field _ => ?_) fun _ _ => (preserves_fill nofun).bind fun _ _ =>
          .pure trivial
      · exact ⟨hr.properties, hr.customizations⟩
      · exact (preserves_inputType ih field.type).bind fun _ _ => .pure trivial

theorem preserves_outputType {walk : HostType → HostType → Registering String}
    (hwalk : ∀ host outline, Preserves (d.Consists P) (walk host outline) fun _ => True)
    (site : Registering.Site) (ref : TypeRef) :
    Preserves (d.Consists P) (outputType walk site ref) fun _ => True := by
  induction ref with
  | nullable host inner ih => exact .map _ ih
  | list host inner ih => exact .map _ ih
  | scalar host => exact .map _ (preserves_scalarName host)
  | enumeration host shape => exact .map _ (preserves_registerEnum host shape)
  | object host outline => exact .map _ (hwalk host outline)
  | union =>
    rw [outputType]
    split
    · exact .pure trivial
    · exact .refuse _
  | inputObject | function | generic => exact .refuse _

theorem preserves_mergeArguments (depth : Nat) (owner property : String) (arguments : List Argument)
    (declared : List (String × TypeRef)) : Preserves (d.Consists P)
      (mergeArguments catalogue depth owner property arguments declared) fun _ => True := by
  induction declared generalizing arguments with
  | nil => exact .pure trivial
  | cons argument declared ih =>
    refine (preserves_inputType (preserves_registerInput depth) argument.2).bind fun type _ => ?_
    split
    · exact ih _
    · split
      · exact ih _
      · exact .refuse _

theorem preserves_checkUnion (owner : String) (declaration : PropertyDeclaration) (returns : TypeRef) :
    Preserves (d.Consists P) (checkUnion owner declaration returns) fun _ => True := by
  rw [checkUnion]
  split
  · exact .refuse _
  · refine .get_bind fun r hr => ?_
    split
    · exact .refuse _
    · split
      · exact .pure trivial
      · exact .refuse _

theorem preserves_property {walk : HostType → HostType → Registering String}
    (hwalk : ∀ host outline, Preserves (d.Consists P) (walk host outline) fun _ => True) (depth : Nat)
    (owner : String) (declaration : PropertyDeclaration) : Preserves (d.Consists P)
      (property catalogue depth walk owner declaration) fun _ => True := by
  rw [property]
  dsimp only
  split
  · exact .refuse _
  · split
    · exact .refuse _
    · exact .optional (preserves_checkUnion owner declaration _) <|
        (preserves_outputType hwalk _ _).bind fun _ _ =>
          (preserves_mergeArguments depth owner _ _ _).bind fun _ _ => .pure trivial

theorem preserves_attach (depth : Nat) (owner : String) (declaration : TransformationDeclaration)
    (p : Property) :
    Preserves (d.Consists P) (attach catalogue depth owner declaration p) fun _ => True := by
  rw [attach]
  split
  · exact .refuse _
  · split
    · exact .refuse _
    · dsimp only
      split
      · exact .refuse _
      · exact (preserves_mergeArguments depth owner _ _ _).bind fun _ _ => .pure trivial

theorem preserves_insertProperty (owner : String) {properties : List Property}
    (h : ∀ p ∈ properties, P p) {p : Property} (hp : P p) :
    Preserves (d.Consists P) (insertProperty owner properties p) fun after => ∀ p ∈ after, P p := by
  rw [insertProperty]
  split
  · exact .refuse _
  · exact .pure (List.forall_mem_append.mpr ⟨h, List.forall_mem_singleton.mpr hp⟩)

theorem preserves_adjustProperty (owner name : String) {change : Property → Registering Property}
    (hchange : ∀ p, p.name = name → P p → Preserves (d.Consists P) (change p) P)
    {properties : List Property} (h : ∀ p ∈ properties, P p) :
    Preserves (d.Consists P) (adjustProperty owner name change properties) fun after =>
      ∀ p ∈ after, P p := by
  induction properties with
  | nil => exact .refuse _
  | cons p rest ih =>
    obtain ⟨hp, hrest⟩ := List.forall_mem_cons.mp h
    rw [adjustProperty]
    split
    · rename_i hname
      exact (hchange p hname hp).bind fun changed hchanged =>
        .pure (List.forall_mem_cons.mpr ⟨hchanged, hrest⟩)
    · exact (ih hrest).bind fun after hafter => .pure (List.forall_mem_cons.mpr ⟨hp, hafter⟩)

theorem preserves_takeDeclaration (host outline : HostType) :
    Preserves (d.Consists P) (takeDeclaration host outline) fun declaration =>
      declaration.properties ⊆ d.properties ∧ declaration.transformations ⊆ d.transformations := by
  refine .get_bind fun r hr => Preserves.bind (.change fun s hs => ?_) fun _ _ => .pure ?_
  · exact ⟨hs.properties, List.Subset.trans (List.filter_subset_self _) hs.customizations⟩
  · cases hlookup : r.typeDeclarations.lookup host with
    | none => exact ⟨List.nil_subset _, List.nil_subset _⟩
    | some declaration =>
      have hmem := hr.customizations (Entries.mem_of_lookup hlookup)
      refine ⟨fun p hp => List.mem_append_right _ ?_, fun t ht => ?_⟩
      · exact List.mem_flatMap.mpr ⟨_, hmem, hp⟩
      · exact List.mem_flatMap.mpr ⟨_, hmem, ht⟩

namespace KeepsTo

variable (h : d.KeepsTo catalogue P)

include h

theorem preserves_insertFields {walk : HostType → HostType → Registering String}
    (hwalk : ∀ host outline, Preserves (d.Consists P) (walk host outline) fun _ => True)
    (owner : String) (host : HostType) (ignored : List String) (fields : List ObjectField) :
    Preserves (d.Consists P) (insertFields walk owner host ignored fields) fun properties =>
      ∀ p ∈ properties, P p :=
  .foldlM (List.forall_mem_nil _) fun field _ _ hproperties =>
    (preserves_outputType hwalk _ _).bind fun type _ =>
      preserves_insertProperty owner hproperties (h.field host field type)

theorem preserves_insertDeclared {walk : HostType → HostType → Registering String}
    (hwalk : ∀ host outline, Preserves (d.Consists P) (walk host outline) fun _ => True) (depth : Nat)
    (owner : String) {before : List Property} (hbefore : ∀ p ∈ before, P p)
    {declarations : List PropertyDeclaration} (hdeclarations : declarations ⊆ d.properties) :
    Preserves (d.Consists P) (insertDeclared catalogue depth walk owner before declarations)
      fun properties => ∀ p ∈ properties, P p :=
  .foldlM hbefore fun declaration hmem _ hproperties =>
    ((preserves_property hwalk depth owner declaration).with_result
      (h.property declaration (hdeclarations hmem) depth walk owner)).bind fun _ hp =>
        preserves_insertProperty owner hproperties hp

theorem preserves_registerObject (inputDepth depth : Nat) (host outline : HostType) :
    Preserves (d.Consists P) (registerObject catalogue inputDepth depth host outline) fun _ => True := by
  induction depth generalizing host outline with
  | zero => exact fun _ _ _ hruns => absurd hruns not_runs_throw
  | succ depth ih =>
    refine .get_bind fun r hr => ?_
    split
    · exact .pure trivial
    · refine (preserves_takeDeclaration host outline).bind fun declaration hdeclaration => ?_
      refine (preserves_reserve _).bind fun _ _ => Preserves.bind (.change fun r hr => ?_) fun _ _ => ?_
      · exact ⟨hr.properties, hr.customizations⟩
      · split
        · exact .refuse _
        · refine (h.preserves_insertFields ih _ _ _ _).bind fun native hnative => ?_
          refine (h.preserves_insertDeclared ih _ _ hnative hdeclaration.1).bind fun declared hall => ?_
          refine Preserves.bind (Preserves.foldlM hall fun change _ _ hproperties =>
            preserves_adjustProperty _ _ (fun p _ hp => ?_) hproperties) fun changed hchanged => ?_
          · exact .pure (h.configure change.2 p hp)
          · refine Preserves.bind (Preserves.foldlM hchanged fun t ht _ hproperties =>
              preserves_adjustProperty _ _ (fun p hname hp => ?_) hproperties) fun last hlast => ?_
            · exact (preserves_attach inputDepth _ t p).with_result fun r p' s hruns =>
                h.attach t (hdeclaration.2 ht) inputDepth _ p r p' s hname hp hruns
            · refine (preserves_fill fun object hobject => ?_).bind fun _ _ => .pure trivial
              cases hobject
              exact hlast

theorem preserves_addRoot (depth : Nat) (name : String) {declarations : List PropertyDeclaration}
    (hdeclarations : declarations ⊆ d.properties) :
    Preserves (d.Consists P) (addRoot catalogue depth name declarations) fun _ => True := by
  refine (preserves_reserve name).bind fun _ _ => ?_
  refine (h.preserves_insertDeclared (h.preserves_registerObject depth depth) depth name
    (List.forall_mem_nil _) hdeclarations).bind fun properties hproperties => preserves_fill ?_
  intro object hobject
  cases hobject
  exact hproperties

theorem preserves_addDeclared (depth : Nat) (ref : TypeRef) :
    Preserves (d.Consists P) (addDeclared catalogue depth ref) fun _ => True := by
  cases ref with
  | object host outline => exact .map _ (h.preserves_registerObject depth depth host outline)
  | enumeration host shape => exact .map _ (preserves_registerEnum host shape)
  | scalar | inputObject | list | nullable | union | function | generic => exact .pure trivial

theorem preserves_addUnion (depth : Nat) (name : String) (declaration : UnionDeclaration) :
    Preserves (d.Consists P) (addUnion catalogue depth name declaration) fun _ => True := by
  rw [addUnion]
  split
  · exact .refuse _
  · refine (preserves_reserve name).bind fun _ _ => Preserves.bind (.mapM fun ref _ => ?_) fun _ _ =>
      preserves_fill (fun _ h => by cases h)
    cases ref with
    | object host outline =>
      exact (h.preserves_registerObject depth depth host outline).bind fun _ _ => .pure trivial
    | scalar | enumeration | inputObject | list | nullable | union | function | generic =>
      exact .refuse _

theorem preserves_addAll (depth : Nat) :
    Preserves (d.Consists P) (addAll catalogue depth d) fun _ => True := by
  have hqueries : d.queries ⊆ d.properties := by simp [Declarations.properties]
  have hmutations : d.mutations ⊆ d.properties := by simp [Declarations.properties]
  rw [addAll_eq]
  refine (Preserves.forM fun scalar _ => preserves_addScalar scalar).bind fun _ _ => ?_
  refine (Preserves.forM fun root hroot => h.preserves_addRoot depth root.1 ?_).bind fun _ _ => ?_
  · rw [roots] at hroot
    rcases List.mem_cons.mp hroot with rfl | hroot
    · exact hqueries
    · split at hroot
      · cases hroot
      · cases List.mem_singleton.mp hroot
        exact hmutations
  · refine .get_bind fun r hr => ?_
    refine (Preserves.forM fun ref _ => h.preserves_addDeclared depth ref).bind fun _ _ => ?_
    refine Preserves.bind (.forM fun ref _ => ?_) fun _ _ =>
      .forM fun union _ => h.preserves_addUnion depth union.1 union.2
    exact .map _ (preserves_inputType (preserves_registerInput depth) ref)

theorem of_register {g : TypeGraph} (hg : d.register catalogue = .ok g) {name : String}
    {object : ObjectType} (hobject : (name, .object object) ∈ g.types) :
    ∀ p ∈ object.properties, P p := by
  obtain ⟨r, hruns, rfl⟩ := register_eq_ok.mp hg
  have hstart : d.Consists P (.start d) := ⟨nofun, List.Subset.refl _⟩
  obtain ⟨hr, -⟩ := h.preserves_addAll _ _ _ _ hruns hstart
  exact hr.properties (Sound.mem_graph_types.mp hobject)

end KeepsTo

/-! ### Functions of properties -/

variable (d)

/-- The resolver of a property with a name. It reads a field, or it was declared for the property,
with a name for each of its arguments. -/
inductive Resolves (name : String) : Resolver → Prop
  | field {host : HostType} {field : ObjectField} : field.name = name →
    Resolves name (.ofField host field)
  | declared {declaration : PropertyDeclaration} {r : Resolver} : declaration ∈ d.properties →
    declaration.name = name → declaration.resolver = some r →
    declaration.arguments.length = r.parameters.argumentCount →
    Resolves name { r with parameters := ⟨r.parameters.kinds, declaration.arguments⟩ }

/-- A transformation of a property with a name. It was declared for the property, with a name for each
of its arguments. -/
inductive Transforms (name : String) : Transformation → Prop
  | declared {declaration : TransformationDeclaration} {t : Transformation} :
    declaration ∈ d.transformations → declaration.property = name →
    declaration.transformation = some t →
    declaration.arguments.length = t.parameters.argumentCount →
    Transforms name { t with parameters := ⟨t.parameters.kinds, declaration.arguments⟩ }

/-- The functions of a property were declared for it, unless it reads a field. -/
structure Calls (p : Property) : Prop where
  resolver : d.Resolves p.name p.resolver
  transformations : ∀ t ∈ p.transformations, d.Transforms p.name t

variable {d}

theorem Resolves.named {name : String} {r : Resolver} (h : d.Resolves name r) :
    r.parameters.names.length = r.parameters.argumentCount := by
  cases h with
  | field => rfl
  | declared _ _ _ hcount => exact hcount

theorem Transforms.named {name : String} {t : Transformation} (h : d.Transforms name t) :
    t.parameters.names.length = t.parameters.argumentCount := by
  cases h with
  | declared _ _ _ hcount => exact hcount

theorem resolves_of_property {depth : Nat} {walk : HostType → HostType → Registering String}
    {owner : String} {declaration : PropertyDeclaration} (hmem : declaration ∈ d.properties)
    {p : Property} {r s : Registry}
    (h : Runs (Registering.property catalogue depth walk owner declaration) r p s) :
    d.Resolves p.name p.resolver ∧ p.transformations = [] := by
  rw [Registering.property] at h
  dsimp only at h
  split at h
  · exact absurd h not_runs_refuse
  · rename_i resolver hresolver
    split at h
    · exact absurd h not_runs_refuse
    · rename_i parameters hparameters
      obtain ⟨_, _, -, h⟩ := runs_optional h
      obtain ⟨_, _, -, h⟩ := runs_bind.mp h
      obtain ⟨_, _, -, h⟩ := runs_bind.mp h
      obtain ⟨rfl, -⟩ := runs_pure.mp h
      obtain ⟨hcount, rfl⟩ := Parameters.name?_eq_some hparameters
      exact ⟨.declared hmem rfl hresolver hcount, rfl⟩

theorem transforms_of_attach {depth : Nat} {owner : String}
    {declaration : TransformationDeclaration} (hmem : declaration ∈ d.transformations)
    {p p' : Property} (hname : p.name = declaration.property) {r s : Registry}
    (h : Runs (attach catalogue depth owner declaration p) r p' s) :
    ∃ t, d.Transforms p.name t ∧ p'.name = p.name ∧ p'.resolver = p.resolver ∧
      p'.transformations = p.transformations ++ [t] := by
  rw [attach] at h
  split at h
  · exact absurd h not_runs_refuse
  · rename_i transformation htransformation
    split at h
    · exact absurd h not_runs_refuse
    · rename_i parameters hparameters
      dsimp only at h
      split at h
      · exact absurd h not_runs_refuse
      · obtain ⟨_, _, -, h⟩ := runs_bind.mp h
        obtain ⟨rfl, -⟩ := runs_pure.mp h
        obtain ⟨hcount, rfl⟩ := Parameters.name?_eq_some hparameters
        exact ⟨_, .declared hmem hname.symm htransformation hcount, rfl, rfl, rfl⟩

/-- No property calls a function that was not declared for it. -/
theorem keepsTo_calls : d.KeepsTo catalogue d.Calls where
  field host field type := ⟨.field rfl, nofun⟩
  property declaration hmem depth walk owner r p s h := by
    obtain ⟨hresolver, hnone⟩ := resolves_of_property hmem h
    refine ⟨hresolver, ?_⟩
    rw [hnone]
    exact nofun
  configure change p hp := ⟨hp.resolver, hp.transformations⟩
  attach declaration hmem depth owner p r p' s hname hp h := by
    obtain ⟨t, ht, hsame, hresolver, htransformations⟩ := transforms_of_attach hmem hname h
    refine ⟨?_, ?_⟩
    · rw [hsame, hresolver]
      exact hp.resolver
    · rw [hsame, htransformations]
      exact List.forall_mem_append.mpr ⟨hp.transformations, List.forall_mem_singleton.mpr ht⟩

end Declarations

end Trellis
