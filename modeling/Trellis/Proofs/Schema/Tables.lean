import Trellis.Proofs.Itemwise
import Trellis.Proofs.Schema.Naming

/-!
Tables of properties.

The properties of an object come from the fields of its host type that are not ignored, and then from
declarations; those of a root come from declarations alone. What a property is called, where it comes
from and which functions are behind it can be read off these sources. Only its types depend on names,
and of these a ledger is kept.
-/

namespace Trellis

/-- A type of some identity stands for what is described. Where a host type is described in several
ways, the type that was met first stands for all of them. -/
def Identity.Serves : Identity → TypeRef → Prop
  | .scalar host, .scalar other => host = other
  | .enumeration host, .enumeration other _ | .enumeration host, .object other _
  | .enumeration host, .inputObject other _ => host = other
  | .object (some host), .object other _ | .object (some host), .enumeration other _ => host = other
  | .inputObject host, .inputObject other _ => host = other
  | _, _ => False

namespace Identity

variable {i : Identity} {host : HostType}

theorem serves_scalar : i.Serves (.scalar host) ↔ i = .scalar host := by
  cases i with
  | object key => cases key <;> simp [Serves]
  | scalar | enumeration | union | inputObject => simp [Serves]

theorem serves_enumeration {shape : EnumShape} :
    i.Serves (.enumeration host shape) ↔ i = .object (some host) ∨ i = .enumeration host := by
  cases i with
  | object key => cases key <;> simp [Serves]
  | scalar | enumeration | union | inputObject => simp [Serves]

theorem serves_object {outline : HostType} :
    i.Serves (.object host outline) ↔ i = .object (some host) ∨ i = .enumeration host := by
  cases i with
  | object key => cases key <;> simp [Serves]
  | scalar | enumeration | union | inputObject => simp [Serves]

theorem serves_inputObject {outline : HostType} :
    i.Serves (.inputObject host outline) ↔ i = .enumeration host ∨ i = .inputObject host := by
  cases i with
  | object key => cases key <;> simp [Serves]
  | scalar | enumeration | union | inputObject => simp [Serves]

end Identity

/-- Whether a description is one of an argument, possibly missing or in lists. -/
def TypeRef.isInput : TypeRef → Bool
  | .nullable _ inner | .list _ inner => inner.isInput
  | .scalar _ | .enumeration .. | .inputObject .. => true
  | .object .. | .union _ | .function _ | .generic _ => false

/-- Names with the identities of the types that they are given to. Nothing is taken back. -/
abbrev Ledger := List (String × Identity)

namespace Ledger

variable (L : Ledger)

/-- A name is given to a type that stands for what is described. -/
def Knows (name : String) (ref : TypeRef) : Prop := ∃ i, (name, i) ∈ L ∧ i.Serves ref

/-- A type literal is the translation of a description. -/
def Stands (ref : TypeRef) (type : TypeLiteral) : Prop :=
  ∃ name, type = ref.literal name ∧ L.Knows name ref.innermost

/-- A type literal is the translation of a description of an argument. -/
def Takes (ref : TypeRef) (type : TypeLiteral) : Prop := ref.isInput = true ∧ L.Stands ref type

variable {L} {L' : Ledger}

theorem Knows.mono (h : L ⊆ L') {name : String} {ref : TypeRef} (hL : L.Knows name ref) :
    L'.Knows name ref := by
  obtain ⟨i, hmem, hserves⟩ := hL
  exact ⟨i, h hmem, hserves⟩

theorem Stands.mono (h : L ⊆ L') {ref : TypeRef} {type : TypeLiteral} (hL : L.Stands ref type) :
    L'.Stands ref type := by
  obtain ⟨name, htype, hknows⟩ := hL
  exact ⟨name, htype, hknows.mono h⟩

end Ledger

/-- What a property comes from: a field of the host type of its object, or a declaration. -/
inductive PropertySource where
  | field (host : HostType) (read : ObjectField)
  | declared (declaration : PropertyDeclaration)

namespace PropertySource

def name : PropertySource → String
  | .field _ f => f.name
  | .declared declaration => declaration.name

def union? : PropertySource → Option String
  | .field .. => none
  | .declared declaration => declaration.union

/-- A declaration of a union makes a property one of a union, whatever else it is declared as. -/
def origin : PropertySource → Origin
  | .field .. => .native
  | .declared declaration => if declaration.union.isSome then .union else declaration.origin

/-- The resolver reads the field, or it is the declared one, with a name for each argument. -/
inductive Resolves : PropertySource → Resolver → Prop
  | field {host : HostType} {field : ObjectField} : Resolves (.field host field) (.ofField host field)
  | declared {declaration : PropertyDeclaration} {r : Resolver} : declaration.resolver = some r →
    declaration.arguments.length = r.parameters.argumentCount → Resolves (.declared declaration)
      { r with parameters := ⟨r.parameters.kinds, declaration.arguments⟩ }

theorem names_eq {R : PropertySource → Property → Prop} {sources : List PropertySource}
    {properties : List Property} (h : List.Forall₂ R sources properties)
    (hname : ∀ source p, R source p → p.name = source.name) :
    properties.map (·.name) = sources.map (·.name) := by
  induction h with
  | nil => rfl
  | cons hp _ ih => rw [List.map_cons, List.map_cons, hname _ _ hp, ih]

end PropertySource

/-- A transformation is the declared one, with a name for each argument, and maps the values of a
resolver. -/
inductive TransformationDeclaration.Attaches (r : Resolver) :
    TransformationDeclaration → Transformation → Prop
  | declared {declaration : TransformationDeclaration} {t : Transformation} :
    declaration.transformation = some t →
    declaration.arguments.length = t.parameters.argumentCount → t.valueType = r.returns.host →
    Attaches r declaration { t with parameters := ⟨t.parameters.kinds, declaration.arguments⟩ }

namespace TypeDeclaration

/-- Where the properties of a customized object come from, in order. -/
def sources (declaration : TypeDeclaration) (host : HostType) (fields : List ObjectField) :
    List PropertySource :=
  (fields.filter (·.name ∉ declaration.ignored)).map (.field host) ++
    declaration.properties.map .declared

/-- A customization suits an object: it ignores fields that there are, no two properties have one
name, and it refers to properties that there are. -/
structure Suits (declaration : TypeDeclaration) (host : HostType) (fields : List ObjectField) :
    Prop where
  ignored : ∀ name ∈ declaration.ignored, name ∈ fields.map (·.name)
  names : ((declaration.sources host fields).map (·.name)).Nodup
  changes : ∀ change ∈ declaration.changes,
    change.1 ∈ (declaration.sources host fields).map (·.name)
  transformations : ∀ t ∈ declaration.transformations,
    t.property ∈ (declaration.sources host fields).map (·.name)

end TypeDeclaration

namespace Ledger

variable (L : Ledger) (d : Declarations)

/-- A property is what its source says. It has the type that its union has if it declares one; else
it has the type that stands for its values. -/
structure Presents (source : PropertySource) (p : Property) : Prop where
  name : p.name = source.name
  origin : p.origin = source.origin
  resolver : source.Resolves p.resolver
  union : ∀ union, source.union? = some union →
    union ∈ d.unions.map (·.1) ∧ p.type = p.resolver.returns.literal union
  type : source.union? = none → source.origin ≠ .union ∧ L.Stands p.resolver.returns p.type

/-- Arguments are those that functions declare, each name once, where it is declared first. The type
of an argument is the translation of all descriptions that it is declared with. -/
structure Shares (arguments : List Argument) (declared : List (String × TypeRef)) : Prop where
  names : arguments.map (·.name) = (declared.map (·.1)).eraseDups
  types : ∀ name ref, (name, ref) ∈ declared → ∃ a ∈ arguments, a.name = name ∧ L.Takes ref a.type

/-- Properties are what their sources say, in order and with distinct names, and each has the
arguments of all functions behind it and the transformations that are declared for it. -/
structure Tabulates (sources : List PropertySource)
    (transformations : List TransformationDeclaration) (properties : List Property) : Prop where
  presents : List.Forall₂ (L.Presents d) sources properties
  names : (properties.map (·.name)).Nodup
  arguments : ∀ p ∈ properties, L.Shares p.arguments p.declaredArguments
  transformations : ∀ p ∈ properties, List.Forall₂ (TransformationDeclaration.Attaches p.resolver)
    (transformations.filter (·.property = p.name)) p.transformations

variable {L d} {L' : Ledger}

theorem Presents.mono (h : L ⊆ L') {source : PropertySource} {p : Property}
    (hp : L.Presents d source p) : L'.Presents d source p :=
  { hp with type := fun hnone => (hp.type hnone).imp_right (Stands.mono h) }

namespace Shares

variable {arguments : List Argument} {declared : List (String × TypeRef)} {name : String}
  {ref : TypeRef} {type : TypeLiteral}

theorem mono (h : L ⊆ L') (hL : L.Shares arguments declared) : L'.Shares arguments declared where
  names := hL.names
  types name ref hmem := by
    obtain ⟨a, ha, hname, htype⟩ := hL.types name ref hmem
    exact ⟨a, ha, hname, htype.imp_right (Stands.mono h)⟩

theorem empty : L.Shares [] [] := ⟨rfl, fun _ _ hmem => absurd hmem List.not_mem_nil⟩

theorem names_concat (h : L.Shares arguments declared) (name : String) (ref : TypeRef) :
    ((declared ++ [(name, ref)]).map (·.1)).eraseDups =
      if name ∈ arguments.map (·.name) then arguments.map (·.name)
      else arguments.map (·.name) ++ [name] := by
  rw [List.map_append, List.map_singleton, eraseDups_concat, h.names]
  simp only [List.mem_eraseDups]

theorem add (h : L.Shares arguments declared) (hnew : name ∉ arguments.map (·.name))
    (htakes : L.Takes ref type) :
    L.Shares (arguments ++ [⟨name, type⟩]) (declared ++ [(name, ref)]) where
  names := by
    rw [h.names_concat, if_neg hnew]
    exact List.map_append
  types other key hmem := by
    rcases List.mem_append.mp hmem with hmem | hmem
    · obtain ⟨a, ha, hname, htype⟩ := h.types other key hmem
      exact ⟨a, List.mem_append_left _ ha, hname, htype⟩
    · cases List.mem_singleton.mp hmem
      exact ⟨_, List.mem_append_right _ List.mem_cons_self, rfl, htakes⟩

/-- A function may declare an argument again, with a description of the same type. -/
theorem share (h : L.Shares arguments declared) {existing : Argument}
    (hexisting : existing ∈ arguments) (htakes : L.Takes ref existing.type) :
    L.Shares arguments (declared ++ [(existing.name, ref)]) where
  names := by rw [h.names_concat, if_pos (List.mem_map_of_mem hexisting)]
  types other key hmem := by
    rcases List.mem_append.mp hmem with hmem | hmem
    · exact h.types other key hmem
    · cases List.mem_singleton.mp hmem
      exact ⟨existing, hexisting, rfl, htakes⟩

end Shares

namespace Tabulates

variable {sources : List PropertySource} {transformations : List TransformationDeclaration}
  {properties : List Property}

theorem mono (h : L ⊆ L') (hL : L.Tabulates d sources transformations properties) :
    L'.Tabulates d sources transformations properties where
  presents := hL.presents.imp fun _ _ => Presents.mono h
  names := hL.names
  arguments p hp := (hL.arguments p hp).mono h
  transformations := hL.transformations

theorem empty : L.Tabulates d [] [] [] where
  presents := .nil
  names := List.nodup_nil
  arguments _ hp := absurd hp List.not_mem_nil
  transformations _ hp := absurd hp List.not_mem_nil

theorem names_eq (h : L.Tabulates d sources transformations properties) :
    properties.map (·.name) = sources.map (·.name) :=
  PropertySource.names_eq h.presents fun _ _ hp => hp.name

/-- The next source adds a property with a new name. -/
theorem insert (h : L.Tabulates d sources [] properties) {source : PropertySource} {p : Property}
    (hp : L.Presents d source p) (harguments : L.Shares p.arguments p.declaredArguments)
    (hplain : p.transformations = []) (hnew : ∀ q ∈ properties, q.name ≠ p.name) :
    L.Tabulates d (sources ++ [source]) [] (properties ++ [p]) where
  presents := List.rel_append h.presents (.cons hp .nil)
  names := by
    rw [List.map_append, List.map_singleton, ← List.concat_eq_append]
    refine h.names.concat fun hmem => ?_
    obtain ⟨q, hq, hname⟩ := List.mem_map.mp hmem
    exact hnew q hq hname
  arguments := List.forall_mem_append.mpr ⟨h.arguments, List.forall_mem_singleton.mpr harguments⟩
  transformations := by
    refine List.forall_mem_append.mpr ⟨h.transformations, List.forall_mem_singleton.mpr ?_⟩
    rw [hplain]
    exact .nil

theorem mem_replace {before after : List Property} {p changed q : Property}
    (h : q ∈ before ++ changed :: after) : q = changed ∨ q ∈ before ++ p :: after ∧
      (((before ++ p :: after).map (·.name)).Nodup → q.name ≠ p.name) := by
  rw [List.mem_append, List.mem_cons] at h
  rcases h with h | rfl | h
  · refine .inr ⟨List.mem_append_left _ h, fun hnames => ?_⟩
    rw [List.map_append, List.nodup_append] at hnames
    exact hnames.2.2 _ (List.mem_map_of_mem h) _ List.mem_cons_self
  · exact .inl rfl
  · refine .inr ⟨List.mem_append_right _ (List.mem_cons_of_mem _ h), fun hnames he => ?_⟩
    rw [List.map_append, List.nodup_append, List.map_cons, List.nodup_cons] at hnames
    exact hnames.2.1.1 (he ▸ List.mem_map_of_mem h)

/-- Of a property, metadata may change, and transformations may be attached to it. -/
theorem adjust {before after : List Property} {p changed : Property}
    (h : L.Tabulates d sources transformations (before ++ p :: after))
    (added : List TransformationDeclaration) (hadded : ∀ t ∈ added, t.property = p.name)
    (hname : changed.name = p.name) (horigin : changed.origin = p.origin)
    (htype : changed.type = p.type) (hresolver : changed.resolver = p.resolver)
    (harguments : L.Shares changed.arguments changed.declaredArguments)
    (htransformations : List.Forall₂ (TransformationDeclaration.Attaches p.resolver)
      (transformations.filter (·.property = p.name) ++ added) changed.transformations) :
    L.Tabulates d sources (transformations ++ added) (before ++ changed :: after) where
  presents := by
    refine forall₂_replace h.presents fun source hp => ⟨hname.trans hp.name, horigin.trans hp.origin,
      hresolver ▸ hp.resolver, fun union hunion => ?_, fun hnone => ?_⟩
    · rw [htype, hresolver]
      exact hp.union union hunion
    · rw [htype, hresolver]
      exact hp.type hnone
  names := by
    have hnames := h.names
    rwa [List.map_append, List.map_cons, ← hname, ← List.map_cons, ← List.map_append] at hnames
  arguments q hq := by
    rcases mem_replace hq with rfl | hq
    · exact harguments
    · exact h.arguments q hq.1
  transformations q hq := by
    rcases mem_replace hq with rfl | hq
    · have hall : added.filter (·.property = p.name) = added :=
        List.filter_eq_self.mpr (by simpa using hadded)
      rwa [List.filter_append, hname, hresolver, hall]
    · have hnone : added.filter (·.property = q.name) = [] := by
        refine List.filter_eq_nil_iff.mpr fun t ht he => hq.2 h.names ?_
        exact (of_decide_eq_true he).symm.trans (hadded t ht)
      rw [List.filter_append, hnone, List.append_nil]
      exact h.transformations q hq.1

end Tabulates

end Ledger

namespace Declarations

variable (d : Declarations) (catalogue : Catalogue) (L : Ledger)

/-- An object is what its host type is described and customized as, or it is a root. -/
inductive Tabled : ObjectType → Prop
  | object {host outline : HostType} {properties : List Property} :
    d.Describes catalogue (.object host outline) →
    (d.customization host outline).Suits host (catalogue.object outline).fields →
    L.Tabulates d ((d.customization host outline).sources host (catalogue.object outline).fields)
      (d.customization host outline).transformations properties →
    Tabled (d.objectWith catalogue host outline properties)
  | root {root : String × List PropertyDeclaration} {properties : List Property} : root ∈ d.roots →
    L.Tabulates d (root.2.map .declared) [] properties → Tabled ⟨root.1, none, none, properties⟩

variable {d catalogue L}

theorem Tabled.mono {L' : Ledger} (h : L ⊆ L') {o : ObjectType} (ho : d.Tabled catalogue L o) :
    d.Tabled catalogue L' o := by
  cases ho with
  | object hdescribes hsuits htable => exact .object hdescribes hsuits (htable.mono h)
  | root hroot htable => exact .root hroot (htable.mono h)

end Declarations

end Trellis
