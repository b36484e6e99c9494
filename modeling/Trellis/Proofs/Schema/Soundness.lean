import Mathlib.Data.List.Nodup
import Trellis.Proofs.Schema.Describing
import Trellis.Proofs.Schema.Running

/-!
What holds of a registry at every moment.

A name that is only reserved is opened for a type of some identity, and this is what the type will
have once it is filled in. So what is said about names of host types holds from the moment they are
known, also while types refer to each other in circles. A registry only ever grows.
-/

namespace Trellis

theorem Entries.nodup_concat {κ α : Type} {entries : List (κ × α)} {key : κ}
    (h : (entries.map (·.1)).Nodup) (hnew : key ∉ entries.map (·.1)) (value : α) :
    ((entries ++ [(key, value)]).map (·.1)).Nodup := by
  rw [List.map_append, List.map_singleton, ← List.concat_eq_append]
  exact h.concat hnew

/-- The kind of a named type, with the host type it belongs to. -/
inductive Identity where
  | scalar (host : HostType)
  | enumeration (host : HostType)
  | object (host : Option HostType)
  | union
  | inputObject (host : HostType)

def TypeNode.identity : TypeNode → Identity
  | .scalar t => .scalar t.coercion.host
  | .enumeration t => .enumeration t.host
  | .object t => .object t.host
  | .union _ => .union
  | .inputObject t => .inputObject t.host

/-- Names and types of the arguments that the functions of a property declare. -/
def Property.declaredArguments (p : Property) : List (String × TypeRef) :=
  p.resolver.parameters.arguments ++ p.transformations.flatMap (·.parameters.arguments)

namespace Registry

/-- A name has a type of some identity, or is opened for one. -/
def Provides (r : Registry) (opened : List (String × Identity)) (name : String)
    (identity : Identity) : Prop :=
  (name, identity) ∈ opened ∨ ∃ node, node.identity = identity ∧ (name, some node) ∈ r.types

/-- A description stands for the type with a name, as the type of a value. -/
def ShowsAs (r : Registry) : TypeRef → String → Prop
  | .scalar host, name => (host, name) ∈ r.scalarNames
  | .enumeration host _, name | .object host _, name => (host, name) ∈ r.outputs
  | .union _, name => name ∈ r.unionNames
  | _, _ => False

/-- A description stands for the type with a name, as the type of an argument. -/
def TakesAs (r : Registry) : TypeRef → String → Prop
  | .scalar host, name => (host, name) ∈ r.scalarNames
  | .enumeration host _, name | .inputObject host _, name => (host, name) ∈ r.inputs
  | _, _ => False

/-- One registry has all that another one has. -/
structure Extends (r s : Registry) : Prop where
  types : ∀ name node, (name, some node) ∈ r.types → (name, some node) ∈ s.types
  outputs : r.outputs ⊆ s.outputs
  inputs : r.inputs ⊆ s.inputs
  scalarNames : r.scalarNames ⊆ s.scalarNames
  unionNames : r.unionNames = s.unionNames

namespace Extends

variable {r s t : Registry}

theorem refl (r : Registry) : r.Extends r :=
  ⟨fun _ _ h => h, List.Subset.refl _, List.Subset.refl _, List.Subset.refl _, rfl⟩

theorem trans (h : r.Extends s) (hs : s.Extends t) : r.Extends t where
  types name node hmem := hs.types name node (h.types name node hmem)
  outputs := List.Subset.trans h.outputs hs.outputs
  inputs := List.Subset.trans h.inputs hs.inputs
  scalarNames := List.Subset.trans h.scalarNames hs.scalarNames
  unionNames := h.unionNames.trans hs.unionNames

theorem showsAs (h : r.Extends s) {ref : TypeRef} {name : String} (hr : r.ShowsAs ref name) :
    s.ShowsAs ref name := by
  cases ref with
  | scalar host => exact h.scalarNames hr
  | enumeration | object => exact h.outputs hr
  | union host =>
    rw [ShowsAs, ← h.unionNames]
    exact hr
  | inputObject | list | nullable | function | generic => exact hr

theorem takesAs (h : r.Extends s) {ref : TypeRef} {name : String} (hr : r.TakesAs ref name) :
    s.TakesAs ref name := by
  cases ref with
  | scalar host => exact h.scalarNames hr
  | enumeration | inputObject => exact h.inputs hr
  | object | union | list | nullable | function | generic => exact hr

end Extends

end Registry

namespace Declarations

variable (d : Declarations) (catalogue : Catalogue)

/-- A type literal is the translation of a description, as the type of a value. -/
def Shows (r : Registry) (ref : TypeRef) (type : TypeLiteral) : Prop :=
  d.Describes catalogue ref.innermost ∧
    ∃ name, type = ref.literal name ∧ r.ShowsAs ref.innermost name

/-- A type literal is the translation of a description, as the type of an argument. -/
def Takes (r : Registry) (ref : TypeRef) (type : TypeLiteral) : Prop :=
  d.Describes catalogue ref.innermost ∧
    ∃ name, type = ref.literal name ∧ r.TakesAs ref.innermost name

/-- Arguments are those that functions declare, with the translations of all their types. -/
structure ArgumentsHold (r : Registry) (arguments : List Argument)
    (declared : List (String × TypeRef)) : Prop where
  taken : ∀ name ref, (name, ref) ∈ declared →
    ∃ a ∈ arguments, a.name = name ∧ d.Takes catalogue r ref a.type
  declared : ∀ a ∈ arguments, ∃ ref, (a.name, ref) ∈ declared ∧ d.Takes catalogue r ref a.type

/-- The type and the arguments of a property are translations of what its functions declare. -/
structure PropertyHolds (r : Registry) (p : Property) : Prop where
  type : d.Shows catalogue r p.resolver.returns p.type
  arguments : d.ArgumentsHold catalogue r p.arguments p.declaredArguments

/-- What a registered type refers to is registered or opened. -/
def NodeHolds (r : Registry) : TypeNode → Prop
  | .scalar _ | .enumeration _ => True
  | .object o => ∀ p ∈ o.properties, d.PropertyHolds catalogue r p
  | .union u => ∀ member ∈ u.members, ∃ host outline,
      d.Describes catalogue (.object host outline) ∧ (host, member) ∈ r.outputs
  | .inputObject i => ∃ outline, d.Describes catalogue (.inputObject i.host outline) ∧
      ∀ f ∈ i.fields, ∃ field ∈ (catalogue.input outline).fields,
        field.name = f.1 ∧ d.Takes catalogue r field.type f.2

/-- Every name is there once. It is opened, or it has a type that is called so. -/
structure Tidy (opened : List (String × Identity)) (types : List (String × Option TypeNode)) :
    Prop where
  names : (types.map (·.1)).Nodup
  openedNames : (opened.map (·.1)).Nodup
  reserved : ∀ name, (name, none) ∈ types ↔ name ∈ opened.map (·.1)
  named : ∀ name node, (name, some node) ∈ types → node.name = name

/-- A registry in good order, with some names opened. -/
structure Sound (opened : List (String × Identity)) (r : Registry) : Prop where
  tidy : Tidy opened r.types
  nodes : ∀ name node, (name, some node) ∈ r.types → d.NodeHolds catalogue r node
  outputs : ∀ host name, (host, name) ∈ r.outputs →
    (r.Provides opened name (.object (some host)) ∧
      ∃ outline, d.Describes catalogue (.object host outline)) ∨
    (host, name) ∈ r.inputs ∧ r.Provides opened name (.enumeration host) ∧
      ∃ shape, d.Describes catalogue (.enumeration host shape)
  inputs : ∀ host name, (host, name) ∈ r.inputs →
    (r.Provides opened name (.inputObject host) ∧
      ∃ outline, d.Describes catalogue (.inputObject host outline)) ∨
    (host, name) ∈ r.outputs ∧ r.Provides opened name (.enumeration host) ∧
      ∃ shape, d.Describes catalogue (.enumeration host shape)
  scalars : ∀ host name, (host, name) ∈ r.scalarNames → r.Provides opened name (.scalar host)
  outputHosts : (r.outputs.map (·.1)).Nodup
  inputHosts : (r.inputs.map (·.1)).Nodup
  scalarHosts : (r.scalarNames.map (·.1)).Nodup
  typeDeclarations : r.typeDeclarations ⊆ d.types
  enumDeclarations : r.enumDeclarations ⊆ d.enums
  unionNames : r.unionNames = d.unions.map (·.1)

variable {d catalogue} {opened : List (String × Identity)} {r s : Registry}

theorem Shows.extends (h : r.Extends s) {ref : TypeRef} {type : TypeLiteral}
    (hr : d.Shows catalogue r ref type) : d.Shows catalogue s ref type := by
  obtain ⟨hdescribes, name, htype, hname⟩ := hr
  exact ⟨hdescribes, name, htype, h.showsAs hname⟩

theorem Takes.extends (h : r.Extends s) {ref : TypeRef} {type : TypeLiteral}
    (hr : d.Takes catalogue r ref type) : d.Takes catalogue s ref type := by
  obtain ⟨hdescribes, name, htype, hname⟩ := hr
  exact ⟨hdescribes, name, htype, h.takesAs hname⟩

theorem ArgumentsHold.extends (h : r.Extends s) {arguments : List Argument}
    {declared : List (String × TypeRef)} (hr : d.ArgumentsHold catalogue r arguments declared) :
    d.ArgumentsHold catalogue s arguments declared where
  taken name ref hmem := by
    obtain ⟨a, ha, hname, htype⟩ := hr.taken name ref hmem
    exact ⟨a, ha, hname, htype.extends h⟩
  declared a ha := by
    obtain ⟨ref, hmem, htype⟩ := hr.declared a ha
    exact ⟨ref, hmem, htype.extends h⟩

theorem PropertyHolds.extends (h : r.Extends s) {p : Property}
    (hr : d.PropertyHolds catalogue r p) : d.PropertyHolds catalogue s p :=
  ⟨hr.type.extends h, hr.arguments.extends h⟩

theorem NodeHolds.extends (h : r.Extends s) {node : TypeNode} (hr : d.NodeHolds catalogue r node) :
    d.NodeHolds catalogue s node := by
  cases node with
  | scalar | enumeration => trivial
  | object o => exact fun p hp => (hr p hp).extends h
  | union u =>
    intro member hmember
    obtain ⟨host, outline, hdescribes, hmem⟩ := hr member hmember
    exact ⟨host, outline, hdescribes, h.outputs hmem⟩
  | inputObject i =>
    obtain ⟨outline, hdescribes, hfields⟩ := hr
    refine ⟨outline, hdescribes, fun f hf => ?_⟩
    obtain ⟨field, hfield, hname, htype⟩ := hfields f hf
    exact ⟨field, hfield, hname, htype.extends h⟩

namespace Tidy

variable {types : List (String × Option TypeNode)} {name : String}

theorem slot_unique (h : Tidy opened types) {slot other : Option TypeNode}
    (hslot : (name, slot) ∈ types) (hother : (name, other) ∈ types) : slot = other :=
  (Prod.mk.inj (List.inj_on_of_nodup_map h.names hslot hother rfl)).2

theorem reserve (h : Tidy opened types) (hnew : name ∉ types.map (·.1)) (identity : Identity) :
    Tidy ((name, identity) :: opened) (types ++ [(name, none)]) where
  names := Entries.nodup_concat h.names hnew none
  openedNames := by
    refine List.nodup_cons.mpr ⟨fun hmem => hnew ?_, h.openedNames⟩
    exact List.mem_map_of_mem ((h.reserved name).mpr hmem)
  reserved other := by
    rw [List.mem_append, h.reserved, or_comm]
    simp
  named other node hmem := by
    rcases List.mem_append.mp hmem with hmem | hmem
    · exact h.named other node hmem
    · cases List.mem_singleton.mp hmem

theorem mem_fill {node : TypeNode} {slot : Option TypeNode} :
    (name, slot) ∈ types.map (fun (name, slot) =>
      if name = node.name then (name, some node) else (name, slot)) ↔
    (name = node.name ∧ slot = some node ∧ name ∈ types.map (·.1)) ∨
      (name ≠ node.name ∧ (name, slot) ∈ types) := by
  rw [List.mem_map]
  constructor
  · rintro ⟨⟨other, old⟩, hmem, heq⟩
    dsimp only at heq
    by_cases hname : other = node.name
    · rw [if_pos hname] at heq
      cases heq
      exact .inl ⟨hname, rfl, List.mem_map_of_mem hmem⟩
    · rw [if_neg hname] at heq
      cases heq
      exact .inr ⟨hname, hmem⟩
  · rintro (⟨hname, rfl, hmem⟩ | ⟨hname, hmem⟩)
    · obtain ⟨⟨other, old⟩, hold, rfl⟩ := List.mem_map.mp hmem
      exact ⟨(other, old), hold, if_pos hname⟩
    · exact ⟨(name, slot), hmem, if_neg hname⟩

theorem map_fst_fill (types : List (String × Option TypeNode)) (node : TypeNode) :
    (types.map fun (name, slot) =>
      if name = node.name then (name, some node) else (name, slot)).map (·.1) = types.map (·.1) := by
  rw [List.map_map]
  refine List.map_congr_left fun entry _ => ?_
  rcases entry with ⟨name, slot⟩
  dsimp only [Function.comp]
  split <;> rfl

theorem fill {node : TypeNode} {identity : Identity}
    (h : Tidy ((node.name, identity) :: opened) types) :
    Tidy opened (types.map fun (name, slot) =>
      if name = node.name then (name, some node) else (name, slot)) where
  names := by
    rw [map_fst_fill]
    exact h.names
  openedNames := (List.nodup_cons.mp h.openedNames).2
  reserved name := by
    have hclosed := (List.nodup_cons.mp h.openedNames).1
    rw [mem_fill, h.reserved, List.map_cons, List.mem_cons]
    constructor
    · rintro (⟨-, hslot, -⟩ | ⟨hne, he | hmem⟩)
      · cases hslot
      · exact absurd he hne
      · exact hmem
    · intro hmem
      exact .inr ⟨fun he => hclosed (he ▸ hmem), .inr hmem⟩
  named name other hmem := by
    rcases mem_fill.mp hmem with ⟨rfl, hslot, -⟩ | ⟨-, hmem⟩
    · cases hslot
      rfl
    · exact h.named name other hmem

end Tidy

end Declarations

namespace Registry.Extends

variable {opened : List (String × Identity)}

theorem reserve (r : Registry) (name : String) :
    r.Extends { r with types := r.types ++ [(name, none)] } :=
  { refl r with types := fun _ _ hmem => List.mem_append_left _ hmem }

theorem drop (r : Registry) (types : List (HostType × TypeDeclaration))
    (enums : List (HostType × EnumDeclaration)) :
    r.Extends { r with typeDeclarations := types, enumDeclarations := enums } :=
  { refl r with }

theorem enterOutput (r : Registry) (entry : HostType × String) :
    r.Extends { r with outputs := r.outputs ++ [entry] } :=
  { refl r with outputs := List.subset_append_left _ _ }

theorem enterInput (r : Registry) (entry : HostType × String) :
    r.Extends { r with inputs := r.inputs ++ [entry] } :=
  { refl r with inputs := List.subset_append_left _ _ }

theorem enterScalar (r : Registry) (entry : HostType × String) :
    r.Extends { r with scalarNames := r.scalarNames ++ [entry] } :=
  { refl r with scalarNames := List.subset_append_left _ _ }

theorem fill {node : TypeNode} {identity : Identity}
    {r : Registry} (h : Declarations.Tidy ((node.name, identity) :: opened) r.types) :
    r.Extends { r with types := r.types.map fun (name, slot) =>
      if name = node.name then (name, some node) else (name, slot) } := by
  refine { refl r with types := fun name other hmem => ?_ }
  refine Declarations.Tidy.mem_fill.mpr (.inr ⟨?_, hmem⟩)
  rintro rfl
  cases h.slot_unique ((h.reserved node.name).mpr List.mem_cons_self) hmem

end Registry.Extends

namespace Declarations

variable {d : Declarations} {catalogue : Catalogue} {opened : List (String × Identity)} {r : Registry}

namespace Sound

theorem start (d : Declarations) (catalogue : Catalogue) : d.Sound catalogue [] (.start d) where
  tidy := by constructor <;> simp [Registry.start]
  nodes := by simp [Registry.start]
  outputs := by simp [Registry.start]
  inputs := by simp [Registry.start]
  scalars := by simp [Registry.start]
  outputHosts := List.nodup_nil
  inputHosts := List.nodup_nil
  scalarHosts := List.nodup_nil
  typeDeclarations := List.Subset.refl _
  enumDeclarations := List.Subset.refl _
  unionNames := rfl

/-- Names may get other types as long as all that is provided stays provided. -/
theorem retype (h : d.Sound catalogue opened r) {opened' : List (String × Identity)}
    {types : List (String × Option TypeNode)} (htidy : Tidy opened' types)
    (hprovides : ∀ name identity, r.Provides opened name identity →
      Registry.Provides { r with types := types } opened' name identity)
    (hnodes : ∀ name node, (name, some node) ∈ types →
      d.NodeHolds catalogue { r with types := types } node) :
    d.Sound catalogue opened' { r with types := types } where
  tidy := htidy
  nodes := hnodes
  outputs host name hmem :=
    (h.outputs host name hmem).imp (And.imp_left (hprovides _ _))
      (And.imp_right (And.imp_left (hprovides _ _)))
  inputs host name hmem :=
    (h.inputs host name hmem).imp (And.imp_left (hprovides _ _))
      (And.imp_right (And.imp_left (hprovides _ _)))
  scalars host name hmem := hprovides _ _ (h.scalars host name hmem)
  outputHosts := h.outputHosts
  inputHosts := h.inputHosts
  scalarHosts := h.scalarHosts
  typeDeclarations := h.typeDeclarations
  enumDeclarations := h.enumDeclarations
  unionNames := h.unionNames

theorem reserve (h : d.Sound catalogue opened r) {name : String} (hnew : name ∉ r.types.map (·.1))
    (identity : Identity) :
    d.Sound catalogue ((name, identity) :: opened)
      { r with types := r.types ++ [(name, none)] } := by
  refine h.retype (h.tidy.reserve hnew identity) (fun other i hp => ?_) (fun other node hmem => ?_)
  · rcases hp with hopened | ⟨node, hnode, hmem⟩
    · exact .inl (List.mem_cons_of_mem _ hopened)
    · exact .inr ⟨node, hnode, List.mem_append_left _ hmem⟩
  · rcases List.mem_append.mp hmem with hmem | hmem
    · exact (h.nodes other node hmem).extends (.reserve r name)
    · cases List.mem_singleton.mp hmem

/-- An opened name may be closed with a type of its identity that holds. -/
theorem fill {node : TypeNode} (h : d.Sound catalogue ((node.name, node.identity) :: opened) r)
    (hnode : d.NodeHolds catalogue r node) :
    d.Sound catalogue opened { r with types := r.types.map fun (name, slot) =>
      if name = node.name then (name, some node) else (name, slot) } := by
  have hopen : (node.name, none) ∈ r.types := (h.tidy.reserved node.name).mpr List.mem_cons_self
  refine h.retype h.tidy.fill (fun name i hp => ?_) (fun name other hmem => ?_)
  · rcases hp with hopened | ⟨other, hother, hmem⟩
    · rcases List.mem_cons.mp hopened with he | hopened
      · cases he
        exact .inr ⟨node, rfl, Tidy.mem_fill.mpr (.inl ⟨rfl, rfl, List.mem_map_of_mem hopen⟩)⟩
      · exact .inl hopened
    · refine .inr ⟨other, hother, Tidy.mem_fill.mpr (.inr ⟨?_, hmem⟩)⟩
      rintro rfl
      cases h.tidy.slot_unique hopen hmem
  · rcases Tidy.mem_fill.mp hmem with ⟨-, hslot, -⟩ | ⟨-, hmem⟩
    · cases hslot
      exact hnode.extends (.fill h.tidy)
    · exact (h.nodes name other hmem).extends (.fill h.tidy)

theorem drop (h : d.Sound catalogue opened r) {types : List (HostType × TypeDeclaration)}
    {enums : List (HostType × EnumDeclaration)} (htypes : types ⊆ r.typeDeclarations)
    (henums : enums ⊆ r.enumDeclarations) :
    d.Sound catalogue opened { r with typeDeclarations := types, enumDeclarations := enums } :=
  { h with
    nodes := fun name node hmem => (h.nodes name node hmem).extends (.drop r types enums)
    typeDeclarations := List.Subset.trans htypes h.typeDeclarations
    enumDeclarations := List.Subset.trans henums h.enumDeclarations }

/-- The host type of an object may be entered under a name that is opened for it. -/
theorem enterObject (h : d.Sound catalogue opened r) {host outline : HostType} {name : String}
    (hnew : host ∉ r.outputs.map (·.1)) (hopened : (name, .object (some host)) ∈ opened)
    (hdescribes : d.Describes catalogue (.object host outline)) :
    d.Sound catalogue opened { r with outputs := r.outputs ++ [(host, name)] } :=
  { h with
    nodes := fun other node hmem => (h.nodes other node hmem).extends (.enterOutput r (host, name))
    outputs := fun other key hmem => by
      rcases List.mem_append.mp hmem with hmem | hmem
      · exact h.outputs other key hmem
      · cases List.mem_singleton.mp hmem
        exact .inl ⟨.inl hopened, outline, hdescribes⟩
    inputs := fun other key hmem =>
      (h.inputs other key hmem).imp_right (And.imp_left (List.mem_append_left _))
    outputHosts := Entries.nodup_concat h.outputHosts hnew name }

theorem enterInputObject (h : d.Sound catalogue opened r) {host outline : HostType} {name : String}
    (hnew : host ∉ r.inputs.map (·.1)) (hopened : (name, .inputObject host) ∈ opened)
    (hdescribes : d.Describes catalogue (.inputObject host outline)) :
    d.Sound catalogue opened { r with inputs := r.inputs ++ [(host, name)] } :=
  { h with
    nodes := fun other node hmem => (h.nodes other node hmem).extends (.enterInput r (host, name))
    outputs := fun other key hmem =>
      (h.outputs other key hmem).imp_right (And.imp_left (List.mem_append_left _))
    inputs := fun other key hmem => by
      rcases List.mem_append.mp hmem with hmem | hmem
      · exact h.inputs other key hmem
      · cases List.mem_singleton.mp hmem
        exact .inl ⟨.inl hopened, outline, hdescribes⟩
    inputHosts := Entries.nodup_concat h.inputHosts hnew name }

/-- The host type of an enum is entered twice, as values and arguments may both be of it. -/
theorem enterEnumeration (h : d.Sound catalogue opened r) {host : HostType} {shape : EnumShape}
    {name : String} (hout : host ∉ r.outputs.map (·.1)) (hin : host ∉ r.inputs.map (·.1))
    (hopened : (name, .enumeration host) ∈ opened)
    (hdescribes : d.Describes catalogue (.enumeration host shape)) :
    d.Sound catalogue opened
      { r with outputs := r.outputs ++ [(host, name)], inputs := r.inputs ++ [(host, name)] } :=
  { h with
    nodes := fun other node hmem => (h.nodes other node hmem).extends
      ((Registry.Extends.enterOutput r (host, name)).trans (.enterInput _ (host, name)))
    outputs := fun other key hmem => by
      rcases List.mem_append.mp hmem with hmem | hmem
      · exact (h.outputs other key hmem).imp_right (And.imp_left (List.mem_append_left _))
      · cases List.mem_singleton.mp hmem
        exact .inr ⟨List.mem_append_right _ hmem, .inl hopened, shape, hdescribes⟩
    inputs := fun other key hmem => by
      rcases List.mem_append.mp hmem with hmem | hmem
      · exact (h.inputs other key hmem).imp_right (And.imp_left (List.mem_append_left _))
      · cases List.mem_singleton.mp hmem
        exact .inr ⟨List.mem_append_right _ hmem, .inl hopened, shape, hdescribes⟩
    outputHosts := Entries.nodup_concat h.outputHosts hout name
    inputHosts := Entries.nodup_concat h.inputHosts hin name }

theorem enterScalar (h : d.Sound catalogue opened r) {host : HostType} {name : String}
    (hnew : host ∉ r.scalarNames.map (·.1)) (hopened : (name, .scalar host) ∈ opened) :
    d.Sound catalogue opened { r with scalarNames := r.scalarNames ++ [(host, name)] } :=
  { h with
    nodes := fun other node hmem => (h.nodes other node hmem).extends (.enterScalar r (host, name))
    scalars := fun other key hmem => by
      rcases List.mem_append.mp hmem with hmem | hmem
      · exact h.scalars other key hmem
      · cases List.mem_singleton.mp hmem
        exact .inl hopened
    scalarHosts := Entries.nodup_concat h.scalarHosts hnew name }

end Sound

/-- A registry in good order, with all that another one has. -/
def Advances (d : Declarations) (catalogue : Catalogue) (opened : List (String × Identity))
    (r s : Registry) : Prop :=
  d.Sound catalogue opened s ∧ r.Extends s

theorem Advances.trans {s t : Registry} (h : d.Advances catalogue opened r s)
    (hs : d.Advances catalogue opened s t) : d.Advances catalogue opened r t :=
  ⟨hs.1, h.2.trans hs.2⟩

end Declarations

end Trellis
