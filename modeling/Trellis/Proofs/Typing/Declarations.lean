import Trellis.Proofs.Schema.DeclarationOrder
import Trellis.Proofs.Typing.Functions

/-!
Declarations with types.

The calls of a builder are typed if all that they mention are types of the universe, and if every
resolver and transformation calls a function with the types that it is declared with. Then all that
is described are types as the universe describes them, so every host type has one description.
-/

namespace Trellis

namespace Universe

variable (u : Universe)

/-- A declared property calls a function on its owner. -/
def DeclaresProperty (owner : Option HostType) (p : PropertyDeclaration) : Prop :=
  ∀ r, p.resolver = some r → ∃ f : u.Function, f.receiver = owner ∧ r = f.resolver

/-- A declared transformation calls a function. -/
def DeclaresTransformation (t : TransformationDeclaration) : Prop :=
  ∀ transformation, t.transformation = some transformation →
    ∃ m : u.Mapping, transformation = m.transformation

/-- The customization of an object type declares functions on the values of that type. -/
structure Customizes (host : HostType) (d : TypeDeclaration) : Prop where
  properties : ∀ p ∈ d.properties, u.DeclaresProperty (some host) p
  transformations : ∀ t ∈ d.transformations, u.DeclaresTransformation t

/-- A call mentions types of the universe and calls functions of the types that it declares. An
object type is customized with functions on its very values. -/
def Calls : BuilderCall → Prop
  | .query p | .mutation p => u.DeclaresProperty none p
  | .type ref customization => (∃ t, ref = u.describe t) ∧
      ∀ d, u.Customizes ref.host d → u.Customizes ref.host (customization.change d)
  | .enumeration ref _ _ | .input ref => ∃ t, ref = u.describe t
  | .union _ d => ∀ ref ∈ d.members, ∃ t, ref = u.describe t
  | .scalar _ => True

/-- All declarations mention types of the universe and call functions of the types that they
declare. -/
structure Declares (d : Declarations) : Prop where
  queries : ∀ p ∈ d.queries, u.DeclaresProperty none p
  mutations : ∀ p ∈ d.mutations, u.DeclaresProperty none p
  types : ∀ entry ∈ d.types, (∃ t, entry.2.type = u.describe t) ∧ u.Customizes entry.1 entry.2
  enums : ∀ entry ∈ d.enums, ∃ t, entry.2.type = u.describe t
  unions : ∀ union ∈ d.unions, ∀ ref ∈ union.2.members, ∃ t, ref = u.describe t
  inputs : ∀ ref ∈ d.inputs, ∃ t, ref = u.describe t

variable {u}

/-- A typed call leads from typed declarations to typed ones. -/
theorem declares_call {b : SchemaBuilder} {c : BuilderCall} (h : u.Declares b.declarations)
    (hc : u.Calls c) : u.Declares (b.call c).declarations := by
  cases c with
  | query p =>
    refine { h with queries := fun q hq => ?_ }
    rcases List.mem_append.mp hq with hq | hq
    · exact h.queries q hq
    · exact List.mem_singleton.mp hq ▸ hc
  | mutation p =>
    refine { h with mutations := fun q hq => ?_ }
    rcases List.mem_append.mp hq with hq | hq
    · exact h.mutations q hq
    · exact List.mem_singleton.mp hq ▸ hc
  | type ref customization =>
    cases ref with
    | object host outline =>
      refine { h with types := fun entry hentry => ?_ }
      rcases List.mem_append.mp hentry with hentry | hentry
      · exact h.types entry (List.mem_filter.mp hentry).1
      · obtain rfl := List.mem_singleton.mp hentry
        rw [customization.keeps]
        cases hlookup : b.declarations.types.lookup host with
        | none => exact ⟨hc.1, hc.2 _ ⟨nofun, nofun⟩⟩
        | some earlier =>
          obtain ⟨htype, hearlier⟩ := h.types _ (Entries.mem_of_lookup hlookup)
          exact ⟨htype, hc.2 _ hearlier⟩
    | scalar | enumeration | inputObject | union | list | nullable | function | generic => exact h
  | enumeration ref name description =>
    cases ref with
    | enumeration host shape =>
      refine { h with enums := fun entry hentry => ?_ }
      rcases Entries.mem_of_mem_put hentry with rfl | hentry
      · exact hc
      · exact h.enums entry hentry
    | scalar | object | inputObject | union | list | nullable | function | generic => exact h
  | union name d =>
    rw [SchemaBuilder.call, SchemaBuilder.union]
    split
    · exact h
    · refine { h with unions := fun union hunion => ?_ }
      rcases List.mem_append.mp hunion with hunion | hunion
      · exact h.unions union hunion
      · exact List.mem_singleton.mp hunion ▸ hc
  | scalar d =>
    rw [SchemaBuilder.call, SchemaBuilder.scalar]
    split <;> exact { h with }
  | input ref =>
    refine { h with inputs := fun other hother => ?_ }
    rcases List.mem_append.mp hother with hother | hother
    · exact h.inputs other hother
    · exact List.mem_singleton.mp hother ▸ hc

theorem declares_ofCalls {calls : List BuilderCall} (h : ∀ c ∈ calls, u.Calls c) :
    u.Declares (SchemaBuilder.ofCalls calls).declarations := by
  induction calls using List.reverseRecOn with
  | nil => exact ⟨nofun, nofun, nofun, nofun, nofun, nofun⟩
  | append_singleton calls c ih =>
    rw [List.forall_mem_append, List.forall_mem_singleton] at h
    rw [SchemaBuilder.ofCalls_concat]
    exact declares_call (ih h.1) h.2

/-! ### What is described -/

theorem exists_argumentType {types : List ParameterType} {ref : TypeRef}
    (h : ref ∈ Parameters.argumentTypes (types.map u.parameter)) : ∃ t, ref = u.describe t := by
  obtain ⟨parameter, hparameter, href⟩ := List.mem_filterMap.mp h
  obtain ⟨type, -, rfl⟩ := List.mem_map.mp hparameter
  cases type with
  | argument t =>
    cases href
    exact ⟨t, rfl⟩
  | context => cases href

theorem DeclaresProperty.exists_type {owner : Option HostType} {p : PropertyDeclaration}
    (h : u.DeclaresProperty owner p) {ref : TypeRef} (href : ref ∈ p.mentions) :
    ∃ t, ref = u.describe t := by
  rw [PropertyDeclaration.mentions] at href
  split at href
  · rename_i r hr
    obtain ⟨f, -, rfl⟩ := h r hr
    rcases List.mem_cons.mp href with rfl | href
    · exact ⟨f.returns, rfl⟩
    · exact exists_argumentType href
  · cases href

theorem Customizes.exists_type {host : HostType} {d : TypeDeclaration} (h : u.Customizes host d)
    (htype : ∃ t, d.type = u.describe t) {ref : TypeRef} (href : ref ∈ d.mentions) :
    ∃ t, ref = u.describe t := by
  rw [TypeDeclaration.mentions, List.mem_append, List.mem_cons, List.mem_flatMap,
    List.mem_flatMap] at href
  rcases href with (rfl | ⟨p, hp, href⟩) | ⟨t, ht, href⟩
  · exact htype
  · exact (h.properties p hp).exists_type href
  · split at href
    · rename_i transformation htransformation
      obtain ⟨m, rfl⟩ := h.transformations t ht transformation htransformation
      exact exists_argumentType href
    · cases href

theorem exists_objectFieldType {outline : HostType} {f : ObjectField}
    (hf : f ∈ (u.catalogue.object outline).fields) : ∃ t, f.type = u.describe t := by
  rw [Catalogue.object] at hf
  cases hlookup : u.catalogue.objects.lookup outline with
  | none => simp [hlookup] at hf
  | some shown =>
    rw [hlookup, Option.getD_some] at hf
    obtain ⟨⟨path, definition⟩, -, hshown⟩ := List.mem_filterMap.mp (Entries.mem_of_lookup hlookup)
    cases definition <;> cases hshown
    obtain ⟨field, -, rfl⟩ := List.mem_map.mp hf
    exact ⟨field.2, rfl⟩

theorem exists_inputFieldType {outline : HostType} {f : InputField}
    (hf : f ∈ (u.catalogue.input outline).fields) : ∃ t, f.type = u.describe t := by
  rw [Catalogue.input] at hf
  cases hlookup : u.catalogue.inputs.lookup outline with
  | none => simp [hlookup] at hf
  | some shown =>
    rw [hlookup, Option.getD_some] at hf
    obtain ⟨⟨path, definition⟩, -, hshown⟩ := List.mem_filterMap.mp (Entries.mem_of_lookup hlookup)
    cases definition <;> cases hshown
    obtain ⟨field, -, rfl⟩ := List.mem_map.mp hf
    exact ⟨field.2, rfl⟩

/-- Whatever is described is the description of a type. -/
theorem Declares.exists_type (hu : u.Genuine) {d : Declarations} (h : u.Declares d) {ref : TypeRef}
    (href : d.Describes u.catalogue ref) : ∃ t, ref = u.describe t := by
  induction href with
  | mention hmem =>
    simp only [Declarations.mentions, List.mem_append, List.mem_flatMap] at hmem
    rcases hmem with (((⟨p, hp, href⟩ | ⟨p, hp, href⟩) | ⟨entry, hentry, href⟩) |
      ⟨union, hunion, href⟩) | hinput
    · exact (h.queries p hp).exists_type href
    · exact (h.mutations p hp).exists_type href
    · obtain ⟨htype, hcustomizes⟩ := h.types entry hentry
      exact hcustomizes.exists_type htype href
    · exact h.unions union hunion _ href
    · exact h.inputs _ hinput
  | customized hmem => exact h.enums _ hmem
  | nullable _ ih =>
    obtain ⟨t, ht⟩ := ih
    exact hu.exists_inner (.inl ht.symm)
  | list _ ih =>
    obtain ⟨t, ht⟩ := ih
    exact hu.exists_inner (.inr ht.symm)
  | field _ hf => exact exists_objectFieldType hf
  | inputField _ hf => exact exists_inputFieldType hf

theorem Declares.eq_of_host (hu : u.Genuine) {d : Declarations} (h : u.Declares d)
    {ref other : TypeRef} (href : d.Describes u.catalogue ref)
    (hother : d.Describes u.catalogue other) (hhost : ref.host = other.host) : ref = other := by
  obtain ⟨t, rfl⟩ := h.exists_type hu href
  obtain ⟨t', rfl⟩ := h.exists_type hu hother
  rw [← hu.describe_host t, ← hu.describe_host t', hhost]

theorem Declares.coherent (hu : u.Genuine) {d : Declarations} (h : u.Declares d) :
    d.Coherent u.catalogue where
  object _ _ _ henum hobject := nomatch h.eq_of_host hu henum hobject rfl
  inputObject _ _ _ henum hinput := nomatch h.eq_of_host hu henum hinput rfl
  shapes _ _ _ hshape hother :=
    (TypeRef.enumeration.inj (h.eq_of_host hu hshape hother rfl)).2
  outlines _ _ _ houtline hother :=
    (TypeRef.object.inj (h.eq_of_host hu houtline hother rfl)).2
  inputOutlines _ _ _ houtline hother :=
    (TypeRef.inputObject.inj (h.eq_of_host hu houtline hother rfl)).2

end Universe

end Trellis
