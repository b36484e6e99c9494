import Trellis.Proofs.Itemwise
import Trellis.Proofs.Typing.Declarations

/-!
Type graphs with types.

Typed declarations make up a typed graph: every property of an object type reads a field of values of
its host type or calls a function on them, every transformation maps values of the type that its
property hands out, and unions lead to the object types of the host types that select them.
-/

namespace Trellis

theorem Names.foldlM_invariant {α β : Type} {P : β → Prop} {f : β → α → Option β} {items : List α}
    (hstep : ∀ item ∈ items, ∀ {b b' : β}, P b → f b item = some b' → P b') {b b' : β}
    (h : items.foldlM f b = some b') (hb : P b) : P b' := by
  induction items generalizing b with
  | nil =>
    cases h
    exact hb
  | cons item items ih =>
    rw [List.foldlM_cons] at h
    obtain ⟨next, hnext, hrest⟩ := Option.bind_eq_some_iff.mp h
    exact ih (fun other hmem => hstep other (List.mem_cons_of_mem _ hmem)) hrest
      (hstep item List.mem_cons_self hb hnext)

/-- What a change keeps of one property holds of all of them. -/
theorem Names.adjustProperty_all {P : Property → Prop} {name : String}
    {change : Property → Option Property} (hchange : ∀ {p p'}, P p → change p = some p' → P p')
    {properties properties' : List Property} (h : ∀ p ∈ properties, P p)
    (hadjust : adjustProperty name change properties = some properties') :
    ∀ p ∈ properties', P p := by
  induction properties generalizing properties' with
  | nil => cases hadjust
  | cons p rest ih =>
    rw [List.forall_mem_cons] at h
    rw [adjustProperty] at hadjust
    split at hadjust
    · obtain ⟨changed, hchanged, hpure⟩ := Option.bind_eq_some_iff.mp hadjust
      cases hpure
      exact List.forall_mem_cons.mpr ⟨hchange h.1 hchanged, h.2⟩
    · obtain ⟨adjusted, hadjusted, hpure⟩ := Option.bind_eq_some_iff.mp hadjust
      cases hpure
      exact List.forall_mem_cons.mpr ⟨h.1, ih h.2 hadjusted⟩

theorem Names.insertProperty_all {P : Property → Prop} {properties properties' : List Property}
    {p : Property} (hp : P p) (h : ∀ q ∈ properties, P q)
    (hinsert : insertProperty properties p = some properties') : ∀ q ∈ properties', P q := by
  obtain ⟨-, rfl⟩ := insertProperty_eq_some.mp hinsert
  exact List.forall_mem_append.mpr ⟨h, List.forall_mem_singleton.mpr hp⟩

theorem Names.insertDeclared_all {P : Property → Prop} {N : Names}
    {declarations : List PropertyDeclaration}
    (hdeclared : ∀ declaration ∈ declarations, ∀ {p}, N.property declaration = some p → P p)
    {before properties : List Property} (hbefore : ∀ p ∈ before, P p)
    (h : N.insertDeclared before declarations = some properties) : ∀ p ∈ properties, P p := by
  refine foldlM_invariant (P := fun properties => ∀ p ∈ properties, P p)
    (fun declaration hmem {_ _} hall hstep => ?_) h hbefore
  obtain ⟨p, hp, hinsert⟩ := Option.bind_eq_some_iff.mp hstep
  exact insertProperty_all (hdeclared declaration hmem hp) hall hinsert

/-- What holds of the properties that are shown and declared, and is kept by changes to them, holds
of all properties of an object type. -/
theorem Names.properties_all {P : Property → Prop} {N : Names} {shown : ObjectOutline}
    {host : HostType} {declaration : TypeDeclaration}
    (hshown : ∀ field ∈ shown.fields, ∀ {p}, N.fieldProperty host field = some p → P p)
    (hdeclared : ∀ q ∈ declaration.properties, ∀ {p}, N.property q = some p → P p)
    (hconfigure : ∀ change {p}, P p → P (Registering.configure change p))
    (hattach : ∀ t ∈ declaration.transformations, ∀ {p p'}, P p → N.attach t p = some p' → P p')
    {properties : List Property} (h : N.properties shown host declaration = some properties) :
    ∀ p ∈ properties, P p := by
  rw [Names.properties] at h
  split at h
  · obtain ⟨native, hnative, h⟩ := Option.bind_eq_some_iff.mp h
    obtain ⟨declared, hinserted, h⟩ := Option.bind_eq_some_iff.mp h
    obtain ⟨changed, hchanged, h⟩ := Option.bind_eq_some_iff.mp h
    have hall : ∀ p ∈ native, P p := by
      refine foldlM_invariant (P := fun properties => ∀ p ∈ properties, P p)
        (fun field hmem {_ _} hall hstep => ?_) hnative (List.forall_mem_nil _)
      obtain ⟨p, hp, hinsert⟩ := Option.bind_eq_some_iff.mp hstep
      exact insertProperty_all (hshown field (List.mem_filter.mp hmem).1 hp) hall hinsert
    refine foldlM_invariant (P := fun properties => ∀ p ∈ properties, P p)
      (fun t hmem {_ _} hall hstep => adjustProperty_all (hattach t hmem) hall hstep) h ?_
    refine foldlM_invariant (P := fun properties => ∀ p ∈ properties, P p)
      (fun change _ {_ _} hall hstep => adjustProperty_all (fun hp he => ?_) hall hstep) hchanged
      (insertDeclared_all hdeclared hall hinserted)
    cases he
    exact hconfigure change.2 hp
  · cases h

/-- A union selects members that are declared for it, under their names. -/
theorem Names.exists_member {N : Names} {name : String} {declaration : UnionDeclaration}
    {t : UnionType} (ht : N.union name declaration = some t) {host : HostType} {member : String}
    (hmember : t.member? host = some member) :
    ∃ outline, TypeRef.object host outline ∈ declaration.members ∧ N.outputs host = some member := by
  rw [union] at ht
  split at ht
  · cases ht
  · obtain ⟨members, hmembers, hpure⟩ := Option.bind_eq_some_iff.mp ht
    cases hpure
    obtain ⟨ref, href, hshown⟩ := exists_of_mapM hmembers
      (Entries.mem_of_mem_ofPairs (Entries.mem_of_lookup hmember))
    cases ref with
    | object other outline =>
      obtain ⟨found, hfound, hpure⟩ := Option.bind_eq_some_iff.mp hshown
      cases hpure
      exact ⟨outline, href, hfound⟩
    | scalar | enumeration | inputObject | union | list | nullable | function | generic =>
      cases hshown

/-- The resolver of a declared property has names for its arguments, which are those of the property,
and nothing transforms it. -/
theorem Names.property_eq_some {N : Names} {declaration : PropertyDeclaration} {p : Property}
    (h : N.property declaration = some p) : ∃ r parameters, declaration.resolver = some r ∧
      r.parameters.name? declaration.arguments = some parameters ∧
      p.resolver = { r with parameters } ∧ p.transformations = [] ∧
      N.mergeArguments [] parameters.arguments = some p.arguments := by
  obtain ⟨r, hr, hrest⟩ := Option.bind_eq_some_iff.mp h
  obtain ⟨parameters, hparameters, hrest⟩ := Option.bind_eq_some_iff.mp hrest
  refine ⟨r, parameters, hr, hparameters, ?_⟩
  have hpure {origin : Origin} (hrest : (N.outputType declaration.union r.returns >>= fun type =>
      N.mergeArguments [] parameters.arguments >>= fun arguments =>
        (pure ⟨declaration.name, declaration.description, declaration.deprecation, type, arguments,
          origin, { r with parameters }, []⟩ : Option Property)) = some p) :
      p.resolver = { r with parameters } ∧ p.transformations = [] ∧
        N.mergeArguments [] parameters.arguments = some p.arguments := by
    obtain ⟨type, -, hrest⟩ := Option.bind_eq_some_iff.mp hrest
    obtain ⟨arguments, harguments, hrest⟩ := Option.bind_eq_some_iff.mp hrest
    cases hrest
    exact ⟨rfl, rfl, harguments⟩
  dsimp only at hrest
  generalize (if declaration.union.isSome then Origin.union else declaration.origin) = origin
    at hrest
  split at hrest
  · obtain ⟨_, -, hrest⟩ := Option.bind_eq_some_iff.mp hrest
    exact hpure hrest
  · exact hpure hrest

namespace Universe

variable (u : Universe)

/-- A property of an owner is resolved from the owner, and its transformations map what it hands
out. -/
structure Serves (owner : Option HostType) (p : Property) : Prop where
  resolves : ∃ t, u.Resolves owner p.resolver t
  maps : ∀ t ∈ p.transformations, u.Maps p.resolver.returns t

/-- Every property is served from the host type of its object and shows what it hands out, unions
lead to the object types of the host types that select them, and the roots have no host type. -/
structure Types (g : TypeGraph) : Prop where
  properties : ∀ {name o}, g.type? name = some (.object o) → ∀ p ∈ o.properties,
    u.Serves o.host p ∧ g.Shows p.resolver.returns p.type
  members : ∀ {name t host member}, g.type? name = some (.union t) →
    t.member? host = some member →
    ∃ o, g.type? member = some (.object o) ∧ o.host = some host
  query : ∀ o, g.queryType? = some o → o.host = none
  mutation : ∀ o, g.mutationType? = some o → o.host = none

variable {u} {N : Names}

theorem Resolves.returns {owner : Option HostType} {r : Resolver} {t : HostType}
    (h : u.Resolves owner r t) : r.returns = u.describe t := by
  cases h <;> rfl

theorem DeclaresProperty.serves {owner : Option HostType} {declaration : PropertyDeclaration}
    (h : u.DeclaresProperty owner declaration) {p : Property}
    (hp : N.property declaration = some p) : u.Serves owner p := by
  obtain ⟨r, parameters, hr, hparameters, hresolver, htransformations, -⟩ :=
    Names.property_eq_some hp
  obtain ⟨f, howner, rfl⟩ := h r hr
  obtain ⟨hcount, rfl⟩ := Parameters.name?_eq_some hparameters
  refine ⟨⟨f.returns, ?_⟩, ?_⟩
  · rw [hresolver]
    exact .function f howner hcount
  · rw [htransformations]
    exact nofun

theorem serves_fieldProperty {path name : String} {fields : List (String × HostType)}
    (hpath : u.definition? path = some (.object name fields)) {shown : ObjectField}
    (hshown : shown ∈ fields.map u.objectField) {p : Property}
    (hp : N.fieldProperty (.named path) shown = some p) : u.Serves (some (.named path)) p := by
  obtain ⟨field, hfield, rfl⟩ := List.mem_map.mp hshown
  obtain ⟨type, -, hpure⟩ := Option.bind_eq_some_iff.mp hp
  cases hpure
  exact ⟨⟨field.2, .field hpath hfield rfl⟩, nofun⟩

theorem Serves.configure {owner : Option HostType} {p : Property} (h : u.Serves owner p)
    (change : PropertyChange) : u.Serves owner (Registering.configure change p) :=
  ⟨h.resolves, h.maps⟩

/-- A transformation is attached to a property of the type that it maps. -/
theorem Serves.attach (hu : u.Genuine) {owner : Option HostType} {p p' : Property}
    (h : u.Serves owner p) {declaration : TransformationDeclaration}
    (hdeclares : u.DeclaresTransformation declaration)
    (hattach : N.attach declaration p = some p') : u.Serves owner p' := by
  obtain ⟨transformation, htransformation, hrest⟩ := Option.bind_eq_some_iff.mp hattach
  obtain ⟨parameters, hparameters, hrest⟩ := Option.bind_eq_some_iff.mp hrest
  obtain ⟨m, rfl⟩ := hdeclares transformation htransformation
  obtain ⟨hcount, rfl⟩ := Parameters.name?_eq_some hparameters
  split at hrest
  · cases hrest
  · rename_i hhost
    obtain ⟨arguments, -, hpure⟩ := Option.bind_eq_some_iff.mp hrest
    cases hpure
    obtain ⟨t, ht⟩ := h.resolves
    have hreturns : u.describe m.host = p.resolver.returns := by
      have hhosts : (u.describe m.host).host = (u.describe t).host := by
        rw [← ht.returns]
        exact not_not.mp hhost
      rw [ht.returns, ← hu.describe_host, hhosts, hu.describe_host]
    refine ⟨⟨t, ht⟩, List.forall_mem_append.mpr ⟨h.maps, List.forall_mem_singleton.mpr ?_⟩⟩
    exact .mapping m hreturns hcount

theorem serves_properties (hu : u.Genuine) {path name : String} {fields : List (String × HostType)}
    (hpath : u.definition? path = some (.object name fields)) {declaration : TypeDeclaration}
    (hdeclares : u.Customizes (.named path) declaration) {properties : List Property}
    (h : N.properties (u.catalogue.object (.named path)) (.named path) declaration =
      some properties) : ∀ p ∈ properties, u.Serves (some (.named path)) p := by
  rw [object_catalogue hpath] at h
  exact Names.properties_all (fun _ hshown {_} hp => serves_fieldProperty hpath hshown hp)
    (fun q hq {_} hp => (hdeclares.properties q hq).serves hp)
    (fun change {_} hp => hp.configure change)
    (fun t ht {_ _} hp hattach => hp.attach hu (hdeclares.transformations t ht) hattach) h

section

variable {d : Declarations} {r : Registry} {mutation : Option String}

theorem Declares.customization (h : u.Declares d) (host outline : HostType) :
    u.Customizes host (d.customization host outline) := by
  rw [Declarations.customization]
  cases hlookup : d.types.lookup host with
  | none => exact ⟨List.forall_mem_nil _, List.forall_mem_nil _⟩
  | some declaration => exact (h.types _ (Entries.mem_of_lookup hlookup)).2

/-- The properties of every object type that typed declarations come to are served from its host
type. -/
theorem Declares.serves (hu : u.Genuine) (h : u.Declares d) {o : ObjectType}
    (hmakes : d.Makes u.catalogue N (.object o)) : ∀ p ∈ o.properties, u.Serves o.host p := by
  cases hmakes with
  | object hdescribes ho =>
    obtain ⟨properties, hproperties, rfl⟩ := Option.map_eq_some_iff.mp ho
    obtain ⟨t, ht⟩ := h.exists_type hu hdescribes
    obtain ⟨path, name, fields, hpath, rfl, rfl⟩ := hu.object_of_describe ht.symm
    exact serves_properties hu hpath (h.customization _ _) hproperties
  | @root name declarations _ hroot ho =>
    obtain ⟨properties, hproperties, hpure⟩ := Option.bind_eq_some_iff.mp ho
    cases hpure
    refine Names.insertDeclared_all (fun declaration hmem {p} hp => ?_) (List.forall_mem_nil _)
      hproperties
    rw [Declarations.roots, List.mem_cons] at hroot
    rcases hroot with he | hroot
    · cases he
      exact (h.queries declaration hmem).serves hp
    · split at hroot
      · cases hroot
      · cases List.mem_singleton.mp hroot
        exact (h.mutations declaration hmem).serves hp

theorem host_of_root {catalogue : Catalogue} (hr : d.Settled catalogue r)
    (root : String × List PropertyDeclaration) (hroot : root ∈ d.roots) {o : ObjectType}
    (ho : (r.graph mutation).type? root.1 = some (.object o)) : o.host = none := by
  obtain ⟨other, hmem, hother⟩ := hr.root hroot
  obtain ⟨properties, -, hpure⟩ := Option.bind_eq_some_iff.mp hother
  cases hpure
  have hsound := hr.faithful.sound
  cases (hsound.type?_graph mutation hmem).symm.trans ho
  rfl

/-- Typed declarations make up a typed graph. -/
theorem Declares.types_graph (hu : u.Genuine) (h : u.Declares d)
    (hr : d.Settled u.catalogue r) (hclosed : (r.graph mutation).Closed u.catalogue d)
    (hmutation : mutation = if d.mutations.isEmpty then none else some Registering.mutationName) :
    u.Types (r.graph mutation) where
  properties htype p hmem := by
    have hentry := Entries.mem_of_lookup htype
    have hmakes := hr.faithful.makes (Declarations.Sound.mem_graph_types.mp hentry) r.under_names
    exact ⟨h.serves hu hmakes p hmem, hclosed.properties _ _ hentry p hmem⟩
  members {name t host member} htype hmember := by
    have hmem := Declarations.Sound.mem_graph_types.mp (Entries.mem_of_lookup htype)
    cases hr.faithful.makes hmem r.under_names with
    | @union name declaration _ hunion ht =>
      obtain ⟨outline, href, hfound⟩ := Names.exists_member ht hmember
      have hdescribes : d.Describes u.catalogue (.object host outline) := .mention (by
        simp only [Declarations.mentions, List.mem_append, List.mem_flatMap]
        exact .inl (.inr ⟨_, hunion, href⟩))
      obtain ⟨o, hobject, ho, -⟩ := hr.object (h.coherent hu) hdescribes hfound
      obtain ⟨properties, -, rfl⟩ := Option.map_eq_some_iff.mp ho
      exact ⟨_, hr.faithful.sound.type?_graph mutation hobject, rfl⟩
  query o ho := by
    obtain ⟨node, hnode, hobject⟩ := Option.bind_eq_some_iff.mp ho
    cases node <;> cases hobject
    exact host_of_root hr (Registering.queryName, d.queries) List.mem_cons_self hnode
  mutation o ho := by
    obtain ⟨name, hname, hbind⟩ := Option.bind_eq_some_iff.mp ho
    obtain ⟨node, hnode, hobject⟩ := Option.bind_eq_some_iff.mp hbind
    cases node <;> cases hobject
    change mutation = some name at hname
    rw [hmutation] at hname
    split at hname
    · cases hname
    · rename_i hmutations
      cases hname
      refine host_of_root hr (Registering.mutationName, d.mutations) ?_ hnode
      rw [Declarations.roots, if_neg hmutations]
      exact List.mem_cons_of_mem _ (List.mem_singleton.mpr rfl)

theorem Declares.types_of_register (hu : u.Genuine) (h : u.Declares d) (hp : d.Proper)
    {g : TypeGraph} (hg : d.register u.catalogue = .ok g) : u.Types g := by
  have hd := h.coherent hu
  obtain ⟨r, hr, rfl⟩ := Declarations.register_eq_ok.mp hg
  obtain ⟨hsound, hunions⟩ := Registering.addAll_sound hd.toUnambiguous hr
  exact h.types_graph hu (Registering.addAll_settled hd hp hr)
    (hsound.closed _ hd.toUnambiguous hunions) rfl

end

end Universe

end Trellis
