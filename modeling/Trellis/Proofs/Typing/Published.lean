import Trellis.Proofs.Typing.Graphs
import Trellis.Proofs.Typing.Literals

/-!
What schemas publish for literals.

Arguments and the fields of input objects are published with the types that their descriptions stand
for. Every argument has one type, though several functions may declare it, and an input object has
the very fields that its host type is defined with.
-/

namespace Trellis

namespace Names

variable {N : Names}

/-- The fields of an input object have the names that they are described with. -/
theorem inputFields_names {fields : List InputField}
    {results : List (String × TypeLiteral)} (h : N.inputFields fields = some results) :
    results.map (·.1) = fields.map (·.name) := by
  induction fields generalizing results with
  | nil =>
    cases h
    rfl
  | cons field fields ih =>
    rw [inputFields, List.mapM_cons] at h
    obtain ⟨first, hfirst, h⟩ := Option.bind_eq_some_iff.mp h
    obtain ⟨rest, hrest, h⟩ := Option.bind_eq_some_iff.mp h
    obtain ⟨type, -, hpure⟩ := Option.bind_eq_some_iff.mp hfirst
    cases hpure
    cases h
    rw [List.map_cons, List.map_cons, ih hrest]

/-! ### Arguments have names of their own -/

theorem mergeArguments_nodup {declared : List (String × TypeRef)} {arguments merged : List Argument}
    (h : N.mergeArguments arguments declared = some merged)
    (hnames : (arguments.map (·.name)).Nodup) : (merged.map (·.name)).Nodup := by
  induction declared generalizing arguments with
  | nil =>
    cases h
    exact hnames
  | cons first declared ih =>
    rw [mergeArguments] at h
    obtain ⟨type, -, h⟩ := Option.bind_eq_some_iff.mp h
    split at h
    · rename_i hnone
      refine ih h ?_
      rw [List.map_append, List.map_singleton, ← List.concat_eq_append]
      refine hnames.concat fun hmem => ?_
      obtain ⟨a, ha, hname⟩ := List.mem_map.mp hmem
      exact absurd hname (by simpa using List.find?_eq_none.mp hnone a ha)
    · split at h
      · exact ih h hnames
      · cases h

theorem property_nodup {declaration : PropertyDeclaration} {p : Property}
    (h : N.property declaration = some p) : (p.arguments.map (·.name)).Nodup := by
  obtain ⟨_, _, -, -, -, -, harguments⟩ := property_eq_some h
  exact mergeArguments_nodup harguments .nil

theorem attach_nodup {declaration : TransformationDeclaration} {p p' : Property}
    (hp : (p.arguments.map (·.name)).Nodup) (h : N.attach declaration p = some p') :
    (p'.arguments.map (·.name)).Nodup := by
  obtain ⟨transformation, -, h⟩ := Option.bind_eq_some_iff.mp h
  obtain ⟨parameters, -, h⟩ := Option.bind_eq_some_iff.mp h
  split at h
  · cases h
  · obtain ⟨arguments, harguments, h⟩ := Option.bind_eq_some_iff.mp h
    cases h
    exact mergeArguments_nodup harguments hp

end Names

namespace Declarations

/-- The types of a graph are those of its declarations: scalars as they are declared, enums with the
values that are described, and input objects with the fields that are described. -/
structure Publishes (d : Declarations) (catalogue : Catalogue) (g : TypeGraph) : Prop where
  scalar : ∀ t ∈ d.allScalars, g.scalarNames.lookup t.coercion.host = some t.name ∧
    g.type? t.name = some (.scalar t)
  enumeration : ∀ {name host shape} {e : EnumType}, g.type? name = some (.enumeration e) →
    e.host = host → d.Describes catalogue (.enumeration host shape) → e.shape = shape
  inputObject : ∀ {name host outline} {i : InputObjectType}, g.type? name = some (.inputObject i) →
    i.host = host → d.Describes catalogue (.inputObject host outline) →
    (∀ field ∈ (catalogue.input outline).fields, field.name ∈ i.fields.map (·.1)) ∧
      ∀ f ∈ i.fields, ∃ field ∈ (catalogue.input outline).fields,
        field.name = f.1 ∧ g.Takes field.type f.2

variable {d : Declarations} {catalogue : Catalogue} {r : Registry}

/-- Every argument of a property has a name of its own. -/
theorem Makes.arguments_nodup {N : Names} {o : ObjectType} (h : d.Makes catalogue N (.object o)) :
    ∀ p ∈ o.properties, (p.arguments.map (·.name)).Nodup := by
  cases h with
  | object _ ho =>
    obtain ⟨properties, hproperties, rfl⟩ := Option.map_eq_some_iff.mp ho
    refine Names.properties_all (fun field _ {p} hp => ?_) (fun _ _ {_} => Names.property_nodup)
      (fun _ {_} hp => hp) (fun _ _ {_ _} => Names.attach_nodup) hproperties
    obtain ⟨type, -, hpure⟩ := Option.bind_eq_some_iff.mp hp
    cases hpure
    exact .nil
  | root _ ho =>
    obtain ⟨properties, hproperties, hpure⟩ := Option.bind_eq_some_iff.mp ho
    cases hpure
    exact Names.insertDeclared_all (fun _ _ {_} => Names.property_nodup) (List.forall_mem_nil _)
      hproperties

theorem Settled.publishes (h : d.Settled catalogue r) (hd : d.Coherent catalogue)
    (hp : d.Proper) (mutation : Option String) : d.Publishes catalogue (r.graph mutation) where
  scalar t ht := by
    refine ⟨?_, h.faithful.sound.type?_graph mutation (h.scalars t ht)⟩
    exact (h.fits hd hp).scalars.mpr ⟨t, ht, rfl, rfl⟩
  enumeration {name host shape e} htype hhost hdescribes := by
    have hmem := Sound.mem_graph_types.mp (Entries.mem_of_lookup htype)
    have hmakes := h.faithful.makes hmem r.under_names
    generalize hnode : TypeNode.enumeration e = node at hmakes
    cases hmakes with
    | enumeration hother =>
      cases hnode
      obtain rfl := hhost
      exact hd.shapes _ _ _ hother hdescribes
    | scalar | object | root | union | inputObject => cases hnode
  inputObject {name host outline i} htype hhost hdescribes := by
    have hmem := Entries.mem_of_lookup htype
    have hmakes := h.faithful.makes (Sound.mem_graph_types.mp hmem) r.under_names
    constructor
    · generalize hnode : TypeNode.inputObject i = node at hmakes
      cases hmakes with
      | inputObject hother hi =>
        cases hnode
        obtain ⟨fields, hfields, hpure⟩ := Option.bind_eq_some_iff.mp hi
        cases hpure
        obtain rfl := hhost
        obtain rfl := hd.inputOutlines _ _ _ hother hdescribes
        intro field hfield
        apply Entries.mem_keys_ofPairs.mpr
        rw [Names.inputFields_names hfields]
        exact List.mem_map_of_mem hfield
      | scalar | object | root | union | enumeration => cases hnode
    · obtain ⟨other, hother, hfields⟩ :=
        h.faithful.sound.nodes name _ (Sound.mem_graph_types.mp hmem)
      obtain rfl := hd.inputOutlines _ _ _ (hhost ▸ hother) hdescribes
      intro f hf
      obtain ⟨field, hfield, hname, htakes⟩ := hfields f hf
      exact ⟨field, hfield, hname, h.faithful.sound.takes_graph mutation hd.toUnambiguous htakes⟩

theorem Publishes.scalarOf? {g : TypeGraph} (h : d.Publishes catalogue g) {t : ScalarType}
    (ht : t ∈ d.allScalars) : g.scalarOf? t.coercion.host = some t := by
  obtain ⟨hlookup, hnode⟩ := h.scalar t ht
  simp [TypeGraph.scalarOf?, TypeGraph.scalar?, hlookup, hnode, TypeNode.scalar?]

/-- Whatever a function declares as an argument is an argument of its property, with the type that
the declaration stands for. -/
theorem Settled.exists_argument (h : d.Settled catalogue r) (hd : d.Coherent catalogue)
    {mutation : Option String} {name : String} {o : ObjectType}
    (ho : (r.graph mutation).type? name = some (.object o)) {p : Property} (hp : p ∈ o.properties)
    {declared : String × TypeRef} (hdeclared : declared ∈ p.declaredArguments) :
    ∃ a, p.argument? declared.1 = some a ∧ d.Describes catalogue declared.2.innermost ∧
      (r.graph mutation).Takes declared.2 a.type := by
  have hsound := h.faithful.sound
  have hmem := Sound.mem_graph_types.mp (Entries.mem_of_lookup ho)
  obtain ⟨a, ha, hname, htakes⟩ :=
    (hsound.nodes name _ hmem p hp).arguments.taken declared.1 declared.2 hdeclared
  refine ⟨a, ?_, htakes.1, hsound.takes_graph mutation hd.toUnambiguous htakes⟩
  have hnames := (h.faithful.makes hmem r.under_names).arguments_nodup p hp
  cases hfind : p.argument? declared.1 with
  | none => exact absurd hname (by simpa using List.find?_eq_none.mp hfind a ha)
  | some other =>
    have hother : other.name = declared.1 := by simpa using List.find?_some hfind
    rw [List.inj_on_of_nodup_map hnames (List.mem_of_find?_eq_some hfind) ha
      (hother.trans hname.symm)]

/-- The input object of a host type is registered under a name, for that host type. -/
theorem Settled.exists_input (h : d.Settled catalogue r) {mutation : Option String}
    {host : HostType} {i : InputObjectType} (hi : (r.graph mutation).input? host = some i) :
    ∃ name, (r.graph mutation).type? name = some (.inputObject i) ∧ i.host = host := by
  obtain ⟨name, hname, hi⟩ := Option.bind_eq_some_iff.mp hi
  obtain ⟨node, hnode, hi⟩ := Option.bind_eq_some_iff.mp hi
  cases node <;> cases hi
  refine ⟨name, hnode, ?_⟩
  have hsound := h.faithful.sound
  rcases hsound.inputs host name (Entries.mem_of_lookup hname) with
    ⟨hprovides, -⟩ | ⟨-, hprovides, -⟩
  all_goals
    obtain ⟨other, hother, hidentity⟩ := hsound.exists_type? mutation hprovides
    cases hnode.symm.trans hother
    cases hidentity
  rfl

end Declarations

namespace Universe

variable {u : Universe} {d : Declarations} {g : TypeGraph} {i : InputObjectType}
  {path name label : String} {fields : List (String × HostType)}

/-- The fields of every input object have names of their own. -/
def FieldsDistinct (u : Universe) : Prop :=
  ∀ path name fields, u.definition? path = some (.inputObject name fields) →
    (fields.map (·.1)).Nodup

theorem describes_field (hpath : u.definition? path = some (.inputObject label fields))
    (hdescribes : d.Describes u.catalogue (u.describe (.named path))) {field : String × HostType}
    (hfield : field ∈ fields) : d.Describes u.catalogue (u.describe field.2) := by
  simp only [describe, hpath] at hdescribes
  refine hdescribes.inputField (f := ⟨field.1, u.describe field.2⟩) ?_
  rw [input_catalogue hpath]
  exact List.mem_map_of_mem hfield

/-- The fields that are published for an input object are those that it is defined with. -/
theorem exists_defined (hg : d.Publishes u.catalogue g) (hi : g.type? name = some (.inputObject i))
    (hhost : i.host = .named path) (hpath : u.definition? path = some (.inputObject label fields))
    (hdescribes : d.Describes u.catalogue (u.describe (.named path))) {f : String × TypeLiteral}
    (hf : f ∈ i.fields) : ∃ field ∈ fields, field.1 = f.1 ∧
      g.Takes (u.describe field.2) f.2 := by
  simp only [describe, hpath] at hdescribes
  obtain ⟨shown, hshown, hname, htakes⟩ := (hg.inputObject hi hhost hdescribes).2 f hf
  rw [input_catalogue hpath] at hshown
  obtain ⟨field, hfield, rfl⟩ := List.mem_map.mp hshown
  exact ⟨field, hfield, hname, htakes⟩

/-- Every field that an input object is defined with is published. -/
theorem exists_published (hu : u.FieldsDistinct) (hg : d.Publishes u.catalogue g)
    (hi : g.type? name = some (.inputObject i)) (hhost : i.host = .named path)
    (hpath : u.definition? path = some (.inputObject label fields))
    (hdescribes : d.Describes u.catalogue (u.describe (.named path))) {field : String × HostType}
    (hfield : field ∈ fields) : ∃ type, i.fields.lookup field.1 = some type ∧
      g.Takes (u.describe field.2) type := by
  have hshown := hdescribes
  simp only [describe, hpath] at hshown
  have hmem := (hg.inputObject hi hhost hshown).1 ⟨field.1, u.describe field.2⟩ (by
    rw [input_catalogue hpath]
    exact List.mem_map_of_mem hfield)
  obtain ⟨f, hf, hname⟩ := List.mem_map.mp hmem
  cases htype : i.fields.lookup field.1 with
  | none => exact absurd hname.symm (by simpa using List.lookup_eq_none_iff.mp htype f hf)
  | some type =>
    obtain ⟨other, hother, hsame, htakes⟩ :=
      exists_defined hg hi hhost hpath hdescribes (Entries.mem_of_lookup htype)
    rw [List.inj_on_of_nodup_map (hu _ _ _ hpath) hother hfield hsame] at htakes
    exact ⟨type, rfl, htakes⟩

end Universe

end Trellis
