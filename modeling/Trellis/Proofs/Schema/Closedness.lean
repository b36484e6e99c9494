import Trellis.Proofs.Execution.Reporting
import Trellis.Proofs.Schema.RootWalks
import Trellis.Schema.Basic

/-!
Schemas refer to nothing that they do not have.

Whatever is declared, once registration ends well every description that a property, an argument or
a field stands for leads to a registered type of its kind. So no value is ever completed at a type
that cannot be resolved.
-/

namespace Trellis

namespace TypeGraph

variable (g : TypeGraph)

/-- A description stands for a registered type with a name, as the type of a value. -/
def ShowsAs : TypeRef → String → Prop
  | .scalar host, name => g.scalarNames.lookup host = some name ∧
      ∃ type, g.type? name = some (.scalar type) ∧ type.coercion.host = host
  | .enumeration host _, name => g.outputs.lookup host = some name ∧
      ∃ type, g.type? name = some (.enumeration type) ∧ type.host = host
  | .object host _, name => g.outputs.lookup host = some name ∧
      ∃ type, g.type? name = some (.object type) ∧ type.host = some host
  | .union _, name => ∃ type, g.type? name = some (.union type)
  | _, _ => False

/-- A description stands for a registered type with a name, as the type of an argument. -/
def TakesAs : TypeRef → String → Prop
  | .scalar host, name => g.scalarNames.lookup host = some name ∧
      ∃ type, g.type? name = some (.scalar type) ∧ type.coercion.host = host
  | .enumeration host _, name => g.inputs.lookup host = some name ∧
      ∃ type, g.type? name = some (.enumeration type) ∧ type.host = host
  | .inputObject host _, name => g.inputs.lookup host = some name ∧
      ∃ type, g.type? name = some (.inputObject type) ∧ type.host = host
  | _, _ => False

/-- A type literal is the translation of a description, as the type of a value. -/
def Shows (ref : TypeRef) (type : TypeLiteral) : Prop :=
  ∃ name, type = ref.literal name ∧ g.ShowsAs ref.innermost name

/-- A type literal is the translation of a description, as the type of an argument. -/
def Takes (ref : TypeRef) (type : TypeLiteral) : Prop :=
  ∃ name, type = ref.literal name ∧ g.TakesAs ref.innermost name

/-- All that the types of a schema refer to is registered, and is of the right kind. -/
structure Closed (g : TypeGraph) (catalogue : Catalogue) (d : Declarations) : Prop where
  properties : ∀ name o, (name, .object o) ∈ g.types → ∀ p ∈ o.properties,
    g.Shows p.resolver.returns p.type
  arguments : ∀ name o, (name, .object o) ∈ g.types → ∀ p ∈ o.properties, ∀ a ∈ p.arguments,
    ∃ ref, (a.name, ref) ∈ p.declaredArguments ∧ g.Takes ref a.type
  declaredArguments : ∀ name o, (name, .object o) ∈ g.types → ∀ p ∈ o.properties,
    ∀ declared ∈ p.declaredArguments,
      ∃ a ∈ p.arguments, a.name = declared.1 ∧ g.Takes declared.2 a.type
  inputFields : ∀ name i, (name, .inputObject i) ∈ g.types → ∃ outline,
    d.Describes catalogue (.inputObject i.host outline) ∧ ∀ f ∈ i.fields,
      ∃ field ∈ (catalogue.input outline).fields, field.name = f.1 ∧ g.Takes field.type f.2
  members : ∀ name u, (name, .union u) ∈ g.types → ∀ member ∈ u.members,
    ∃ o, g.type? member = some (.object o)

end TypeGraph

namespace Declarations

variable {d : Declarations} {catalogue : Catalogue} {r : Registry}

theorem nodup_graph_names (h : (r.types.map (·.1)).Nodup) (mutation : Option String) :
    ((r.graph mutation).types.map (·.1)).Nodup := by
  rw [List.Nodup, List.pairwise_map] at h ⊢
  refine List.pairwise_filterMap.mpr (h.imp ?_)
  rintro ⟨first, slot⟩ ⟨second, other⟩ hne _ hfirst _ hsecond
  obtain ⟨_, -, rfl⟩ := Option.map_eq_some_iff.mp hfirst
  obtain ⟨_, -, rfl⟩ := Option.map_eq_some_iff.mp hsecond
  exact hne

theorem Tidy.graph_names {opened : List (String × Identity)} (h : Tidy opened r.types)
    (mutation : Option String) : ((r.graph mutation).types.map (·.1)).Nodup :=
  nodup_graph_names h.names mutation

namespace Sound

theorem filled (h : d.Sound catalogue [] r) {entry : String × Option TypeNode}
    (hmem : entry ∈ r.types) : entry.2.isSome := by
  rcases entry with ⟨name, slot⟩
  cases slot with
  | none => exact absurd ((h.tidy.reserved name).mp hmem) List.not_mem_nil
  | some node => rfl

theorem mem_graph_types {mutation : Option String} {name : String} {node : TypeNode} :
    (name, node) ∈ (r.graph mutation).types ↔ (name, some node) ∈ r.types := by
  simp only [Registry.graph, List.mem_filterMap, Option.map_eq_some_iff]
  constructor
  · rintro ⟨⟨_, _⟩, hmem, _, rfl, heq⟩
    cases heq
    exact hmem
  · exact fun hmem => ⟨_, hmem, node, rfl, rfl⟩

variable (h : d.Sound catalogue [] r) (mutation : Option String)

include h

theorem graph_names : ((r.graph mutation).types.map (·.1)).Nodup :=
  h.tidy.graph_names mutation

theorem type?_graph {name : String} {node : TypeNode} (hmem : (name, some node) ∈ r.types) :
    (r.graph mutation).type? name = some node :=
  Entries.lookup_of_mem (h.graph_names mutation) (mem_graph_types.mpr hmem)

theorem exists_type? {name : String} {identity : Identity} (hprovides : r.Provides [] name identity) :
    ∃ node, (r.graph mutation).type? name = some node ∧ node.identity = identity := by
  obtain ⟨node, hnode, hmem⟩ := hprovides.resolve_left List.not_mem_nil
  exact ⟨node, h.type?_graph mutation hmem, hnode⟩

theorem exists_scalar {host : HostType} {name : String} (hmem : (host, name) ∈ r.scalarNames) :
    (r.graph mutation).scalarNames.lookup host = some name ∧
      ∃ type, (r.graph mutation).type? name = some (.scalar type) ∧ type.coercion.host = host := by
  refine ⟨Entries.lookup_of_mem h.scalarHosts hmem, ?_⟩
  obtain ⟨node, htype, hnode⟩ := h.exists_type? mutation (h.scalars host name hmem)
  cases node <;> cases hnode
  exact ⟨_, htype, rfl⟩

theorem exists_enumeration {host : HostType} {name : String}
    (hprovides : r.Provides [] name (.enumeration host)) :
    ∃ type, (r.graph mutation).type? name = some (.enumeration type) ∧ type.host = host := by
  obtain ⟨node, htype, hnode⟩ := h.exists_type? mutation hprovides
  cases node <;> cases hnode
  exact ⟨_, htype, rfl⟩

theorem exists_object (hd : d.Unambiguous catalogue) {host outline : HostType} {name : String}
    (hdescribes : d.Describes catalogue (.object host outline)) (hmem : (host, name) ∈ r.outputs) :
    ∃ type, (r.graph mutation).type? name = some (.object type) ∧ type.host = some host := by
  rcases h.outputs host name hmem with ⟨hprovides, -⟩ | ⟨-, -, shape, henum⟩
  · obtain ⟨node, htype, hnode⟩ := h.exists_type? mutation hprovides
    cases node with
    | object type => exact ⟨type, htype, Identity.object.inj hnode⟩
    | scalar | enumeration | union | inputObject => cases hnode
  · exact absurd hdescribes (hd.object host shape outline henum)

theorem shows_graph (hd : d.Unambiguous catalogue)
    (hunions : ∀ union ∈ r.unionNames, r.Provides [] union .union) {ref : TypeRef}
    {type : TypeLiteral} (hshows : d.Shows catalogue r ref type) :
    (r.graph mutation).Shows ref type := by
  obtain ⟨hdescribes, name, rfl, hname⟩ := hshows
  refine ⟨name, rfl, ?_⟩
  generalize ref.innermost = inner at hdescribes hname
  cases inner with
  | scalar host => exact h.exists_scalar mutation hname
  | enumeration host shape =>
    refine ⟨Entries.lookup_of_mem h.outputHosts hname, ?_⟩
    rcases h.outputs host name hname with ⟨-, outline, hobject⟩ | ⟨-, hprovides, -⟩
    · exact absurd hobject (hd.object host shape outline hdescribes)
    · exact h.exists_enumeration mutation hprovides
  | object host outline =>
    exact ⟨Entries.lookup_of_mem h.outputHosts hname, h.exists_object mutation hd hdescribes hname⟩
  | union host =>
    obtain ⟨node, htype, hnode⟩ := h.exists_type? mutation (hunions name hname)
    cases node <;> cases hnode
    exact ⟨_, htype⟩
  | inputObject | list | nullable | function | generic => exact hname.elim

theorem takes_graph (hd : d.Unambiguous catalogue) {ref : TypeRef} {type : TypeLiteral}
    (htakes : d.Takes catalogue r ref type) : (r.graph mutation).Takes ref type := by
  obtain ⟨hdescribes, name, rfl, hname⟩ := htakes
  refine ⟨name, rfl, ?_⟩
  generalize ref.innermost = inner at hdescribes hname
  cases inner with
  | scalar host => exact h.exists_scalar mutation hname
  | enumeration host shape =>
    refine ⟨Entries.lookup_of_mem h.inputHosts hname, ?_⟩
    rcases h.inputs host name hname with ⟨-, outline, hinput⟩ | ⟨-, hprovides, -⟩
    · exact absurd hinput (hd.inputObject host shape outline hdescribes)
    · exact h.exists_enumeration mutation hprovides
  | inputObject host outline =>
    refine ⟨Entries.lookup_of_mem h.inputHosts hname, ?_⟩
    rcases h.inputs host name hname with ⟨hprovides, -⟩ | ⟨-, -, shape, henum⟩
    · obtain ⟨node, htype, hnode⟩ := h.exists_type? mutation hprovides
      cases node <;> cases hnode
      exact ⟨_, htype, rfl⟩
    · exact absurd hdescribes (hd.inputObject host shape outline henum)
  | object | union | list | nullable | function | generic => exact hname.elim

theorem closed (hd : d.Unambiguous catalogue)
    (hunions : ∀ union ∈ r.unionNames, r.Provides [] union .union) :
    (r.graph mutation).Closed catalogue d where
  properties name o ho p hp :=
    h.shows_graph mutation hd hunions (h.nodes name _ (mem_graph_types.mp ho) p hp).type
  arguments name o ho p hp a ha := by
    obtain ⟨ref, hmem, htakes⟩ :=
      (h.nodes name _ (mem_graph_types.mp ho) p hp).arguments.declared a ha
    exact ⟨ref, hmem, h.takes_graph mutation hd htakes⟩
  declaredArguments name o ho p hp declared hmem := by
    obtain ⟨a, ha, hname, htakes⟩ :=
      (h.nodes name _ (mem_graph_types.mp ho) p hp).arguments.taken declared.1 declared.2 hmem
    exact ⟨a, ha, hname, h.takes_graph mutation hd htakes⟩
  inputFields name i hi := by
    obtain ⟨outline, hdescribes, hfields⟩ := h.nodes name _ (mem_graph_types.mp hi)
    refine ⟨outline, hdescribes, fun f hf => ?_⟩
    obtain ⟨field, hfield, hname, htakes⟩ := hfields f hf
    exact ⟨field, hfield, hname, h.takes_graph mutation hd htakes⟩
  members name u hu member hmember := by
    obtain ⟨host, outline, hdescribes, hmem⟩ := h.nodes name _ (mem_graph_types.mp hu) member hmember
    obtain ⟨type, htype, -⟩ := h.exists_object mutation hd hdescribes hmem
    exact ⟨type, htype⟩

end Sound

end Declarations

namespace TypeGraph.Closed

variable {g : TypeGraph} {catalogue : Catalogue} {d : Declarations}

/-- Every type that properties expose is a registered one, and not an input object. -/
theorem type?_of_exposes (h : g.Closed catalogue d) {name : String} (hexposes : g.Exposes name) :
    ∃ node, g.type? name = some node ∧ ∀ i, node ≠ .inputObject i := by
  obtain ⟨owner, o, ho, p, hp, rfl⟩ := hexposes
  obtain ⟨name, htype, hname⟩ := h.properties owner o (Entries.mem_of_lookup ho) p hp
  rw [htype, TypeRef.innermost_literal]
  generalize p.resolver.returns.innermost = inner at hname
  cases inner with
  | scalar | enumeration | object =>
    obtain ⟨-, type, hnode, -⟩ := hname
    exact ⟨_, hnode, fun _ he => by cases he⟩
  | union host =>
    obtain ⟨type, hnode⟩ := hname
    exact ⟨_, hnode, fun _ he => by cases he⟩
  | inputObject | list | nullable | function | generic => exact hname.elim

end TypeGraph.Closed

/-- An error of a value whose type cannot be resolved. -/
def Scope.IsUnresolved (e : ExecutionError) : Prop :=
  e.kind = .coercion ∧ ∃ name : String, e.error = .ofMessage s!"Type \"{name}\" cannot be resolved"

/-- No place of a closed schema fails because its type cannot be resolved. -/
theorem Scope.Failure.resolved {scope : Scope} {catalogue : Catalogue} {d : Declarations}
    (h : scope.graph.Closed catalogue d) {place : Place} {e : FieldError} {kind : ErrorKind}
    (hfailure : scope.Failure place e kind) (hplace : place.ExposedBy scope.graph)
    (location : Position) (path : Path) : ¬ IsUnresolved ⟨location, path, e, kind⟩ := by
  rintro ⟨hkind, name, herror⟩
  have hmessage : e.message = "Type \"" ++ name ++ "\" cannot be resolved" :=
    congrArg (·.message) herror
  have hstart : e.message.toList.take 4 = "Type".toList := by
    rw [hmessage]
    simp
  have hshape (type : TypeLiteral) (found : String) :
      (wrongShape type found).message.toList.take 4 ≠ "Type".toList := by
    change ("Expected a value of type \"" ++ type.text ++ "\", found " ++ found).toList.take 4 ≠ _
    simp
  cases hfailure with
  | unknown | arguments | null => cases hkind
  | call _ _ _ e => cases e <;> cases hkind
  | list | single => exact hshape _ _ hstart
  | @scalar _ _ _ _ _ scalar _ htype hwrite =>
    rw [Coercion.write] at hwrite
    split at hwrite
    · cases hwrite
    · cases hwrite
      change ("Expected a value of type " ++ scalar.coercion.host.name).toList.take 4 = _ at hstart
      simp at hstart
  | @enumeration shown _ host =>
    change ("Value of type " ++ host.name ++ " is not a value of enum \"" ++ shown ++
      "\"").toList.take 4 = _ at hstart
    simp at hstart
  | @union shown _ host =>
    change ("Value of type " ++ host.name ++ " is not a member of union \"" ++ shown ++
      "\"").toList.take 4 = _ at hstart
    simp at hstart
  | unresolved hnone =>
    obtain ⟨node, hnode, hinput⟩ := h.type?_of_exposes hplace
    obtain ⟨i, hi⟩ := hnone node hnode
    exact hinput i hi

namespace TypeGraph.Closed

variable {s : Schema} {catalogue : Catalogue} {d : Declarations}

/-- No value is completed at a type that cannot be resolved, at any moment of any run. -/
theorem errors_resolved (h : s.graph.Closed catalogue d) {r : Request} {o : Opening}
    (ho : s.opening r = .ok o) {depth : Nat} {log : List Event} {job : Job}
    (hreaches : (o.agenda depth).Reaches log job) :
    ∀ e ∈ Event.errors log, ¬ Scope.IsUnresolved e := by
  obtain ⟨-, hgraph⟩ := Schema.opening_eq ho
  rw [← hgraph] at h
  refine Schema.errors_confined ho ⟨fun path spread hunresolved => ?_, ?_⟩ hreaches
  · cases hunresolved.1
  · exact fun location path hfailure hplace => hfailure.resolved h hplace location path

end TypeGraph.Closed

namespace Declarations

/-- Whatever is declared, a schema that is registered is closed: no name is left without a type, and
all that types refer to is registered and of the right kind. So whatever its resolvers hand out, no
run of a request ever reports a type that cannot be resolved, and no answer of workers does. -/
theorem register_closed {d : Declarations} {catalogue : Catalogue} (hd : d.Unambiguous catalogue)
    {g : TypeGraph} (h : d.register catalogue = .ok g) :
    (∃ registry mutation, g = registry.graph mutation ∧ (∀ entry ∈ registry.types, entry.2.isSome) ∧
      (Registering.addAll catalogue (d.depth catalogue) d).run (.start d) = .ok ((), registry)) ∧
    g.Closed catalogue d ∧
    ∀ configuration r o, (Schema.mk g configuration).opening r = .ok o → ∀ depth,
      (∀ log job, (o.agenda depth).Reaches log job →
        ∀ e ∈ Event.errors log, ¬ Scope.IsUnresolved e) ∧
      ∀ workers outcome rest,
        (Schema.mk g configuration).executeOn? workers depth r = some (.ok outcome, rest) →
          ∀ e ∈ outcome.errors, ¬ Scope.IsUnresolved e := by
  rw [register] at h
  cases hrun : (Registering.addAll catalogue (d.depth catalogue) d).run (.start d) with
  | error stop =>
    rw [hrun] at h
    cases h
  | ok done =>
    rw [hrun] at h
    obtain rfl : _ = g := Except.ok.inj h
    obtain ⟨hsound, hunions⟩ := Registering.addAll_sound hd hrun
    have hclosed := hsound.closed (if d.mutations.isEmpty then none else some
      Registering.mutationName) hd hunions
    refine ⟨⟨_, _, rfl, fun _ hmem => hsound.filled hmem, rfl⟩, hclosed,
      fun configuration r o ho depth => ?_⟩
    have hruns (log : List Event) (job : Job) (hreaches : (o.agenda depth).Reaches log job) :
        ∀ e ∈ Event.errors log, ¬ Scope.IsUnresolved e :=
      hclosed.errors_resolved ho hreaches
    refine ⟨hruns, fun workers outcome rest houtcome e he => ?_⟩
    obtain ⟨log, result, -, hresolved⟩ := Schema.exists_reaches_of_outcome
      (P := fun _ _ errors => ∀ e ∈ errors, ¬ Scope.IsUnresolved e) ho
      (fun log result hreaches e he => hruns log _ hreaches e (Agenda.mem_recorded.mp he)) houtcome
    exact hresolved e he

namespace Sample

def film : HostType := .named "studio::Film"

def filter : HostType := .named "studio::Filter"

def genre : TypeRef := .enumeration (.named "studio::Genre") ⟨"Genre", ["NOIR"], fun _ => "NOIR"⟩

/-- Films have sequels, which are films, and filters may be negated. -/
def catalogue : Catalogue where
  objects := [(film, ⟨"Film", [⟨"title", .scalar .text, fun v => .single .text (v.field "title")⟩,
    ⟨"sequels", .list (.sequence film) (.object film film), fun _ => .list []⟩]⟩)]
  inputs := [(filter, ⟨"Filter", [⟨"genre", genre⟩,
    ⟨"except", .nullable (.optional filter) (.inputObject filter filter)⟩]⟩)]

def films : PropertyDeclaration :=
  { PropertyDeclaration.extension "films" with
    arguments := ["filter"]
    resolver := some ⟨.ofKinds [.argument (.inputObject filter filter) fun _ _ => .ok .nothing],
      .list (.sequence film) (.object film film), .suspending none fun _ _ => .answer (.ok .null)⟩ }

def latest : PropertyDeclaration :=
  { PropertyDeclaration.ofUnion "latest" with
    resolver := some ⟨.ofKinds [], .nullable (.optional .member) (.union .member),
      .suspending none fun _ _ => .answer (.ok .null)⟩
    union := some "Media" }

def styled : TransformationDeclaration :=
  ⟨"title", ["manner"], some ⟨.text, .text, .ofKinds [.argument genre fun _ _ => .ok .nothing],
    fun _ => none, fun v _ => .ok v, fun v => .single .text v⟩⟩

def declarations : Declarations where
  queries := [films, latest]
  mutations := []
  types := [(film, { TypeDeclaration.plain (.object film film) with transformations := [styled] })]
  enums := [(.named "studio::Genre", ⟨genre, some "FilmGenre", none⟩)]
  unions := [("Media", ⟨none, [.object film film]⟩)]
  scalars := []
  inputs := []

/-- Only genres are enums, films are objects, and filters are input objects. -/
def Expected : TypeRef → Prop
  | .enumeration host _ => host = .named "studio::Genre"
  | .object host outline => host = film ∧ outline = film
  | .inputObject host outline => host = filter ∧ outline = filter
  | .list _ inner | .nullable _ inner => Expected inner
  | _ => True

theorem expected {ref : TypeRef} (h : declarations.Describes catalogue ref) : Expected ref := by
  induction h with
  | mention hmem =>
    have hmentions : declarations.mentions = [.list (.sequence film) (.object film film),
        .inputObject filter filter, .nullable (.optional .member) (.union .member),
        .object film film, genre, .object film film] := rfl
    rw [hmentions] at hmem
    simp only [List.mem_cons, List.not_mem_nil, or_false] at hmem
    rcases hmem with rfl | rfl | rfl | rfl | rfl | rfl <;> simp [Expected, genre]
  | customized hmem =>
    obtain ⟨-, rfl⟩ := Prod.mk.inj (List.mem_singleton.mp hmem)
    rfl
  | nullable _ ih => exact ih
  | list _ ih => exact ih
  | field _ hf ih =>
    obtain ⟨rfl, rfl⟩ := ih
    simp only [catalogue, Catalogue.object, List.lookup_cons_self, Option.getD_some, List.mem_cons,
      List.not_mem_nil, or_false] at hf
    rcases hf with rfl | rfl
    · trivial
    · exact ⟨rfl, rfl⟩
  | inputField _ hf ih =>
    obtain ⟨rfl, rfl⟩ := ih
    simp only [catalogue, Catalogue.input, List.lookup_cons_self, Option.getD_some, List.mem_cons,
      List.not_mem_nil, or_false] at hf
    rcases hf with rfl | rfl
    · rfl
    · exact ⟨rfl, rfl⟩

theorem unambiguous : declarations.Unambiguous catalogue where
  object host shape outline henum hobject := by
    have hhost := (expected henum).symm.trans (expected hobject).1
    simp [film] at hhost
  inputObject host shape outline henum hinput := by
    have hhost := (expected henum).symm.trans (expected hinput).1
    simp [filter] at hhost

theorem exists_graph : ∃ g, declarations.register catalogue = .ok g := ⟨_, rfl⟩

end Sample

theorem register_closed_sample : Sample.declarations.Unambiguous Sample.catalogue ∧
    ∃ g, Sample.declarations.register Sample.catalogue = .ok g ∧
      g.Closed Sample.catalogue Sample.declarations := by
  obtain ⟨g, hg⟩ := Sample.exists_graph
  exact ⟨Sample.unambiguous, g, hg, (register_closed Sample.unambiguous hg).2.1⟩

end Declarations

end Trellis
