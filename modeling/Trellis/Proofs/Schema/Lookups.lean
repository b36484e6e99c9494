import Trellis.Proofs.Itemwise
import Trellis.Proofs.Schema.DeclarationOrder
import Trellis.Proofs.Typing.Published

/-!
Types are found by their host types.

A schema keeps the names of host types in three maps, for values, for arguments and for scalars, and
every union keeps one of its own. Enums are in two of them. What is looked up is the type that belongs
to the host type, and every type that belongs to a host type is looked up by it.
-/

namespace Trellis

/-- If a function leads from the keys of pairs to their values, then none of the pairs is lost when
they are made unique. -/
theorem Entries.lookup_ofPairs_iff {κ α : Type} [DecidableEq κ] {pairs : List (κ × α)}
    {f : κ → Option α} (h : ∀ pair ∈ pairs, f pair.1 = some pair.2) {key : κ} {value : α} :
    (ofPairs pairs).lookup key = some value ↔ (key, value) ∈ pairs := by
  constructor
  · exact fun hlookup => mem_of_mem_ofPairs (mem_of_lookup hlookup)
  · intro hmem
    have hkey : key ∈ keys (ofPairs pairs) := mem_keys_ofPairs.mpr (List.mem_map_of_mem hmem)
    cases hlookup : (ofPairs pairs).lookup key with
    | none => exact absurd hkey (notMem_of_lookup hlookup)
    | some other =>
      have hother := h _ (mem_of_mem_ofPairs (mem_of_lookup hlookup))
      rw [← hother, h _ hmem]

namespace TypeGraph

variable (g : TypeGraph)

/-- A name has a type of some identity. -/
def Has (name : String) (identity : Identity) : Prop :=
  ∃ node, (name, node) ∈ g.types ∧ node.identity = identity

/-- Host types lead to the types that belong to them, and to nothing else. -/
structure Exact : Prop where
  /-- Every type is stored once, under its own name. -/
  names : (g.types.map (·.1)).Nodup
  named : ∀ name node, (name, node) ∈ g.types → node.name = name
  outputs : ∀ host name, g.outputs.lookup host = some name ↔
    g.Has name (.object (some host)) ∨ g.Has name (.enumeration host)
  inputs : ∀ host name, g.inputs.lookup host = some name ↔
    g.Has name (.inputObject host) ∨ g.Has name (.enumeration host)
  scalarNames : ∀ host name, g.scalarNames.lookup host = some name ↔ g.Has name (.scalar host)
  /-- The roots alone are objects without a host type. -/
  roots : ∀ name, g.Has name (.object none) ↔ name = g.query ∨ g.mutation = some name
  /-- A name is not shared, neither by host types nor by kinds, roots and unions. -/
  owner : ∀ {name i j}, g.Has name i → g.Has name j → i = j
  /-- A union leads from host types to those of its members that belong to them. -/
  member : ∀ u, (u.name, .union u) ∈ g.types → ∀ host member,
    u.member? host = some member ↔ member ∈ u.members ∧ g.Has member (.object (some host))
  members : ∀ u, (u.name, .union u) ∈ g.types → ∀ member ∈ u.members,
    ∃ host, u.member? host = some member

namespace Exact

variable {g} (h : g.Exact)

include h

theorem type?_iff {name : String} {node : TypeNode} :
    g.type? name = some node ↔ (name, node) ∈ g.types :=
  ⟨Entries.mem_of_lookup, Entries.lookup_of_mem h.names⟩

theorem identity_of_has {name : String} {node : TypeNode} {i : Identity} (hi : g.Has name i)
    (hnode : (name, node) ∈ g.types) : node.identity = i := h.owner ⟨node, hnode, rfl⟩ hi

/-- What is looked up by way of a name is stored, and has one of the identities that lead to it. -/
theorem found_iff {α : Type} {name? : Option String} (expected : Identity → Prop)
    (hname : ∀ name, name? = some name ↔ ∃ i, expected i ∧ g.Has name i)
    (kind : TypeNode → Option α) (node : α → TypeNode)
    (hkind : ∀ stored a, kind stored = some a ↔ stored = node a) {a : α} :
    (do kind (← g.type? (← name?))) = some a ↔
      ((node a).name, node a) ∈ g.types ∧ expected (node a).identity := by
  simp only [Option.bind_eq_bind, Option.bind_eq_some_iff, hname, h.type?_iff, hkind]
  constructor
  · rintro ⟨name, ⟨i, hi, hhas⟩, _, hmem, rfl⟩
    rw [h.identity_of_has hhas hmem, h.named _ _ hmem]
    exact ⟨hmem, hi⟩
  · rintro ⟨hmem, hi⟩
    exact ⟨_, ⟨_, hi, _, hmem, rfl⟩, _, hmem, rfl⟩

theorem object?_iff {host : HostType} {o : ObjectType} :
    g.object? host = some o ↔ (o.name, .object o) ∈ g.types ∧ o.host = some host := by
  have hfound := h.found_iff (fun i => i = .object (some host) ∨ i = .enumeration host)
    (fun name => (h.outputs host name).trans (by simp)) TypeNode.object? .object
    (fun stored a => by cases stored <;> simp [TypeNode.object?]) (a := o)
  exact hfound.trans (by simp [TypeNode.identity, TypeNode.name])

theorem enum?_iff {host : HostType} {e : EnumType} :
    g.enum? host = some e ↔ (e.name, .enumeration e) ∈ g.types ∧ e.host = host := by
  have hfound := h.found_iff (fun i => i = .object (some host) ∨ i = .enumeration host)
    (fun name => (h.outputs host name).trans (by simp)) TypeNode.enum? .enumeration
    (fun stored a => by cases stored <;> simp [TypeNode.enum?]) (a := e)
  exact hfound.trans (by simp [TypeNode.identity, TypeNode.name])

theorem input?_iff {host : HostType} {i : InputObjectType} :
    g.input? host = some i ↔ (i.name, .inputObject i) ∈ g.types ∧ i.host = host := by
  have hfound := h.found_iff (fun i => i = .inputObject host ∨ i = .enumeration host)
    (fun name => (h.inputs host name).trans (by simp)) TypeNode.inputObject? .inputObject
    (fun stored a => by cases stored <;> simp [TypeNode.inputObject?]) (a := i)
  exact hfound.trans (by simp [TypeNode.identity, TypeNode.name])

theorem scalarOf?_iff {host : HostType} {s : ScalarType} :
    g.scalarOf? host = some s ↔ (s.name, .scalar s) ∈ g.types ∧ s.coercion.host = host := by
  have hfound := h.found_iff (fun i => i = .scalar host)
    (fun name => (h.scalarNames host name).trans (by simp)) TypeNode.scalar? .scalar
    (fun stored a => by cases stored <;> simp [TypeNode.scalar?]) (a := s)
  exact hfound.trans (by simp [TypeNode.identity, TypeNode.name])

/-- A name has an object of a host type if the object looked up by it is called so. -/
theorem has_object_iff {host : HostType} {name : String} :
    g.Has name (.object (some host)) ↔ ∃ o, g.object? host = some o ∧ o.name = name := by
  constructor
  · rintro ⟨node, hnode, hi⟩
    obtain rfl := h.named _ _ hnode
    cases node with
    | object o => exact ⟨o, h.object?_iff.mpr ⟨hnode, Identity.object.inj hi⟩, rfl⟩
    | scalar | enumeration | union | inputObject => cases hi
  · rintro ⟨o, ho, rfl⟩
    obtain ⟨hmem, hhost⟩ := h.object?_iff.mp ho
    exact ⟨_, hmem, congrArg Identity.object hhost⟩

end Exact

end TypeGraph

namespace Names

variable {N : Names}

theorem unionMember_eq_some {ref : TypeRef} {host : HostType} {member : String} :
    N.unionMember ref = some (host, member) ↔
      (∃ outline, ref = .object host outline) ∧ N.outputs host = some member := by
  cases ref with
  | object other outline =>
    simp only [unionMember, Option.pure_def, Option.bind_eq_bind, Option.bind_eq_some_iff,
      Option.some.injEq, Prod.mk.injEq, TypeRef.object.injEq]
    constructor
    · rintro ⟨name, hname, rfl, rfl⟩
      exact ⟨⟨outline, rfl, rfl⟩, hname⟩
    · rintro ⟨⟨_, rfl, -⟩, hname⟩
      exact ⟨member, hname, rfl, rfl⟩
  | scalar | enumeration | inputObject | list | nullable | union | function | generic =>
    simp [unionMember]

/-- A union leads from the host types of its members to the names of these, and from no others. -/
theorem union_member?_iff {name : String} {declaration : UnionDeclaration} {u : UnionType}
    (h : N.union name declaration = some u) {host : HostType} {member : String} :
    u.member? host = some member ↔
      (∃ outline, .object host outline ∈ declaration.members) ∧ N.outputs host = some member := by
  rw [union] at h
  split at h
  · cases h
  obtain ⟨members, hmembers, hpure⟩ := Option.bind_eq_some_iff.mp h
  cases hpure
  have hnamed : ∀ pair ∈ members, N.outputs pair.1 = some pair.2 := fun pair hpair => by
    obtain ⟨ref, -, href⟩ := exists_of_mapM hmembers hpair
    exact (unionMember_eq_some.mp href).2
  rw [UnionType.member?, Entries.lookup_ofPairs_iff hnamed]
  constructor
  · intro hmem
    obtain ⟨ref, href, hpair⟩ := exists_of_mapM hmembers hmem
    obtain ⟨⟨outline, rfl⟩, hname⟩ := unionMember_eq_some.mp hpair
    exact ⟨⟨outline, href⟩, hname⟩
  · rintro ⟨⟨outline, href⟩, hname⟩
    obtain ⟨pair, hpair, hunion⟩ := exists_of_mem_mapM hmembers href
    rw [unionMember_eq_some.mpr ⟨⟨outline, rfl⟩, hname⟩] at hunion
    exact Option.some.inj hunion ▸ hpair

theorem union_listed {name : String} {declaration : UnionDeclaration} {u : UnionType}
    (h : N.union name declaration = some u) {ref : TypeRef} (href : ref ∈ declaration.members) :
    ∃ host outline member, ref = .object host outline ∧ u.member? host = some member := by
  have hmember {host : HostType} {member : String} :
      u.member? host = some member ↔ _ := union_member?_iff h
  rw [union] at h
  split at h
  · cases h
  obtain ⟨members, hmembers, -⟩ := Option.bind_eq_some_iff.mp h
  obtain ⟨⟨host, member⟩, -, hunion⟩ := exists_of_mem_mapM hmembers href
  obtain ⟨⟨outline, rfl⟩, hname⟩ := unionMember_eq_some.mp hunion
  exact ⟨host, outline, member, rfl, hmember.mpr ⟨⟨outline, href⟩, hname⟩⟩

/-- The members of a union are those that host types lead to. -/
theorem mem_union_members {name : String} {declaration : UnionDeclaration} {u : UnionType}
    (h : N.union name declaration = some u) {member : String} :
    member ∈ u.members ↔ ∃ host, u.member? host = some member := by
  simp only [union_member?_iff h]
  rw [union] at h
  split at h
  · cases h
  obtain ⟨members, hmembers, hpure⟩ := Option.bind_eq_some_iff.mp h
  cases hpure
  constructor
  · intro hmem
    obtain ⟨⟨host, _⟩, hpair, rfl⟩ := List.mem_map.mp hmem
    obtain ⟨ref, href, hunion⟩ := exists_of_mapM hmembers hpair
    obtain ⟨⟨outline, rfl⟩, hname⟩ := unionMember_eq_some.mp hunion
    exact ⟨host, ⟨outline, href⟩, hname⟩
  · rintro ⟨host, ⟨outline, href⟩, hname⟩
    obtain ⟨pair, hpair, hunion⟩ := exists_of_mem_mapM hmembers href
    rw [unionMember_eq_some.mpr ⟨⟨outline, rfl⟩, hname⟩] at hunion
    exact List.mem_map.mpr ⟨pair, hpair, Option.some.inj hunion ▸ rfl⟩

end Names

namespace Declarations

variable {d : Declarations} {catalogue : Catalogue} {r : Registry} {N : Names} {node : TypeNode}
  {host : HostType}

namespace Makes

variable (h : d.Makes catalogue N node)

include h

theorem output (hi : node.identity = .object (some host) ∨ node.identity = .enumeration host) :
    N.outputs host = some node.name := by
  cases h with
  | enumeration _ hname =>
    rcases hi with hi | hi <;> cases hi
    exact hname
  | object _ ho hname =>
    obtain ⟨properties, -, rfl⟩ := Option.map_eq_some_iff.mp ho
    rcases hi with hi | hi <;> cases hi
    exact hname
  | root _ ho =>
    obtain ⟨properties, -, hpure⟩ := Option.bind_eq_some_iff.mp ho
    cases hpure
    rcases hi with hi | hi <;> cases hi
  | scalar | union | inputObject => rcases hi with hi | hi <;> cases hi

theorem input (hi : node.identity = .inputObject host) : N.inputs host = some node.name := by
  cases h with
  | inputObject _ ht hname =>
    obtain ⟨fields, -, hpure⟩ := Option.bind_eq_some_iff.mp ht
    cases hpure
    cases hi
    exact hname
  | object _ ho =>
    obtain ⟨properties, -, rfl⟩ := Option.map_eq_some_iff.mp ho
    cases hi
  | scalar | enumeration | root | union => cases hi

theorem scalarName (hi : node.identity = .scalar host) : N.scalars host = some node.name := by
  cases h with
  | scalar _ hname =>
    cases hi
    exact hname
  | enumeration | object | root | union | inputObject => cases hi

end Makes

namespace Settled

variable (h : d.Settled catalogue r) (mutation : Option String)

theorem has_graph_iff {name : String} {i : Identity} :
    (r.graph mutation).Has name i ↔ r.Provides [] name i := by
  simp only [TypeGraph.Has, Registry.Provides, List.not_mem_nil, false_or, Sound.mem_graph_types]
  exact exists_congr fun _ => and_comm

include h

/-- The members of a declared union are the objects of the host types that it lists. -/
theorem member?_iff (hd : d.Coherent catalogue) {union : String × UnionDeclaration}
    (hmem : union ∈ d.unions) {u : UnionType} (hu : r.names.union union.1 union.2 = some u)
    {host : HostType} {member : String} : u.member? host = some member ↔
      (∃ outline, .object host outline ∈ union.2.members) ∧
        (r.graph mutation).Has member (.object (some host)) := by
  rw [Names.union_member?_iff hu, has_graph_iff]
  refine and_congr_right fun ⟨outline, houtline⟩ => ⟨fun hname => ?_, fun hprovides => ?_⟩
  · exact h.provides hd (.object (Registering.describes_of_union catalogue hmem _ houtline) hname)
  · obtain ⟨node, -, rfl, hi, hmakes⟩ := h.exists_node hprovides
    exact hmakes.output (.inl hi)

theorem has_root_iff {name : String} :
    (r.graph mutation).Has name (.object none) ↔ name ∈ d.roots.map (·.1) := by
  rw [has_graph_iff]
  constructor
  · intro hprovides
    obtain ⟨node, -, rfl, hi, hmakes⟩ := h.exists_node hprovides
    cases hmakes with
    | root hroot ho =>
      obtain ⟨properties, -, hpure⟩ := Option.bind_eq_some_iff.mp ho
      cases hpure
      exact List.mem_map_of_mem hroot
    | object _ ho =>
      obtain ⟨properties, -, rfl⟩ := Option.map_eq_some_iff.mp ho
      cases hi
    | scalar | enumeration | union | inputObject => cases hi
  · intro hmem
    obtain ⟨root, hroot, rfl⟩ := List.mem_map.mp hmem
    exact h.roots root hroot

theorem exists_made {name : String} {i : Identity} (hhas : (r.graph mutation).Has name i) :
    ∃ node, (name, some node) ∈ r.types ∧ node.name = name ∧ node.identity = i ∧
      d.Makes catalogue r.names node := h.exists_node ((has_graph_iff mutation).mp hhas)

theorem has_unique {name : String} {i j : Identity} (hi : (r.graph mutation).Has name i)
    (hj : (r.graph mutation).Has name j) : i = j := by
  obtain ⟨node, hmem, -, rfl, -⟩ := h.exists_made mutation hi
  obtain ⟨other, hother, -, rfl, -⟩ := h.exists_made mutation hj
  cases h.faithful.sound.tidy.slot_unique hmem hother
  rfl

theorem lookup_outputs_iff {host : HostType} {name : String} :
    r.outputs.lookup host = some name ↔ (r.graph mutation).Has name (.object (some host)) ∨
      (r.graph mutation).Has name (.enumeration host) := by
  constructor
  · intro hlookup
    rw [has_graph_iff, has_graph_iff]
    exact (h.faithful.sound.outputs host name (Entries.mem_of_lookup hlookup)).imp And.left (·.2.1)
  · rintro (hhas | hhas) <;> obtain ⟨node, -, rfl, hi, hmade⟩ := h.exists_made mutation hhas
    · exact hmade.output (.inl hi)
    · exact hmade.output (.inr hi)

theorem lookup_inputs_iff {host : HostType} {name : String} :
    r.inputs.lookup host = some name ↔ (r.graph mutation).Has name (.inputObject host) ∨
      (r.graph mutation).Has name (.enumeration host) := by
  have hsound := h.faithful.sound
  constructor
  · intro hlookup
    rw [has_graph_iff, has_graph_iff]
    exact (hsound.inputs host name (Entries.mem_of_lookup hlookup)).imp And.left (·.2.1)
  · rintro (hhas | hhas)
    · obtain ⟨node, -, rfl, hi, hmade⟩ := h.exists_made mutation hhas
      exact hmade.input hi
    · -- Enums are entered for arguments wherever they are entered for values.
      have hlookup := (h.lookup_outputs_iff mutation).mpr (.inr hhas)
      rcases hsound.outputs host name (Entries.mem_of_lookup hlookup) with ⟨hobject, -⟩ | hinput
      · cases h.has_unique mutation hhas ((has_graph_iff mutation).mpr hobject)
      · exact Entries.lookup_of_mem hsound.inputHosts hinput.1

theorem lookup_scalarNames_iff {host : HostType} {name : String} :
    r.scalarNames.lookup host = some name ↔ (r.graph mutation).Has name (.scalar host) := by
  constructor
  · intro hlookup
    rw [has_graph_iff]
    exact h.faithful.sound.scalars host name (Entries.mem_of_lookup hlookup)
  · intro hhas
    obtain ⟨node, -, rfl, hi, hmade⟩ := h.exists_made mutation hhas
    exact hmade.scalarName hi

theorem exists_declared {u : UnionType} (hu : (u.name, .union u) ∈ (r.graph mutation).types) :
    ∃ union ∈ d.unions, r.names.union union.1 union.2 = some u := by
  cases h.faithful.makes (Sound.mem_graph_types.mp hu) r.under_names with
  | union hmem ht => exact ⟨_, hmem, ht⟩

/-- A settled registry makes up a graph in which types are found by their host types. -/
theorem exact (hd : d.Coherent catalogue) (hmutation : mutation =
    if d.mutations.isEmpty then none else some Registering.mutationName) :
    (r.graph mutation).Exact where
  names := h.faithful.sound.graph_names mutation
  named name node hmem := h.faithful.sound.tidy.named name node (Sound.mem_graph_types.mp hmem)
  outputs _ _ := h.lookup_outputs_iff mutation
  inputs _ _ := h.lookup_inputs_iff mutation
  scalarNames _ _ := h.lookup_scalarNames_iff mutation
  roots name := by
    rw [h.has_root_iff, Declarations.roots, List.map_cons, List.mem_cons, hmutation]
    refine or_congr_right ?_
    cases d.mutations <;> simp [Registry.graph, eq_comm]
  owner := h.has_unique mutation
  member u hu host member := by
    obtain ⟨union, hmem, ht⟩ := h.exists_declared mutation hu
    have hmember {other : HostType} {name : String} (hlookup : u.member? other = some name) :=
      ((h.member?_iff mutation hd hmem ht).mp hlookup).2
    rw [Names.mem_union_members ht]
    constructor
    · exact fun hlookup => ⟨⟨host, hlookup⟩, hmember hlookup⟩
    · rintro ⟨⟨other, hlookup⟩, hhas⟩
      cases h.has_unique mutation (hmember hlookup) hhas
      exact hlookup
  members u hu member hmember := by
    obtain ⟨union, -, ht⟩ := h.exists_declared mutation hu
    exact (Names.mem_union_members ht).mp hmember

end Settled

end Declarations

namespace SchemaBuilder

/-- In a schema in which every host type is described in one way, types are found by their host types
exactly. Objects, enums, input objects and scalars are looked up by the host types that they belong
to, and by no others; no name is shared; and a declared union leads from the host types of its members
to the objects registered for them, from each of these and from no others. -/
theorem build_exact {catalogue : Catalogue} {b : SchemaBuilder} (hb : b.Arises catalogue)
    (hd : b.declarations.Coherent catalogue) {s : Schema} (h : (b.build catalogue).1 = .ok s) :
    s.graph.Exact ∧
    (∀ host o, s.graph.object? host = some o ↔
      (o.name, .object o) ∈ s.graph.types ∧ o.host = some host) ∧
    (∀ host e, s.graph.enum? host = some e ↔
      (e.name, .enumeration e) ∈ s.graph.types ∧ e.host = host) ∧
    (∀ host i, s.graph.input? host = some i ↔
      (i.name, .inputObject i) ∈ s.graph.types ∧ i.host = host) ∧
    (∀ host t, s.graph.scalarOf? host = some t ↔
      (t.name, .scalar t) ∈ s.graph.types ∧ t.coercion.host = host) ∧
    ∀ name declaration, (name, declaration) ∈ b.declarations.unions →
      ∃ u, s.graph.union? name = some u ∧
        (∀ ref ∈ declaration.members, ∃ host outline o, ref = .object host outline ∧
          s.graph.object? host = some o ∧ u.member? host = some o.name) ∧
        ∀ host member, u.member? host = some member ↔
          (∃ outline, .object host outline ∈ declaration.members) ∧
            ∃ o, s.graph.object? host = some o ∧ o.name = member := by
  obtain ⟨r, hruns, hgraph⟩ := Declarations.register_eq_ok.mp (register_of_build h)
  have hsettled := Registering.addAll_settled hd hb.proper hruns
  have hexact := hsettled.exact _ hd rfl
  rw [← hgraph] at hexact
  refine ⟨hexact, fun _ _ => hexact.object?_iff, fun _ _ => hexact.enum?_iff,
    fun _ _ => hexact.input?_iff, fun _ _ => hexact.scalarOf?_iff, fun name declaration hmem => ?_⟩
  obtain ⟨u, hu, ht⟩ := hsettled.union hb.proper hmem
  have hstored : (name, .union u) ∈ s.graph.types := by
    rw [hgraph]
    exact Declarations.Sound.mem_graph_types.mpr hu
  have hmember {host : HostType} {member : String} : u.member? host = some member ↔
      (∃ outline, .object host outline ∈ declaration.members) ∧
        ∃ o, s.graph.object? host = some o ∧ o.name = member := by
    rw [← hexact.has_object_iff, hgraph]
    exact hsettled.member?_iff _ hd hmem ht
  refine ⟨u, ?_, fun ref href => ?_, fun _ _ => hmember⟩
  · rw [TypeGraph.union?, hexact.type?_iff.mpr hstored]
    rfl
  · obtain ⟨host, outline, member, rfl, hlookup⟩ := Names.union_listed ht href
    obtain ⟨-, o, ho, rfl⟩ := hmember.mp hlookup
    exact ⟨host, outline, o, rfl, ho, hlookup⟩

open Declarations.Sample in
/-- The host type of films leads to the only member of a union of films, that of filters to none. -/
theorem build_exact_sample : ∃ s, ((ofCalls Sample.calls).build catalogue).1 = .ok s ∧
    s.graph.Exact ∧ ∃ u, s.graph.union? "Media" = some u ∧ u.member? film = some "Film" ∧
      ∀ member, u.member? filter ≠ some member := by
  obtain ⟨s, hs, o, ho, hname⟩ : ∃ s, ((ofCalls Sample.calls).build catalogue).1 = .ok s ∧
      ∃ o, s.graph.object? film = some o ∧ o.name = "Film" := ⟨_, rfl, _, rfl, rfl⟩
  obtain ⟨hexact, -, -, -, -, hunion⟩ :=
    build_exact (arises_ofCalls _ Sample.calls) Sample.coherent hs
  obtain ⟨u, hu, -, hmember⟩ := hunion "Media" ⟨none, [.object film film]⟩ List.mem_cons_self
  refine ⟨s, hs, hexact, u, hu, (hmember _ _).mpr ⟨⟨film, List.mem_cons_self⟩, o, ho, hname⟩,
    fun member hfilter => ?_⟩
  obtain ⟨⟨outline, houtline⟩, -⟩ := (hmember _ _).mp hfilter
  exact absurd (TypeRef.object.inj (List.mem_singleton.mp houtline)).1 (by decide)

end SchemaBuilder

end Trellis
