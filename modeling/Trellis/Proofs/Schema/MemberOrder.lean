import Trellis.Proofs.Execution.Mirroring
import Trellis.Proofs.Schema.Lookups

/-!
The order of members does not matter.

What a union is used for is to find the member that a host type leads to, and whether it has some
member. Both depend on which types are listed, and not on their order. So calls that list the members
of unions in other orders build schemas that no execution can tell apart.
-/

namespace Trellis

/-- The same union, with its members listed in any order. -/
structure UnionDeclaration.SameMembers (u u' : UnionDeclaration) : Prop where
  description : u.description = u'.description
  members : u.members.Perm u'.members

theorem UnionDeclaration.SameMembers.symm {u u' : UnionDeclaration} (h : u.SameMembers u') :
    u'.SameMembers u := ⟨h.description.symm, h.members.symm⟩

namespace Names

variable {N : Names} {name : String} {declaration declaration' : UnionDeclaration}
  (h : declaration.SameMembers declaration')

include h

/-- A union that can be made can be made with its members in any order. -/
theorem exists_union {u : UnionType} (hu : N.union name declaration = some u) :
    ∃ u', N.union name declaration' = some u' := by
  rw [union] at hu
  split at hu
  · cases hu
  · rename_i hmembers
    obtain ⟨members, hmapped, -⟩ := Option.bind_eq_some_iff.mp hu
    have hkept : ¬ declaration'.members.isEmpty = true := by
      rw [List.isEmpty_iff] at hmembers ⊢
      exact fun hnil => hmembers (List.perm_nil.mp (hnil ▸ h.members))
    have hall : ∀ ref ∈ declaration'.members, ∃ member, N.unionMember ref = some member := by
      intro ref href
      obtain ⟨member, -, hmember⟩ := exists_of_mem_mapM hmapped (h.members.mem_iff.mpr href)
      exact ⟨member, hmember⟩
    obtain ⟨members', hmapped'⟩ := exists_mapM hall
    rw [union, if_neg hkept, hmapped']
    exact ⟨_, rfl⟩

theorem indistinct_union {u u' : UnionType} (hu : N.union name declaration = some u)
    (hu' : N.union name declaration' = some u') : u.Indistinct u' := by
  have hmember (host : HostType) : u.member? host = u'.member? host := by
    refine Option.ext fun member => ?_
    rw [union_member?_iff hu, union_member?_iff hu']
    simp only [h.members.mem_iff]
  refine ⟨hmember, fun member => ?_⟩
  rw [Bool.eq_iff_iff, UnionType.contains, UnionType.contains, List.contains_iff_mem,
    List.contains_iff_mem, mem_union_members hu, mem_union_members hu']
  simp only [hmember]

end Names

/-- Executions cannot tell two types apart. -/
def TypeNode.Indistinct (node node' : TypeNode) : Prop :=
  node = node' ∨ ∃ u u', node = .union u ∧ node' = .union u' ∧ u.Indistinct u'

namespace Declarations

variable {d : Declarations} {catalogue : Catalogue} {N : Names}
  {unions : List (String × UnionDeclaration)}

/-- The same unions, with the members of each of them listed in any order. -/
def SameUnions (unions unions' : List (String × UnionDeclaration)) : Prop :=
  List.Forall₂ (fun u u' => u.1 = u'.1 ∧ u.2.SameMembers u'.2) unions unions'

theorem SameUnions.symm {unions unions' : List (String × UnionDeclaration)}
    (h : SameUnions unions unions') : SameUnions unions' unions :=
  List.Forall₂.flip (h.imp fun _ _ hu => ⟨hu.1.symm, hu.2.symm⟩)

theorem SameUnions.names {unions unions' : List (String × UnionDeclaration)}
    (h : SameUnions unions unions') : unions.map (·.1) = unions'.map (·.1) :=
  map_eq_map_iff_forall₂.mpr (h.imp fun _ _ hu => hu.1)

theorem SameUnions.exists_union {unions unions' : List (String × UnionDeclaration)}
    (h : SameUnions unions unions') {name : String} {declaration : UnionDeclaration}
    (hmem : (name, declaration) ∈ unions) :
    ∃ declaration', (name, declaration') ∈ unions' ∧ declaration.SameMembers declaration' := by
  obtain ⟨i, hi, he⟩ := List.getElem_of_mem hmem
  have hi' : i < unions'.length := h.length_eq ▸ hi
  obtain ⟨hname, hmembers⟩ := h.get hi hi'
  simp only [List.get_eq_getElem, he] at hname hmembers
  refine ⟨unions'[i].2, ?_, hmembers⟩
  rw [hname]
  exact List.getElem_mem hi'

def withUnions (d : Declarations) (unions : List (String × UnionDeclaration)) : Declarations :=
  { d with unions }

section

variable (h : SameUnions d.unions unions)

include h

theorem proper_withUnions (hp : d.Proper) : (d.withUnions unions).Proper :=
  ⟨hp.types, hp.enums, hp.typeHosts, hp.enumHosts, h.names ▸ hp.unionNames⟩

theorem describes_withUnions {ref : TypeRef} (href : d.Describes catalogue ref) :
    (d.withUnions unions).Describes catalogue ref := by
  have henums : d.enums ⊆ (d.withUnions unions).enums := List.Subset.refl _
  refine href.mono (fun ref hmem => ?_) henums
  simp only [mentions, List.mem_append, List.mem_flatMap] at hmem ⊢
  rcases hmem with (hearlier | ⟨⟨name, declaration⟩, hunion, hmember⟩) | hinput
  · exact .inl (.inl hearlier)
  · obtain ⟨declaration', hunion', hmembers⟩ := h.exists_union hunion
    exact .inl (.inr ⟨_, hunion', hmembers.members.mem_iff.mp hmember⟩)
  · exact .inr hinput

theorem describes_of_withUnions {ref : TypeRef}
    (href : (d.withUnions unions).Describes catalogue ref) : d.Describes catalogue ref := by
  have hback : SameUnions (d.withUnions unions).unions d.unions := h.symm
  exact describes_withUnions hback href

theorem owns_of_withUnions {i : Identity} {name : String}
    (hi : (d.withUnions unions).Owns catalogue N i name) : d.Owns catalogue N i name := by
  cases hi with
  | scalar ht => exact .scalar ht
  | enumeration hdescribes hname => exact .enumeration (describes_of_withUnions h hdescribes) hname
  | object hdescribes hname => exact .object (describes_of_withUnions h hdescribes) hname
  | root hroot => exact .root hroot
  | union hunion =>
    obtain ⟨_, hunion', -⟩ := h.symm.exists_union hunion
    exact .union hunion'
  | inputObject hdescribes hname => exact .inputObject (describes_of_withUnions h hdescribes) hname

/-- Names fit in whatever order members are listed. -/
theorem fits_withUnions (hN : d.Fits catalogue N) : (d.withUnions unions).Fits catalogue N where
  scalarHosts := hN.scalarHosts
  scalars := hN.scalars
  isUnion name := (hN.isUnion name).trans (by rw [h.names]; rfl)
  enumeration hdescribes hname := hN.enumeration (describes_of_withUnions h hdescribes) hname
  object hdescribes hname := hN.object (describes_of_withUnions h hdescribes) hname
  inputObject hdescribes hname := hN.inputObject (describes_of_withUnions h hdescribes) hname
  roots := hN.roots
  types := hN.types
  enums := hN.enums
  inputs := hN.inputs
  unions := fun ⟨name, declaration⟩ hunion => by
    obtain ⟨declaration', hunion', hmembers⟩ := h.symm.exists_union hunion
    obtain ⟨u, hu⟩ := Option.isSome_iff_exists.mp (hN.unions _ hunion')
    exact Option.isSome_iff_exists.mpr (Names.exists_union hmembers.symm hu)
  owner hi hi' := hN.owner (owns_of_withUnions h hi) (owns_of_withUnions h hi')

/-- What declarations come to cannot be told apart from what they come to with members listed in any
order. -/
theorem exists_makes_withUnions {node : TypeNode} (hnode : d.Makes catalogue N node) :
    ∃ node', (d.withUnions unions).Makes catalogue N node' ∧ node'.name = node.name ∧
      node.Indistinct node' := by
  cases hnode with
  | scalar ht hname => exact ⟨_, .scalar ht hname, rfl, .inl rfl⟩
  | enumeration hdescribes hname =>
    exact ⟨_, .enumeration (describes_withUnions h hdescribes) hname, rfl, .inl rfl⟩
  | object hdescribes ho hname =>
    exact ⟨_, .object (describes_withUnions h hdescribes) ho hname, rfl, .inl rfl⟩
  | root hroot ho => exact ⟨_, .root hroot ho, rfl, .inl rfl⟩
  | union hunion ht =>
    obtain ⟨declaration', hunion', hmembers⟩ := h.exists_union hunion
    obtain ⟨t', ht'⟩ := Names.exists_union hmembers ht
    have hname : t'.name = _ := (Names.name_of_union ht').trans (Names.name_of_union ht).symm
    exact ⟨_, .union hunion' ht', hname,
      .inr ⟨_, _, rfl, rfl, Names.indistinct_union hmembers ht ht'⟩⟩
  | inputObject hdescribes ht hname =>
    exact ⟨_, .inputObject (describes_withUnions h hdescribes) ht hname, rfl, .inl rfl⟩

theorem transfers_withUnions (hd : d.Coherent catalogue) (hp : d.Proper) :
    d.Transfers catalogue TypeNode.Indistinct (d.withUnions unions) :=
  ⟨hd.of_describes (describes_of_withUnions h), proper_withUnions h hp, fits_withUnions h,
    exists_makes_withUnions h⟩

/-- What is registered is registered in whatever order members are listed, and no execution can tell
the difference. -/
theorem register_withUnions (hd : d.Coherent catalogue) (hp : d.Proper) {g : TypeGraph}
    (hg : d.register catalogue = .ok g) :
    ∃ g', (d.withUnions unions).register catalogue = .ok g' ∧ g.Indistinct g' := by
  have htransfers := transfers_withUnions h hd hp
  have hback : SameUnions (d.withUnions unions).unions d.unions := h.symm
  obtain ⟨r, r', mutation, rfl, hg', -, -, hnames, htypes⟩ := htransfers.register
    (transfers_withUnions hback htransfers.coherent htransfers.proper) rfl hg
  have hcases (name : String) : (r.graph mutation).type? name = (r'.graph mutation).type? name ∨
      ∃ u u', (r.graph mutation).type? name = some (.union u) ∧
        (r'.graph mutation).type? name = some (.union u') ∧ u.Indistinct u' := by
    have hrel := htypes name
    revert hrel
    generalize (r.graph mutation).type? name = node
    generalize (r'.graph mutation).type? name = node'
    rintro (⟨rfl | ⟨u, u', rfl, rfl, hu⟩⟩ | _)
    · exact .inl rfl
    · exact .inr ⟨u, u', rfl, rfl, hu⟩
    · exact .inl rfl
  refine ⟨_, hg', hcases, ?_, rfl, rfl⟩
  funext host
  have hlookup : r.scalarNames.lookup host = r'.scalarNames.lookup host :=
    congrFun (congrArg Names.scalars hnames) host
  change (r.scalarNames.lookup host).bind (r.graph mutation).scalar? =
    (r'.scalarNames.lookup host).bind (r'.graph mutation).scalar?
  rw [hlookup]
  congr 1
  funext name
  rcases hcases name with he | ⟨u, u', hu, hu', -⟩
  · rw [TypeGraph.scalar?, TypeGraph.scalar?, he]
  · rw [TypeGraph.scalar?, TypeGraph.scalar?, hu, hu']
    rfl

end

end Declarations

/-- The same call, up to the order in which the members of a union are listed. -/
inductive BuilderCall.SameMembers : BuilderCall → BuilderCall → Prop
  | same (c : BuilderCall) : SameMembers c c
  | union (name : String) {u u' : UnionDeclaration} : u.SameMembers u' →
    SameMembers (.union name u) (.union name u')

theorem BuilderCall.SameMembers.symm {c c' : BuilderCall} (h : c.SameMembers c') :
    c'.SameMembers c := by
  cases h with
  | same => exact .same c
  | union name hu => exact .union name hu.symm

namespace SchemaBuilder

open Declarations (SameUnions)

def withUnions (b : SchemaBuilder) (unions : List (String × UnionDeclaration)) : SchemaBuilder :=
  { b with declarations := b.declarations.withUnions unions }

variable {catalogue : Catalogue} {calls calls' : List BuilderCall}

theorem union_withUnions {b : SchemaBuilder} {unions : List (String × UnionDeclaration)}
    (h : SameUnions b.declarations.unions unions) (name : String) {u u' : UnionDeclaration}
    (hu : u.SameMembers u') : ∃ unions', SameUnions (b.union name u).declarations.unions unions' ∧
      (b.withUnions unions).union name u' = (b.union name u).withUnions unions' := by
  have hlookup : ((b.withUnions unions).declarations.unions.lookup name).isSome =
      (b.declarations.unions.lookup name).isSome := by
    rw [Bool.eq_iff_iff, Entries.isSome_lookup_iff, Entries.isSome_lookup_iff, h.names]
    rfl
  rw [union, union, hlookup]
  split
  · exact ⟨unions, h, rfl⟩
  · exact ⟨unions ++ [(name, u')], List.rel_append h (.cons ⟨rfl, hu⟩ .nil), rfl⟩

/-- Builders that differ in the order of members at most go on doing so. -/
theorem call_withUnions {b : SchemaBuilder} {unions : List (String × UnionDeclaration)}
    (h : SameUnions b.declarations.unions unions) {c c' : BuilderCall} (hc : c.SameMembers c') :
    ∃ unions', SameUnions (b.call c).declarations.unions unions' ∧
      (b.withUnions unions).call c' = (b.call c).withUnions unions' := by
  cases hc with
  | union name hu => exact union_withUnions h name hu
  | same c =>
    cases c with
    | query | mutation | input => exact ⟨unions, h, rfl⟩
    | type ref => cases ref <;> exact ⟨unions, h, rfl⟩
    | enumeration ref => cases ref <;> exact ⟨unions, h, rfl⟩
    | union name u => exact union_withUnions h name ⟨rfl, .refl _⟩
    | scalar d =>
      rw [call, call, scalar, scalar]
      cases d.complete <;> exact ⟨unions, h, rfl⟩

/-- Calls that list members in other orders make a builder that differs in these orders only. -/
theorem ofCalls_withUnions (h : List.Forall₂ BuilderCall.SameMembers calls calls') :
    ∃ unions, SameUnions (ofCalls calls).declarations.unions unions ∧
      ofCalls calls' = (ofCalls calls).withUnions unions := by
  have hfold {b : SchemaBuilder} {unions : List (String × UnionDeclaration)}
      (hunions : SameUnions b.declarations.unions unions) :
      ∃ unions', SameUnions (calls.foldl call b).declarations.unions unions' ∧
        calls'.foldl call (b.withUnions unions) = (calls.foldl call b).withUnions unions' := by
    induction h generalizing b unions with
    | nil => exact ⟨unions, hunions, rfl⟩
    | cons hc _ ih =>
      obtain ⟨unions', hunions', he⟩ := call_withUnions hunions hc
      rw [List.foldl_cons, List.foldl_cons, he]
      exact ih hunions'
  have hnew : SameUnions new.declarations.unions [] := .nil
  exact hfold hnew

theorem build_of_sameMembers (h : List.Forall₂ BuilderCall.SameMembers calls calls')
    (hd : (ofCalls calls).declarations.Coherent catalogue) :
    (ofCalls calls').declarations.Coherent catalogue ∧
      ∀ s, ((ofCalls calls).build catalogue).1 = .ok s →
        ∃ s', ((ofCalls calls').build catalogue).1 = .ok s' ∧ s.graph.Indistinct s'.graph := by
  obtain ⟨unions, hunions, he⟩ := ofCalls_withUnions h
  have hdeclarations : (ofCalls calls').declarations =
      (ofCalls calls).declarations.withUnions unions := congrArg declarations he
  refine ⟨?_, fun s hs => ?_⟩
  · rw [hdeclarations]
    exact hd.of_describes (Declarations.describes_of_withUnions hunions)
  · obtain ⟨hsane, hg, -⟩ := build_eq_ok.mp hs
    have hsane' : Sane calls' := by
      rw [← (errors_ofCalls calls').1, he]
      exact (errors_ofCalls calls).1.mpr hsane
    obtain ⟨g', hg', hgraph⟩ :=
      Declarations.register_withUnions hunions hd (proper_ofCalls calls) hg
    rw [← hdeclarations] at hg'
    exact ⟨⟨g', .default⟩, build_eq_ok.mpr ⟨hsane', hg', rfl⟩, hgraph⟩

/-- The order in which the members of unions are listed makes no difference: whether a schema is
built, and what is executed against it. -/
theorem executeOn?_of_sameMembers (h : List.Forall₂ BuilderCall.SameMembers calls calls')
    (hd : (ofCalls calls).declarations.Coherent catalogue) :
    ((∃ s, ((ofCalls calls).build catalogue).1 = .ok s) ↔
      ∃ s, ((ofCalls calls').build catalogue).1 = .ok s) ∧
    ∀ s s', ((ofCalls calls).build catalogue).1 = .ok s →
      ((ofCalls calls').build catalogue).1 = .ok s' → ∀ configuration workers depth r,
        (Schema.mk s.graph configuration).executeOn? workers depth r =
          (Schema.mk s'.graph configuration).executeOn? workers depth r := by
  obtain ⟨hd', hbuild⟩ := build_of_sameMembers h hd
  have hback : List.Forall₂ BuilderCall.SameMembers calls' calls :=
    List.Forall₂.flip (h.imp fun _ _ hc => hc.symm)
  refine ⟨⟨fun ⟨s, hs⟩ => ?_, fun ⟨s', hs'⟩ => ?_⟩, fun s s' hs hs' configuration workers depth r => ?_⟩
  · obtain ⟨s', hs', -⟩ := hbuild s hs
    exact ⟨s', hs'⟩
  · obtain ⟨s, hs, -⟩ := (build_of_sameMembers hback hd').2 s' hs'
    exact ⟨s, hs⟩
  · obtain ⟨other, hother, hgraph⟩ := hbuild s hs
    cases hother.symm.trans hs'
    exact Schema.executeOn?_of_indistinct hgraph configuration workers depth r

end SchemaBuilder

end Trellis
