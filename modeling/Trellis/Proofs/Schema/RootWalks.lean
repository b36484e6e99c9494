import Trellis.Proofs.Schema.ObjectWalks

/-!
Walks from the declarations.

Registration enters scalars, roots, declared types, input types and unions, one after the other. No
name is opened between any two of them, and every declared union has a type at the end.
-/

namespace Trellis

theorem Registry.Extends.provides {r s : Registry} (h : r.Extends s) {name : String}
    {identity : Identity} (hr : r.Provides [] name identity) : s.Provides [] name identity := by
  obtain ⟨node, hnode, hmem⟩ := hr.resolve_left List.not_mem_nil
  exact .inr ⟨node, hnode, h.types name node hmem⟩

namespace Registering

variable {d : Declarations} {catalogue : Catalogue} {opened : List (String × Identity)}
  {r s : Registry}

theorem runs_discard {α : Type} {op : Registering α} {u : Unit} (h : Runs (discard op) r u s) :
    ∃ a, Runs op r a s := by
  obtain ⟨a, ha, -⟩ := runs_map.mp h
  exact ⟨a, ha⟩

theorem addRoot_advances (hd : d.Unambiguous catalogue) {depth : Nat} {name : String}
    {declarations : List PropertyDeclaration} {u : Unit}
    (h : Runs (addRoot catalogue depth name declarations) r u s)
    (hdescribes : ∀ declaration ∈ declarations, ∀ ref ∈ declaration.mentions,
      d.Describes catalogue ref)
    (hr : d.Sound catalogue opened r) : d.Advances catalogue opened r s := by
  obtain ⟨_, _, hreserve, hrest⟩ := runs_bind.mp h
  obtain ⟨hname, rfl⟩ := runs_reserve hreserve
  obtain ⟨properties, t, hdeclared, hfill⟩ := runs_bind.mp hrest
  have hopened := hr.reserve hname (.object none)
  obtain ⟨⟨hsound, hgrown⟩, hproperties⟩ := insertDeclared_holding hd
    (registerObject_advances hd depth depth) hdeclared hdescribes (.nil hopened)
  obtain ⟨hlast, hfilled⟩ := fill_advances (.object _) hfill hsound hproperties
  exact ⟨hlast, (Registry.Extends.reserve _ _).trans (hgrown.trans hfilled)⟩

theorem addDeclared_advances (hd : d.Unambiguous catalogue) {depth : Nat} {ref : TypeRef} {u : Unit}
    (h : Runs (addDeclared catalogue depth ref) r u s) (hr : d.Sound catalogue opened r)
    (hdescribes : d.Describes catalogue ref) : d.Advances catalogue opened r s := by
  cases ref with
  | object host outline =>
    obtain ⟨name, hobject⟩ := runs_discard h
    exact (registerObject_advances hd depth depth hobject hr hdescribes).1
  | enumeration host shape =>
    obtain ⟨name, henum⟩ := runs_discard h
    exact (registerEnum_advances hd henum hr hdescribes).1
  | scalar | inputObject | list | nullable | union | function | generic =>
    obtain ⟨-, rfl⟩ := runs_pure.mp h
    exact ⟨hr, .refl _⟩

/-- Members of unions are objects. -/
theorem unionMember_advances (hd : d.Unambiguous catalogue) {depth : Nat} {union : String}
    {ref : TypeRef} {member : HostType × String}
    (h : Runs (unionMember catalogue depth union ref) r member s) (hr : d.Sound catalogue opened r)
    (hdescribes : d.Describes catalogue ref) :
    d.Advances catalogue opened r s ∧ member ∈ s.outputs ∧
      ∃ outline, d.Describes catalogue (.object member.1 outline) := by
  cases ref with
  | object host outline =>
    obtain ⟨name, t, hobject, hpure⟩ := runs_bind.mp h
    obtain ⟨rfl, rfl⟩ := runs_pure.mp hpure
    obtain ⟨hadvances, hmem⟩ := registerObject_advances hd depth depth hobject hr hdescribes
    exact ⟨hadvances, hmem, outline, hdescribes⟩
  | scalar | enumeration | inputObject | list | nullable | union | function | generic =>
    exact absurd h not_runs_refuse

theorem unionMembers_advances (hd : d.Unambiguous catalogue) {depth : Nat} {union : String}
    {refs : List TypeRef} {members : List (HostType × String)}
    (h : Runs (refs.mapM (unionMember catalogue depth union)) r members s)
    (hdescribes : ∀ ref ∈ refs, d.Describes catalogue ref) (hr : d.Sound catalogue opened r) :
    d.Advances catalogue opened r s ∧ ∀ member ∈ members, member ∈ s.outputs ∧
      ∃ outline, d.Describes catalogue (.object member.1 outline) := by
  refine mapM_advances (Q := fun t member => member ∈ t.outputs ∧
    ∃ outline, d.Describes catalogue (.object member.1 outline)) ?_ ?_ h hr
  · intro t t' member hgrown hmember
    exact hmember.imp_left fun hmem => hgrown.outputs hmem
  · intro ref hmem member t t' hrun ht
    exact unionMember_advances hd hrun ht (hdescribes ref hmem)

/-- A union is entered under its name, with objects for its members. -/
theorem addUnion_advances (hd : d.Unambiguous catalogue) {depth : Nat} {name : String}
    {declaration : UnionDeclaration} {u : Unit}
    (h : Runs (addUnion catalogue depth name declaration) r u s)
    (hdescribes : ∀ ref ∈ declaration.members, d.Describes catalogue ref)
    (hr : d.Sound catalogue [] r) :
    d.Advances catalogue [] r s ∧ s.Provides [] name .union := by
  rw [addUnion] at h
  split at h
  · exact absurd h not_runs_refuse
  · obtain ⟨_, _, hreserve, hrest⟩ := runs_bind.mp h
    obtain ⟨hname, rfl⟩ := runs_reserve hreserve
    obtain ⟨members, t, hmembers, hfill⟩ := runs_bind.mp hrest
    have hopened := hr.reserve hname .union
    obtain ⟨⟨hsound, hgrown⟩, hobjects⟩ := unionMembers_advances hd hmembers hdescribes hopened
    have hnode : d.NodeHolds catalogue t (.union
        ⟨name, declaration.description, members.map (·.2), Entries.ofPairs members⟩) := by
      intro member hmember
      obtain ⟨entry, hentry, rfl⟩ := List.mem_map.mp hmember
      obtain ⟨houtput, outline, hdescribed⟩ := hobjects entry hentry
      exact ⟨entry.1, outline, hdescribed, houtput⟩
    obtain ⟨hlast, hfilled⟩ := fill_advances _ hfill hsound hnode
    refine ⟨⟨hlast, (Registry.Extends.reserve _ _).trans (hgrown.trans hfilled)⟩, .inr ?_⟩
    obtain rfl := runs_fill hfill
    refine ⟨_, rfl, Declarations.Tidy.mem_fill.mpr (.inl ⟨rfl, rfl, ?_⟩)⟩
    exact List.mem_map_of_mem ((hsound.tidy.reserved name).mpr List.mem_cons_self)

/-- Once all declared unions are added, each of them has a type. -/
theorem unions_sound (hd : d.Unambiguous catalogue) {depth : Nat} {u : Unit}
    (h : Runs (d.unions.forM fun (name, declaration) => addUnion catalogue depth name declaration)
      r u s)
    (hdescribes : ∀ union ∈ d.unions, ∀ ref ∈ union.2.members, d.Describes catalogue ref)
    (hr : d.Sound catalogue [] r) :
    d.Sound catalogue [] s ∧ ∀ union ∈ s.unionNames, s.Provides [] union .union := by
  have hall := forM_invariant (P := fun rest t => d.Sound catalogue [] t ∧
    ∀ union ∈ d.unions, union ∈ rest ∨ t.Provides [] union.1 .union)
    (fun {union rest _ t t'} hmem hrun ⟨ht, hmet⟩ => ?_) h ⟨hr, fun union hmem => .inl hmem⟩
  · obtain ⟨hs, hmet⟩ := hall
    refine ⟨hs, fun name hmem => ?_⟩
    rw [hs.unionNames] at hmem
    obtain ⟨union, hunion, rfl⟩ := List.mem_map.mp hmem
    exact (hmet union hunion).resolve_left List.not_mem_nil
  · obtain ⟨hadvances, hunion⟩ := addUnion_advances hd hrun (hdescribes union hmem) ht
    refine ⟨hadvances.1, fun other hother => ?_⟩
    rcases hmet other hother with hmem | hprovides
    · rcases List.mem_cons.mp hmem with rfl | hmem
      · exact .inr hunion
      · exact .inl hmem
    · exact .inr (hadvances.2.provides hprovides)

/-- Everything that is declared keeps the registry in good order, and every union gets a type. -/
theorem addAll_sound (hd : d.Unambiguous catalogue) {depth : Nat} {u : Unit}
    (h : Runs (addAll catalogue depth d) (.start d) u s) :
    d.Sound catalogue [] s ∧ ∀ union ∈ s.unionNames, s.Provides [] union .union := by
  have hmention {ref : TypeRef} (hmem : ref ∈ d.mentions) : d.Describes catalogue ref :=
    .mention hmem
  simp only [Declarations.mentions, List.mem_append, List.mem_flatMap] at hmention
  rw [addAll] at h
  obtain ⟨_, scalars, hscalars, hrest⟩ := runs_bind.mp h
  obtain ⟨_, queries, hqueries, hrest⟩ := runs_bind.mp hrest
  obtain ⟨_, mutations, hmutations, hrest⟩ := runs_optional hrest
  rw [runs_get_bind] at hrest
  obtain ⟨_, declared, hdeclared, hrest⟩ := runs_bind.mp hrest
  obtain ⟨_, inputs, hinputs, hunions⟩ := runs_bind.mp hrest
  have hscalars : d.Sound catalogue [] scalars :=
    forM_invariant (P := fun _ t => d.Sound catalogue [] t)
      (fun _ hrun ht => (addScalar_advances hrun ht).1) hscalars (.start d catalogue)
  have hqueries : d.Sound catalogue [] queries :=
    (addRoot_advances hd hqueries (fun q hq ref hmem =>
      hmention (.inl (.inl (.inl (.inl ⟨q, hq, hmem⟩))))) hscalars).1
  have hmutations : d.Sound catalogue [] mutations := by
    split at hmutations
    · exact (addRoot_advances hd hmutations (fun q hq ref hmem =>
        hmention (.inl (.inl (.inl (.inr ⟨q, hq, hmem⟩))))) hqueries).1
    · obtain ⟨-, rfl⟩ := runs_pure.mp hmutations
      exact hqueries
  have htypes (ref) (hmem : ref ∈ mutations.typeDeclarations.map (·.2.type) ++
      mutations.enumDeclarations.map (·.2.type)) : d.Describes catalogue ref := by
    rcases List.mem_append.mp hmem with hmem | hmem
    · obtain ⟨entry, hentry, rfl⟩ := List.mem_map.mp hmem
      have htype : entry.2.type ∈ entry.2.mentions := List.mem_append_left _ List.mem_cons_self
      exact hmention (.inl (.inl (.inr ⟨entry, hmutations.typeDeclarations hentry, htype⟩)))
    · obtain ⟨entry, hentry, rfl⟩ := List.mem_map.mp hmem
      exact .customized (hmutations.enumDeclarations hentry)
  have hdeclared : d.Sound catalogue [] declared :=
    forM_invariant (P := fun _ t => d.Sound catalogue [] t)
      (fun hmem hrun ht => (addDeclared_advances hd hrun ht (htypes _ hmem)).1) hdeclared hmutations
  have hinputs : d.Sound catalogue [] inputs := by
    refine forM_invariant (P := fun _ t => d.Sound catalogue [] t) (fun hmem hrun ht => ?_) hinputs
      hdeclared
    obtain ⟨type, hinput⟩ := runs_discard hrun
    exact (inputType_advances hd (registerInput_advances hd depth) hinput ht
      (hmention (.inr hmem))).1.1
  exact unions_sound hd hunions (fun union hmem ref href =>
    hmention (.inl (.inr ⟨union, hmem, href⟩))) hinputs

end Registering

end Trellis
