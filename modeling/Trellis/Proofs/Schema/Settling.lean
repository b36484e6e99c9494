import Trellis.Proofs.Schema.RootTranslation

/-!
Settled registries.

A registration that ends well leads into a registry whose names fit: all that is declared comes to
something under them, and no two types share a name. Conversely, a registration ends well whenever
any names fit, and gives no others.
-/

namespace Trellis

/-- Whether a type that is declared, and may be mentioned nowhere, has a name. -/
def Names.declared (N : Names) : TypeRef → Option Unit
  | .object host _ | .enumeration host _ => discard (N.outputs host)
  | _ => pure ()

namespace Declarations

/-- A registry once everything that is declared is there. -/
structure Settled (d : Declarations) (catalogue : Catalogue) (r : Registry) : Prop where
  faithful : d.Faithful catalogue [] r
  scalarHosts : (d.allScalars.map (·.coercion.host)).Nodup
  scalars : ∀ t ∈ d.allScalars, (t.name, some (.scalar t)) ∈ r.types
  roots : ∀ root ∈ d.roots, r.Provides [] root.1 (.object none)
  types : ∀ entry ∈ d.types, (r.names.outputs entry.1).isSome
  enums : ∀ entry ∈ d.enums, (r.names.outputs entry.1).isSome
  inputs : ∀ ref ∈ d.inputs, (r.names.inputType ref).isSome
  unions : ∀ union ∈ d.unions, r.Provides [] union.1 .union

end Declarations

namespace Registering

variable {d : Declarations} {catalogue : Catalogue} {opened : List (String × Identity)}
  {r s : Registry} {N : Names} {done : List String} {objectDepth inputDepth depth : Nat}

/-- Registration in five loops. -/
theorem addAll_eq (catalogue : Catalogue) (depth : Nat) (d : Declarations) :
    addAll catalogue depth d = (do
      d.allScalars.forM addScalar
      d.roots.forM fun root => addRoot catalogue depth root.1 root.2
      let remaining ← get
      (remaining.typeDeclarations.map (·.2.type) ++
        remaining.enumDeclarations.map (·.2.type)).forM (addDeclared catalogue depth)
      d.inputs.forM fun ref => discard (inputType (registerInput catalogue depth) ref)
      d.unions.forM fun union => addUnion catalogue depth union.1 union.2) := by
  rw [addAll, Declarations.roots, Declarations.allScalars]
  cases d.mutations.isEmpty <;> simp [List.forM]

theorem runs_addAll {u : Unit} : Runs (addAll catalogue depth d) r u s ↔ ∃ r₁ r₂ r₃ r₄,
    Runs (d.allScalars.forM addScalar) r () r₁ ∧
    Runs (d.roots.forM fun root => addRoot catalogue depth root.1 root.2) r₁ () r₂ ∧
    Runs ((r₂.typeDeclarations.map (·.2.type) ++ r₂.enumDeclarations.map (·.2.type)).forM
      (addDeclared catalogue depth)) r₂ () r₃ ∧
    Runs (d.inputs.forM fun ref => discard (inputType (registerInput catalogue depth) ref))
      r₃ () r₄ ∧
    Runs (d.unions.forM fun union => addUnion catalogue depth union.1 union.2) r₄ () s := by
  rw [addAll_eq]
  constructor
  · intro h
    obtain ⟨_, r₁, hscalars, hrest⟩ := runs_bind.mp h
    obtain ⟨_, r₂, hroots, hrest⟩ := runs_bind.mp hrest
    rw [runs_get_bind] at hrest
    obtain ⟨_, r₃, hdeclared, hrest⟩ := runs_bind.mp hrest
    obtain ⟨_, r₄, hinputs, hunions⟩ := runs_bind.mp hrest
    exact ⟨r₁, r₂, r₃, r₄, hscalars, hroots, hdeclared, hinputs, hunions⟩
  · rintro ⟨r₁, r₂, r₃, r₄, hscalars, hroots, hdeclared, hinputs, hunions⟩
    refine runs_bind.mpr ⟨(), r₁, hscalars, runs_bind.mpr ⟨(), r₂, hroots, ?_⟩⟩
    rw [runs_get_bind]
    exact runs_bind.mpr ⟨(), r₃, hdeclared, runs_bind.mpr ⟨(), r₄, hinputs, hunions⟩⟩

theorem translates_addDeclared (hd : d.Coherent catalogue) (hp : d.Proper) {ref : TypeRef}
    (hdescribes : d.Describes catalogue ref) :
    Translates d catalogue depth depth (addDeclared catalogue depth ref) fun N => N.declared ref := by
  cases ref with
  | object host outline => exact (translates_registerObject hd hp depth depth hdescribes).discard
  | enumeration host shape => exact (translates_registerEnum hd hdescribes).discard
  | scalar | inputObject | list | nullable | union | function | generic => exact .pure ()

theorem describes_of_remaining (htypes : r.typeDeclarations ⊆ d.types)
    (henums : r.enumDeclarations ⊆ d.enums) {ref : TypeRef}
    (h : ref ∈ r.typeDeclarations.map (·.2.type) ++ r.enumDeclarations.map (·.2.type)) :
    d.Describes catalogue ref := by
  rcases List.mem_append.mp h with hmem | hmem
  · obtain ⟨entry, hentry, rfl⟩ := List.mem_map.mp hmem
    refine .mention ?_
    simp only [Declarations.mentions, List.mem_append, List.mem_flatMap]
    have htype : entry.2.type ∈ entry.2.mentions := List.mem_append_left _ List.mem_cons_self
    exact .inl (.inl (.inr ⟨entry, htypes hentry, htype⟩))
  · obtain ⟨entry, hentry, rfl⟩ := List.mem_map.mp hmem
    exact .customized (henums hentry)

theorem describes_of_input {ref : TypeRef} (h : ref ∈ d.inputs) : d.Describes catalogue ref :=
  .mention (List.mem_append_right _ h)

/-- Items that are added one after the other are all there at the end. -/
theorem forM_faithful {α : Type} {f : α → Registering Unit} {key : α → String}
    (identity : Identity) {items : List α}
    (hstep : ∀ item ∈ items, ∀ {u : Unit} {r s : Registry}, Runs (f item) r u s →
      d.Faithful catalogue [] r → (d.Faithful catalogue [] s ∧ r.Extends s) ∧
        s.Provides [] (key item) identity) {u : Unit} (h : Runs (items.forM f) r u s)
    (hr : d.Faithful catalogue [] r) : (d.Faithful catalogue [] s ∧ r.Extends s) ∧
      ∀ item ∈ items, s.Provides [] (key item) identity := by
  have hall := forM_invariant (P := fun rest t => (d.Faithful catalogue [] t ∧ r.Extends t) ∧
    ∀ item ∈ items, item ∈ rest ∨ t.Provides [] (key item) identity)
    (fun {item rest _ t t'} hmem hrun ⟨⟨ht, hgrown⟩, hmet⟩ => ?_) h
    ⟨⟨hr, .refl r⟩, fun item hmem => .inl hmem⟩
  · exact ⟨hall.1, fun item hmem => (hall.2 item hmem).resolve_left List.not_mem_nil⟩
  · obtain ⟨⟨ht', hgrown'⟩, hprovides⟩ := hstep item hmem hrun ht
    refine ⟨⟨ht', hgrown.trans hgrown'⟩, fun other hother => ?_⟩
    rcases hmet other hother with hrest | hmet
    · rcases List.mem_cons.mp hrest with rfl | hrest
      · exact .inr hprovides
      · exact .inl hrest
    · exact .inr (hgrown'.provides hmet)

/-- Registration that ends well leads into a settled registry. -/
theorem addAll_settled (hd : d.Coherent catalogue) (hp : d.Proper) {u : Unit}
    (h : Runs (addAll catalogue depth d) (.start d) u s) : d.Settled catalogue s := by
  obtain ⟨r₁, r₂, r₃, r₄, hscalars, hroots, hdeclared, hinputs, hunions⟩ := runs_addAll.mp h
  obtain ⟨h₁, hhosts, rfl⟩ := addScalars_faithful catalogue hscalars
  obtain ⟨⟨h₂, hgrown₂⟩, hrooted⟩ := forM_faithful (.object none)
    (fun root hmem {_ _ _} hrun ht => addRoot_faithful hd hp hmem hrun ht) hroots h₁
  obtain ⟨⟨h₃, hgrown₃⟩, hnamed⟩ := (Translates.forM fun ref hmem => translates_addDeclared hd hp
    (describes_of_remaining h₂.sound.typeDeclarations h₂.sound.enumDeclarations hmem)).rises
      hdeclared h₂
  obtain ⟨⟨h₄, hgrown₄⟩, hinput⟩ := (Translates.forM fun ref hmem =>
    (translates_inputType hd (translates_registerInput hd hp depth depth)
      (describes_of_input hmem)).discard).rises hinputs h₃
  obtain ⟨⟨hs, hgrown⟩, hunioned⟩ := forM_faithful .union
    (fun union hmem {_ _ _} hrun ht => addUnion_faithful hd hp hmem hrun ht) hunions h₄
  have hunder₄ := hgrown.under hs.sound s.under_names
  have hunder₃ := hgrown₄.under h₄.sound hunder₄
  have hunder₂ := hgrown₃.under h₃.sound hunder₃
  have hdeclared (ref) (hmem : ref ∈ r₂.typeDeclarations.map (·.2.type) ++
      r₂.enumDeclarations.map (·.2.type)) := forM_eq_some.mp (hnamed hunder₃) ref hmem
  -- What was not met from the roots was left in the declarations, and so it was met then.
  have hmet {host : HostType} (hleft : r₂.outputs.lookup host = none →
      (s.names.outputs host).isSome) : (s.names.outputs host).isSome := by
    cases hlookup : r₂.outputs.lookup host with
    | some name => exact Option.isSome_iff_exists.mpr ⟨name, hunder₂.outputs hlookup⟩
    | none => exact hleft hlookup
  exact {
    faithful := hs
    scalarHosts := hhosts
    scalars := fun t ht => by
      refine hgrown.types _ _ (hgrown₄.types _ _ (hgrown₃.types _ _ (hgrown₂.types _ _ ?_)))
      exact List.mem_map_of_mem ht
    roots := fun root hroot =>
      hgrown.provides (hgrown₄.provides (hgrown₃.provides (hrooted root hroot)))
    types := fun ⟨host, declaration⟩ hentry => hmet fun hnone => by
      obtain ⟨outline, htype⟩ := hp.types host declaration hentry
      have hlookup := (h₂.unspent.types host hnone).trans
        (Entries.lookup_of_mem hp.typeHosts hentry)
      have hnamed := hdeclared _ (List.mem_append_left _
        (List.mem_map_of_mem (Entries.mem_of_lookup hlookup)))
      rw [htype] at hnamed
      exact discard_eq_some.mp hnamed
    enums := fun ⟨host, declaration⟩ hentry => hmet fun hnone => by
      obtain ⟨shape, htype⟩ := hp.enums host declaration hentry
      have hlookup := (h₂.unspent.enums host hnone).trans
        (Entries.lookup_of_mem hp.enumHosts hentry)
      have hnamed := hdeclared _ (List.mem_append_right _
        (List.mem_map_of_mem (Entries.mem_of_lookup hlookup)))
      rw [htype] at hnamed
      exact discard_eq_some.mp hnamed
    inputs := fun ref hmem =>
      discard_eq_some.mp (forM_eq_some.mp (hinput hunder₄) ref hmem)
    unions := hunioned }

end Registering

namespace Declarations

variable {d : Declarations} {catalogue : Catalogue} {r s : Registry} {N : Names} {depth : Nat}

theorem Proper.roots_nodup (d : Declarations) : (d.roots.map (·.1)).Nodup := by
  rw [roots]
  split <;> simp [Registering.queryName, Registering.mutationName]

namespace Settled

/-- A name that is given to an identity has a type of it. -/
theorem provides (h : d.Settled catalogue r) (hd : d.Coherent catalogue) {i : Identity}
    {name : String} (howns : d.Owns catalogue r.names i name) : r.Provides [] name i := by
  have hsound := h.faithful.sound
  cases howns with
  | scalar ht => exact .inr ⟨_, rfl, h.scalars _ ht⟩
  | @enumeration host shape _ hdescribes hname =>
    rcases hsound.outputs _ _ (Entries.mem_of_lookup hname) with ⟨-, outline, hobject⟩ | henum
    · exact absurd hobject (hd.object host shape outline hdescribes)
    · exact henum.2.1
  | @object host outline _ hdescribes hname =>
    rcases hsound.outputs _ _ (Entries.mem_of_lookup hname) with hobject | ⟨-, -, shape, henum⟩
    · exact hobject.1
    · exact absurd hdescribes (hd.object host shape outline henum)
  | root hroot => exact h.roots _ hroot
  | union hunion => exact h.unions _ hunion
  | @inputObject host outline _ hdescribes hname =>
    rcases hsound.inputs _ _ (Entries.mem_of_lookup hname) with hinput | ⟨-, -, shape, henum⟩
    · exact hinput.1
    · exact absurd hdescribes (hd.inputObject host shape outline henum)

theorem exists_node (h : d.Settled catalogue r) {i : Identity} {name : String}
    (hprovides : r.Provides [] name i) : ∃ node, (name, some node) ∈ r.types ∧ node.name = name ∧
      node.identity = i ∧ d.Makes catalogue r.names node := by
  obtain ⟨node, hi, hmem⟩ := hprovides.resolve_left List.not_mem_nil
  exact ⟨node, hmem, h.faithful.sound.tidy.named name node hmem, hi,
    h.faithful.makes hmem r.under_names⟩

theorem enumeration (h : d.Settled catalogue r) (hd : d.Coherent catalogue) {host : HostType}
    {shape : EnumShape} {name : String} (hdescribes : d.Describes catalogue (.enumeration host shape))
    (hname : r.names.outputs host = some name) :
    (name, some (.enumeration (d.enumeration host shape))) ∈ r.types ∧
      (d.enumeration host shape).name = name := by
  obtain ⟨node, hmem, hnamed, hi, hmakes⟩ := h.exists_node (h.provides hd (.enumeration hdescribes hname))
  cases hmakes with
  | enumeration hother =>
    cases hi
    obtain rfl := hd.shapes _ _ _ hdescribes hother
    exact ⟨hmem, hnamed⟩
  | scalar | object | root | union | inputObject => cases hi

theorem object (h : d.Settled catalogue r) (hd : d.Coherent catalogue) {host outline : HostType}
    {name : String} (hdescribes : d.Describes catalogue (.object host outline))
    (hname : r.names.outputs host = some name) : ∃ o, (name, some (.object o)) ∈ r.types ∧
      d.object catalogue r.names host outline = some o ∧ o.name = name := by
  obtain ⟨node, hmem, hnamed, hi, hmakes⟩ := h.exists_node (h.provides hd (.object hdescribes hname))
  cases hmakes with
  | @object other _ o hother ho _ =>
    obtain ⟨properties, -, rfl⟩ := Option.map_eq_some_iff.mp ho
    obtain rfl : other = host := Option.some.inj (Identity.object.inj hi)
    obtain rfl := hd.outlines _ _ _ hdescribes hother
    exact ⟨_, hmem, ho, hnamed⟩
  | @root _ declarations o _ ho =>
    obtain ⟨properties, -, hpure⟩ := Option.bind_eq_some_iff.mp ho
    cases hpure
    cases hi
  | scalar | enumeration | union | inputObject => cases hi

theorem inputObject (h : d.Settled catalogue r) (hd : d.Coherent catalogue)
    {host outline : HostType} {name : String}
    (hdescribes : d.Describes catalogue (.inputObject host outline))
    (hname : r.names.inputs host = some name) : ∃ t, (name, some (.inputObject t)) ∈ r.types ∧
      r.names.inputObject catalogue host outline = some t ∧ t.name = name := by
  obtain ⟨node, hmem, hnamed, hi, hmakes⟩ :=
    h.exists_node (h.provides hd (.inputObject hdescribes hname))
  cases hmakes with
  | @inputObject other _ t hother ht _ =>
    obtain ⟨fields, -, hpure⟩ := Option.bind_eq_some_iff.mp ht
    cases hpure
    cases hi
    obtain rfl := hd.inputOutlines _ _ _ hdescribes hother
    exact ⟨_, hmem, ht, hnamed⟩
  | scalar | enumeration | object | root | union => cases hi

theorem root (h : d.Settled catalogue r) {root : String × List PropertyDeclaration}
    (hroot : root ∈ d.roots) : ∃ o, (root.1, some (.object o)) ∈ r.types ∧
      r.names.root root.1 root.2 = some o := by
  obtain ⟨node, hmem, hnamed, hi, hmakes⟩ := h.exists_node (h.roots root hroot)
  cases hmakes with
  | object _ ho =>
    obtain ⟨properties, -, rfl⟩ := Option.map_eq_some_iff.mp ho
    cases hi
  | @root name declarations o hother ho =>
    obtain ⟨properties, -, hpure⟩ := Option.bind_eq_some_iff.mp ho
    cases hpure
    obtain rfl : root = (name, declarations) :=
      List.inj_on_of_nodup_map (Proper.roots_nodup d) hroot hother hnamed.symm
    exact ⟨_, hmem, ho⟩
  | scalar | enumeration | union | inputObject => cases hi

theorem union (h : d.Settled catalogue r) (hp : d.Proper) {union : String × UnionDeclaration}
    (hunion : union ∈ d.unions) : ∃ t, (union.1, some (.union t)) ∈ r.types ∧
      r.names.union union.1 union.2 = some t := by
  obtain ⟨node, hmem, hnamed, hi, hmakes⟩ := h.exists_node (h.unions union hunion)
  cases hmakes with
  | @union name declaration t hother ht =>
    have hname : name = union.1 := (Names.name_of_union ht).symm.trans hnamed
    obtain rfl : union = (name, declaration) :=
      List.inj_on_of_nodup_map hp.unionNames hunion hother hname.symm
    exact ⟨_, hmem, ht⟩
  | object _ ho =>
    obtain ⟨properties, -, rfl⟩ := Option.map_eq_some_iff.mp ho
    cases hi
  | scalar | enumeration | root | inputObject => cases hi

/-- What declarations come to is stored under its name. -/
theorem stored (h : d.Settled catalogue r) (hd : d.Coherent catalogue) (hp : d.Proper)
    {node : TypeNode} (hnode : d.Makes catalogue r.names node) :
    (node.name, some node) ∈ r.types := by
  cases hnode with
  | scalar ht => exact h.scalars _ ht
  | enumeration hdescribes hname => exact (h.enumeration hd hdescribes hname).1
  | object hdescribes ho hname =>
    obtain ⟨o, hmem, hother, -⟩ := h.object hd hdescribes hname
    cases ho.symm.trans hother
    exact hmem
  | root hroot ho =>
    obtain ⟨o, hmem, hother⟩ := h.root hroot
    cases ho.symm.trans hother
    obtain rfl := Names.name_of_root ho
    exact hmem
  | union hunion ht =>
    obtain ⟨t, hmem, hother⟩ := h.union hp hunion
    cases ht.symm.trans hother
    obtain rfl := Names.name_of_union ht
    exact hmem
  | inputObject hdescribes ht hname =>
    obtain ⟨t, hmem, hother, -⟩ := h.inputObject hd hdescribes hname
    cases ht.symm.trans hother
    exact hmem

/-- The names of a settled registry fit. -/
theorem fits (h : d.Settled catalogue r) (hd : d.Coherent catalogue) (hp : d.Proper) :
    d.Fits catalogue r.names where
  scalarHosts := h.scalarHosts
  scalars {host name} := by
    constructor
    · intro hlookup
      have hscalar := h.faithful.sound.scalars host name (Entries.mem_of_lookup hlookup)
      obtain ⟨node, -, hnamed, hi, hmakes⟩ := h.exists_node hscalar
      cases hmakes with
      | scalar ht =>
        cases hi
        exact ⟨_, ht, rfl, hnamed⟩
      | object _ ho =>
        obtain ⟨properties, -, rfl⟩ := Option.map_eq_some_iff.mp ho
        cases hi
      | enumeration | root | union | inputObject => cases hi
    · rintro ⟨t, ht, rfl, rfl⟩
      cases h.faithful.makes (h.scalars t ht) r.under_names with
      | scalar _ hname => exact hname
  isUnion name := by
    rw [← h.faithful.sound.unionNames]
    exact decide_eq_true_iff
  enumeration {host shape name} hdescribes hname := by
    refine ⟨(h.enumeration hd hdescribes hname).2, ?_⟩
    rcases h.faithful.sound.outputs _ _ (Entries.mem_of_lookup hname) with
      ⟨-, outline, hobject⟩ | ⟨hinput, -⟩
    · exact absurd hobject (hd.object host shape outline hdescribes)
    · exact Entries.lookup_of_mem h.faithful.sound.inputHosts hinput
  object hdescribes hname := by
    obtain ⟨o, -, ho, hnamed⟩ := h.object hd hdescribes hname
    exact ⟨o, ho, hnamed⟩
  inputObject hdescribes hname := by
    obtain ⟨t, -, ht, hnamed⟩ := h.inputObject hd hdescribes hname
    exact ⟨t, ht, hnamed⟩
  roots root hroot := by
    obtain ⟨o, -, ho⟩ := h.root hroot
    exact Option.isSome_iff_exists.mpr ⟨o, ho⟩
  types := h.types
  enums := h.enums
  inputs := h.inputs
  unions union hunion := by
    obtain ⟨t, -, ht⟩ := h.union hp hunion
    exact Option.isSome_iff_exists.mpr ⟨t, ht⟩
  owner {i i' name} hi hi' := by
    obtain ⟨node, hmem, -, rfl, -⟩ := h.exists_node (h.provides hd hi)
    obtain ⟨other, hother, -, rfl, -⟩ := h.exists_node (h.provides hd hi')
    cases h.faithful.sound.tidy.slot_unique hmem hother
    rfl

end Settled

end Declarations

namespace Registering

variable {d : Declarations} {catalogue : Catalogue} {r s : Registry} {N : Names} {depth : Nat}

/-- Items that have names of their own can be added one after the other. -/
theorem forM_within {α : Type} {f : α → Registering Unit} {key : α → String} {items : List α}
    (hitems : (items.map key).Nodup) (hstep : ∀ item ∈ items, ∀ {done : List String} {r : Registry},
      key item ∉ done → d.Within catalogue N done depth depth r →
      ∃ s, Runs (f item) r () s ∧ d.Within catalogue N (key item :: done) depth depth s)
    {done : List String} (hdone : ∀ item ∈ items, key item ∉ done)
    (hr : d.Within catalogue N done depth depth r) : ∃ s, Runs (items.forM f) r () s ∧
      ∃ done', (∀ name ∈ done', name ∈ done ∨ name ∈ items.map key) ∧
        d.Within catalogue N done' depth depth s := by
  induction items generalizing done r with
  | nil => exact ⟨r, runs_pure.mpr ⟨rfl, rfl⟩, done, fun _ hmem => .inl hmem, hr⟩
  | cons item items ih =>
    rw [List.map_cons, List.nodup_cons] at hitems
    obtain ⟨t, hitem, ht⟩ := hstep item List.mem_cons_self (hdone item List.mem_cons_self) hr
    obtain ⟨s, hrest, done', hdone', hs⟩ := ih hitems.2
      (fun other hmem => hstep other (List.mem_cons_of_mem _ hmem)) (fun other hmem hother => by
        rcases List.mem_cons.mp hother with he | hother
        · exact hitems.1 (he ▸ List.mem_map_of_mem hmem)
        · exact hdone other (List.mem_cons_of_mem _ hmem) hother) ht
    refine ⟨s, runs_bind.mpr ⟨(), t, hitem, hrest⟩, done', fun name hmem => ?_, hs⟩
    rw [List.map_cons, List.mem_cons]
    rcases hdone' name hmem with hmem | hmem
    · exact (List.mem_cons.mp hmem).symm.imp id .inl
    · exact .inr (.inr hmem)

/-- Where names fit, everything that is declared can be registered, under some of these names. -/
theorem addAll_runs (hd : d.Coherent catalogue) (hp : d.Proper) (hN : d.Fits catalogue N) :
    ∃ s, Runs (addAll catalogue (d.depth catalogue) d) (.start d) () s ∧ s.Under N := by
  obtain ⟨r₁, hscalars, h₁⟩ := addScalars_runs hN
  obtain ⟨r₂, hroots, done, hdone, h₂⟩ := forM_within (Declarations.Proper.roots_nodup d)
    (fun root hroot => addRoot_runs hd hp hN hroot) (fun _ _ => List.not_mem_nil) h₁
  have hnamed : (r₂.typeDeclarations.map (·.2.type) ++ r₂.enumDeclarations.map (·.2.type)).forM
      N.declared = some () := by
    rw [forM_eq_some, List.forall_mem_append]
    constructor
    · intro ref hmem
      obtain ⟨⟨host, declaration⟩, hentry, rfl⟩ := List.mem_map.mp hmem
      obtain ⟨outline, htype⟩ := hp.types host declaration (h₂.typeDeclarations hentry)
      dsimp only
      rw [htype]
      exact discard_eq_some.mpr (hN.types _ (h₂.typeDeclarations hentry))
    · intro ref hmem
      obtain ⟨⟨host, declaration⟩, hentry, rfl⟩ := List.mem_map.mp hmem
      obtain ⟨shape, htype⟩ := hp.enums host declaration (h₂.enumDeclarations hentry)
      dsimp only
      rw [htype]
      exact discard_eq_some.mpr (hN.enums _ (h₂.enumDeclarations hentry))
  obtain ⟨r₃, hdeclared, h₃⟩ := (Translates.forM fun ref hmem => translates_addDeclared hd hp
    (describes_of_remaining h₂.typeDeclarations h₂.enumDeclarations hmem)).falls hN h₂ hnamed
  obtain ⟨r₄, hinputs, h₄⟩ := (Translates.forM fun ref hmem =>
    (translates_inputType hd (translates_registerInput hd hp (d.depth catalogue)
      (d.depth catalogue)) (describes_of_input hmem)).discard).falls hN h₃
        (forM_eq_some.mpr fun ref hmem => discard_eq_some.mpr (hN.inputs ref hmem))
  obtain ⟨s, hunions, _, -, hs⟩ := forM_within hp.unionNames
    (fun union hunion => addUnion_runs hd hp hN hunion) (fun union hunion hmem => by
      rcases hdone _ hmem with hmem | hmem
      · exact List.not_mem_nil hmem
      · obtain ⟨root, hroot, hname⟩ := List.mem_map.mp hmem
        have howns : d.Owns catalogue N (.object none) union.1 := hname ▸ .root hroot
        cases hN.owner howns (.union hunion)) h₄
  exact ⟨s, runs_addAll.mpr ⟨r₁, r₂, r₃, r₄, hscalars, hroots, hdeclared, hinputs, hunions⟩, hs.under⟩

end Registering

end Trellis
