import Trellis.Proofs.Execution.Levels

/-!
Fields that are selected for an object.

A field is selected if it stands among the selections, or inside an inline fragment or a fragment that
is spread there and applies to the object, and if no directive on the way excludes it. Exactly these
fields are collected, in whatever way fragments spread each other, although every fragment is entered
only once.
-/

namespace Trellis

open Document

/-- A field was collected, under its response key. -/
def Collected.Has (c : Collected) (f : Field) : Prop :=
  ∃ group ∈ c.groups, group.key = f.key ∧ f ∈ group.first :: group.rest

namespace Collected

theorem has_add {c : Collected} {f g : Field} : (c.add f).Has g ↔ c.Has g ∨ g = f := by
  obtain ⟨groups, visited, missing⟩ := c
  change (∃ group ∈ addTo f groups, _) ↔ (∃ group ∈ groups, _) ∨ _
  induction groups with
  | nil =>
    rw [addTo]
    constructor
    · rintro ⟨group, hgroup, -, hmem⟩
      rw [List.mem_singleton.mp hgroup] at hmem
      exact .inr (List.mem_singleton.mp hmem)
    · rintro (⟨group, hgroup, -⟩ | rfl)
      · cases hgroup
      · exact ⟨_, List.mem_cons_self, rfl, List.mem_cons_self⟩
  | cons first groups ih =>
    rw [addTo]
    split
    · rename_i hkey
      rw [List.exists_mem_cons_iff, List.exists_mem_cons_iff, ← List.cons_append, List.mem_append,
        List.mem_singleton]
      constructor
      · rintro (⟨hk, hmem | rfl⟩ | hrest)
        · exact .inl (.inl ⟨hk, hmem⟩)
        · exact .inr rfl
        · exact .inl (.inr hrest)
      · rintro ((⟨hk, hmem⟩ | hrest) | rfl)
        · exact .inl ⟨hk, .inl hmem⟩
        · exact .inr hrest
        · exact .inl ⟨hkey, .inr rfl⟩
    · rw [List.exists_mem_cons_iff, List.exists_mem_cons_iff, ih, or_assoc]

/-- The fields of each group have its key. -/
def Keyed (c : Collected) : Prop :=
  ∀ group ∈ c.groups, ∀ f ∈ group.first :: group.rest, group.key = f.key

theorem keyed_addTo {f : Field} {groups : List FieldGroup}
    (h : ∀ group ∈ groups, ∀ g ∈ group.first :: group.rest, group.key = g.key) :
    ∀ group ∈ addTo f groups, ∀ g ∈ group.first :: group.rest, group.key = g.key := by
  induction groups with
  | nil =>
    rw [addTo, List.forall_mem_singleton]
    exact List.forall_mem_singleton.mpr rfl
  | cons first groups ih =>
    obtain ⟨hfirst, hrest⟩ := List.forall_mem_cons.mp h
    rw [addTo]
    split
    · rename_i hkey
      refine List.forall_mem_cons.mpr ⟨?_, hrest⟩
      rw [← List.cons_append, List.forall_mem_append, List.forall_mem_singleton]
      exact ⟨hfirst, hkey⟩
    · exact List.forall_mem_cons.mpr ⟨hfirst, ih hrest⟩

theorem keyed_invariant : Invariant Keyed where
  add _ _ h := keyed_addTo h
  visit _ _ _ h := h
  miss _ _ _ _ h := h

end Collected

theorem Scope.keyed_collect (scope : Scope) (object : ObjectType) (selections : List Selection) :
    (scope.collect object selections).Keyed :=
  scope.collect_invariant object Collected.keyed_invariant selections nofun

namespace Scope

variable (scope : Scope) (object : ObjectType)

/-- A field is selected for an object, after directives, fragments and type conditions. -/
inductive Selects : List Selection → Field → Prop
  | field {L : List Selection} {f : Field} : .field f ∈ L →
    scope.isExcluded f.directives = false → Selects L f
  | spread {L : List Selection} {start : Position} {name : String} {directives : List Directive}
    {fragment : Fragment} {f : Field} : .spread start name directives ∈ L →
    scope.isExcluded directives = false → scope.document.fragment? name = some fragment →
    scope.applies fragment.condition object = true → Selects fragment.selections f → Selects L f
  | inline {L : List Selection} {start : Position} {condition : Option String}
    {directives : List Directive} {selections : List Selection} {f : Field} :
    .inlineFragment start condition directives selections ∈ L →
    scope.isExcluded directives = false → condition.all (scope.applies · object) = true →
    Selects selections f → Selects L f

mutual

/-- What a selection asks for on its own level was collected: its fields, and that its fragments were
met. -/
def Covers (c : Collected) : Selection → Prop
  | .field f => scope.isExcluded f.directives = false → c.Has f
  | .spread _ name directives => scope.isExcluded directives = false → name ∈ c.visited
  | .inlineFragment _ condition directives selections => scope.isExcluded directives = false →
    condition.all (scope.applies · object) = true → CoversAll c selections

def CoversAll (c : Collected) : List Selection → Prop
  | [] => True
  | s :: rest => Covers c s ∧ CoversAll c rest

end

/-- What collecting from selections does: nothing is forgotten, the selections are covered, and so is
every fragment that was met on the way and applies. Only selected fields are added. -/
structure Collects (L : List Selection) (c c' : Collected) : Prop where
  fields : ∀ f, c.Has f → c'.Has f
  visited : c.visited ⊆ c'.visited
  covers : scope.CoversAll object c' L
  closed : ∀ name ∈ c'.visited, name ∈ c.visited ∨ ∀ fragment,
    scope.document.fragment? name = some fragment → scope.applies fragment.condition object = true →
      scope.CoversAll object c' fragment.selections
  selected : ∀ f, c'.Has f → c.Has f ∨ scope.Selects object L f

variable {scope object}

theorem Selects.mono {L M : List Selection} {f : Field} (h : scope.Selects object L f)
    (hsub : L ⊆ M) : scope.Selects object M f := by
  cases h with
  | field hmem hdirectives => exact .field (hsub hmem) hdirectives
  | spread hmem hdirectives hfragment happlies hrest =>
    exact .spread (hsub hmem) hdirectives hfragment happlies hrest
  | inline hmem hdirectives happlies hrest => exact .inline (hsub hmem) hdirectives happlies hrest

theorem coversAll_iff {c : Collected} {L : List Selection} :
    scope.CoversAll object c L ↔ ∀ s ∈ L, scope.Covers object c s := by
  induction L with
  | nil => simp [CoversAll]
  | cons s rest ih => rw [CoversAll, ih, List.forall_mem_cons]

mutual

theorem Covers.mono {c c' : Collected} (hfields : ∀ f, c.Has f → c'.Has f)
    (hvisited : c.visited ⊆ c'.visited) :
    ∀ {s : Selection}, scope.Covers object c s → scope.Covers object c' s
  | .field f, h => by
    rw [Covers] at h ⊢
    exact fun hdirectives => hfields f (h hdirectives)
  | .spread .., h => by
    rw [Covers] at h ⊢
    exact fun hdirectives => hvisited (h hdirectives)
  | .inlineFragment .., h => by
    rw [Covers] at h ⊢
    exact fun hdirectives happlies => (h hdirectives happlies).mono hfields hvisited

theorem CoversAll.mono {c c' : Collected} (hfields : ∀ f, c.Has f → c'.Has f)
    (hvisited : c.visited ⊆ c'.visited) :
    ∀ {L : List Selection}, scope.CoversAll object c L → scope.CoversAll object c' L
  | [], _ => by rw [CoversAll]; trivial
  | _ :: _, h => by
    rw [CoversAll] at h ⊢
    exact ⟨h.1.mono hfields hvisited, h.2.mono hfields hvisited⟩

end

namespace Collects

variable {L M : List Selection} {c c' c'' : Collected}

theorem refl (h : scope.CoversAll object c L) : scope.Collects object L c c :=
  ⟨fun _ hf => hf, List.Subset.refl _, h, fun _ hname => .inl hname, fun _ hf => .inl hf⟩

/-- Collecting from some selections and then from others is collecting from all of them. -/
theorem append (h : scope.Collects object L c c') (h' : scope.Collects object M c' c'') :
    scope.Collects object (L ++ M) c c'' where
  fields f hf := h'.fields f (h.fields f hf)
  visited := List.Subset.trans h.visited h'.visited
  covers := by
    rw [coversAll_iff, List.forall_mem_append, ← coversAll_iff, ← coversAll_iff]
    exact ⟨h.covers.mono h'.fields h'.visited, h'.covers⟩
  closed name hname := by
    rcases h'.closed name hname with hname | hcovers
    · refine (h.closed name hname).imp_right fun hcovers fragment hfragment happlies => ?_
      exact (hcovers fragment hfragment happlies).mono h'.fields h'.visited
    · exact .inr hcovers
  selected f hf := by
    rcases h'.selected f hf with hf | hf
    · exact (h.selected f hf).imp_right (·.mono (List.subset_append_left L M))
    · exact .inr (hf.mono (List.subset_append_right L M))

/-- Entering a fragment for the first time is what its spread asks for. -/
theorem spread {start : Position} {name : String} {directives : List Directive} {fragment : Fragment}
    (hdirectives : scope.isExcluded directives = false)
    (hfragment : scope.document.fragment? name = some fragment)
    (happlies : scope.applies fragment.condition object = true)
    (h : scope.Collects object fragment.selections (c.visit name) c') :
    scope.Collects object [.spread start name directives] c c' where
  fields := h.fields
  visited := List.Subset.trans (List.subset_cons_self _ _) h.visited
  covers := by
    rw [coversAll_iff, List.forall_mem_singleton, Covers]
    exact fun _ => h.visited List.mem_cons_self
  closed other hother := by
    rcases h.closed other hother with hother | hcovers
    · rcases List.mem_cons.mp hother with rfl | hother
      · refine .inr fun found hfound _ => ?_
        obtain rfl := Option.some.inj (hfragment.symm.trans hfound)
        exact h.covers
      · exact .inl hother
    · exact .inr hcovers
  selected f hf := (h.selected f hf).imp_right
    (.spread List.mem_cons_self hdirectives hfragment happlies)

/-- A fragment that is missing or does not apply is only met. -/
theorem met {start : Position} {name : String} {directives : List Directive}
    (hgroups : c'.groups = c.groups) (hvisited : c'.visited = name :: c.visited)
    (hnone : ∀ fragment, scope.document.fragment? name = some fragment →
      scope.applies fragment.condition object = false) :
    scope.Collects object [.spread start name directives] c c' := by
  have hhas (f : Field) : c'.Has f ↔ c.Has f := by rw [Collected.Has, Collected.Has, hgroups]
  refine ⟨fun f => (hhas f).mpr, hvisited ▸ List.subset_cons_self _ _, ?_, fun other hother => ?_,
    fun f hf => .inl ((hhas f).mp hf)⟩
  · rw [coversAll_iff, List.forall_mem_singleton, Covers, hvisited]
    exact fun _ => List.mem_cons_self
  · rw [hvisited] at hother
    rcases List.mem_cons.mp hother with rfl | hother
    · refine .inr fun fragment hfragment happlies => ?_
      cases (hnone fragment hfragment).symm.trans happlies
    · exact .inl hother

/-- Once collecting began with nothing, every selected field was collected. -/
theorem has (h : scope.Collects object L .empty c) {f : Field} {M : List Selection}
    (hf : scope.Selects object M f) (hM : scope.CoversAll object c M) : c.Has f := by
  induction hf with
  | field hmem hdirectives =>
    have hcovers := coversAll_iff.mp hM _ hmem
    rw [Covers] at hcovers
    exact hcovers hdirectives
  | spread hmem hdirectives hfragment happlies _ ih =>
    have hcovers := coversAll_iff.mp hM _ hmem
    rw [Covers] at hcovers
    have hclosed := (h.closed _ (hcovers hdirectives)).resolve_left List.not_mem_nil
    exact ih (hclosed _ hfragment happlies)
  | inline hmem hdirectives happlies _ ih =>
    have hcovers := coversAll_iff.mp hM _ hmem
    rw [Covers] at hcovers
    exact ih (hcovers hdirectives happlies)

end Collects

variable (scope object) in
/-- Entering fragments collects from them, when some were met already. -/
def EntersFresh (met : List String) (enter : Fragment → Collected → Collected) : Prop :=
  ∀ (name : String) (fragment : Fragment) (c : Collected),
    scope.document.fragment? name = some fragment → met ⊆ c.visited → name ∉ c.visited →
      scope.Collects object fragment.selections (c.visit name) (enter fragment (c.visit name))

mutual

theorem collectSelection_collects {met : List String} {enter : Fragment → Collected → Collected}
    (henter : scope.EntersFresh object met enter) :
    ∀ (s : Selection) (c : Collected), met ⊆ c.visited →
      scope.Collects object [s] c (scope.collectSelection object enter s c)
  | .field f, c, _ => by
    rw [collectSelection]
    split
    · rename_i hexcluded
      refine .refl ?_
      rw [coversAll_iff, List.forall_mem_singleton, Covers, hexcluded]
      exact fun h => nomatch h
    · rename_i hkept
      rw [Bool.not_eq_true] at hkept
      have hadd {g : Field} := @Collected.has_add c f g
      refine ⟨fun g hg => hadd.mpr (.inl hg), List.Subset.refl _, ?_, fun _ hname => .inl hname,
        fun g hg => (hadd.mp hg).imp_right ?_⟩
      · rw [coversAll_iff, List.forall_mem_singleton, Covers]
        exact fun _ => hadd.mpr (.inr rfl)
      · rintro rfl
        exact .field List.mem_cons_self hkept
  | .spread start name directives, c, hc => by
    rw [collectSelection_spread]
    split
    · rename_i hskipped
      refine .refl ?_
      rw [coversAll_iff, List.forall_mem_singleton, Covers]
      intro hdirectives
      simpa [hdirectives] using hskipped
    · rename_i hentered
      simp only [Bool.or_eq_true, not_or, Bool.not_eq_true, List.contains_iff_mem] at hentered
      obtain ⟨hdirectives, hnew⟩ := hentered
      split
      · rename_i hmissing
        exact .met rfl rfl fun fragment hfragment => nomatch hmissing.symm.trans hfragment
      · rename_i fragment hfragment
        split
        · rename_i happlies
          exact .spread hdirectives hfragment happlies
            (henter name fragment c hfragment hc (by simpa using hnew))
        · rename_i hnot
          refine .met rfl rfl fun other hother => ?_
          obtain rfl := Option.some.inj (hfragment.symm.trans hother)
          exact Bool.eq_false_iff.mpr hnot
  | .inlineFragment _ condition directives selections, c, hc => by
    rw [collectSelection]
    split
    · rename_i hexcluded
      refine .refl ?_
      rw [coversAll_iff, List.forall_mem_singleton, Covers, hexcluded]
      exact fun h => nomatch h
    · rename_i hkept
      rw [Bool.not_eq_true] at hkept
      split
      · rename_i happlies
        have h := collectSelections_collects henter selections c hc
        refine ⟨h.fields, h.visited, ?_, h.closed, fun f hf => (h.selected f hf).imp_right
          (.inline List.mem_cons_self hkept happlies)⟩
        rw [coversAll_iff, List.forall_mem_singleton, Covers]
        exact fun _ _ => h.covers
      · rename_i hnot
        refine .refl ?_
        rw [coversAll_iff, List.forall_mem_singleton, Covers]
        exact fun _ happlies => absurd happlies hnot

theorem collectSelections_collects {met : List String} {enter : Fragment → Collected → Collected}
    (henter : scope.EntersFresh object met enter) :
    ∀ (L : List Selection) (c : Collected), met ⊆ c.visited →
      scope.Collects object L c (scope.collectSelections object enter L c)
  | [], c, _ => by
    rw [collectSelections]
    exact .refl (by rw [CoversAll]; trivial)
  | s :: rest, c, hc => by
    rw [collectSelections]
    have hfirst := collectSelection_collects henter s c hc
    exact hfirst.append (collectSelections_collects henter rest _
      (List.Subset.trans hc hfirst.visited))

end

/-- As many levels as there are fragments that were not met are enough to collect all. -/
theorem collectWithin_collects {depth : Nat} {L : List Selection} {c : Collected}
    (h : (c.unmet scope.document).card ≤ depth) :
    scope.Collects object L c (scope.collectWithin object depth L c) := by
  induction depth generalizing L c with
  | zero =>
    refine collectSelections_collects (fun name fragment c' hfragment hsub hname => ?_) L c
      (List.Subset.refl _)
    have hless := Collected.card_unmet_visit (fun hmem => hname (hsub hmem)) hfragment
    omega
  | succ depth ih =>
    refine collectSelections_collects (fun name fragment c' hfragment hsub hname => ih ?_) L c
      (List.Subset.refl _)
    have hless := Collected.card_unmet_visit hname hfragment
    have hcard := Finset.card_le_card (Collected.unmet_anti hsub scope.document)
    omega

variable (scope object) in
theorem collect_collects (L : List Selection) :
    scope.Collects object L .empty (scope.collect object L) :=
  collectWithin_collects (Collected.card_unmet_empty scope.document)

theorem has_collect_iff {L : List Selection} {f : Field} :
    (scope.collect object L).Has f ↔ scope.Selects object L f := by
  have hcollects := collect_collects scope object L
  constructor
  · intro hf
    refine (hcollects.selected f hf).resolve_left ?_
    rintro ⟨group, hgroup, -⟩
    cases hgroup
  · exact fun hf => hcollects.has hf hcollects.covers

end Scope

end Trellis
