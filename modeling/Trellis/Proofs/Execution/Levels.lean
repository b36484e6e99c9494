import Trellis.Proofs.Execution.Inlining
import Trellis.Proofs.Execution.Nesting

/-!
Fragments below fields.

On one level fragments may spread themselves and each other, as none is entered twice for an object.
Below a field they may be entered again. Where no fragment reaches itself below a field, every way
down comes to an end: it enters fragments that were not reached before, or goes down in the text.
-/

namespace Trellis

namespace Document

variable (d : Document)

mutual

/-- Names of the fragments that are spread below the fields of a selection, at any nesting. -/
def Selection.beneath : Selection → List String
  | .field f => f.spreads
  | .spread .. => []
  | .inlineFragment _ _ _ selections => beneathOf selections

def beneathOf : List Selection → List String
  | [] => []
  | s :: rest => s.beneath ++ beneathOf rest

end

mutual

theorem Selection.beneath_subset : ∀ s : Selection, s.beneath ⊆ s.spreads
  | .field f => by rw [Selection.beneath, Selection.spreads]; exact fun _ h => h
  | .spread .. => by rw [Selection.beneath]; exact List.nil_subset _
  | .inlineFragment _ _ _ selections => by
    rw [Selection.beneath, Selection.spreads]
    exact beneathOf_subset selections

theorem beneathOf_subset : ∀ L : List Selection, beneathOf L ⊆ spreadsOf L
  | [] => by rw [beneathOf]; exact List.nil_subset _
  | s :: rest => by
    rw [beneathOf, spreadsOf]
    exact List.append_subset.mpr ⟨List.subset_append_of_subset_left _ s.beneath_subset,
      List.subset_append_of_subset_right _ (beneathOf_subset rest)⟩

end

/-- A fragment spreads another one below a field. -/
def Deepens (name next : String) : Prop :=
  ∃ f, d.fragment? name = some f ∧ next ∈ beneathOf f.selections

/-- A field on the level of selections: one of them, or one on the level of an inline fragment or of
a fragment that is spread among them. -/
inductive OnLevel : List Selection → Field → Prop
  | field {L : List Selection} {f : Field} : .field f ∈ L → OnLevel L f
  | inline {L : List Selection} {start : Position} {condition : Option String}
    {directives : List Directive} {selections : List Selection} {f : Field} :
    .inlineFragment start condition directives selections ∈ L → OnLevel selections f → OnLevel L f
  | spread {L : List Selection} {start : Position} {name : String} {directives : List Directive}
    {g : Fragment} {f : Field} : .spread start name directives ∈ L → d.fragment? name = some g →
    OnLevel g.selections f → OnLevel L f

variable {d}

theorem OnLevel.mono {L M : List Selection} {f : Field} (h : d.OnLevel L f) (hsub : L ⊆ M) :
    d.OnLevel M f := by
  cases h with
  | field hmem => exact .field (hsub hmem)
  | inline hmem hrest => exact .inline (hsub hmem) hrest
  | spread hmem hg hrest => exact .spread (hsub hmem) hg hrest

variable (d) in
open Classical in
noncomputable def reached (L : List Selection) : Finset String :=
  (d.fragments.map (·.name)).toFinset.filter fun name =>
    ∃ first ∈ spreadsOf L, Relation.ReflTransGen d.Spreads first name

theorem mem_fragmentNames {name : String} {g : Fragment} (hg : d.fragment? name = some g) :
    name ∈ d.fragments.map (·.name) := by
  obtain ⟨hmem, rfl⟩ := mem_fragments_of_fragment? hg
  exact List.mem_map_of_mem hmem

end Document

open Document

/-! ### Collecting on a level -/

namespace Collected

def All (P : Field → Prop) (c : Collected) : Prop :=
  ∀ group ∈ c.groups, ∀ f ∈ group.first :: group.rest, P f

theorem All.add {P : Field → Prop} {c : Collected} (h : c.All P) {f : Field} (hf : P f) :
    (c.add f).All P := by
  obtain ⟨groups, visited, missing⟩ := c
  change ∀ group ∈ addTo f groups, ∀ other ∈ group.first :: group.rest, P other
  replace h : ∀ group ∈ groups, ∀ other ∈ group.first :: group.rest, P other := h
  induction groups with
  | nil =>
    rw [addTo]
    rintro group hgroup other hother
    rw [List.mem_singleton.mp hgroup] at hother
    rwa [List.mem_singleton.mp hother]
  | cons g groups ih =>
    obtain ⟨hg, hgroups⟩ := List.forall_mem_cons.mp h
    rw [addTo]
    split
    · refine List.forall_mem_cons.mpr ⟨fun other hother => ?_, hgroups⟩
      rw [← List.cons_append] at hother
      rcases List.mem_append.mp hother with hin | hin
      · exact hg other hin
      · rwa [List.mem_singleton.mp hin]
    · exact List.forall_mem_cons.mpr ⟨hg, ih hgroups⟩

end Collected

namespace Scope

variable {scope : Scope} {object : ObjectType} {P : Field → Prop}

mutual

theorem collectSelection_all {enter : Fragment → Collected → Collected}
    (henter : ∀ g c, (∀ f, scope.document.OnLevel g.selections f → P f) → c.All P →
      (enter g c).All P) :
    ∀ (s : Selection) (c : Collected), (∀ f, scope.document.OnLevel [s] f → P f) → c.All P →
      (scope.collectSelection object enter s c).All P
  | .field f, c, hs, hc => by
    rw [collectSelection]
    split
    · exact hc
    · exact hc.add (hs f (.field List.mem_cons_self))
  | .spread start name directives, c, hs, hc => by
    rw [collectSelection_spread]
    split
    · exact hc
    · split
      · exact hc
      · rename_i g hg
        split
        · exact henter g _ (fun f hf => hs f (.spread List.mem_cons_self hg hf)) hc
        · exact hc
  | .inlineFragment _ _ _ selections, c, hs, hc => by
    have hinner (f : Field) (hf : scope.document.OnLevel selections f) : P f :=
      hs f (.inline List.mem_cons_self hf)
    rw [collectSelection]
    split
    · exact hc
    · split
      · exact collectSelections_all henter selections c hinner hc
      · exact hc

theorem collectSelections_all {enter : Fragment → Collected → Collected}
    (henter : ∀ g c, (∀ f, scope.document.OnLevel g.selections f → P f) → c.All P →
      (enter g c).All P) :
    ∀ (L : List Selection) (c : Collected), (∀ f, scope.document.OnLevel L f → P f) → c.All P →
      (scope.collectSelections object enter L c).All P
  | [], c, _, hc => by
    rw [collectSelections]
    exact hc
  | s :: rest, c, hL, hc => by
    rw [collectSelections]
    refine collectSelections_all henter rest _ (fun f hf => hL f (hf.mono (List.subset_cons_self ..))) ?_
    exact collectSelection_all henter s c
      (fun f hf => hL f (hf.mono (List.cons_subset_cons s (List.nil_subset rest)))) hc

end

end Scope

/-! ### The end of a level -/

namespace Collected

theorem visits_invariant (V : List String) : Invariant fun c => V ⊆ c.visited where
  add _ _ h := h
  visit _ _ _ h := List.subset_cons_of_subset _ h
  miss _ _ _ _ h := List.subset_cons_of_subset _ h

def unmet (c : Collected) (d : Document) : Finset String :=
  (d.fragments.map (·.name)).toFinset \ c.visited.toFinset

theorem unmet_anti {c c' : Collected} (h : c.visited ⊆ c'.visited) (d : Document) :
    c'.unmet d ⊆ c.unmet d :=
  Finset.sdiff_subset_sdiff le_rfl fun name hname => by
    rw [List.mem_toFinset] at hname ⊢
    exact h hname

theorem card_unmet_visit {c : Collected} {d : Document} {name : String} {g : Fragment}
    (hname : name ∉ c.visited) (hg : d.fragment? name = some g) :
    ((c.visit name).unmet d).card < (c.unmet d).card := by
  have hsub : (c.visit name).unmet d ⊆ c.unmet d := unmet_anti (List.subset_cons_self ..) d
  refine Finset.card_lt_card ((Finset.ssubset_iff_of_subset hsub).mpr ⟨name, ?_, ?_⟩)
  · simpa [unmet, hname] using mem_fragmentNames hg
  · simp [unmet, visit]

theorem card_unmet_empty (d : Document) : (empty.unmet d).card ≤ d.fragments.length := by
  refine (Finset.card_le_card Finset.sdiff_subset).trans ?_
  simpa using (d.fragments.map (·.name)).toFinset_card_le

end Collected

namespace Scope

variable {scope : Scope} {object : ObjectType}

variable (scope) in
/-- Two ways of entering fragments, when some were met already: they agree on fragments that are met
for the first time, and the first one forgets none that was met. -/
structure EntersAlike (met : List String) (enter enter' : Fragment → Collected → Collected) :
    Prop where
  grows : ∀ (g : Fragment) (c : Collected), met ⊆ c.visited → met ⊆ (enter g c).visited
  same : ∀ (name : String) (g : Fragment) (c : Collected), scope.document.fragment? name = some g →
    met ⊆ c.visited → name ∉ c.visited → enter g (c.visit name) = enter' g (c.visit name)

mutual

/-- Only what is entered for the first time counts. -/
theorem collectSelection_alike {met : List String} {enter enter' : Fragment → Collected → Collected}
    (h : scope.EntersAlike met enter enter') :
    ∀ (s : Selection) (c : Collected), met ⊆ c.visited →
      scope.collectSelection object enter s c = scope.collectSelection object enter' s c
  | .field f, c, _ => by rw [collectSelection, collectSelection]
  | .spread start name directives, c, hc => by
    rw [collectSelection_spread, collectSelection_spread]
    split
    · rfl
    · rename_i hin
      have hname : name ∉ c.visited := fun hmem => hin (by simp [hmem])
      split
      · rfl
      · rename_i g hg
        rw [h.same name g c hg hc hname]
  | .inlineFragment _ _ _ selections, c, hc => by
    rw [collectSelection, collectSelection,
      collectSelections_alike h selections c hc]

theorem collectSelections_alike {met : List String}
    {enter enter' : Fragment → Collected → Collected} (h : scope.EntersAlike met enter enter') :
    ∀ (L : List Selection) (c : Collected), met ⊆ c.visited →
      scope.collectSelections object enter L c = scope.collectSelections object enter' L c
  | [], c, _ => by rw [collectSelections, collectSelections]
  | s :: rest, c, hc => by
    have hgrown := collectSelection_invariant scope object (Collected.visits_invariant met) h.grows
      s c hc
    rw [collectSelections, collectSelections, collectSelections_alike h rest _ hgrown,
      collectSelection_alike h s c hc]

end

/-- As many levels as there are fragments that were not met are enough. -/
theorem collectWithin_succ {depth : Nat} {L : List Selection} {c : Collected}
    (h : (c.unmet scope.document).card ≤ depth) :
    scope.collectWithin object depth L c = scope.collectWithin object (depth + 1) L c := by
  induction depth generalizing L c with
  | zero =>
    have halike : scope.EntersAlike c.visited (fun _ c => c)
        (fun g => scope.collectWithin object 0 g.selections) := by
      refine ⟨fun _ _ h => h, fun name g c' hg hsub hname => ?_⟩
      have hless := Collected.card_unmet_visit (fun hmem => hname (hsub hmem)) hg
      omega
    exact collectSelections_alike halike L c (List.Subset.refl _)
  | succ depth ih =>
    have halike : scope.EntersAlike c.visited (fun g => scope.collectWithin object depth g.selections)
        (fun g => scope.collectWithin object (depth + 1) g.selections) := by
      refine ⟨fun g c' hsub => collectWithin_invariant scope object (Collected.visits_invariant _)
        depth _ c' hsub, fun name g c' hg hsub hname => ih ?_⟩
      have hless := Collected.card_unmet_visit hname hg
      have hcard := Finset.card_le_card (Collected.unmet_anti hsub scope.document)
      omega
    exact collectSelections_alike halike L c (List.Subset.refl _)

/-- Collecting comes to its end: entering fragments deeper inside each other than there are fragments
changes nothing. -/
theorem collectWithin_eq_collect (L : List Selection) {depth : Nat}
    (h : scope.document.fragments.length ≤ depth) :
    scope.collectWithin object depth L .empty = scope.collect object L := by
  induction depth, h using Nat.le_induction with
  | base => rfl
  | succ depth h ih =>
    rw [← collectWithin_succ ((Collected.card_unmet_empty scope.document).trans h), ih]

end Scope

end Trellis
