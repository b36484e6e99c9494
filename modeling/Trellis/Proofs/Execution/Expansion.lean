import Trellis.Proofs.Execution.Gist
import Trellis.Proofs.Execution.Selected

/-!
Collecting is grouping an expansion.

The expansion of selections lists the fields that are met when the selections are walked depth first,
and the fragments that are found to be missing. It is given by rules that know of no bound on how
deep fragments are spread inside each other; that an expansion exists for all selections is what it
means for the walk to come to its end. What is collected are the fields of the expansion, grouped by
response key.
-/

namespace Trellis

open Document

namespace Document

def Selection.directives : Selection → List Directive
  | .field f => f.directives
  | .spread _ _ directives => directives
  | .inlineFragment _ _ directives _ => directives

end Document

namespace Item

def field? : Item → Option Field
  | .field f => some f
  | .missing .. => none

def missing? : Item → Option (Position × String)
  | .field _ => none
  | .missing start name => some (start, name)

theorem mem_fields {T : List Item} {f : Field} : f ∈ T.filterMap field? ↔ .field f ∈ T := by
  rw [List.mem_filterMap]
  constructor
  · rintro ⟨item, hitem, he⟩
    cases item <;> cases he
    exact hitem
  · exact fun h => ⟨_, h, rfl⟩

theorem mem_missing {T : List Item} {start : Position} {name : String} :
    (start, name) ∈ T.filterMap missing? ↔ .missing start name ∈ T := by
  rw [List.mem_filterMap]
  constructor
  · rintro ⟨item, hitem, he⟩
    cases item <;> cases he
    exact hitem
  · exact fun h => ⟨_, h, rfl⟩

end Item

namespace Scope

variable (scope : Scope) (object : ObjectType)

/-- `Expands L met T met'`: walking the selections `L` depth first comes to the items `T`, if the
fragments `met` were met before and the fragments `met'` were met afterwards. What directives exclude
is passed over. Inline fragments and fragments of the document are entered if they apply, the latter
only when they are met for the first time. -/
inductive Expands : List Selection → List String → List Item → List String → Prop
  | nil (met : List String) : Expands [] met [] met
  | excluded {s : Selection} {rest : List Selection} {met met' : List String} {T : List Item} :
    scope.isExcluded s.directives = true → Expands rest met T met' → Expands (s :: rest) met T met'
  | field {f : Field} {rest : List Selection} {met met' : List String} {T : List Item} :
    scope.isExcluded f.directives = false → Expands rest met T met' →
    Expands (.field f :: rest) met (.field f :: T) met'
  | inline {start : Position} {condition : Option String} {directives : List Directive}
    {selections rest : List Selection} {met inner met' : List String} {T U : List Item} :
    scope.isExcluded directives = false → condition.all (scope.applies · object) = true →
    Expands selections met T inner → Expands rest inner U met' →
    Expands (.inlineFragment start condition directives selections :: rest) met (T ++ U) met'
  | inlineApart {start : Position} {condition : Option String} {directives : List Directive}
    {selections rest : List Selection} {met met' : List String} {T : List Item} :
    scope.isExcluded directives = false → condition.all (scope.applies · object) = false →
    Expands rest met T met' →
    Expands (.inlineFragment start condition directives selections :: rest) met T met'
  | again {start : Position} {name : String} {directives : List Directive} {rest : List Selection}
    {met met' : List String} {T : List Item} :
    scope.isExcluded directives = false → name ∈ met → Expands rest met T met' →
    Expands (.spread start name directives :: rest) met T met'
  | missing {start : Position} {name : String} {directives : List Directive} {rest : List Selection}
    {met met' : List String} {T : List Item} :
    scope.isExcluded directives = false → name ∉ met → scope.document.fragment? name = none →
    Expands rest (name :: met) T met' →
    Expands (.spread start name directives :: rest) met (.missing start name :: T) met'
  | entered {start : Position} {name : String} {directives : List Directive} {rest : List Selection}
    {met inner met' : List String} {T U : List Item} {fragment : Fragment} :
    scope.isExcluded directives = false → name ∉ met →
    scope.document.fragment? name = some fragment → scope.applies fragment.condition object = true →
    Expands fragment.selections (name :: met) T inner → Expands rest inner U met' →
    Expands (.spread start name directives :: rest) met (T ++ U) met'
  | apart {start : Position} {name : String} {directives : List Directive} {rest : List Selection}
    {met met' : List String} {T : List Item} {fragment : Fragment} :
    scope.isExcluded directives = false → name ∉ met →
    scope.document.fragment? name = some fragment → scope.applies fragment.condition object = false →
    Expands rest (name :: met) T met' → Expands (.spread start name directives :: rest) met T met'

variable {scope object}

namespace Expands

variable {L : List Selection} {met met' : List String} {T : List Item}

theorem subset (h : scope.Expands object L met T met') : met ⊆ met' := by
  induction h with
  | nil => exact List.Subset.refl _
  | excluded _ _ ih | field _ _ ih | inlineApart _ _ _ ih | again _ _ _ ih => exact ih
  | inline _ _ _ _ ih ih' => exact List.Subset.trans ih ih'
  | missing _ _ _ _ ih | apart _ _ _ _ _ ih =>
    exact List.Subset.trans (List.subset_cons_self _ _) ih
  | entered _ _ _ _ _ _ ih ih' =>
    exact List.Subset.trans (List.subset_cons_self _ _) (List.Subset.trans ih ih')

/-- Selections have one expansion. Which rule applies depends on the first selection and on what was
met before. -/
theorem unique (h : scope.Expands object L met T met') {U : List Item} {other : List String}
    (hother : scope.Expands object L met U other) : T = U ∧ met' = other := by
  induction h generalizing U other with
  | nil =>
    cases hother
    exact ⟨rfl, rfl⟩
  | excluded hout _ ih =>
    cases hother with
    | excluded _ hrest => exact ih hrest
    | field hin | inline hin | inlineApart hin | again hin | missing hin | entered hin | apart hin =>
      cases hin.symm.trans hout
  | field hin _ ih =>
    cases hother with
    | excluded hout => cases hin.symm.trans hout
    | field _ hrest =>
      obtain ⟨rfl, rfl⟩ := ih hrest
      exact ⟨rfl, rfl⟩
  | inline hin happlies _ _ ih ih' =>
    cases hother with
    | excluded hout => cases hin.symm.trans hout
    | inline _ _ hinner hrest =>
      obtain ⟨rfl, rfl⟩ := ih hinner
      obtain ⟨rfl, rfl⟩ := ih' hrest
      exact ⟨rfl, rfl⟩
    | inlineApart _ hnot => cases happlies.symm.trans hnot
  | inlineApart hin hnot _ ih =>
    cases hother with
    | excluded hout => cases hin.symm.trans hout
    | inline _ happlies => cases happlies.symm.trans hnot
    | inlineApart _ _ hrest => exact ih hrest
  | again hin hmet _ ih =>
    cases hother with
    | excluded hout => cases hin.symm.trans hout
    | again _ _ hrest => exact ih hrest
    | missing _ hnew | entered _ hnew | apart _ hnew => exact absurd hmet hnew
  | missing hin hnew hnone _ ih =>
    cases hother with
    | excluded hout => cases hin.symm.trans hout
    | again _ hmet => exact absurd hmet hnew
    | missing _ _ _ hrest =>
      obtain ⟨rfl, rfl⟩ := ih hrest
      exact ⟨rfl, rfl⟩
    | entered _ _ hsome | apart _ _ hsome => cases hnone.symm.trans hsome
  | entered hin hnew hsome happlies _ _ ih ih' =>
    cases hother with
    | excluded hout => cases hin.symm.trans hout
    | again _ hmet => exact absurd hmet hnew
    | missing _ _ hnone => cases hnone.symm.trans hsome
    | entered _ _ hfound _ hinner hrest =>
      obtain rfl := Option.some.inj (hsome.symm.trans hfound)
      obtain ⟨rfl, rfl⟩ := ih hinner
      obtain ⟨rfl, rfl⟩ := ih' hrest
      exact ⟨rfl, rfl⟩
    | apart _ _ hfound hnot =>
      obtain rfl := Option.some.inj (hsome.symm.trans hfound)
      cases happlies.symm.trans hnot
  | apart hin hnew hsome hnot _ ih =>
    cases hother with
    | excluded hout => cases hin.symm.trans hout
    | again _ hmet => exact absurd hmet hnew
    | missing _ _ hnone => cases hnone.symm.trans hsome
    | entered _ _ hfound happlies =>
      obtain rfl := Option.some.inj (hsome.symm.trans hfound)
      cases happlies.symm.trans hnot
    | apart _ _ _ _ hrest => exact ih hrest

end Expands

end Scope

namespace Collected

/-- Groups with fields added to them one after another. -/
def grouping (fields : List Field) (groups : List FieldGroup) : List FieldGroup :=
  fields.foldl (fun groups f => addTo f groups) groups

/-- What was collected together with the items of an expansion, and what was met afterwards. -/
def extend (c : Collected) (T : List Item) (met : List String) : Collected where
  groups := grouping (T.filterMap Item.field?) c.groups
  visited := met
  missing := c.missing ++ T.filterMap Item.missing?

theorem extend_nil (c : Collected) : c.extend [] c.visited = c := by
  simp [extend, grouping]

theorem extend_extend (c : Collected) (T U : List Item) (met met' : List String) :
    (c.extend T met).extend U met' = c.extend (T ++ U) met' := by
  simp [extend, grouping]

end Collected

namespace Scope

variable {scope : Scope} {object : ObjectType}

variable (scope object) in
/-- What was collected from a selection are the first items of every expansion that begins with it. -/
def Leads (s : Selection) (c c' : Collected) : Prop :=
  ∃ T met, c.visited ⊆ met ∧ c' = c.extend T met ∧ ∀ {rest : List Selection} {U : List Item}
    {met' : List String}, scope.Expands object rest met U met' →
      scope.Expands object (s :: rest) c.visited (T ++ U) met'

theorem leads_self {s : Selection} {c : Collected}
    (h : ∀ {rest : List Selection} {U : List Item} {met' : List String},
      scope.Expands object rest c.visited U met' →
        scope.Expands object (s :: rest) c.visited U met') : scope.Leads object s c c :=
  ⟨[], c.visited, List.Subset.refl _, c.extend_nil.symm, h⟩

variable (scope object) in
/-- Entering a fragment collects its expansion, when some were met already. -/
def EntersExpanding (met : List String) (enter : Fragment → Collected → Collected) : Prop :=
  ∀ (name : String) (fragment : Fragment) (c : Collected),
    scope.document.fragment? name = some fragment → met ⊆ c.visited → name ∉ c.visited →
      ∃ T met', scope.Expands object fragment.selections (c.visit name).visited T met' ∧
        enter fragment (c.visit name) = (c.visit name).extend T met'

mutual

theorem collectSelection_leads {met : List String} {enter : Fragment → Collected → Collected}
    (henter : scope.EntersExpanding object met enter) :
    ∀ (s : Selection) (c : Collected), met ⊆ c.visited →
      scope.Leads object s c (scope.collectSelection object enter s c)
  | .field f, c, _ => by
    rw [collectSelection]
    split
    · rename_i hout
      exact leads_self (.excluded hout)
    · rename_i hin
      refine ⟨[.field f], c.visited, List.Subset.refl _, ?_, .field (Bool.eq_false_iff.mpr hin)⟩
      simp [Collected.extend, Collected.grouping, Collected.add, Item.field?, Item.missing?]
  | .spread start name directives, c, hc => by
    rw [collectSelection_spread]
    by_cases hout : scope.isExcluded directives = true
    · rw [hout, Bool.true_or, if_pos rfl]
      exact leads_self (.excluded hout)
    · have hin := Bool.eq_false_iff.mpr hout
      by_cases hmet : name ∈ c.visited
      · rw [if_pos (by simp [hmet])]
        exact leads_self (.again hin hmet)
      · rw [if_neg (by simp [hin, hmet])]
        split
        · rename_i hnone
          refine ⟨[.missing start name], name :: c.visited, List.subset_cons_self _ _, ?_,
            .missing hin hmet hnone⟩
          rfl
        · rename_i fragment hsome
          split
          · rename_i happlies
            obtain ⟨T, met', hexpands, hentered⟩ := henter name fragment c hsome hc hmet
            refine ⟨T, met', List.Subset.trans (List.subset_cons_self _ _) hexpands.subset, hentered,
              .entered hin hmet hsome happlies hexpands⟩
          · rename_i hnot
            refine ⟨[], name :: c.visited, List.subset_cons_self _ _, ?_,
              .apart hin hmet hsome (Bool.eq_false_iff.mpr hnot)⟩
            exact (c.visit name).extend_nil.symm
  | .inlineFragment _ condition directives selections, c, hc => by
    rw [collectSelection]
    split
    · rename_i hout
      exact leads_self (.excluded hout)
    · rename_i hin
      have hin := Bool.eq_false_iff.mpr hin
      split
      · rename_i happlies
        obtain ⟨T, met', hexpands, hcollected⟩ := collectSelections_expands henter selections c hc
        exact ⟨T, met', hexpands.subset, hcollected, .inline hin happlies hexpands⟩
      · rename_i hnot
        exact leads_self (.inlineApart hin (Bool.eq_false_iff.mpr hnot))

theorem collectSelections_expands {met : List String} {enter : Fragment → Collected → Collected}
    (henter : scope.EntersExpanding object met enter) :
    ∀ (L : List Selection) (c : Collected), met ⊆ c.visited →
      ∃ T met', scope.Expands object L c.visited T met' ∧
        scope.collectSelections object enter L c = c.extend T met'
  | [], c, _ => by
    rw [collectSelections]
    exact ⟨[], c.visited, .nil _, c.extend_nil.symm⟩
  | s :: rest, c, hc => by
    rw [collectSelections]
    obtain ⟨T, inner, hsub, hfirst, hleads⟩ := collectSelection_leads henter s c hc
    rw [hfirst]
    obtain ⟨U, met', hexpands, hrest⟩ :=
      collectSelections_expands henter rest (c.extend T inner) (List.Subset.trans hc hsub)
    exact ⟨T ++ U, met', hleads hexpands, hrest.trans (c.extend_extend T U inner met')⟩

end

/-- As many levels as there are fragments that were not met are enough for the whole expansion. -/
theorem collectWithin_expands {depth : Nat} {L : List Selection} {c : Collected}
    (h : (c.unmet scope.document).card ≤ depth) :
    ∃ T met, scope.Expands object L c.visited T met ∧
      scope.collectWithin object depth L c = c.extend T met := by
  induction depth generalizing L c with
  | zero =>
    refine collectSelections_expands (fun name fragment c' hfragment hsub hname => ?_) L c
      (List.Subset.refl _)
    have hless := Collected.card_unmet_visit (fun hmem => hname (hsub hmem)) hfragment
    omega
  | succ depth ih =>
    refine collectSelections_expands (fun name fragment c' hfragment hsub hname => ih ?_) L c
      (List.Subset.refl _)
    have hless := Collected.card_unmet_visit hname hfragment
    have hcard := Finset.card_le_card (Collected.unmet_anti hsub scope.document)
    omega

variable (scope object) in
theorem exists_expands (L : List Selection) :
    ∃ T met, scope.Expands object L [] T met ∧
      scope.collect object L = Collected.empty.extend T met :=
  collectWithin_expands (Collected.card_unmet_empty scope.document)

theorem Expands.collect_eq {L : List Selection} {T : List Item} {met : List String}
    (h : scope.Expands object L [] T met) :
    scope.collect object L = Collected.empty.extend T met := by
  obtain ⟨U, other, hother, hcollect⟩ := exists_expands scope object L
  obtain ⟨rfl, rfl⟩ := h.unique hother
  exact hcollect

end Scope

end Trellis
