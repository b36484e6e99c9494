import Trellis.Execution.Collection

/-!
Invariants of collected fields.

Collecting does three things to what was collected so far: it adds a field, it notes that a fragment
was met, or it notes that a fragment is missing. What all three keep holds of everything collected.
-/

namespace Trellis

open Document

namespace Collected

/-- Notes that a fragment was met. -/
def visit (c : Collected) (name : String) : Collected := { c with visited := name :: c.visited }

/-- Notes that a fragment is missing. -/
def miss (c : Collected) (start : Position) (name : String) : Collected :=
  { c with visited := name :: c.visited, missing := c.missing ++ [(start, name)] }

/-- What every step of collecting keeps. -/
structure Invariant (P : Collected → Prop) : Prop where
  add : ∀ c f, P c → P (c.add f)
  visit : ∀ c name, name ∉ c.visited → P c → P (c.visit name)
  miss : ∀ c start name, name ∉ c.visited → P c → P (c.miss start name)

end Collected

namespace Scope

variable (scope : Scope) (object : ObjectType)

/-- A spread notes that its fragment was met, or that it is missing. -/
theorem collectSelection_spread (enter : Fragment → Collected → Collected) (start : Position)
    (name : String) (directives : List Directive) (c : Collected) :
    scope.collectSelection object enter (.spread start name directives) c =
      if scope.isExcluded directives || c.visited.contains name then c
      else
        match scope.document.fragment? name with
        | none => c.miss start name
        | some f =>
          if scope.applies f.condition object then enter f (c.visit name) else c.visit name := by
  rw [collectSelection]
  rfl

mutual

theorem collectSelection_invariant {P : Collected → Prop} (hP : Collected.Invariant P)
    {enter : Fragment → Collected → Collected} (henter : ∀ f c, P c → P (enter f c)) :
    ∀ (s : Selection) (c : Collected), P c → P (scope.collectSelection object enter s c)
  | .field f, c, h => by
    rw [collectSelection]
    split
    · exact h
    · exact hP.add c f h
  | .spread start name directives, c, h => by
    rw [collectSelection]
    split
    · exact h
    · rename_i hin
      have hnew : name ∉ c.visited := by
        intro hmem
        apply hin
        simp [hmem]
      dsimp only
      split
      · exact hP.miss c start name hnew h
      · split
        · exact henter _ _ (hP.visit c name hnew h)
        · exact hP.visit c name hnew h
  | .inlineFragment _ _ _ selections, c, h => by
    rw [collectSelection]
    split
    · exact h
    · split
      · exact collectSelections_invariant hP henter selections c h
      · exact h

theorem collectSelections_invariant {P : Collected → Prop} (hP : Collected.Invariant P)
    {enter : Fragment → Collected → Collected} (henter : ∀ f c, P c → P (enter f c)) :
    ∀ (selections : List Selection) (c : Collected), P c →
      P (scope.collectSelections object enter selections c)
  | [], c, h => by
    rw [collectSelections]
    exact h
  | s :: rest, c, h => by
    rw [collectSelections]
    exact collectSelections_invariant hP henter rest _
      (collectSelection_invariant hP henter s c h)

end

theorem collectWithin_invariant {P : Collected → Prop} (hP : Collected.Invariant P) (depth : Nat)
    (selections : List Selection) (c : Collected) (h : P c) :
    P (scope.collectWithin object depth selections c) := by
  induction depth generalizing selections c with
  | zero => exact collectSelections_invariant scope object hP (fun _ _ h => h) selections c h
  | succ depth ih =>
    exact collectSelections_invariant scope object hP (fun f c h => ih f.selections c h)
      selections c h

theorem collect_invariant {P : Collected → Prop} (hP : Collected.Invariant P)
    (selections : List Selection) (h : P .empty) : P (scope.collect object selections) :=
  collectWithin_invariant scope object hP _ selections _ h

end Scope

namespace Collected

theorem keys_addTo (f : Field) (groups : List FieldGroup) :
    (addTo f groups).map (·.key) =
      if f.key ∈ groups.map (·.key) then groups.map (·.key)
      else groups.map (·.key) ++ [f.key] := by
  induction groups with
  | nil => simp [addTo]
  | cons g groups ih =>
    by_cases hg : g.key = f.key
    · simp [addTo, hg]
    · have hne : ¬ f.key = g.key := fun he => hg he.symm
      simp only [addTo, if_neg hg, List.map_cons, ih, List.mem_cons, hne, false_or]
      split <;> rfl

/-- Response keys are different from each other, and so are the names of missing fragments, all of
which were met. -/
structure Tidy (c : Collected) : Prop where
  keys : c.keys.Nodup
  missing : (c.missing.map (·.2)).Nodup
  met : ∀ spread ∈ c.missing, spread.2 ∈ c.visited

theorem tidy_invariant : Invariant Tidy where
  add c f h := by
    refine ⟨?_, h.missing, h.met⟩
    rw [Collected.keys, add, keys_addTo]
    split
    · exact h.keys
    · rename_i hnew
      exact List.nodup_append.mpr ⟨h.keys, by simp, fun a ha b hb he => by
        rw [List.mem_singleton] at hb
        exact hnew (hb ▸ he ▸ ha)⟩
  visit c name _ h :=
    ⟨h.keys, h.missing, fun spread hspread => List.mem_cons_of_mem _ (h.met spread hspread)⟩
  miss c start name hnew h := by
    refine ⟨h.keys, ?_, ?_⟩
    · rw [miss, List.map_append]
      refine List.nodup_append.mpr ⟨h.missing, by simp, fun a ha b hb he => ?_⟩
      obtain ⟨spread, hspread, rfl⟩ := List.mem_map.mp ha
      have hname : spread.2 = name := he.trans (List.mem_singleton.mp hb)
      exact hnew (hname ▸ h.met spread hspread)
    · intro spread hspread
      rcases List.mem_append.mp hspread with hin | hin
      · exact List.mem_cons_of_mem _ (h.met spread hin)
      · rw [List.mem_singleton.mp hin]
        exact List.mem_cons_self

end Collected

/-- Every response key is collected once, and every missing fragment is noted once. -/
theorem Scope.tidy_collect (scope : Scope) (object : ObjectType) (selections : List Selection) :
    (scope.collect object selections).Tidy :=
  scope.collect_invariant object Collected.tidy_invariant selections
    ⟨List.nodup_nil, List.nodup_nil, by simp [Collected.empty]⟩

end Trellis
