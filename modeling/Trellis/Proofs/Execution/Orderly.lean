import Trellis.Proofs.Execution.Schedule

/-!
Slots while parts come in.

Every part that is still under way has a slot of its own, which is empty; so no slot is ever filled
twice. Every other slot holds the value of its part, unless some part failed. Both hold at every
level of a job, and every step keeps them.
-/

namespace Trellis

/-- The slots that are still waited for are different and empty, and unless some part failed, all
others are filled. -/
structure Tray.Awaits (t : Tray) (indices : List Nat) : Prop where
  nodup : indices.Nodup
  empty : ∀ i ∈ indices, t.slots.values[i]? = some none
  filled : t.failed = false → ∀ i < t.slots.values.size, i ∉ indices →
    ∃ value, t.slots.values[i]? = some (some value)

theorem Tray.awaits_start (n : Nat) : (Tray.ofSize n).Awaits (List.range n) where
  nodup := List.nodup_range
  empty i hi := by
    have hlt : i < n := List.mem_range.mp hi
    simp [Tray.ofSize, Slots.ofSize, hlt]
  filled _ i hi hout := by
    simp [Tray.ofSize, Slots.ofSize] at hi
    exact absurd (List.mem_range.mpr hi) hout

/-- A part that comes in goes to its own slot, so the others are waited for as before. -/
theorem Tray.Awaits.add {t : Tray} {before after : List Nat} {i : Nat}
    (h : t.Awaits (before ++ i :: after)) (result : Option Value) :
    (t.add i result).Awaits (before ++ after) := by
  have hnodup : (i :: (before ++ after)).Nodup :=
    List.perm_middle.nodup_iff.mp h.nodup
  have hi : i ∉ before ++ after := (List.nodup_cons.mp hnodup).1
  have hmem (j : Nat) : j ∈ before ++ i :: after ↔ j = i ∨ j ∈ before ++ after := by
    rw [List.perm_middle.mem_iff, List.mem_cons]
  cases result with
  | none =>
    refine ⟨(List.nodup_cons.mp hnodup).2, fun j hj => ?_, fun hf => absurd hf (by simp [Tray.add])⟩
    exact h.empty j ((hmem j).mpr (.inr hj))
  | some value =>
    refine ⟨(List.nodup_cons.mp hnodup).2, fun j hj => ?_, fun hf j hlt hj => ?_⟩
    · have hne : i ≠ j := fun he => hi (he ▸ hj)
      simp only [Tray.add, Slots.fill, Array.getElem?_setIfInBounds_ne hne]
      exact h.empty j ((hmem j).mpr (.inr hj))
    · simp only [Tray.add, Slots.fill, Array.size_setIfInBounds] at hf hlt ⊢
      by_cases hij : i = j
      · subst hij
        exact ⟨value, by simp [hlt]⟩
      · rw [Array.getElem?_setIfInBounds_ne hij]
        apply h.filled hf j hlt
        rw [hmem]
        rintro (rfl | hin)
        · exact hij rfl
        · exact hj hin

namespace Job

mutual

/-- Slots are in order at every level of a job. -/
def Orderly : Job → Prop
  | .ready _ => True
  | .gathering _ _ tray pending => tray.Awaits (pending.map (·.1)) ∧ AllOrderly pending

def AllOrderly : List (Nat × Job) → Prop
  | [] => True
  | (_, job) :: pending => Orderly job ∧ AllOrderly pending

end

theorem allOrderly_iff {pending : List (Nat × Job)} :
    AllOrderly pending ↔ ∀ part ∈ pending, part.2.Orderly := by
  induction pending with
  | nil => simp [AllOrderly]
  | cons part pending ih =>
    rcases part with ⟨i, job⟩
    simp [AllOrderly, ih]

theorem orderly_gathering {frame : Frame} {serial : Bool} {tray : Tray}
    {pending : List (Nat × Job)} :
    (Job.gathering frame serial tray pending).Orderly ↔
      tray.Awaits (pending.map (·.1)) ∧ ∀ part ∈ pending, part.2.Orderly := by
  rw [Orderly, allOrderly_iff]

theorem orderly_waiting (frame : Frame) (serial : Bool) (parts : List Plan) :
    (Job.gathering frame serial (.ofSize parts.length) (waiting parts)).Orderly := by
  rw [orderly_gathering]
  constructor
  · rw [waiting, numbered_map_fst, List.length_map, ← List.range_eq_range']
    exact Tray.awaits_start _
  · intro part hpart
    obtain ⟨plan, -, hplan⟩ := List.mem_map.mp (mem_of_mem_numbered hpart)
    rw [← hplan, Orderly]
    trivial

/-- Every step keeps the slots in order. -/
theorem Orderly.step {job job' : Job} {events : List Event} (h : job.Orderly)
    (hstep : Step job events job') : job'.Orderly := by
  induction hstep with
  | report | answer | transform | assemble => simp [Orderly]
  | spread frame parts => exact orderly_waiting frame false parts
  | within _ _ ih =>
    rw [orderly_gathering] at h ⊢
    refine ⟨by simpa using h.1, fun part hpart => ?_⟩
    rcases List.mem_append.mp hpart with hin | hin
    · exact h.2 part (List.mem_append_left _ hin)
    · rcases List.mem_cons.mp hin with rfl | hin
      · exact ih (h.2 _ (List.mem_append_right _ List.mem_cons_self))
      · exact h.2 part (List.mem_append_right _ (List.mem_cons_of_mem _ hin))
  | @collect frame serial tray before after i result _ =>
    rw [orderly_gathering] at h ⊢
    constructor
    · rw [List.map_append]
      exact Tray.Awaits.add (by simpa using h.1) result
    · intro part hpart
      apply h.2
      rcases List.mem_append.mp hpart with hin | hin
      · exact List.mem_append_left _ hin
      · exact List.mem_append_right _ (List.mem_cons_of_mem _ hin)

theorem Orderly.run {job job' : Job} {log : List Event} (h : job.Orderly)
    (hrun : Run job log job') : job'.Orderly :=
  hrun.invariant Orderly.step h

end Job

theorem Agenda.orderly_start (a : Agenda) : a.start.Orderly :=
  Job.orderly_waiting _ _ _

end Trellis
