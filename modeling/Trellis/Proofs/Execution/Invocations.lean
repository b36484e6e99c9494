import Mathlib.Data.List.Perm.Subperm
import Trellis.Proofs.Execution.Opening

/-!
No call is made twice.

At every moment of a run, finished or not, the events that were seen and the calls that may be under
way take place once each: every part of a plan keeps to its own territory, whatever order the parts
are carried out in.
-/

namespace Trellis

theorem Mark.Spread.subperm {marks marks' : List (Path × Mark)} {p : Path} {taken : List Mark}
    (h : Spread marks p taken) (hsub : marks'.Subperm marks) : Spread marks' p taken where
  nodup := by
    obtain ⟨l, hperm, hl⟩ := hsub
    exact hperm.nodup_iff.mp (h.nodup.sublist hl)
  below m hm := h.below m (hsub.subset hm)
  fresh m hm := h.fresh m (hsub.subset hm)

/-- The path of the call that a plan waits for. -/
def Plan.awaited : Plan → List Path
  | .invoke path _ _ _ => [path]
  | _ => []

namespace Job

mutual

/-- The paths of the calls that may be under way. A serial gathering works on its first part alone. -/
def front : Job → List Path
  | .ready plan => plan.awaited
  | .gathering _ serial _ pending => frontOf serial pending

def frontOf (serial : Bool) : List (Nat × Job) → List Path
  | [] => []
  | (_, job) :: pending => front job ++ if serial then [] else frontOf serial pending

end

theorem frontOf_sublist (serial : Bool) (pending : List (Nat × Job)) :
    (frontOf serial pending).Sublist (pending.flatMap (·.2.front)) := by
  induction pending with
  | nil => exact .slnil
  | cons part pending ih =>
    rcases part with ⟨i, job⟩
    rw [frontOf, List.flatMap_cons]
    refine (List.Sublist.refl _).append ?_
    split
    · exact List.nil_sublist _
    · exact ih

/-- What was seen of a job, and what is left of it. -/
structure Portion where
  log : List Event
  job : Job

/-- A run of a job that leaves something of it. -/
def Leaves (job : Job) (portion : Portion) : Prop := Run job portion.log portion.job

/-- What was seen, and the calls that may be under way. -/
def Portion.marks (portion : Portion) : List (Path × Mark) :=
  Event.marks portion.log ++ portion.job.front.map (·, .answered)

theorem Portion.marks_subperm {portions : List Portion} {whole : Portion}
    (hlog : whole.log.Perm (portions.flatMap (·.log)))
    (hfront : whole.job.front.Sublist (portions.flatMap (·.job.front))) :
    whole.marks.Subperm (portions.flatMap Portion.marks) := by
  have hevents : (Event.marks whole.log).Perm (portions.flatMap fun p => Event.marks p.log) := by
    rw [← List.map_flatMap]
    exact hlog.map _
  have hcalls : (whole.job.front.map (·, Mark.answered)).Sublist
      (portions.flatMap fun p => p.job.front.map (·, .answered)) := by
    rw [← List.map_flatMap]
    exact hfront.map _
  exact (hevents.subperm.append hcalls.subperm).trans (List.flatMap_append_perm ..).subperm

theorem Run.of_ended {result : Option Value} {log : List Event} {last : Job}
    (h : Run (ended result) log last) : log = [] ∧ last = ended result := by
  cases h with
  | refl => exact ⟨rfl, rfl⟩
  | head hstep _ => cases hstep

/-- The run of a gathering is made up of runs of its parts. -/
theorem Run.apart {frame : Frame} {serial : Bool} {tray : Tray} {pending : List (Nat × Job)}
    {log : List Event} {last : Job} (h : Run (.gathering frame serial tray pending) log last) :
    ∃ portions : List Portion,
      List.Forall₂ (fun part portion => part.2.Leaves portion) pending portions ∧
      log.Perm (portions.flatMap (·.log)) ∧
      last.front.Sublist (portions.flatMap (·.job.front)) := by
  generalize hjob : Job.gathering frame serial tray pending = job at h
  induction h generalizing tray pending with
  | refl job =>
    subst hjob
    refine ⟨pending.map fun part => ⟨[], part.2⟩, ?_, ?_, ?_⟩
    · rw [List.forall₂_map_right_iff]
      exact List.forall₂_same.mpr fun part _ => .refl part.2
    · rw [List.flatMap_map]
      simp
    · rw [List.flatMap_map]
      exact frontOf_sublist serial pending
  | @head _ _ _ events log hstep hrest ih =>
    subst hjob
    cases hstep with
    | @within _ _ _ before after i job job' _ _ hinner =>
      obtain ⟨_, hportions, hlog, hfront⟩ := ih rfl
      obtain ⟨first, _, hfirst, hlast, rfl⟩ := forall₂_append.mp hportions
      cases hlast with
      | @cons _ portion _ second hpart hsecond =>
        have hleaves : job.Leaves ⟨events ++ portion.log, portion.job⟩ := .head hinner hpart
        refine ⟨first ++ ⟨events ++ portion.log, portion.job⟩ :: second,
          forall₂_append.mpr ⟨first, _, hfirst, .cons hleaves hsecond, rfl⟩, ?_, ?_⟩
        · rw [List.flatMap_append, List.flatMap_cons] at hlog ⊢
          refine (hlog.append_left events).trans ?_
          rw [List.append_assoc events]
          exact List.perm_append_comm_assoc ..
        · rw [List.flatMap_append, List.flatMap_cons] at hfront ⊢
          exact hfront
    | @collect _ _ _ before after i result _ =>
      obtain ⟨_, hportions, hlog, hfront⟩ := ih rfl
      obtain ⟨first, second, hfirst, hsecond, rfl⟩ := forall₂_append.mp hportions
      have hleaves : (ended result).Leaves ⟨[], ended result⟩ := .refl _
      refine ⟨first ++ ⟨[], ended result⟩ :: second,
        forall₂_append.mpr ⟨first, _, hfirst, .cons hleaves hsecond, rfl⟩, ?_, ?_⟩
      · simpa using hlog
      · simpa [front, Plan.awaited] using hfront
    | assemble =>
      obtain ⟨rfl, rfl⟩ := hrest.of_ended
      exact ⟨[], .nil, .refl _, List.nil_sublist _⟩

theorem numbered_map_snd {α : Type} (parts : List α) (start : Nat) :
    (numbered parts start).map (·.2) = parts := by
  rw [numbered, List.map_map]
  exact List.zipIdx_map_fst start parts

/-- A run of parts that wait is made up of runs of their plans. -/
theorem Run.apart_waiting {frame : Frame} {serial : Bool} {tray : Tray} {parts : List Plan}
    {log : List Event} {last : Job}
    (h : Run (.gathering frame serial tray (waiting parts)) log last) :
    ∃ portions : List Portion,
      List.Forall₂ (fun part portion => (Job.ready part).Leaves portion) parts portions ∧
      (Portion.mk log last).marks.Subperm (portions.flatMap Portion.marks) := by
  obtain ⟨portions, hportions, hlog, hfront⟩ := h.apart
  refine ⟨portions, ?_, Portion.marks_subperm hlog hfront⟩
  have hjobs : List.Forall₂ Leaves ((waiting parts).map (·.2)) portions :=
    List.forall₂_map_left_iff.mpr hportions
  rw [waiting, numbered_map_snd] at hjobs
  exact List.forall₂_map_left_iff.mp hjobs

end Job

namespace Plan

variable {call : Action → Prop}

/-- The parts of a gathering keep out of each other's way at every moment of a run. -/
theorem AllFit.marks_spread {parts : List Plan} {p : Path} {steps : List PathSegment}
    (hfit : AllFit call parts p steps) (hsteps : steps.Nodup)
    (hparts : ∀ part ∈ parts, ∀ {q : Path} {portion : Job.Portion}, part.Fits call q [] →
      (Job.ready part).Leaves portion → Mark.Spread portion.marks q [])
    {frame : Frame} {serial : Bool} {tray : Tray} {log : List Event} {last : Job}
    (h : Job.Run (.gathering frame serial tray (Job.waiting parts)) log last) (taken : List Mark) :
    Mark.Spread (Job.Portion.mk log last).marks p taken := by
  obtain ⟨portions, hportions, hsub⟩ := h.apart_waiting
  obtain ⟨hnodup, hbelow⟩ := hfit.spread hsteps Job.Portion.marks hportions hparts
  exact (Mark.Spread.of_steps hnodup hbelow taken).subperm hsub

/-- What is seen of a plan that fits to a path, and its calls that may be under way, are there once
each. -/
theorem Fits.marks_spread {plan : Plan} {p : Path} {taken : List Mark} (hfit : plan.Fits call p taken)
    {log : List Event} {job : Job} (hrun : Job.Run (.ready plan) log job) :
    Mark.Spread (Job.Portion.mk log job).marks p taken := by
  induction plan generalizing p taken log job with
  | done result =>
    obtain ⟨rfl, rfl⟩ := hrun.of_ended
    exact Mark.spread_nil p taken
  | report error rest ih =>
    obtain ⟨rfl, hnew, hrest⟩ := hfit
    cases hrun with
    | refl => exact Mark.spread_nil _ taken
    | head hstep hrun =>
      cases hstep
      exact .cons hnew (ih hrest hrun)
  | invoke path mode action next ih =>
    obtain ⟨rfl, hnew, -, hnext⟩ := hfit
    cases hrun with
    | refl => exact .cons hnew (Mark.spread_nil _ _)
    | head hstep hrun =>
      cases hstep
      exact .cons hnew (ih _ (hnext _) hrun)
  | transformed path index rest ih =>
    obtain ⟨rfl, hnew, hrest⟩ := hfit
    cases hrun with
    | refl => exact Mark.spread_nil _ taken
    | head hstep hrun =>
      cases hstep
      exact .cons hnew (ih hrest hrun)
  | together frame parts ih =>
    cases hrun with
    | refl => exact Mark.spread_nil p taken
    | head hstep hrun =>
      cases hstep
      obtain ⟨steps, hsteps, hall⟩ := hfit
      exact hall.marks_spread hsteps (fun part hpart _ _ hq hleaves => ih part hpart hq hleaves)
        hrun taken
  | unfinished =>
    cases hrun with
    | refl => exact Mark.spread_nil p taken
    | head hstep _ => cases hstep

theorem Fits.spread_reportAll {errors : List ExecutionError} {rest : Plan} {p : Path}
    {taken : List Mark} (hfit : (reportAll errors rest).Fits call p taken)
    {marks : List (Path × Mark)}
    (hrest : ∀ taken, rest.Fits call p taken → Mark.Spread marks p taken) :
    Mark.Spread (Event.marks (errors.map .reported) ++ marks) p taken := by
  induction errors generalizing taken with
  | nil => exact hrest taken hfit
  | cons e errors ih =>
    obtain ⟨rfl, hnew, hfit⟩ := hfit
    exact .cons hnew (ih hfit)

end Plan

/-- At no moment of a run was a call made that was made before or may still be under way. -/
theorem Agenda.Fits.marks_nodup {a : Agenda} {call : Action → Prop} (hfit : a.Fits call)
    {log : List Event} {job : Job} (h : a.Reaches log job) :
    (Job.Portion.mk log job).marks.Nodup := by
  obtain ⟨rest, hrun, rfl⟩ := h
  have hrest (taken : List Mark)
      (hparts : (Plan.together ⟨.object a.keys, true⟩ a.parts).Fits call [] taken) :
      Mark.Spread (Job.Portion.mk rest job).marks [] taken := by
    obtain ⟨steps, hsteps, hall⟩ := hparts
    exact hall.marks_spread hsteps (fun _ _ _ _ hpart => hpart.marks_spread) hrun taken
  have hnodup := (Plan.Fits.spread_reportAll hfit hrest).nodup
  simpa [Job.Portion.marks, Event.marks] using hnodup

end Trellis
