import Mathlib.Data.List.Perm.Basic
import Trellis.Proofs.Execution.Schedule

/-!
Carrying out a plan is one of its runs.

Whatever the ranking, the parts of a gathering are carried out one after another in some order. That
is a run in which every part comes in before the next one starts, and its log has the errors that
were written. A plan with a call that never ends has no such run, as nothing comes in after it.
-/

namespace Trellis

namespace Call

theorem anyEndless_append (first second : List Call) :
    anyEndless (first ++ second) = (anyEndless first || anyEndless second) := by
  induction first with
  | nil => simp [anyEndless]
  | cons call first ih => simp [anyEndless, ih, Bool.or_assoc]

theorem anyEndless_reverse (calls : List Call) : anyEndless calls.reverse = anyEndless calls := by
  induction calls with
  | nil => rfl
  | cons call calls ih =>
    rw [List.reverse_cons, anyEndless_append, ih]
    simp [anyEndless, Bool.or_comm]

end Call

namespace Gathered

@[simp] theorem calls_add (g : Gathered) (index : Nat) (e : Ended) :
    (g.add index e).calls = e.calls.reverse ++ g.calls := by
  simp [add, List.reverseAux_eq]

end Gathered

namespace Runner

theorem gather_calls {parts : List (Nat × Runner)} {g g' : Gathered}
    (h : gather parts g = some g') : ∃ more, g'.calls = more ++ g.calls := by
  induction parts generalizing g with
  | nil =>
    cases h
    exact ⟨[], rfl⟩
  | cons part parts ih =>
    rcases part with ⟨index, runner⟩
    obtain ⟨e, -, hrest⟩ := Option.bind_eq_some_iff.mp h
    obtain ⟨more, hmore⟩ := ih hrest
    exact ⟨more ++ e.calls.reverse, by rw [hmore, Gathered.calls_add, List.append_assoc]⟩

/-- Whether parts are ranked or not, each is carried out once, in its own place. -/
theorem inOrder_perm {ranks : List Nat} {runners : List Runner}
    (h : ranks.length = runners.length) : (inOrder ranks runners).Perm (inPlace runners) := by
  have hsnd : (ranks.zip runners.zipIdx).map (·.2) = runners.zipIdx := by
    rw [← List.unzip_snd, List.unzip_zip (by simpa using h)]
  have hmap := ((List.mergeSort_perm (ranks.zip runners.zipIdx) fun a b => a.1 ≤ b.1).map
    (·.2)).map fun (part : Runner × Nat) => (part.2, part.1)
  rw [hsnd, List.map_map] at hmap
  exact hmap

end Runner

namespace Plan

theorem runAll_eq_map (ranking : Ranking) (parts : List Plan) :
    runAll ranking parts = parts.map (run ranking) := by
  induction parts with
  | nil => rfl
  | cons part parts ih => rw [runAll, ih, List.map_cons]

def runners (ranking : Ranking) (parts : List (Nat × Plan)) : List (Nat × Runner) :=
  parts.map fun part => (part.1, part.2.run ranking)

theorem inPlace_runAll (ranking : Ranking) (parts : List Plan) :
    Runner.inPlace (runAll ranking parts) = runners ranking (Job.numbered parts 0) := by
  simp [Runner.inPlace, runners, Job.numbered, runAll_eq_map, List.zipIdx_map, Function.comp_def]

theorem exists_order (ranking : Ranking) (parts : List Plan) :
    ∃ order, Runner.inOrder (parts.map (rank ranking)) (runAll ranking parts) =
        runners ranking order ∧
      order.Perm (Job.numbered parts 0) := by
  have hlength : (parts.map (rank ranking)).length = (runAll ranking parts).length := by
    rw [runAll_eq_map, List.length_map, List.length_map]
  have hperm := Runner.inOrder_perm hlength
  rw [inPlace_runAll] at hperm
  exact (congrFun₂ (List.eq_map_comp_perm _) _ _).mpr hperm

/-- A plan that is carried out without waiting forever comes to its end in a run with its errors. -/
def Carried (ranking : Ranking) (plan : Plan) : Prop :=
  ∀ progress e, plan.run ranking progress = some e → Call.anyEndless e.calls = false →
    ∃ log, Job.Run (.ready plan) log (.ended e.result) ∧
      e.progress.errors = (Event.errors log).reverse ++ progress.errors

def jobs (parts : List (Nat × Plan)) : List (Nat × Job) :=
  parts.map fun part => (part.1, .ready part.2)

theorem jobs_numbered (parts : List Plan) : jobs (Job.numbered parts 0) = Job.waiting parts := by
  simp [jobs, Job.waiting, Job.numbered, List.zipIdx_map]

/-- Parts that are taken in some order come in one after another, if they are still pending in any
order; a serial gathering must have them pending in that order. -/
theorem gather_carried {ranking : Ranking} (frame : Frame) (serial : Bool)
    {order pending : List (Nat × Plan)} (hparts : ∀ part ∈ order, Carried ranking part.2)
    (hperm : pending.Perm order) (hserial : serial = true → pending = order) {g g' : Gathered}
    (h : Runner.gather (runners ranking order) g = some g')
    (hends : Call.anyEndless g'.calls = false) :
    ∃ log, Job.Run (.gathering frame serial g.tray (jobs pending)) log
        (.gathering frame serial g'.tray []) ∧
      g'.progress.errors = (Event.errors log).reverse ++ g.progress.errors := by
  induction order generalizing g pending with
  | nil =>
    cases h
    rw [hperm.eq_nil]
    exact ⟨[], .refl _, rfl⟩
  | cons part order ih =>
    rcases part with ⟨i, plan⟩
    obtain ⟨e, he, hrest⟩ := Option.bind_eq_some_iff.mp h
    obtain ⟨before, after, hpending, hbefore⟩ : ∃ before after,
        pending = before ++ (i, plan) :: after ∧ (serial = true → before = []) := by
      by_cases hs : serial = true
      · exact ⟨[], order, hserial hs, fun _ => rfl⟩
      · obtain ⟨before, after, hp⟩ := List.append_of_mem (hperm.mem_iff.mpr List.mem_cons_self)
        exact ⟨before, after, hp, fun ht => absurd ht hs⟩
    subst hpending
    have hcalls : Call.anyEndless e.calls = false := by
      obtain ⟨more, hmore⟩ := Runner.gather_calls hrest
      rw [hmore, Gathered.calls_add, Call.anyEndless_append, Call.anyEndless_append,
        Call.anyEndless_reverse] at hends
      simp only [Bool.or_eq_false_iff] at hends
      exact hends.2.1
    obtain ⟨first, hfirst, herrors⟩ := hparts (i, plan) List.mem_cons_self _ e he hcalls
    have hleft : (before ++ after).Perm order :=
      (List.perm_cons _).mp (List.perm_middle.symm.trans hperm)
    obtain ⟨second, hsecond, herrors'⟩ := ih
      (fun part hpart => hparts part (List.mem_cons_of_mem _ hpart)) hleft
      (fun hs => by
        have hcons := hserial hs
        rw [hbefore hs] at hcons ⊢
        exact (List.cons.inj hcons).2) hrest
    refine ⟨first ++ ([] ++ second), ?_, ?_⟩
    · have hnone (hs : serial = true) : jobs before = [] := by rw [hbefore hs]; rfl
      have hjobs : jobs (before ++ (i, plan) :: after) =
          jobs before ++ (i, .ready plan) :: jobs after := by simp [jobs]
      have hleft' : jobs (before ++ after) = jobs before ++ jobs after := by simp [jobs]
      rw [hleft'] at hsecond
      rw [hjobs]
      exact (Job.Run.within hnone hfirst).trans (.head (.collect hnone) hsecond)
    · rw [herrors']
      simp only [Event.errors_append, List.reverse_append, List.append_assoc,
        List.nil_append, Gathered.add, herrors]

/-- A whole gathering that is carried out comes to its end. -/
theorem assemble_carried {ranking : Ranking} {frame : Frame} (serial : Bool) {parts : List Plan}
    {order : List (Nat × Plan)} (hparts : ∀ part ∈ parts, Carried ranking part)
    (hperm : order.Perm (Job.numbered parts 0))
    (hserial : serial = true → order = Job.numbered parts 0) {progress : Progress} {e : Ended}
    (h : Runner.assemble frame (runners ranking order) progress = some e)
    (hends : Call.anyEndless e.calls = false) :
    ∃ log, Job.Run (.gathering frame serial (.ofSize parts.length) (Job.waiting parts)) log
        (.ended e.result) ∧
      e.progress.errors = (Event.errors log).reverse ++ progress.errors := by
  obtain ⟨g, hg, he⟩ := Option.bind_eq_some_iff.mp h
  cases he
  rw [Call.anyEndless_reverse] at hends
  have hsize : (runners ranking order).length = parts.length := by
    rw [runners, List.length_map, hperm.length_eq]
    simp [Job.numbered]
  obtain ⟨log, hrun, herrors⟩ := gather_carried frame serial
    (fun part hpart => hparts _ (Job.mem_of_mem_numbered (hperm.mem_iff.mp hpart))) hperm.symm
    (fun hs => (hserial hs).symm) hg hends
  rw [jobs_numbered, Gathered.start, hsize] at hrun
  exact ⟨log ++ [], hrun.trans (.single (.assemble _ _ _)), by simpa [Gathered.start] using herrors⟩

theorem carried (ranking : Ranking) (plan : Plan) : Carried ranking plan := by
  induction plan with
  | done result =>
    intro progress e h _
    cases h
    exact ⟨[], .refl _, rfl⟩
  | report error rest ih =>
    intro progress e h hends
    obtain ⟨log, hrun, herrors⟩ := ih _ e h hends
    refine ⟨[.reported error] ++ log, .head (.report error rest) hrun, ?_⟩
    simp [herrors]
  | invoke path mode action next ih =>
    intro progress e h hends
    rw [run] at h
    cases hp : action.perform? progress.journal with
    | none =>
      simp only [hp] at h
      cases h
      simp [Call.anyEndless, Call.isEndless] at hends
    | some ending =>
      simp only [hp] at h
      obtain ⟨inner, hinner, he⟩ := Option.bind_eq_some_iff.mp h
      cases he
      simp only [Call.anyEndless, Call.isEndless, Option.isNone_some, Bool.false_or,
        Bool.or_false] at hends
      obtain ⟨log, hrun, herrors⟩ := ih _ _ inner hinner hends
      exact ⟨[.answered path ending.result] ++ log, .head (.answer hp) hrun, by simpa using herrors⟩
  | transformed path index rest ih =>
    intro progress e h hends
    obtain ⟨log, hrun, herrors⟩ := ih _ e h hends
    exact ⟨[.transformed path index] ++ log, .head (.transform path index rest) hrun,
      by simpa using herrors⟩
  | together frame parts ih =>
    intro progress e h hends
    obtain ⟨order, horder, hperm⟩ := exists_order ranking parts
    rw [run, horder] at h
    obtain ⟨log, hrun, herrors⟩ := assemble_carried false ih hperm (by simp) h hends
    exact ⟨[] ++ log, .head (.spread frame parts) hrun, herrors⟩
  | unfinished => intro progress e h _; cases h

end Plan

namespace Agenda

/-- The parts of an agenda are carried out in some order, and in their own if it is serial. -/
theorem exists_order (a : Agenda) (ranking : Ranking) : ∃ order,
    (if a.serial then Runner.inPlace (Plan.runAll ranking a.parts)
      else Runner.inOrder (a.parts.map (Plan.rank ranking)) (Plan.runAll ranking a.parts)) =
        Plan.runners ranking order ∧
    order.Perm (Job.numbered a.parts 0) ∧
    (a.serial = true → order = Job.numbered a.parts 0) := by
  by_cases hs : a.serial = true
  · exact ⟨_, by rw [if_pos hs, Plan.inPlace_runAll], .refl _, fun _ => rfl⟩
  · obtain ⟨order, horder, hperm⟩ := Plan.exists_order ranking a.parts
    exact ⟨order, by rw [if_neg hs, horder], hperm, fun ht => absurd ht hs⟩

theorem reaches_of_run {a : Agenda} {ranking : Ranking} {e : Ended}
    (h : a.run ranking = some e) (hends : Call.anyEndless e.calls = false) :
    ∃ log, a.Reaches log (.ended e.result) ∧ e.progress.errors.reverse = Event.errors log := by
  have hparts (part : Plan) (_ : part ∈ a.parts) : part.Carried ranking := Plan.carried ranking part
  obtain ⟨order, horder, hperm, hserial⟩ := exists_order a ranking
  simp only [Agenda.run, horder] at h
  obtain ⟨rest, hrun, herrors⟩ := Plan.assemble_carried a.serial hparts hperm hserial h hends
  refine ⟨a.errors.map .reported ++ rest, ⟨rest, hrun, rfl⟩, ?_⟩
  rw [herrors]
  simp

end Agenda

end Trellis
