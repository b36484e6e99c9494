import Mathlib.Data.Fintype.EquivFin
import Trellis.Proofs.Execution.Permits
import Trellis.Proofs.Execution.ScheduleIndependence

/-!
Timetables on pools.

The workers that a timetable counts are the permits of a pool: whenever a timetable hands over a
call, the pool grants it a permit, and whenever it ends one, the permit comes back. So the workers
that executions of a schema leave behind, one after another, are those of a pool that comes about
on the permits of the schema.
-/

namespace Trellis

namespace WorkerPool

variable {p : WorkerPool}

def countOf (p : WorkerPool) (execution : Nat) (stage : CallStage) : Nat :=
  p.calls.countP fun c => c.execution = execution ∧ c.stage = stage

theorem run?_employ {i execution : Nat} (hcall : p.calls[i]? = some ⟨execution, .waiting⟩)
    (hfree : 0 < p.free) :
    p.run? [.grant i, .handOver i, .start i] =
      some ⟨p.free - 1, p.calls.set i ⟨execution, .running⟩⟩ := by
  have hi := (List.getElem?_eq_some_iff.mp hcall).1
  have hgrant : p.step? (.grant i) = some ⟨p.free - 1, p.calls.set i ⟨execution, .granted⟩⟩ := by
    rw [step?, if_neg (Nat.pos_iff_ne_zero.mp hfree)]
    exact move?_eq_some.mpr ⟨_, hcall, rfl, rfl⟩
  rw [run?, hgrant]
  simp [run?, step?, move?, hi]

theorem step?_finish {i : Nat} {call : BlockingCall} (hcall : p.calls[i]? = some call)
    (hruns : call.stage = .running) (ending : CallEnding) :
    p.step? (.finish i ending) =
      some ⟨p.free + 1, p.calls.set i { call with stage := .ended }⟩ :=
  move?_eq_some.mpr ⟨call, hcall, hruns, rfl⟩

/-- How many calls of an execution are at a stage once one of its calls has moved. -/
theorem countOf_set {i execution : Nat} {stage : CallStage}
    (hcall : p.calls[i]? = some ⟨execution, stage⟩) (free : Nat) (target counted : CallStage) :
    countOf ⟨free, p.calls.set i ⟨execution, target⟩⟩ execution counted +
        (decide (stage = counted)).toNat =
      p.countOf execution counted + (decide (target = counted)).toNat := by
  have h := countP_set_add (fun c => decide (c.execution = execution ∧ c.stage = counted))
    (b := ⟨execution, target⟩) hcall
  simp only [true_and] at h
  exact h

theorem running_set {i execution : Nat} {stage : CallStage}
    (hcall : p.calls[i]? = some ⟨execution, stage⟩) (free : Nat) (target : CallStage) :
    running ⟨free, p.calls.set i ⟨execution, target⟩⟩ + (decide (stage = .running)).toNat =
      p.running + (decide (target = .running)).toNat :=
  countP_set_add (fun c : BlockingCall => decide (c.stage = .running)) hcall

/-- A pool that comes about on the permits of a schema. -/
def ComesAbout (c : Configuration) (p : WorkerPool) : Prop :=
  ∃ events, (ofConfiguration c).run? events = some p

variable {c : Configuration}

theorem ComesAbout.run {q : WorkerPool} (h : p.ComesAbout c) {events : List Event}
    (hrun : p.run? events = some q) : q.ComesAbout c := by
  obtain ⟨earlier, hearlier⟩ := h
  exact ⟨earlier ++ events, by rw [run?_append, hearlier]; exact hrun⟩

theorem ComesAbout.step {q : WorkerPool} (h : p.ComesAbout c) (event : Event)
    (hstep : p.step? event = some q) : q.ComesAbout c :=
  have hrun : p.run? [event] = some q := run?_cons.mpr ⟨q, hstep, rfl⟩
  h.run hrun

end WorkerPool

open WorkerPool (ComesAbout)

def Timetable.queued (t : Timetable) : Nat := t.waiting.eList.length + t.waiting.dList.length

def Timetable.occupied (t : Timetable) : Nat := t.underway.countP (·.occupies)

/-- A pool that has a free permit for each idle worker and a running call for each worker that comes
back, and whose calls of an execution wait as those of a timetable do. -/
structure WorkerPool.Serves (p : WorkerPool) (execution : Nat) (t : Timetable) : Prop where
  free : p.free = t.idle
  granted : p.countOf execution .granted = 0
  waiting : p.countOf execution .waiting = t.queued
  occupied : t.occupied ≤ p.running

/-- Some pool on the permits of a schema serves a timetable. -/
def Timetable.Served (c : Configuration) (execution : Nat) (t : Timetable) : Prop :=
  ∃ p, ComesAbout c p ∧ p.Serves execution t

/-- Some pool on the permits of a schema has a free permit for each idle worker and a running call
for each worker that comes back. -/
def Workers.Served (c : Configuration) (w : Workers) : Prop :=
  ∃ p, ComesAbout c p ∧ p.free = w.idle ∧ w.returning.length ≤ p.running

namespace Timetable

variable {c : Configuration} {execution : Nat} {t u : Timetable}

theorem Served.congr (h : t.Served c execution) (hidle : u.idle = t.idle)
    (hqueued : u.queued = t.queued) (hoccupied : u.occupied ≤ t.occupied) :
    u.Served c execution := by
  obtain ⟨p, hp, hs⟩ := h
  exact ⟨p, hp, hs.free.trans hidle.symm, hs.granted, hs.waiting.trans hqueued.symm,
    Nat.le_trans hoccupied hs.occupied⟩

theorem countP_enter (u : Underway) (us : List Underway) :
    (enter u us).countP (·.occupies) = us.countP (·.occupies) + u.occupies.toNat := by
  induction us with
  | nil => cases h : u.occupies <;> simp [enter, h]
  | cons v us ih =>
    rw [enter]
    split
    · simp only [List.countP_cons, ih]
      omega
    · cases h : u.occupies <;> simp [List.countP_cons, h]

theorem Served.note (h : t.Served c execution) (path : Path) (starts : Nat) (writes : Option Nat) :
    (t.note path starts writes).Served c execution := by
  cases writes with
  | none => exact h
  | some writes => exact h.congr rfl rfl (Nat.le_refl _)

/-- A call that waits has been submitted. -/
theorem Served.submit (h : t.Served c execution) (call : Call) :
    Served c execution { t with waiting := t.waiting.enqueue call } := by
  obtain ⟨p, hp, hs⟩ := h
  have hcount (stage : CallStage) :
      WorkerPool.countOf { p with calls := p.calls ++ [⟨execution, .waiting⟩] } execution stage =
        p.countOf execution stage + (decide (CallStage.waiting = stage)).toNat := by
    cases stage <;> simp [WorkerPool.countOf]
  have hrunning : WorkerPool.running { p with calls := p.calls ++ [⟨execution, .waiting⟩] } =
      p.running := by
    simp [WorkerPool.running, WorkerPool.count]
  refine ⟨_, hp.step (.submit execution) rfl, hs.free, ?_, ?_, ?_⟩
  · rw [hcount, hs.granted]
    rfl
  · rw [hcount, hs.waiting]
    simp only [queued, Std.Queue.enqueue, List.length_cons, decide_true, Bool.toNat_true]
    omega
  · rw [hrunning]
    exact hs.occupied

theorem Served.enter (h : t.Served c execution) (ends : Nat) (after : Option (List Call)) :
    Served c execution { t with underway := Timetable.enter ⟨ends, false, after⟩ t.underway } :=
  h.congr rfl rfl (Nat.le_of_eq (countP_enter ⟨ends, false, after⟩ t.underway))

mutual

/-- Making a call submits those that block, among it and the calls it leads to. -/
theorem Served.make {t : Timetable} (h : t.Served c execution) :
    (call : Call) → (Timetable.make t call).Served c execution
  | ⟨path, .blocking, takes, writes, after⟩ => by
    rw [Timetable.make]
    exact h.submit _
  | ⟨path, .native, none, writes, after⟩ | ⟨path, .suspending, none, writes, after⟩ => by
    rw [Timetable.make.eq_def]
    exact (h.note path t.clock writes).congr rfl rfl (Nat.le_refl _)
  | ⟨path, .native, some 0, writes, after⟩ | ⟨path, .suspending, some 0, writes, after⟩ => by
    rw [Timetable.make.eq_def]
    exact (h.note path t.clock writes).makeAll after
  | ⟨path, .native, some (n + 1), writes, after⟩
  | ⟨path, .suspending, some (n + 1), writes, after⟩ => by
    rw [Timetable.make.eq_def]
    exact (h.note path t.clock writes).enter _ _

theorem Served.makeAll {t : Timetable} (h : t.Served c execution) :
    (calls : List Call) → (Timetable.makeAll t calls).Served c execution
  | [] => h
  | call :: calls => (h.make call).makeAll calls

end

/-- Taking a call from the queue takes one. -/
theorem queued_of_dequeue? {call : Call} {rest : Std.Queue Call}
    (h : t.waiting.dequeue? = some (call, rest)) :
    t.queued = queued { t with waiting := rest } + 1 := by
  obtain ⟨clock, idle, ⟨late, early⟩, underway, endless, written⟩ := t
  cases early with
  | cons first early =>
    cases h
    simp only [queued, List.length_cons]
    omega
  | nil =>
    have hlength : late.length = late.reverse.length := List.length_reverse.symm
    cases hlate : late.reverse with
    | nil => simp [Std.Queue.dequeue?, hlate] at h
    | cons first others =>
      simp only [Std.Queue.dequeue?, hlate, Option.some.injEq, Prod.mk.injEq] at h
      obtain ⟨-, rfl⟩ := h
      simp only [queued, hlength, hlate, List.length_nil, List.length_cons]
      omega

/-- A worker takes up a waiting call: the call is granted a permit, handed over and started. -/
theorem Served.employ (h : t.Served c execution) (hidle : t.idle = u.idle + 1)
    (hqueued : t.queued = u.queued + 1) (hoccupied : u.occupied ≤ t.occupied + 1) :
    u.Served c execution := by
  obtain ⟨p, hp, hs⟩ := h
  have hwaits : 0 < p.countOf execution .waiting := by
    rw [hs.waiting, hqueued]
    exact Nat.succ_pos _
  have hfree : 0 < p.free := by
    rw [hs.free, hidle]
    exact Nat.succ_pos _
  obtain ⟨⟨owner, stage⟩, hmem, hcall⟩ := List.countP_pos_iff.mp hwaits
  obtain ⟨rfl, rfl⟩ : owner = execution ∧ stage = .waiting := by simpa using hcall
  obtain ⟨i, hi⟩ := List.mem_iff_getElem?.mp hmem
  have hgranted := WorkerPool.countOf_set hi (p.free - 1) .running .granted
  have hwaiting := WorkerPool.countOf_set hi (p.free - 1) .running .waiting
  have hrunning := WorkerPool.running_set hi (p.free - 1) .running
  refine ⟨_, hp.run (WorkerPool.run?_employ hi hfree), ?_, ?_, ?_, ?_⟩
  · change p.free - 1 = u.idle
    rw [hs.free, hidle, Nat.add_sub_cancel]
  · exact hgranted.trans hs.granted
  · rw [hs.waiting, hqueued] at hwaiting
    exact Nat.add_right_cancel hwaiting
  · exact Nat.le_trans (Nat.le_trans hoccupied (Nat.add_le_add_right hs.occupied 1))
      (Nat.le_of_eq hrunning.symm)

/-- An occupied worker comes back: a running call ends, in whatever way. -/
theorem Served.release (h : t.Served c execution) (hidle : u.idle = t.idle + 1)
    (hqueued : u.queued = t.queued) (hoccupied : t.occupied = u.occupied + 1) :
    u.Served c execution := by
  obtain ⟨p, hp, hs⟩ := h
  have hruns : 0 < p.running := Nat.lt_of_lt_of_le (hoccupied ▸ Nat.succ_pos _) hs.occupied
  obtain ⟨⟨owner, stage⟩, hmem, hcall⟩ := List.countP_pos_iff.mp hruns
  obtain rfl : stage = .running := by simpa using hcall
  obtain ⟨i, hi⟩ := List.mem_iff_getElem?.mp hmem
  have hcount (counted : CallStage) (hne : counted ≠ .running ∧ counted ≠ .ended) :
      WorkerPool.countOf ⟨p.free + 1, p.calls.set i ⟨owner, .ended⟩⟩ execution counted =
        p.countOf execution counted := by
    have h := countP_set_add
      (fun c => decide (c.execution = execution ∧ c.stage = counted)) (b := ⟨owner, .ended⟩) hi
    simpa [hne.1.symm, hne.2.symm, WorkerPool.countOf] using h
  have hrunning := WorkerPool.running_set hi (p.free + 1) .ended
  refine ⟨_, hp.step _ (WorkerPool.step?_finish hi rfl .value), ?_, ?_, ?_, ?_⟩
  · exact (congrArg (· + 1) hs.free).trans hidle.symm
  · exact (hcount _ ⟨by decide, by decide⟩).trans hs.granted
  · exact (hcount _ ⟨by decide, by decide⟩).trans (hs.waiting.trans hqueued.symm)
  · refine Nat.le_of_succ_le_succ ?_
    calc u.occupied + 1 = t.occupied := hoccupied.symm
      _ ≤ p.running := hs.occupied
      _ = _ := hrunning.symm

theorem Served.handOver (h : t.Served c execution) {call : Call} {rest : Std.Queue Call}
    (hcall : t.waiting.dequeue? = some (call, rest)) (hidle : 0 < t.idle) :
    (Timetable.handOver { t with waiting := rest } call).Served c execution := by
  have htaken (u : Timetable) (hu : u.idle = t.idle - 1) (hrest : u.waiting = rest)
      (hoccupied : u.occupied ≤ t.occupied + 1) : u.Served c execution := by
    refine h.employ (by omega) ?_ hoccupied
    rw [queued_of_dequeue? hcall]
    subst hrest
    rfl
  have hkeeps (v : Timetable) (path : Path) (starts : Nat) (writes : Option Nat) :
      (v.note path starts writes).idle = v.idle ∧
        (v.note path starts writes).waiting = v.waiting ∧
        (v.note path starts writes).underway = v.underway := by
    cases writes <;> exact ⟨rfl, rfl, rfl⟩
  obtain ⟨hidle', hwaiting', hunderway'⟩ := hkeeps { t with waiting := rest, idle := t.idle - 1 }
    call.path (t.clock + 1) call.writes
  rw [Timetable.handOver]
  dsimp only at hidle' hwaiting' hunderway' ⊢
  cases call.takes with
  | none =>
    refine htaken _ hidle' hwaiting' ?_
    simp only [occupied, hunderway']
    exact Nat.le_succ _
  | some n =>
    refine htaken _ hidle' hwaiting' ?_
    simp only [occupied, countP_enter, hunderway']
    exact Nat.le_refl _

theorem handOver_idle (t : Timetable) (call : Call) : (t.handOver call).idle = t.idle - 1 := by
  rw [Timetable.handOver]
  cases call.writes <;> cases call.takes <;> rfl

theorem Served.assignUpTo {n : Nat} (h : t.Served c execution) (hn : n ≤ t.idle) :
    (Timetable.assignUpTo n t).Served c execution := by
  induction n generalizing t with
  | zero => exact h
  | succ n ih =>
    rw [Timetable.assignUpTo]
    split
    · exact h
    · rename_i call rest hcall
      refine ih (h.handOver hcall (Nat.lt_of_lt_of_le n.succ_pos hn)) ?_
      rw [handOver_idle]
      exact Nat.le_sub_one_of_lt hn

theorem Served.assign (h : t.Served c execution) : t.assign.Served c execution :=
  h.assignUpTo (Nat.le_refl _)

/-- When what is under way first ends, its worker comes back and waiting calls are assigned. -/
theorem Served.advance (h : t.Served c execution) : t.advance.Served c execution := by
  rw [Timetable.advance]
  split
  · exact h
  · rename_i u rest hunderway
    have hcount : t.occupied = rest.countP (·.occupies) + u.occupies.toNat := by
      cases hu : u.occupies <;> simp [occupied, hunderway, hu]
    refine Served.assign (Served.makeAll ?_ _)
    cases hu : u.occupies with
    | false => exact h.congr rfl rfl (hcount.symm ▸ Nat.le_add_right ..)
    | true => exact h.release rfl rfl (by rw [hcount, hu]; rfl)

theorem Served.follow {limit : Option Nat} {n : Nat} (h : t.Served c execution) :
    (Timetable.follow limit n t).Served c execution := by
  induction n generalizing t with
  | zero => exact h
  | succ n ih =>
    rw [Timetable.follow]
    split
    · exact h
    · split
      · exact h
      · split
        · exact h
        · exact ih h.advance

theorem Served.followAll {limit : Option Nat} (h : t.Served c execution) (calls : List Call) :
    (t.followAll limit calls).Served c execution := (h.makeAll calls).assign.follow

theorem Served.followInTurn {limit : Option Nat} (h : t.Served c execution) (calls : List Call) :
    (t.followInTurn limit calls).Served c execution := by
  induction calls generalizing t with
  | nil => exact h
  | cons call calls ih =>
    rw [Timetable.followInTurn]
    split
    · exact ih (h.followAll [call])
    · exact h.followAll [call]

/-- A timetable that starts is served by the pool that serves its workers, under an execution that
has submitted nothing. -/
theorem exists_served_start {w : Workers} (h : w.Served c) :
    ∃ execution, (Timetable.start w).Served c execution := by
  obtain ⟨p, hp, hfree, hreturning⟩ := h
  obtain ⟨execution, hnew⟩ :=
    Infinite.exists_notMem_finset (p.calls.map BlockingCall.execution).toFinset
  have hnone (stage : CallStage) : p.countOf execution stage = 0 := by
    refine List.countP_eq_zero.mpr fun call hcall hof => hnew ?_
    have hexecution := (of_decide_eq_true hof).1
    exact List.mem_toFinset.mpr (hexecution ▸ List.mem_map_of_mem hcall)
  have hentered (times : List Nat) (us : List Underway) :
      (times.foldl (fun us ends => enter ⟨ends, true, none⟩ us) us).countP (·.occupies) =
        us.countP (·.occupies) + times.length := by
    induction times generalizing us with
    | nil => rfl
    | cons ends times ih =>
      rw [List.foldl_cons, ih, countP_enter, List.length_cons]
      simp only [Bool.toNat_true]
      omega
  refine ⟨execution, p, hp, hfree, hnone _, hnone _, ?_⟩
  refine le_trans (le_of_eq ?_) hreturning
  exact (hentered w.returning []).trans (Nat.zero_add _)

/-- An execution that is given up leaves a pool that serves the workers it leaves. -/
theorem Served.workersAt (h : t.Served c execution) (time : Nat) :
    (t.workersAt time).Served c := by
  obtain ⟨p, hp, hs⟩ := h
  have hrunning (calls : List BlockingCall) :
      (calls.map (·.abandon execution)).countP (·.stage = .running) =
        calls.countP (·.stage = .running) := by
    rw [List.countP_map]
    refine List.countP_congr fun call _ => ?_
    obtain ⟨owner, stage⟩ := call
    by_cases howner : owner = execution <;>
      cases stage <;> simp [BlockingCall.abandon, CallStage.isAbandonable, howner]
  refine ⟨_, hp.step (.abandon execution) rfl, ?_, ?_⟩
  · change p.free + p.countOf execution .granted = t.idle
    rw [hs.granted, hs.free, Nat.add_zero]
  · refine le_trans ?_ (le_of_eq (hrunning p.calls).symm)
    refine le_trans (le_of_eq ?_) hs.occupied
    simp only [Timetable.workersAt, List.length_map, occupied, List.countP_eq_length_filter]

end Timetable

namespace Schema

variable {s : Schema}

/-- Workers that executions of a schema leave behind, one after another. -/
inductive Leaves (s : Schema) : Workers → Prop
  | start : s.Leaves s.workers
  | execution {workers rest : Workers} {depth : Nat} {r : Request}
      {answer : Except RequestError Outcome} : s.Leaves workers →
      s.executeOn? workers depth r = some (answer, rest) → s.Leaves rest

theorem exists_served_timetable {workers : Workers} (h : workers.Served s.configuration)
    (serial : Bool) (calls : List Call) :
    ∃ execution, (s.timetable workers serial calls).Served s.configuration execution := by
  obtain ⟨execution, hstart⟩ := Timetable.exists_served_start h
  refine ⟨execution, ?_⟩
  rw [timetable]
  cases serial with
  | false => exact hstart.followAll calls
  | true => exact hstart.followInTurn calls

theorem served_of_finish {workers rest : Workers} {agenda : Agenda}
    {answer : Except RequestError Outcome} (h : workers.Served s.configuration)
    (hfinish : s.finish? workers agenda = some (answer, rest)) : rest.Served s.configuration := by
  have hleft (serial : Bool) (calls : List Call) (time : Nat) :
      ((s.timetable workers serial calls).workersAt time).Served s.configuration := by
    obtain ⟨execution, hserved⟩ := exists_served_timetable h serial calls
    exact hserved.workersAt time
  rw [finish?] at hfinish
  split at hfinish
  · obtain ⟨limit, -, hlimit⟩ := Option.bind_eq_some_iff.mp hfinish
    obtain ⟨begun, -, hbegun⟩ := Option.bind_eq_some_iff.mp hlimit
    dsimp only at hbegun
    split at hbegun
    · cases hbegun
    · cases hbegun
      exact hleft _ _ _
  · dsimp only at hfinish
    split at hfinish
    · split at hfinish
      · obtain ⟨e, -, he⟩ := Option.bind_eq_some_iff.mp hfinish
        split at he <;> cases he <;> exact hleft _ _ _
      · cases hfinish
        exact hleft _ _ _
    · split at hfinish
      · cases hfinish
      · obtain ⟨e, -, he⟩ := Option.bind_eq_some_iff.mp hfinish
        split at he
        · cases he
        · cases he
          exact h

/-- The workers that executions of a schema leave behind are those of a pool on its permits. -/
theorem Leaves.served {workers : Workers} (h : s.Leaves workers) :
    workers.Served s.configuration := by
  induction h with
  | start => exact ⟨_, ⟨[], rfl⟩, rfl, Nat.zero_le _⟩
  | execution _ hrun ih =>
    rw [executeOn?] at hrun
    split at hrun
    · cases hrun
      exact ih
    · exact served_of_finish ih hrun

/-- In every run of the executions of a schema, the permits held add up with the free ones to the
workers it is configured with, of which it has at least one. A permit is held by an execution that
was granted it, or by a call that a thread has. So no more calls run at once, a call that a thread
has keeps its permit until it ends there, also if its execution is abandoned, in whatever way it
ends its permit is free again, and all permits are free when none is held. The workers that are
counted while requests are executed are those of such a run. -/
theorem permits_accounted (s : Schema) :
    (∀ events p, (WorkerPool.ofConfiguration s.configuration).run? events = some p →
      p.count .granted + p.count .handed + p.running + p.free =
          max 1 s.configuration.blockingWorkers ∧
        p.running ≤ max 1 s.configuration.blockingWorkers ∧
        (∀ i call, p.calls[i]? = some call → call.stage.isHandedOver = true →
          ∀ more q, p.run? more = some q → (∀ event ∈ more, event.ends? ≠ some i) →
            ∃ later, q.calls[i]? = some later ∧ later.execution = call.execution ∧
              later.stage.isHandedOver = true) ∧
        (∀ i call, p.calls[i]? = some call → call.stage = .running →
          ∀ ending, ∃ q, p.step? (.finish i ending) = some q ∧ q.free = p.free + 1) ∧
        ((∀ call ∈ p.calls, call.stage.holdsPermit = false) →
          p.free = max 1 s.configuration.blockingWorkers)) ∧
    ∀ workers, s.Leaves workers → workers.Served s.configuration := by
  refine ⟨fun events p hrun => ?_, fun workers hleft => hleft.served⟩
  have htotal : p.held + p.free = max 1 s.configuration.blockingWorkers :=
    (WorkerPool.held_add_free_of_run hrun).trans (WorkerPool.held_add_free_ofConfiguration _)
  have hheld := p.held_eq
  refine ⟨hheld ▸ htotal, by omega, ?_, ?_, fun hnone => ?_⟩
  · intro i call hcall hthread more q hmore hends
    exact WorkerPool.handedOver_of_run hmore hends hcall hthread
  · intro i call hcall hruns ending
    exact ⟨_, WorkerPool.step?_finish hcall hruns ending, rfl⟩
  · have hzero : p.held = 0 :=
      List.countP_eq_zero.mpr fun call hcall => Bool.eq_false_iff.mp (hnone call hcall)
    omega

/-- On one worker, a call whose execution is abandoned keeps another one waiting until it breaks
down; then the other one runs. -/
theorem permits_accounted_sample :
    let s : Schema := ⟨Sample.schema.graph, Configuration.default.withBlockingWorkers 1⟩
    let begun : List WorkerPool.Event :=
      [.submit 0, .submit 1, .grant 0, .handOver 0, .start 0, .abandon 0]
    let abandoned : WorkerPool := ⟨0, [⟨0, .running⟩, ⟨1, .waiting⟩]⟩
    let crowded : WorkerPool := ⟨0, [⟨0, .running⟩, ⟨1, .ended⟩, ⟨2, .waiting⟩]⟩
    let ended : WorkerPool := ⟨1, [⟨0, .ended⟩, ⟨1, .ended⟩]⟩
    (WorkerPool.ofConfiguration s.configuration).run? begun = some abandoned ∧
      abandoned.count .granted + abandoned.count .handed + abandoned.running + abandoned.free = 1 ∧
      abandoned.step? (.grant 1) = none ∧
      (∃ q, abandoned.step? (.finish 0 .breakdown) = some q ∧ q.free = 1) ∧
      (∃ later, crowded.calls[0]? = some later ∧ later.execution = 0 ∧
        later.stage.isHandedOver = true) ∧
      abandoned.run? [.finish 0 .breakdown, .grant 1, .handOver 1, .start 1, .finish 1 .failure] =
        some ended ∧
      ended.free = 1 ∧ s.workers.Served s.configuration := by
  intro s begun abandoned crowded ended
  have hbegun : (WorkerPool.ofConfiguration s.configuration).run? begun = some abandoned := by
    decide
  obtain ⟨hruns, hleaves⟩ := permits_accounted s
  obtain ⟨htotal, -, hkeeps, hfinish, -⟩ := hruns begun abandoned hbegun
  have hended : (WorkerPool.ofConfiguration s.configuration).run?
      (begun ++ [.finish 0 .breakdown, .grant 1, .handOver 1, .start 1, .finish 1 .failure]) =
        some ended := by
    decide
  obtain ⟨-, -, -, -, hfree⟩ := hruns _ ended hended
  exact ⟨hbegun, htotal, by decide, hfinish 0 _ rfl rfl .breakdown,
    hkeeps 0 _ rfl rfl [.submit 2, .abandon 1] crowded (by decide) (by simp [WorkerPool.Event.ends?]),
    by decide, hfree (by decide), hleaves _ .start⟩

end Schema

end Trellis
