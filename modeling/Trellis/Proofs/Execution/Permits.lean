import Mathlib.Data.List.Basic
import Trellis.Execution.WorkerPool

/-!
Permits of blocking calls.

No event of a pool makes a permit or loses one: permits that are free and permits that calls hold
add up to as many as there were before the first call. A call that a thread has holds its permit
until it ends there, whatever becomes of the execution that submitted it.
-/

namespace Trellis

theorem countP_cons_toNat {α : Type} (f : α → Bool) (a : α) (l : List α) :
    (a :: l).countP f = l.countP f + (f a).toNat := by
  rw [List.countP_cons]
  cases f a <;> rfl

theorem countP_set_add {α : Type} (f : α → Bool) {l : List α} {i : Nat} {a b : α}
    (h : l[i]? = some a) :
    (l.set i b).countP f + (f a).toNat = l.countP f + (f b).toNat := by
  obtain ⟨hi, rfl⟩ := List.getElem?_eq_some_iff.mp h
  have hpos (ha : f l[i] = true) : 0 < l.countP f :=
    List.countP_pos_iff.mpr ⟨l[i], List.getElem_mem hi, ha⟩
  rw [List.countP_set hi]
  cases ha : f l[i] with
  | false => cases f b <;> simp
  | true =>
    have := hpos ha
    cases f b <;> simp <;> omega

namespace WorkerPool

variable {p q : WorkerPool}

theorem move?_eq_some {i : Nat} {source target : CallStage} {free : Nat} :
    p.move? i source target free = some q ↔
      ∃ call, p.calls[i]? = some call ∧ call.stage = source ∧
        ⟨free, p.calls.set i { call with stage := target }⟩ = q := by
  rw [move?]
  cases p.calls[i]? with
  | none => simp
  | some call => simp

theorem countP_of_move? {i : Nat} {source target : CallStage} {free : Nat}
    (h : p.move? i source target free = some q) (f : CallStage → Bool) :
    q.free = free ∧
      q.calls.countP (f ·.stage) + (f source).toNat =
        p.calls.countP (f ·.stage) + (f target).toNat := by
  obtain ⟨call, hcall, rfl, rfl⟩ := move?_eq_some.mp h
  exact ⟨rfl, countP_set_add (f ·.stage) hcall⟩

/-- An execution that is abandoned gives back what its calls hold that no thread has. -/
theorem countP_abandon (execution : Nat) (calls : List BlockingCall) :
    (calls.map (·.abandon execution)).countP (·.stage.holdsPermit) +
        calls.countP (fun c => c.execution = execution ∧ c.stage = .granted) =
      calls.countP (·.stage.holdsPermit) := by
  induction calls with
  | nil => rfl
  | cons call calls ih =>
    have hcall : ((call.abandon execution).stage.holdsPermit).toNat +
        (decide (call.execution = execution ∧ call.stage = .granted)).toNat =
          call.stage.holdsPermit.toNat := by
      obtain ⟨e, stage⟩ := call
      by_cases he : e = execution <;>
        cases stage <;> simp [BlockingCall.abandon, CallStage.isAbandonable, CallStage.holdsPermit, he]
    simp only [List.map_cons, countP_cons_toNat] at ih ⊢
    omega

/-- No event makes a permit or loses one. -/
theorem held_add_free_of_step {event : Event} (h : p.step? event = some q) :
    q.held + q.free = p.held + p.free := by
  have hmove {i : Nat} {source target : CallStage} {free : Nat}
      (h : p.move? i source target free = some q)
      (hfree : free + target.holdsPermit.toNat = p.free + source.holdsPermit.toNat) :
      q.held + q.free = p.held + p.free := by
    obtain ⟨hq, hcount⟩ := countP_of_move? h CallStage.holdsPermit
    simp only [held]
    omega
  cases event with
  | submit execution =>
    cases h
    simp [held, CallStage.holdsPermit]
  | grant call =>
    rw [step?] at h
    split at h
    · cases h
    · exact hmove h (by simp [CallStage.holdsPermit]; omega)
  | handOver call => exact hmove h rfl
  | start call => exact hmove h rfl
  | finish call ending => exact hmove h rfl
  | drop call => exact hmove h rfl
  | abandon execution =>
    cases h
    have hback := countP_abandon execution p.calls
    simp only [held]
    omega

/-- A call that a thread has stays with it, unless the event takes it from there. -/
theorem handedOver_of_step {event : Event} (h : p.step? event = some q) {i : Nat}
    (hends : event.ends? ≠ some i) {call : BlockingCall} (hcall : p.calls[i]? = some call)
    (hthread : call.stage.isHandedOver = true) :
    ∃ later, q.calls[i]? = some later ∧ later.execution = call.execution ∧
      later.stage.isHandedOver = true := by
  have hmove {j : Nat} {source target : CallStage} {free : Nat}
      (h : p.move? j source target free = some q)
      (hkeeps : source.isHandedOver = true → j = i → target.isHandedOver = true) :
      ∃ later, q.calls[i]? = some later ∧ later.execution = call.execution ∧
        later.stage.isHandedOver = true := by
    obtain ⟨moved, hmoved, rfl, rfl⟩ := move?_eq_some.mp h
    by_cases hj : j = i
    · subst hj
      obtain rfl : moved = call := Option.some.inj (hmoved.symm.trans hcall)
      have hlt := (List.getElem?_eq_some_iff.mp hcall).1
      exact ⟨_, List.getElem?_set_self hlt, rfl, hkeeps hthread rfl⟩
    · exact ⟨call, by rw [List.getElem?_set_ne hj, hcall], rfl, hthread⟩
  cases event with
  | submit execution =>
    cases h
    exact ⟨call, List.getElem?_append_left (List.getElem?_eq_some_iff.mp hcall).1 ▸ hcall, rfl,
      hthread⟩
  | grant j =>
    rw [step?] at h
    split at h
    · cases h
    · exact hmove h fun hsource => by cases hsource
  | handOver j => exact hmove h fun _ _ => rfl
  | start j => exact hmove h fun _ _ => rfl
  | finish j ending => exact hmove h fun _ hj => absurd (congrArg some hj) hends
  | drop j => exact hmove h fun _ hj => absurd (congrArg some hj) hends
  | abandon execution =>
    cases h
    have hkept : call.abandon execution = call := by
      have habandon : call.stage.isAbandonable = false := by
        cases hstage : call.stage <;> simp_all [CallStage.isHandedOver, CallStage.isAbandonable]
      simp [BlockingCall.abandon, habandon]
    exact ⟨call, by simp [hcall, hkept], rfl, hthread⟩

theorem run?_cons {event : Event} {events : List Event} :
    p.run? (event :: events) = some q ↔
      ∃ r, p.step? event = some r ∧ r.run? events = some q := Option.bind_eq_some_iff

theorem run?_append {first second : List Event} :
    p.run? (first ++ second) = (p.run? first).bind fun q => q.run? second := by
  induction first generalizing p with
  | nil => rfl
  | cons event first ih =>
    simp only [List.cons_append, run?, Option.bind_assoc]
    exact congrArg _ (funext fun r => ih)

theorem held_add_free_of_run {events : List Event} (h : p.run? events = some q) :
    q.held + q.free = p.held + p.free := by
  induction events generalizing p with
  | nil =>
    cases h
    rfl
  | cons event events ih =>
    obtain ⟨r, hr, hq⟩ := run?_cons.mp h
    exact (ih hq).trans (held_add_free_of_step hr)

/-- A call that a thread has stays with it until an event takes it from there. -/
theorem handedOver_of_run {events : List Event} (h : p.run? events = some q) {i : Nat}
    (hends : ∀ event ∈ events, event.ends? ≠ some i) {call : BlockingCall}
    (hcall : p.calls[i]? = some call) (hthread : call.stage.isHandedOver = true) :
    ∃ later, q.calls[i]? = some later ∧ later.execution = call.execution ∧
      later.stage.isHandedOver = true := by
  induction events generalizing p call with
  | nil =>
    cases h
    exact ⟨call, hcall, rfl, hthread⟩
  | cons event events ih =>
    obtain ⟨r, hr, hq⟩ := run?_cons.mp h
    obtain ⟨later, hlater, hsame, hstays⟩ :=
      handedOver_of_step hr (hends event List.mem_cons_self) hcall hthread
    obtain ⟨last, hlast, hlastSame, hlastStays⟩ :=
      ih hq (fun e he => hends e (List.mem_cons_of_mem _ he)) hlater hstays
    exact ⟨last, hlast, hlastSame.trans hsame, hlastStays⟩

theorem held_eq (p : WorkerPool) : p.held = p.count .granted + p.count .handed + p.running := by
  obtain ⟨free, calls⟩ := p
  simp only [held, count, running]
  induction calls with
  | nil => rfl
  | cons call calls ih =>
    have hcall : call.stage.holdsPermit.toNat = (decide (call.stage = .granted)).toNat +
        (decide (call.stage = .handed)).toNat + (decide (call.stage = .running)).toNat := by
      cases call.stage <;> rfl
    simp only [countP_cons_toNat]
    omega

theorem held_add_free_ofConfiguration (c : Configuration) :
    (ofConfiguration c).held + (ofConfiguration c).free = max 1 c.blockingWorkers := Nat.zero_add _

end WorkerPool

end Trellis
