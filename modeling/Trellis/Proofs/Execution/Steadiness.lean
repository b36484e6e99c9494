import Trellis.Proofs.Execution.Carrying
import Trellis.Proofs.Execution.Settlement

/-!
Plans whose calls do not look at the journal.

A call is steady if what it hands out depends on its arguments alone. A plan of steady calls settles
in one way only. So if it comes to an end at all, every run can be continued to the same end.
-/

namespace Trellis

/-- What an action ends with does not depend on the journal. -/
def Action.Steady (action : Action) : Prop :=
  ∀ first second, (action.perform? first).map (·.result) = (action.perform? second).map (·.result)

theorem Action.Steady.result_eq {action : Action} (h : action.Steady) {first second : List String}
    {ending ending' : Ending} (hfirst : action.perform? first = some ending)
    (hsecond : action.perform? second = some ending') : ending.result = ending'.result := by
  have heq := h first second
  rw [hfirst, hsecond] at heq
  exact Option.some.inj heq

theorem Action.steady_answer (result : Except FieldError Output) : (Action.answer result).Steady :=
  fun _ _ => rfl

namespace Plan

mutual

/-- All calls of a plan are steady, whatever they hand out. -/
def Steady : Plan → Prop
  | .done _ | .unfinished => True
  | .report _ rest | .transformed _ _ rest => Steady rest
  | .invoke _ _ action next => action.Steady ∧ ∀ answer, Steady (next answer)
  | .together _ parts => AllSteady parts

def AllSteady : List Plan → Prop
  | [] => True
  | part :: parts => Steady part ∧ AllSteady parts

end

theorem allSteady_iff {parts : List Plan} : AllSteady parts ↔ ∀ part ∈ parts, part.Steady := by
  induction parts with
  | nil => simp [AllSteady]
  | cons part parts ih => simp [AllSteady, ih]

theorem steady_together {frame : Frame} {parts : List Plan} :
    (Plan.together frame parts).Steady ↔ ∀ part ∈ parts, part.Steady := by
  rw [Steady, allSteady_iff]

/-- A plan of steady calls settles in one way only. -/
theorem Steady.settles_unique {plan : Plan} (h : plan.Steady) {s t : Settled}
    (hs : plan.Settles s) (ht : plan.Settles t) : s = t := by
  induction plan generalizing s t with
  | done result => exact Eq.trans hs (Eq.symm ht)
  | report error rest ih =>
    obtain ⟨s', hs', rfl⟩ := hs
    obtain ⟨t', ht', rfl⟩ := ht
    rw [ih h hs' ht']
  | invoke path mode action next ih =>
    obtain ⟨_, ending, s', hp, hs', rfl⟩ := hs
    obtain ⟨_, ending', t', hp', ht', rfl⟩ := ht
    rw [← h.1.result_eq hp hp'] at ht' ⊢
    rw [ih ending.result (h.2 _) hs' ht']
  | transformed path index rest ih =>
    obtain ⟨s', hs', rfl⟩ := hs
    obtain ⟨t', ht', rfl⟩ := ht
    rw [ih h hs' ht']
  | together frame parts ih =>
    obtain ⟨each, heach, rfl⟩ := settles_together.mp hs
    obtain ⟨other, hother, rfl⟩ := settles_together.mp ht
    have hsteady := steady_together.mp h
    suffices heq : each = other by rw [heq]
    clear h hs ht
    induction heach generalizing other with
    | nil =>
      cases hother
      rfl
    | @cons part s parts each hpart _ ihall =>
      cases hother with
      | cons hpart' hother =>
        rw [ih part List.mem_cons_self (hsteady part List.mem_cons_self) hpart hpart']
        rw [ihall (fun p hp => ih p (List.mem_cons_of_mem _ hp)) _ hother
          (fun p hp => hsteady p (List.mem_cons_of_mem _ hp))]
  | unfinished => exact hs.elim

/-- A plan that is carried out to its end without waiting forever, whatever was written before. -/
def Finishes (ranking : Ranking) (plan : Plan) : Prop :=
  ∀ progress, ∃ e, plan.run ranking progress = some e ∧ Call.anyEndless e.calls = false

theorem gather_finishes {ranking : Ranking} {order : List (Nat × Plan)}
    (h : ∀ part ∈ order, Finishes ranking part.2) (g : Gathered)
    (hg : Call.anyEndless g.calls = false) :
    ∃ g', Runner.gather (runners ranking order) g = some g' ∧
      Call.anyEndless g'.calls = false := by
  induction order generalizing g with
  | nil => exact ⟨g, rfl, hg⟩
  | cons part order ih =>
    rcases part with ⟨i, plan⟩
    obtain ⟨e, he, hends⟩ := h (i, plan) List.mem_cons_self g.progress
    obtain ⟨g', hg', hends'⟩ := ih (fun part hpart => h part (List.mem_cons_of_mem _ hpart))
      (g.add i e) (by
        rw [Gathered.calls_add, Call.anyEndless_append, Call.anyEndless_reverse, hends, hg]
        rfl)
    exact ⟨g', Option.bind_eq_some_iff.mpr ⟨e, he, hg'⟩, hends'⟩

theorem assemble_finishes {ranking : Ranking} {order : List (Nat × Plan)}
    (h : ∀ part ∈ order, Finishes ranking part.2) (frame : Frame) (progress : Progress) :
    ∃ e, Runner.assemble frame (runners ranking order) progress = some e ∧
      Call.anyEndless e.calls = false := by
  obtain ⟨g, hg, hends⟩ := gather_finishes h (.start (runners ranking order).length progress) rfl
  refine ⟨_, Option.bind_eq_some_iff.mpr ⟨g, hg, rfl⟩, ?_⟩
  rw [Call.anyEndless_reverse]
  exact hends

/-- Once a plan of steady calls settles, it is carried out in every ranking. -/
theorem Steady.finishes {plan : Plan} (h : plan.Steady) {s : Settled} (hs : plan.Settles s)
    (ranking : Ranking) : plan.Finishes ranking := by
  induction plan generalizing s with
  | done result => exact fun progress => ⟨_, rfl, rfl⟩
  | report error rest ih =>
    obtain ⟨_, hs', rfl⟩ := hs
    exact fun progress => ih h hs' _
  | invoke path mode action next ih =>
    obtain ⟨journal, ending, _, hp, hs', rfl⟩ := hs
    intro progress
    have hsome := h.1 journal progress.journal
    rw [hp, Option.map_some] at hsome
    obtain ⟨ending', hp', hresult⟩ := Option.map_eq_some_iff.mp hsome.symm
    obtain ⟨e, he, hends⟩ := ih ending.result (h.2 _) hs'
      { progress with journal := ending'.journal }
    refine ⟨{ e with calls := [⟨path, mode, some ending'.elapsed, action.writesAfter?, e.calls⟩] },
      ?_, ?_⟩
    · simp only [run, hp', hresult, he]
      rfl
    · simp [Call.anyEndless, Call.isEndless, hends]
  | transformed path index rest ih =>
    obtain ⟨_, hs', rfl⟩ := hs
    exact fun progress => ih h hs' _
  | together frame parts ih =>
    obtain ⟨each, heach, rfl⟩ := settles_together.mp hs
    have hparts : ∀ part ∈ parts, part.Finishes ranking := by
      intro part hpart
      obtain ⟨s, -, hs⟩ := exists_settles heach hpart
      exact ih part hpart (steady_together.mp h part hpart) hs
    obtain ⟨order, horder, hperm⟩ := exists_order ranking parts
    intro progress
    rw [run, horder]
    exact assemble_finishes (fun part hpart => hparts _
      (Job.mem_of_mem_numbered (hperm.mem_iff.mp hpart))) frame progress
  | unfinished => exact hs.elim

end Plan

namespace Job

mutual

def Steady : Job → Prop
  | .ready plan => plan.Steady
  | .gathering _ _ _ pending => AllSteady pending

def AllSteady : List (Nat × Job) → Prop
  | [] => True
  | (_, job) :: pending => Steady job ∧ AllSteady pending

end

theorem allSteady_iff {pending : List (Nat × Job)} :
    AllSteady pending ↔ ∀ part ∈ pending, part.2.Steady := by
  induction pending with
  | nil => simp [AllSteady]
  | cons part pending ih =>
    rcases part with ⟨i, job⟩
    simp [AllSteady, ih]

theorem steady_gathering {frame : Frame} {serial : Bool} {tray : Tray}
    {pending : List (Nat × Job)} :
    (Job.gathering frame serial tray pending).Steady ↔ ∀ part ∈ pending, part.2.Steady := by
  rw [Steady, allSteady_iff]

theorem steady_waiting {parts : List Plan} (h : ∀ part ∈ parts, part.Steady) (frame : Frame)
    (serial : Bool) (tray : Tray) : (Job.gathering frame serial tray (waiting parts)).Steady := by
  rw [steady_gathering]
  intro part hpart
  obtain ⟨plan, hplan, heq⟩ := List.mem_map.mp (mem_of_mem_numbered hpart)
  rw [← heq]
  exact h plan hplan

theorem Steady.step {job job' : Job} {events : List Event} (h : job.Steady)
    (hstep : Step job events job') : job'.Steady := by
  induction hstep with
  | report | transform => exact h
  | answer => exact h.2 _
  | assemble => exact trivial
  | spread frame parts => exact steady_waiting (Plan.allSteady_iff.mp h) frame false _
  | within _ _ ih =>
    rw [steady_gathering, List.forall_mem_append, List.forall_mem_cons] at h ⊢
    exact ⟨h.1, ih h.2.1, h.2.2⟩
  | collect =>
    rw [steady_gathering, List.forall_mem_append] at h ⊢
    exact ⟨h.1, (List.forall_mem_cons.mp h.2).2⟩

/-- Something is left to settle after every step of a steady job that settles. -/
theorem Settles.step {job job' : Job} {events : List Event} (hsteady : job.Steady)
    (hstep : Step job events job') {s : Settled} (h : job.Settles s) : ∃ s', job'.Settles s' := by
  induction hstep generalizing s with
  | report | transform =>
    obtain ⟨t, ht, -⟩ := h
    exact ⟨t, ht⟩
  | answer hp =>
    obtain ⟨_, ending, t, hp', ht, -⟩ := h
    rw [← hsteady.1.result_eq hp hp'] at ht
    exact ⟨t, ht⟩
  | spread frame parts =>
    obtain ⟨each, heach, -⟩ := Plan.settles_together.mp h
    exact ⟨_, settles_gathering.mpr ⟨_, forall₂_numbered.mpr ⟨each, heach, rfl⟩, rfl⟩⟩
  | within _ _ ih =>
    obtain ⟨_, hparts, -⟩ := settles_gathering.mp h
    obtain ⟨first, _, hfirst, hlast, rfl⟩ := forall₂_append.mp hparts
    cases hlast with
    | @cons _ part _ second hpart hsecond =>
      rcases part with ⟨j, s⟩
      rw [steady_gathering, List.forall_mem_append, List.forall_mem_cons] at hsteady
      obtain ⟨t, ht⟩ := ih hsteady.2.1 hpart.2
      refine ⟨_, settles_gathering.mpr ⟨first ++ (j, t) :: second, ?_, rfl⟩⟩
      exact forall₂_append.mpr ⟨first, (j, t) :: second, hfirst, .cons ⟨hpart.1, ht⟩ hsecond, rfl⟩
  | collect =>
    obtain ⟨_, hparts, -⟩ := settles_gathering.mp h
    obtain ⟨first, _, hfirst, hlast, rfl⟩ := forall₂_append.mp hparts
    cases hlast with
    | cons hpart hsecond =>
      exact ⟨_, settles_gathering.mpr
        ⟨_, forall₂_append.mpr ⟨first, _, hfirst, hsecond, rfl⟩, rfl⟩⟩
  | assemble => exact ⟨_, rfl⟩

theorem Settles.run {job job' : Job} {log : List Event} (hsteady : job.Steady)
    (hrun : Run job log job') {s : Settled} (h : job.Settles s) : ∃ s', job'.Settles s' := by
  induction hrun generalizing s with
  | refl job => exact ⟨s, h⟩
  | head hstep _ ih =>
    obtain ⟨t, ht⟩ := Settles.step hsteady hstep h
    exact ih (hsteady.step hstep) ht

end Job

namespace Agenda

/-- All calls that an agenda may make are steady. -/
def Steady (a : Agenda) : Prop := ∀ part ∈ a.parts, part.Steady

variable {a : Agenda}

theorem Steady.finishes (h : a.Steady) {s : Settled} (hs : a.start.Settles s) (ranking : Ranking) :
    ∃ e, a.run ranking = some e ∧ Call.anyEndless e.calls = false := by
  obtain ⟨each, heach, -⟩ := Plan.settles_together.mp (settles_start.mp hs)
  have hparts (part : Nat × Plan) (hpart : part ∈ Job.numbered a.parts 0) :
      part.2.Finishes ranking := by
    have hmem := Job.mem_of_mem_numbered hpart
    obtain ⟨t, -, ht⟩ := Plan.exists_settles heach hmem
    exact (h part.2 hmem).finishes ht ranking
  rw [Agenda.run]
  obtain ⟨order, horder, hperm, -⟩ := exists_order a ranking
  rw [horder]
  exact Plan.assemble_finishes (fun part hpart => hparts part (hperm.mem_iff.mp hpart)) _ _

theorem Steady.completes (h : a.Steady) {s : Settled} (hs : a.start.Settles s) {log : List Event}
    {job : Job} (hrun : Job.Run a.start log job) : job.Completes := by
  obtain ⟨t, ht⟩ := Job.Settles.run (Job.steady_waiting h _ _ _) hrun hs
  exact ht.completes

end Agenda

end Trellis
