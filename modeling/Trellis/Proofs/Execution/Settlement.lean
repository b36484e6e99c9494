import Trellis.Proofs.Execution.Orderly
import Trellis.Proofs.Itemwise

/-!
What plans come to.

A plan settles to a result and to the events on the way, listed part by part. Nothing in this
relation depends on the order in which parts are carried out, only on what calls answer. Every run
to the end leads to a settlement with the same events up to their order, so a result never shows
which part was faster.
-/

namespace Trellis

/-- A result, and the events that led to it. -/
structure Settled where
  result : Option Value
  events : List Event

namespace Settled

def after (s : Settled) (events : List Event) : Settled := ⟨s.result, events ++ s.events⟩

/-- The results are equal, and the events are once some others are put in front. -/
structure Extends (s : Settled) (events : List Event) (t : Settled) : Prop where
  result : s.result = t.result
  events : s.events.Perm (events ++ t.events)

theorem extends_after (t : Settled) (events : List Event) : (t.after events).Extends events t :=
  ⟨rfl, .refl _⟩

theorem extends_rfl (s : Settled) : s.Extends [] s := ⟨rfl, .refl _⟩

theorem Extends.trans {s t u : Settled} {events more : List Event} (h : s.Extends events t)
    (ht : t.Extends more u) : s.Extends (events ++ more) u where
  result := h.result.trans ht.result
  events := by
    rw [List.append_assoc]
    exact h.events.trans (ht.events.append_left _)

end Settled

namespace Tray

/-- Takes in parts one after another. -/
def addAll (t : Tray) (parts : List (Nat × Settled)) : Tray :=
  parts.foldl (fun t part => t.add part.1 part.2.result) t

/-- What a gathering comes to once the parts that are left have come in. -/
def settle (t : Tray) (frame : Frame) (parts : List (Nat × Settled)) : Settled :=
  ⟨(t.addAll parts).assemble frame, parts.flatMap (·.2.events)⟩

theorem add_comm (t : Tray) {i j : Nat} (h : i ≠ j) (first second : Option Value) :
    (t.add i first).add j second = (t.add j second).add i first := by
  cases first with
  | none => cases second <;> rfl
  | some a =>
    cases second with
    | none => rfl
    | some b =>
      simp only [add, Slots.fill]
      rw [Array.setIfInBounds_comm (some a) (some b) h]

theorem addAll_add (t : Tray) {i : Nat} (result : Option Value) {parts : List (Nat × Settled)}
    (h : i ∉ parts.map (·.1)) :
    (t.add i result).addAll parts = (t.addAll parts).add i result := by
  induction parts generalizing t with
  | nil => rfl
  | cons part parts ih =>
    rw [List.map_cons, List.mem_cons, not_or] at h
    simp only [addAll, List.foldl_cons] at ih ⊢
    rw [add_comm t h.1, ih _ h.2]

theorem addAll_append (t : Tray) (first second : List (Nat × Settled)) :
    t.addAll (first ++ second) = (t.addAll first).addAll second :=
  List.foldl_append

theorem settle_collect (t : Tray) (frame : Frame) {first second : List (Nat × Settled)} {i : Nat}
    (result : Option Value) (h : i ∉ first.map (·.1)) :
    t.settle frame (first ++ (i, ⟨result, []⟩) :: second) =
      (t.add i result).settle frame (first ++ second) := by
  have hadd : t.addAll (first ++ (i, ⟨result, []⟩) :: second) =
      (t.add i result).addAll (first ++ second) := by
    rw [addAll_append, addAll_append, addAll_add t result h]
    rfl
  simp only [settle, hadd, List.flatMap_append, List.flatMap_cons, List.nil_append]

/-- A part that comes to the same result keeps what a gathering comes to. -/
theorem settle_extends (t : Tray) (frame : Frame) (first second : List (Nat × Settled)) (i : Nat)
    {s s' : Settled} {events : List Event} (h : s.Extends events s') :
    (t.settle frame (first ++ (i, s) :: second)).Extends events
      (t.settle frame (first ++ (i, s') :: second)) where
  result := by
    simp only [settle, addAll, List.foldl_append, List.foldl_cons, h.result]
  events := by
    simp only [settle, List.flatMap_append, List.flatMap_cons]
    calc first.flatMap (·.2.events) ++ (s.events ++ second.flatMap (·.2.events))
      _ |>.Perm (first.flatMap (·.2.events) ++
          (events ++ s'.events ++ second.flatMap (·.2.events))) :=
        (h.events.append_right _).append_left _
      _ |>.Perm (events ++ (first.flatMap (·.2.events) ++
          (s'.events ++ second.flatMap (·.2.events)))) := by
        rw [List.append_assoc, ← List.append_assoc, ← List.append_assoc events]
        exact List.perm_append_comm.append_right _

end Tray

mutual

/-- What a plan may come to, whatever its calls answer. -/
def Plan.Settles : Plan → Settled → Prop
  | .done result, s => s = ⟨result, []⟩
  | .report error rest, s => ∃ t, Plan.Settles rest t ∧ s = t.after [.reported error]
  | .invoke path _ action next, s => ∃ journal ending t, action.perform? journal = some ending ∧
      Plan.Settles (next ending.result) t ∧ s = t.after [.answered path ending.result]
  | .transformed path index rest, s =>
    ∃ t, Plan.Settles rest t ∧ s = t.after [.transformed path index]
  | .together frame parts, s => ∃ settled, Plan.AllSettle parts settled ∧
      s = (Tray.ofSize parts.length).settle frame (Job.numbered settled 0)
  | .unfinished, _ => False

def Plan.AllSettle : List Plan → List Settled → Prop
  | [], settled => settled = []
  | part :: parts, settled =>
    ∃ s rest, Plan.Settles part s ∧ Plan.AllSettle parts rest ∧ settled = s :: rest

end

theorem Plan.allSettle_iff {parts : List Plan} {settled : List Settled} :
    AllSettle parts settled ↔ List.Forall₂ Settles parts settled := by
  induction parts generalizing settled with
  | nil => simp [AllSettle]
  | cons part parts ih => simp [AllSettle, ih, List.forall₂_cons_left_iff]

theorem Plan.exists_settles {parts : List Plan} {settled : List Settled}
    (h : List.Forall₂ Settles parts settled) {part : Plan} (hpart : part ∈ parts) :
    ∃ s ∈ settled, part.Settles s := by
  induction h with
  | nil => exact absurd hpart List.not_mem_nil
  | @cons other s _ _ hs _ ih =>
    rcases List.mem_cons.mp hpart with rfl | hmem
    · exact ⟨s, List.mem_cons_self, hs⟩
    · obtain ⟨t, ht, hsettles⟩ := ih hmem
      exact ⟨t, List.mem_cons_of_mem _ ht, hsettles⟩

theorem Plan.settles_together {frame : Frame} {parts : List Plan} {s : Settled} :
    (Plan.together frame parts).Settles s ↔ ∃ settled, List.Forall₂ Settles parts settled ∧
      s = (Tray.ofSize parts.length).settle frame (Job.numbered settled 0) := by
  simp only [Settles, allSettle_iff]

namespace Job

mutual

/-- What a job may still come to. -/
def Settles : Job → Settled → Prop
  | .ready plan, s => plan.Settles s
  | .gathering frame _ tray pending, s =>
    ∃ parts, AllSettle pending parts ∧ s = tray.settle frame parts

def AllSettle : List (Nat × Job) → List (Nat × Settled) → Prop
  | [], parts => parts = []
  | (i, job) :: pending, parts =>
    ∃ s rest, Settles job s ∧ AllSettle pending rest ∧ parts = (i, s) :: rest

end

/-- A part with its index comes to something. -/
def PartSettles (part : Nat × Job) (settled : Nat × Settled) : Prop :=
  part.1 = settled.1 ∧ part.2.Settles settled.2

theorem allSettle_iff {pending : List (Nat × Job)} {parts : List (Nat × Settled)} :
    AllSettle pending parts ↔ List.Forall₂ PartSettles pending parts := by
  induction pending generalizing parts with
  | nil => simp [AllSettle]
  | cons part pending ih =>
    rcases part with ⟨i, job⟩
    simp only [AllSettle, ih, List.forall₂_cons_left_iff, PartSettles, Prod.exists]
    constructor
    · rintro ⟨s, rest, hs, hrest, rfl⟩
      exact ⟨i, s, rest, ⟨rfl, hs⟩, hrest, rfl⟩
    · rintro ⟨_, s, rest, ⟨rfl, hs⟩, hrest, rfl⟩
      exact ⟨s, rest, hs, hrest, rfl⟩

theorem settles_gathering {frame : Frame} {serial : Bool} {tray : Tray}
    {pending : List (Nat × Job)} {s : Settled} :
    (Job.gathering frame serial tray pending).Settles s ↔
      ∃ parts, List.Forall₂ PartSettles pending parts ∧ s = tray.settle frame parts := by
  simp only [Settles, allSettle_iff]

theorem partSettles_indices {pending : List (Nat × Job)} {parts : List (Nat × Settled)}
    (h : List.Forall₂ PartSettles pending parts) : pending.map (·.1) = parts.map (·.1) := by
  induction h with
  | nil => rfl
  | cons hpart _ ih => rw [List.map_cons, List.map_cons, hpart.1, ih]

theorem forall₂_numbered {parts : List Plan} {start : Nat} {settled : List (Nat × Settled)} :
    List.Forall₂ PartSettles (numbered (parts.map .ready) start) settled ↔
      ∃ each, List.Forall₂ Plan.Settles parts each ∧ settled = numbered each start := by
  induction parts generalizing start settled with
  | nil => simp [numbered]
  | cons part parts ih =>
    have hcons {α : Type} (a : α) (l : List α) :
        numbered (a :: l) start = (start, a) :: numbered l (start + 1) := rfl
    rw [List.map_cons, hcons, List.forall₂_cons_left_iff]
    constructor
    · rintro ⟨⟨i, s⟩, rest, ⟨rfl, hs⟩, hrest, rfl⟩
      obtain ⟨each, heach, rfl⟩ := ih.mp hrest
      exact ⟨s :: each, .cons hs heach, by rw [hcons]⟩
    · rintro ⟨each, heach, rfl⟩
      cases heach with
      | @cons _ s _ each hs heach =>
        exact ⟨(start, s), numbered each (start + 1), ⟨rfl, hs⟩, ih.mpr ⟨each, heach, rfl⟩, hcons _ _⟩

/-- What is left after a step comes to the same as before it, together with what was seen. -/
theorem Settles.of_step {job job' : Job} {events : List Event} (hstep : Step job events job')
    (horderly : job.Orderly) {s' : Settled} (h : job'.Settles s') :
    ∃ s, job.Settles s ∧ s.Extends events s' := by
  induction hstep generalizing s' with
  | report error rest => exact ⟨_, ⟨s', h, rfl⟩, s'.extends_after _⟩
  | answer hperform => exact ⟨_, ⟨_, _, s', hperform, h, rfl⟩, s'.extends_after _⟩
  | transform path index rest => exact ⟨_, ⟨s', h, rfl⟩, s'.extends_after _⟩
  | spread frame parts =>
    obtain ⟨_, hparts, rfl⟩ := settles_gathering.mp h
    obtain ⟨each, heach, rfl⟩ := forall₂_numbered.mp hparts
    exact ⟨_, Plan.settles_together.mpr ⟨each, heach, rfl⟩, Settled.extends_rfl _⟩
  | within _ _ ih =>
    obtain ⟨_, hparts, rfl⟩ := settles_gathering.mp h
    obtain ⟨first, _, hfirst, hlast, rfl⟩ := forall₂_append.mp hparts
    cases hlast with
    | @cons _ part _ second hpart hsecond =>
      rcases part with ⟨i, t⟩
      obtain ⟨rfl, ht⟩ := hpart
      have hinner := (orderly_gathering.mp horderly).2 _
        (List.mem_append_right _ List.mem_cons_self)
      obtain ⟨s, hs, hext⟩ := ih hinner ht
      refine ⟨_, settles_gathering.mpr ⟨_, ?_, rfl⟩, Tray.settle_extends _ _ first second _ hext⟩
      exact forall₂_append.mpr ⟨first, _, hfirst, .cons ⟨rfl, hs⟩ hsecond, rfl⟩
  | @collect frame serial tray before after i result _ =>
    obtain ⟨_, hparts, rfl⟩ := settles_gathering.mp h
    obtain ⟨first, second, hfirst, hsecond, rfl⟩ := forall₂_append.mp hparts
    have hnodup := (orderly_gathering.mp horderly).1.nodup
    rw [List.map_append, List.map_cons] at hnodup
    have hi : i ∉ first.map (·.1) := by
      rw [← partSettles_indices hfirst]
      intro hmem
      exact (List.nodup_append.mp hnodup).2.2 i hmem i List.mem_cons_self rfl
    refine ⟨_, settles_gathering.mpr ⟨first ++ (i, ⟨result, []⟩) :: second, ?_, rfl⟩, ?_⟩
    · have hended : (ended result).Settles ⟨result, []⟩ := rfl
      exact forall₂_append.mpr ⟨first, _, hfirst, .cons ⟨rfl, hended⟩ hsecond, rfl⟩
    · rw [Tray.settle_collect tray frame result hi]
      exact Settled.extends_rfl _
  | assemble frame serial tray =>
    obtain rfl : s' = ⟨tray.assemble frame, []⟩ := h
    exact ⟨_, settles_gathering.mpr ⟨[], .nil, rfl⟩, Settled.extends_rfl _⟩

/-- What a run leaves to do comes to the same as the whole, together with its log. -/
theorem Settles.of_run {job job' : Job} {log : List Event} (hrun : Run job log job')
    (horderly : job.Orderly) {s' : Settled} (h : job'.Settles s') :
    ∃ s, job.Settles s ∧ s.Extends log s' := by
  induction hrun with
  | refl job => exact ⟨s', h, s'.extends_rfl⟩
  | head hstep _ ih =>
    obtain ⟨t, ht, hext⟩ := ih (horderly.step hstep) h
    obtain ⟨s, hs, hext'⟩ := Settles.of_step hstep horderly ht
    exact ⟨s, hs, hext'.trans hext⟩

/-- A run to the end shows what a job settles to, with the events in some order. -/
theorem settles_of_ended {job : Job} {log : List Event} {result : Option Value}
    (hrun : Run job log (ended result)) (horderly : job.Orderly) :
    ∃ s, job.Settles s ∧ s.result = result ∧ s.events.Perm log := by
  have hended : (ended result).Settles ⟨result, []⟩ := rfl
  obtain ⟨s, hs, hext⟩ := Settles.of_run hrun horderly hended
  exact ⟨s, hs, hext.result, by simpa using hext.events⟩

/-- A job that can be brought to an end. -/
def Completes (job : Job) : Prop := ∃ log result, Run job log (ended result)

/-- The first part of a gathering may be carried out and come in before any other. -/
theorem Run.first {job : Job} {log : List Event} {result : Option Value}
    (h : Run job log (ended result)) (frame : Frame) (serial : Bool) (tray : Tray) (i : Nat)
    (pending : List (Nat × Job)) :
    Run (.gathering frame serial tray ((i, job) :: pending)) log
      (.gathering frame serial (tray.add i result) pending) := by
  have hnone : serial = true → ([] : List (Nat × Job)) = [] := fun _ => rfl
  have hrun : Run (.gathering frame serial tray ([] ++ (i, job) :: pending)) log
      (.gathering frame serial tray ([] ++ (i, ended result) :: pending)) := .within hnone h
  have hcollect : Step (.gathering frame serial tray ([] ++ (i, ended result) :: pending)) []
      (.gathering frame serial (tray.add i result) ([] ++ pending)) := .collect hnone
  simpa using hrun.trans (.single hcollect)

theorem completes_gathering {pending : List (Nat × Job)}
    (h : ∀ part ∈ pending, part.2.Completes) (frame : Frame) (serial : Bool) (tray : Tray) :
    (Job.gathering frame serial tray pending).Completes := by
  induction pending generalizing tray with
  | nil => exact ⟨_, _, .single (.assemble frame serial tray)⟩
  | cons part pending ih =>
    rcases part with ⟨i, job⟩
    obtain ⟨first, result, hfirst⟩ := h (i, job) List.mem_cons_self
    obtain ⟨second, whole, hsecond⟩ :=
      ih (fun part hpart => h part (List.mem_cons_of_mem _ hpart)) (tray.add i result)
    exact ⟨_, whole, (hfirst.first frame serial tray i pending).trans hsecond⟩

theorem completes_waiting {parts : List Plan} (h : ∀ part ∈ parts, (Job.ready part).Completes)
    (frame : Frame) (serial : Bool) (tray : Tray) :
    (Job.gathering frame serial tray (waiting parts)).Completes := by
  apply completes_gathering
  intro part hpart
  obtain ⟨plan, hplan, heq⟩ := List.mem_map.mp (mem_of_mem_numbered hpart)
  exact heq ▸ h plan hplan

/-- A plan that settles can be carried out to its end. -/
theorem completes_of_plan {plan : Plan} {s : Settled} (h : plan.Settles s) :
    (Job.ready plan).Completes := by
  induction plan generalizing s with
  | done result => exact ⟨[], result, .refl _⟩
  | report error rest ih =>
    obtain ⟨_, hs, rfl⟩ := h
    obtain ⟨log, result, hrun⟩ := ih hs
    exact ⟨_, result, .head (.report error rest) hrun⟩
  | invoke path mode action next ih =>
    obtain ⟨_, ending, _, hp, hs, rfl⟩ := h
    obtain ⟨log, result, hrun⟩ := ih _ hs
    exact ⟨_, result, .head (.answer hp) hrun⟩
  | transformed path index rest ih =>
    obtain ⟨_, hs, rfl⟩ := h
    obtain ⟨log, result, hrun⟩ := ih hs
    exact ⟨_, result, .head (.transform path index rest) hrun⟩
  | together frame parts ih =>
    obtain ⟨each, heach, rfl⟩ := Plan.settles_together.mp h
    obtain ⟨log, result, hrun⟩ := completes_waiting (fun part hpart => by
      obtain ⟨s, -, hs⟩ := Plan.exists_settles heach hpart
      exact ih part hpart hs) frame false (.ofSize parts.length)
    exact ⟨_, result, .head (.spread frame parts) hrun⟩
  | unfinished => exact h.elim

theorem Settles.completes {job : Job} {s : Settled} (h : job.Settles s) : job.Completes := by
  induction job generalizing s with
  | ready plan => exact completes_of_plan h
  | gathering frame serial tray pending ih =>
    obtain ⟨parts, hparts, rfl⟩ := settles_gathering.mp h
    apply completes_gathering
    intro part hpart
    obtain ⟨i, hi, rfl⟩ := List.getElem_of_mem hpart
    exact ih _ hpart (hparts.get hi (hparts.length_eq ▸ hi)).2

end Job

theorem Agenda.settles_start {a : Agenda} {s : Settled} :
    a.start.Settles s ↔ (Plan.together ⟨.object a.keys, true⟩ a.parts).Settles s := by
  rw [start, Job.settles_gathering, Plan.settles_together]
  constructor
  · rintro ⟨_, hparts, rfl⟩
    obtain ⟨each, heach, rfl⟩ := Job.forall₂_numbered.mp hparts
    exact ⟨each, heach, rfl⟩
  · rintro ⟨each, heach, rfl⟩
    exact ⟨_, Job.forall₂_numbered.mpr ⟨each, heach, rfl⟩, rfl⟩

end Trellis
