import Trellis.Proofs.Execution.Settlement

/-!
Where the events of a plan take place.

A plan that fits to a path has all its events at the path or below it, and every part of it keeps to
a territory of its own. Then nothing happens twice: no resolver and no transformation of one
position is called again, and no two errors agree on both path and message.
-/

namespace Trellis

/-- What kind of event takes place at a path. -/
inductive Mark where
  | answered
  | transformed (index : Nat)
  | reported (message : String)
deriving DecidableEq

/-- Where an event takes place, and of what kind it is. -/
def Event.mark : Event → Path × Mark
  | .reported error => (error.path, .reported error.error.message)
  | .answered path _ => (path, .answered)
  | .transformed path index => (path, .transformed index)

mutual

/-- The events of a plan keep to a path, and those right there are not among the ones that took
place before. All its calls are of some kind. -/
def Plan.Fits (call : Action → Prop) : Plan → Path → List Mark → Prop
  | .done _, _, _ | .unfinished, _, _ => True
  | .report error rest, p, taken => error.path = p ∧ Mark.reported error.error.message ∉ taken ∧
      Plan.Fits call rest p (.reported error.error.message :: taken)
  | .invoke path _ action next, p, taken => path = p ∧ Mark.answered ∉ taken ∧ call action ∧
      ∀ answer, Plan.Fits call (next answer) p (.answered :: taken)
  | .transformed path index rest, p, taken =>
    path = p ∧ Mark.transformed index ∉ taken ∧ Plan.Fits call rest p (.transformed index :: taken)
  | .together _ parts, p, _ =>
    ∃ steps : List PathSegment, steps.Nodup ∧ Plan.AllFit call parts p steps

/-- Every part keeps to the path of its own step. -/
def Plan.AllFit (call : Action → Prop) : List Plan → Path → List PathSegment → Prop
  | [], _, steps => steps = []
  | part :: parts, p, steps => ∃ step rest, steps = step :: rest ∧
      Plan.Fits call part (p ++ [step]) [] ∧ Plan.AllFit call parts p rest

end

namespace Event

/-- The places of events, in order. -/
abbrev marks (events : List Event) : List (Path × Mark) := events.map mark

end Event

/-- Marks that are there once each, at a path or below it, and not again at the path itself. -/
structure Mark.Spread (marks : List (Path × Mark)) (p : Path) (taken : List Mark) : Prop where
  nodup : marks.Nodup
  below : ∀ m ∈ marks, p <+: m.1
  fresh : ∀ m ∈ marks, m.1 = p → m.2 ∉ taken

namespace Mark

theorem spread_nil (p : Path) (taken : List Mark) : Spread [] p taken :=
  ⟨List.nodup_nil, by simp, by simp⟩

theorem Spread.cons {marks : List (Path × Mark)} {p : Path} {taken : List Mark} {mark : Mark}
    (hnew : mark ∉ taken) (h : Spread marks p (mark :: taken)) :
    Spread ((p, mark) :: marks) p taken where
  nodup := List.nodup_cons.mpr ⟨fun hmem => h.fresh _ hmem rfl List.mem_cons_self, h.nodup⟩
  below m hm := by
    rcases List.mem_cons.mp hm with rfl | hm
    · exact List.prefix_rfl
    · exact h.below m hm
  fresh m hm hp := by
    rcases List.mem_cons.mp hm with rfl | hm
    · exact hnew
    · exact fun hin => h.fresh m hm hp (List.mem_cons_of_mem _ hin)

/-- Marks that are all below different steps from a path are not at the path itself. -/
theorem Spread.of_steps {marks : List (Path × Mark)} {p : Path} {steps : List PathSegment}
    (hnodup : marks.Nodup) (hbelow : ∀ m ∈ marks, ∃ step ∈ steps, p ++ [step] <+: m.1)
    (taken : List Mark) : Spread marks p taken where
  nodup := hnodup
  below m hm := by
    obtain ⟨step, _, hprefix⟩ := hbelow m hm
    exact (List.prefix_append p [step]).trans hprefix
  fresh m hm hp := by
    obtain ⟨step, _, hprefix⟩ := hbelow m hm
    have hlength := hprefix.length_le
    rw [hp, List.length_append, List.length_singleton] at hlength
    omega

end Mark

theorem Path.step_unique {p q : Path} {first second : PathSegment} (hfirst : p ++ [first] <+: q)
    (hsecond : p ++ [second] <+: q) : first = second := by
  obtain ⟨a, ha⟩ := hfirst
  obtain ⟨b, hb⟩ := hsecond
  have heq : p ++ first :: a = p ++ second :: b := by
    simpa using ha.trans hb.symm
  exact (List.cons.inj (List.append_cancel_left heq)).1

namespace Plan

variable {call : Action → Prop}

theorem allFit_iff {parts : List Plan} {p : Path} {steps : List PathSegment} :
    AllFit call parts p steps ↔
      List.Forall₂ (fun part step => part.Fits call (p ++ [step]) []) parts steps := by
  induction parts generalizing steps with
  | nil => simp [AllFit]
  | cons part parts ih =>
    rw [AllFit, List.forall₂_cons_left_iff]
    constructor
    · rintro ⟨step, rest, rfl, hpart, hrest⟩
      exact ⟨step, rest, hpart, ih.mp hrest, rfl⟩
    · rintro ⟨step, rest, hpart, hrest, rfl⟩
      exact ⟨step, rest, rfl, hpart, ih.mpr hrest⟩

/-- The parts of a gathering keep out of each other's way: what belongs to one of them is below its
own step. -/
theorem AllFit.spread {α : Type} {R : Plan → α → Prop} {parts : List Plan} {p : Path}
    {steps : List PathSegment} (hfit : AllFit call parts p steps) (hsteps : steps.Nodup)
    (marks : α → List (Path × Mark)) {each : List α} (heach : List.Forall₂ R parts each)
    (hparts : ∀ part ∈ parts, ∀ {q : Path} {a : α}, part.Fits call q [] → R part a →
      Mark.Spread (marks a) q []) :
    (each.flatMap marks).Nodup ∧ ∀ m ∈ each.flatMap marks, ∃ step ∈ steps, p ++ [step] <+: m.1 := by
  induction heach generalizing steps with
  | nil => simp
  | @cons part a parts each hpart _ ih =>
    obtain ⟨step, rest, rfl, hfirst, hrest⟩ := hfit
    obtain ⟨hnew, hnodup⟩ := List.nodup_cons.mp hsteps
    have hspread := hparts part List.mem_cons_self hfirst hpart
    obtain ⟨hall, hbelow⟩ := ih hrest hnodup
      (fun other hother => hparts other (List.mem_cons_of_mem _ hother))
    rw [List.flatMap_cons]
    constructor
    · refine List.nodup_append.mpr ⟨hspread.nodup, hall, ?_⟩
      rintro m hm _ hm' rfl
      obtain ⟨other, hother, hprefix⟩ := hbelow m hm'
      exact hnew (Path.step_unique (hspread.below m hm) hprefix ▸ hother)
    · intro m hm
      rcases List.mem_append.mp hm with hm | hm
      · exact ⟨step, List.mem_cons_self, hspread.below m hm⟩
      · obtain ⟨other, hother, hprefix⟩ := hbelow m hm
        exact ⟨other, List.mem_cons_of_mem _ hother, hprefix⟩

theorem flatMap_numbered (each : List Settled) (start : Nat) :
    (Job.numbered each start).flatMap (·.2.events) = each.flatMap (·.events) := by
  induction each generalizing start with
  | nil => rfl
  | cons s each ih =>
    have hcons : Job.numbered (s :: each) start = (start, s) :: Job.numbered each (start + 1) := rfl
    rw [hcons, List.flatMap_cons, List.flatMap_cons, ih]

/-- The events of a plan that fits to a path take place once each. -/
theorem Fits.spread {plan : Plan} {p : Path} {taken : List Mark} (hfit : plan.Fits call p taken)
    {s : Settled} (hs : plan.Settles s) : Mark.Spread (Event.marks s.events) p taken := by
  induction plan generalizing p taken s with
  | done result =>
    obtain rfl := hs
    exact Mark.spread_nil p taken
  | report error rest ih =>
    obtain ⟨t, ht, rfl⟩ := hs
    obtain ⟨rfl, hnew, hrest⟩ := hfit
    exact .cons hnew (ih hrest ht)
  | invoke path mode action next ih =>
    obtain ⟨_, ending, t, _, ht, rfl⟩ := hs
    obtain ⟨rfl, hnew, -, hnext⟩ := hfit
    exact .cons hnew (ih _ (hnext _) ht)
  | transformed path index rest ih =>
    obtain ⟨t, ht, rfl⟩ := hs
    obtain ⟨rfl, hnew, hrest⟩ := hfit
    exact .cons hnew (ih hrest ht)
  | together frame parts ih =>
    obtain ⟨each, heach, rfl⟩ := settles_together.mp hs
    obtain ⟨steps, hsteps, hall⟩ := hfit
    obtain ⟨hnodup, hbelow⟩ := hall.spread hsteps (fun s => Event.marks s.events) heach
      fun part hpart _ _ hq hsettles => ih part hpart hq hsettles
    have hevents : Event.marks
        ((Tray.ofSize parts.length).settle frame (Job.numbered each 0)).events =
          each.flatMap fun s => Event.marks s.events := by
      rw [Tray.settle, flatMap_numbered, Event.marks, List.map_flatMap]
    rw [hevents]
    exact .of_steps hnodup hbelow taken
  | unfinished => exact hs.elim

end Plan

end Trellis
