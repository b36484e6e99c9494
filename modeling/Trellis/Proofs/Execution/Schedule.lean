import Trellis.Execution.Run

/-!
Plans carried out at once.

The parts of a list or of an object are carried out concurrently: whenever something happens, it may
be a step of any part, however deep inside, or the arrival of any part that has come to its end.
A serial gathering only ever works on the first part that is left. Every order in which calls can
end is a run of this step relation, and what is seen on the way is its log. A call is one step, and
what it hands out may depend on any journal, so calls that overlap are covered as well.
-/

namespace Trellis

/-- Proofs about plans follow the tree; a plan that waits for an answer is covered for every one. -/
@[elab_as_elim, induction_eliminator]
theorem Plan.induction {motive : Plan → Prop} (done : ∀ result, motive (.done result))
    (report : ∀ error rest, motive rest → motive (.report error rest))
    (invoke : ∀ path mode action next, (∀ answer, motive (next answer)) →
      motive (.invoke path mode action next))
    (transformed : ∀ path index rest, motive rest → motive (.transformed path index rest))
    (together : ∀ frame parts, (∀ part ∈ parts, motive part) → motive (.together frame parts))
    (unfinished : motive .unfinished) (plan : Plan) : motive plan := by
  apply @Plan.rec motive fun parts => ∀ part ∈ parts, motive part
  case done => exact done
  case report => exact report
  case invoke => exact invoke
  case transformed => exact transformed
  case together => exact together
  case unfinished => exact unfinished
  case nil => simp
  case cons =>
    intro part parts hpart hparts other hother
    rcases List.mem_cons.mp hother with rfl | hmem
    · exact hpart
    · exact hparts other hmem

/-- What is seen of a plan while it is carried out. -/
inductive Event where
  | reported (error : ExecutionError)
  | answered (path : Path) (result : Except FieldError Output)
  | transformed (path : Path) (index : Nat)

def Event.error? : Event → Option ExecutionError
  | .reported error => some error
  | _ => none

def Event.errors (log : List Event) : List ExecutionError := log.filterMap Event.error?

@[simp] theorem Event.errors_nil : Event.errors [] = [] := rfl

@[simp] theorem Event.errors_append (first second : List Event) :
    Event.errors (first ++ second) = Event.errors first ++ Event.errors second :=
  List.filterMap_append

@[simp] theorem Event.errors_reported (error : ExecutionError) (log : List Event) :
    Event.errors (.reported error :: log) = error :: Event.errors log := rfl

@[simp] theorem Event.errors_answered (path : Path) (result : Except FieldError Output)
    (log : List Event) : Event.errors (.answered path result :: log) = Event.errors log := rfl

@[simp] theorem Event.errors_transformed (path : Path) (index : Nat) (log : List Event) :
    Event.errors (.transformed path index :: log) = Event.errors log := rfl

@[simp] theorem Event.errors_map_reported (errors : List ExecutionError) :
    Event.errors (errors.map .reported) = errors := by
  simp [Event.errors, List.filterMap_map, Function.comp_def, Event.error?]

/-- How far a plan is carried out: not at all, or so that some of its parts have come in and the
others are under way. -/
inductive Job where
  | ready (plan : Plan)
  | gathering (frame : Frame) (serial : Bool) (tray : Tray) (pending : List (Nat × Job))

namespace Job

@[elab_as_elim, induction_eliminator]
theorem induction {motive : Job → Prop} (ready : ∀ plan, motive (.ready plan))
    (gathering : ∀ frame serial tray pending, (∀ part ∈ pending, motive part.2) →
      motive (.gathering frame serial tray pending)) (job : Job) : motive job := by
  apply @Job.rec motive (fun pending => ∀ part ∈ pending, motive part.2) fun part => motive part.2
  case ready => exact ready
  case gathering => exact gathering
  case nil => simp
  case cons =>
    intro part pending hpart hpending other hother
    rcases List.mem_cons.mp hother with rfl | hmem
    · exact hpart
    · exact hpending other hmem
  case mk => exact fun _ _ h => h

/-- A job that came to its end. -/
abbrev ended (result : Option Value) : Job := .ready (.done result)

/-- Parts with their indices, counted from a number on. -/
def numbered {α : Type} (parts : List α) (start : Nat) : List (Nat × α) :=
  (parts.zipIdx start).map fun (part, i) => (i, part)

theorem numbered_map_fst {α : Type} (parts : List α) (start : Nat) :
    (numbered parts start).map (·.1) = List.range' start parts.length := by
  induction parts generalizing start with
  | nil => rfl
  | cons part parts ih =>
    have h := ih (start + 1)
    simp only [numbered] at h
    simp [numbered, h, List.range'_succ]

theorem mem_of_mem_numbered {α : Type} {parts : List α} {start : Nat} {part : Nat × α}
    (h : part ∈ numbered parts start) : part.2 ∈ parts := by
  obtain ⟨⟨other, i⟩, hmem, rfl⟩ := List.mem_map.mp h
  exact List.fst_mem_of_mem_zipIdx hmem

def waiting (parts : List Plan) : List (Nat × Job) := numbered (parts.map .ready) 0

/-- One thing happens. -/
inductive Step : Job → List Event → Job → Prop
  | report (error : ExecutionError) (rest : Plan) :
    Step (.ready (.report error rest)) [.reported error] (.ready rest)
  | answer {path : Path} {mode : ResolverMode} {action : Action}
    {next : Except FieldError Output → Plan} {journal : List String} {ending : Action.Ending} :
    action.perform? journal = some ending →
      Step (.ready (.invoke path mode action next)) [.answered path ending.result]
        (.ready (next ending.result))
  | transform (path : Path) (index : Nat) (rest : Plan) :
    Step (.ready (.transformed path index rest)) [.transformed path index] (.ready rest)
  | spread (frame : Frame) (parts : List Plan) :
    Step (.ready (.together frame parts)) []
      (.gathering frame false (.ofSize parts.length) (waiting parts))
  | within {frame : Frame} {serial : Bool} {tray : Tray} {before after : List (Nat × Job)}
    {i : Nat} {job job' : Job} {events : List Event} : (serial = true → before = []) →
      Step job events job' →
      Step (.gathering frame serial tray (before ++ (i, job) :: after)) events
        (.gathering frame serial tray (before ++ (i, job') :: after))
  | collect {frame : Frame} {serial : Bool} {tray : Tray} {before after : List (Nat × Job)}
    {i : Nat} {result : Option Value} : (serial = true → before = []) →
      Step (.gathering frame serial tray (before ++ (i, ended result) :: after)) []
        (.gathering frame serial (tray.add i result) (before ++ after))
  | assemble (frame : Frame) (serial : Bool) (tray : Tray) :
    Step (.gathering frame serial tray []) [] (ended (tray.assemble frame))

/-- Any number of steps, with the log of what was seen. -/
inductive Run : Job → List Event → Job → Prop
  | refl (job : Job) : Run job [] job
  | head {first second last : Job} {events log : List Event} :
    Step first events second → Run second log last → Run first (events ++ log) last

namespace Run

theorem single {first last : Job} {events : List Event} (h : Step first events last) :
    Run first events last := by
  simpa using Run.head h (.refl last)

theorem trans {first second last : Job} {log more : List Event} (h : Run first log second)
    (hs : Run second more last) : Run first (log ++ more) last := by
  induction h with
  | refl job => exact hs
  | head step rest ih =>
    rw [List.append_assoc]
    exact Run.head step (ih hs)

theorem within {frame : Frame} {serial : Bool} {tray : Tray} {before after : List (Nat × Job)}
    {i : Nat} {job job' : Job} {log : List Event} (hserial : serial = true → before = [])
    (h : Run job log job') :
    Run (.gathering frame serial tray (before ++ (i, job) :: after)) log
      (.gathering frame serial tray (before ++ (i, job') :: after)) := by
  induction h with
  | refl job => exact .refl _
  | head step rest ih => exact .head (.within hserial step) ih

theorem invariant {P : Job → Prop}
    (hstep : ∀ {job job' : Job} {events : List Event}, P job → Step job events job' → P job')
    {first last : Job} {log : List Event} (h : Run first log last) (hfirst : P first) : P last := by
  induction h with
  | refl job => exact hfirst
  | head step rest ih => exact ih (hstep hfirst step)

end Run

end Job

namespace Agenda

def start (a : Agenda) : Job :=
  .gathering ⟨.object a.keys, true⟩ a.serial (.ofSize a.parts.length) (Job.waiting a.parts)

/-- What carrying out an agenda may come to, with the log of what was seen. The errors of the root
come first. -/
def Reaches (a : Agenda) (log : List Event) (job : Job) : Prop :=
  ∃ rest, Job.Run a.start rest job ∧ log = a.errors.map .reported ++ rest

end Agenda

end Trellis
