import Trellis.Proofs.Execution.Opening
import Trellis.Proofs.Execution.Place

/-!
Errors that a run may report.

A plan shows which errors it may ever report, whatever its calls hand out, and no step adds to them.
So what is shown of a plan holds at every moment of every run, also of one that never comes to its
end.
-/

namespace Trellis

open Document

variable {P : ExecutionError → Prop}

/-- All errors that a plan may report have a property. -/
inductive Plan.ReportsOnly (P : ExecutionError → Prop) : Plan → Prop
  | done (result : Option Value) : ReportsOnly P (.done result)
  | report {error : ExecutionError} {rest : Plan} : P error → ReportsOnly P rest →
    ReportsOnly P (.report error rest)
  | invoke (path : Path) (mode : ResolverMode) (action : Action)
    {next : Except FieldError Output → Plan} : (∀ answer, ReportsOnly P (next answer)) →
    ReportsOnly P (.invoke path mode action next)
  | transformed (path : Path) (index : Nat) {rest : Plan} : ReportsOnly P rest →
    ReportsOnly P (.transformed path index rest)
  | together (frame : Frame) {parts : List Plan} : (∀ part ∈ parts, ReportsOnly P part) →
    ReportsOnly P (.together frame parts)
  | unfinished : ReportsOnly P .unfinished

theorem Plan.ReportsOnly.reportAll {errors : List ExecutionError} {rest : Plan}
    (herrors : ∀ e ∈ errors, P e) (hrest : rest.ReportsOnly P) :
    (Plan.reportAll errors rest).ReportsOnly P := by
  induction errors with
  | nil => exact hrest
  | cons e errors ih =>
    rw [List.forall_mem_cons] at herrors
    exact .report herrors.1 (ih herrors.2)

namespace Job

/-- All errors that a job may still report have a property. -/
inductive ReportsOnly (P : ExecutionError → Prop) : Job → Prop
  | ready {plan : Plan} : plan.ReportsOnly P → ReportsOnly P (.ready plan)
  | gathering (frame : Frame) (serial : Bool) (tray : Tray) {pending : List (Nat × Job)} :
    (∀ part ∈ pending, ReportsOnly P part.2) →
    ReportsOnly P (.gathering frame serial tray pending)

theorem ReportsOnly.plan {plan : Plan} (h : (Job.ready plan).ReportsOnly P) :
    plan.ReportsOnly P := by
  cases h
  assumption

theorem ReportsOnly.pending {frame : Frame} {serial : Bool} {tray : Tray}
    {pending : List (Nat × Job)} (h : (Job.gathering frame serial tray pending).ReportsOnly P) :
    ∀ part ∈ pending, part.2.ReportsOnly P := by
  cases h
  assumption

theorem reportsOnly_waiting {parts : List Plan} (h : ∀ part ∈ parts, part.ReportsOnly P)
    (frame : Frame) (serial : Bool) (tray : Tray) :
    (Job.gathering frame serial tray (waiting parts)).ReportsOnly P := by
  refine .gathering _ _ _ fun part hpart => ?_
  obtain ⟨plan, hplan, he⟩ := List.mem_map.mp (mem_of_mem_numbered hpart)
  rw [← he]
  exact .ready (h plan hplan)

/-- One step reports only such errors, and leaves only such errors to be reported. -/
theorem ReportsOnly.step {job job' : Job} {events : List Event} (h : job.ReportsOnly P)
    (hstep : Step job events job') : job'.ReportsOnly P ∧ ∀ e ∈ Event.errors events, P e := by
  induction hstep with
  | report error rest =>
    cases h.plan with
    | report herror hrest => exact ⟨.ready hrest, by simpa using herror⟩
  | answer hperform =>
    cases h.plan with
    | invoke _ _ _ hnext => exact ⟨.ready (hnext _), by simp⟩
  | transform path index rest =>
    cases h.plan with
    | transformed _ _ hrest => exact ⟨.ready hrest, by simp⟩
  | spread frame parts =>
    cases h.plan with
    | together _ hparts => exact ⟨reportsOnly_waiting hparts _ _ _, by simp⟩
  | within _ _ ih =>
    have hpending := h.pending
    rw [List.forall_mem_append, List.forall_mem_cons] at hpending
    obtain ⟨hbefore, hjob, hafter⟩ := hpending
    obtain ⟨hlast, hevents⟩ := ih hjob
    refine ⟨.gathering _ _ _ ?_, hevents⟩
    exact List.forall_mem_append.mpr ⟨hbefore, List.forall_mem_cons.mpr ⟨hlast, hafter⟩⟩
  | collect _ =>
    have hpending := h.pending
    rw [List.forall_mem_append, List.forall_mem_cons] at hpending
    refine ⟨.gathering _ _ _ ?_, by simp⟩
    exact List.forall_mem_append.mpr ⟨hpending.1, hpending.2.2⟩
  | assemble => exact ⟨.ready (.done _), by simp⟩

theorem ReportsOnly.run {job job' : Job} {log : List Event} (h : job.ReportsOnly P)
    (hrun : Run job log job') : ∀ e ∈ Event.errors log, P e := by
  induction hrun with
  | refl job => simp
  | head step rest ih =>
    obtain ⟨hsecond, hevents⟩ := h.step step
    rw [Event.errors_append]
    exact List.forall_mem_append.mpr ⟨hevents, ih hsecond⟩

end Job

/-- All errors that an agenda may report have a property. -/
def Agenda.ReportsOnly (a : Agenda) (P : ExecutionError → Prop) : Prop :=
  (∀ e ∈ a.errors, P e) ∧ ∀ part ∈ a.parts, part.ReportsOnly P

theorem Agenda.ReportsOnly.reaches {a : Agenda} (h : a.ReportsOnly P) {log : List Event} {job : Job}
    (hreaches : a.Reaches log job) : ∀ e ∈ Event.errors log, P e := by
  obtain ⟨rest, hrun, rfl⟩ := hreaches
  rw [Event.errors_append, Event.errors_map_reported]
  refine List.forall_mem_append.mpr ⟨h.1, ?_⟩
  exact (Job.reportsOnly_waiting h.2 _ _ _).run hrun

/-- A property of an object type of the schema is of a type with some name, or of lists of it. -/
def TypeGraph.Exposes (g : TypeGraph) (name : String) : Prop :=
  ∃ owner object, g.type? owner = some (.object object) ∧
    ∃ p ∈ object.properties, p.type.innermost = name

/-- What a place is given to show is of a type that some property exposes. -/
def Place.ExposedBy (g : TypeGraph) : Place → Prop
  | .value type _ _ => g.Exposes type.innermost
  | _ => True

namespace Scope

variable {scope : Scope}

/-- All errors that come up at the places of a schema have a property. -/
structure Confines (scope : Scope) (P : ExecutionError → Prop) : Prop where
  missing : ∀ path spread, P (missingFragment path spread)
  failure : ∀ {place : Place} {e : FieldError} {kind : ErrorKind} (location : Position)
    (path : Path), scope.Failure place e kind → place.ExposedBy scope.graph →
    P ⟨location, path, e, kind⟩

namespace Confines

/-- A planner of the objects of a schema that reports only errors with a property. -/
def Planner (scope : Scope) (P : ExecutionError → Prop) (plan : ObjectPlanner) : Prop :=
  ∀ {owner : String} {object : ObjectType} (parent : Option Erased) (selections : List Selection)
    (path : Path) (nullable : Bool), scope.graph.type? owner = some (.object object) →
    (plan object parent selections path nullable).ReportsOnly P

variable {plan : ObjectPlanner}

theorem fail (h : scope.Confines P) {type : TypeLiteral} (output : Option Output)
    (selections : List Selection) {e : FieldError} {kind : ErrorKind} {location : Position}
    {path : Path} (he : scope.Failure (.value type output selections) e kind)
    (htype : scope.graph.Exposes type.innermost) :
    (Plan.fail type location path e kind).ReportsOnly P :=
  .report (h.failure location path he htype) (.done _)

theorem completeSingle (h : scope.Confines P) (hplan : Planner scope P plan)
    {selections : List Selection} {location : Position} {name : String} {nonNull : Bool}
    {host : HostType} {value : HostValue} {path : Path} (hname : scope.graph.Exposes name) :
    (scope.completeSingle plan selections location (.named name nonNull) name ⟨host, value⟩
      path).ReportsOnly P := by
  rcases scope.completeSingle_cases plan selections location name nonNull host value path rfl
    with ⟨v, hlaid, -⟩ | ⟨object, hlaid, hfor⟩ | ⟨e, kind, hlaid, hfailure⟩
  · rw [hlaid]
    exact .done _
  · rw [hlaid]
    obtain ⟨owner, howner⟩ := scope.exists_type?_of_objectFor? hfor
    exact hplan _ _ _ _ howner
  · rw [hlaid]
    exact h.fail _ selections hfailure hname

mutual

theorem complete (h : scope.Confines P) (hplan : Planner scope P plan)
    (selections : List Selection) (location : Position) :
    ∀ (output : Output) (type : TypeLiteral) (path : Path),
      scope.graph.Exposes type.innermost →
      (scope.complete plan selections location output type path).ReportsOnly P
  | .null, type, path, htype => by
    rw [Scope.complete]
    split
    · rename_i hnonNull
      exact h.fail (some .null) selections (.null hnonNull) htype
    · exact .done _
  | .list items, .list inner nonNull, path, htype => by
    rw [Scope.complete]
    exact .together _ (completeItems h hplan selections location items inner path 0 htype)
  | .list items, .named name nonNull, path, htype => by
    rw [Scope.complete]
    exact h.fail _ _ (.list name nonNull items selections) htype
  | .single host value, .list inner nonNull, path, htype => by
    rw [Scope.complete]
    exact h.fail _ _ (.single inner nonNull host value selections) htype
  | .single host value, .named name nonNull, path, htype => by
    rw [Scope.complete]
    exact h.completeSingle hplan htype

theorem completeItems (h : scope.Confines P) (hplan : Planner scope P plan)
    (selections : List Selection) (location : Position) :
    ∀ (items : List Output) (type : TypeLiteral) (path : Path) (i : Nat),
      scope.graph.Exposes type.innermost →
      ∀ part ∈ scope.completeItems plan selections location items type path i, part.ReportsOnly P
  | [], _, _, _, _ => by
    rw [Scope.completeItems]
    simp
  | item :: items, type, path, i, htype => by
    rw [Scope.completeItems]
    exact List.forall_mem_cons.mpr ⟨complete h hplan selections location item type _ htype,
      completeItems h hplan selections location items type path (i + 1) htype⟩

end

theorem transformAll {provided : List (String × Literal)} {path : Path} {fail : CallError → Plan}
    {complete : Output → Plan} (hfail : ∀ e, (fail e).ReportsOnly P)
    (hcomplete : ∀ output, (complete output).ReportsOnly P) (i : Nat)
    (transformations : List Transformation) (output : Output) :
    (scope.transformAll provided path fail complete i transformations output).ReportsOnly P := by
  induction transformations generalizing i output with
  | nil => exact hcomplete output
  | cons t rest ih =>
    rw [Scope.transformAll]
    split
    · exact hfail _
    · exact .transformed _ _ (hfail _)
    · exact .transformed _ _ (ih _ _)

theorem planProperty (h : scope.Confines P) (hplan : Planner scope P plan) {owner : String}
    {object : ObjectType} (hobject : scope.graph.type? owner = some (.object object))
    {property : Property} (hproperty : property ∈ object.properties) (parent : Option Erased)
    (group : FieldGroup) (path : Path) :
    (scope.planProperty plan object parent group path property).ReportsOnly P := by
  have htype : scope.graph.Exposes property.type.innermost :=
    ⟨owner, object, hobject, property, hproperty, rfl⟩
  have hcall (e : CallError) :
      (Plan.fail property.type group.first.start path e.error e.kind).ReportsOnly P :=
    h.fail none group.selections (.call ..) htype
  rw [Scope.planProperty]
  dsimp only
  split
  · rename_i e harguments
    exact h.fail none group.selections (.arguments harguments) htype
  · split
    · exact hcall _
    · refine .invoke _ _ _ fun answer => ?_
      cases answer with
      | error e => exact hcall (.failed e)
      | ok output =>
        apply transformAll hcall
        exact fun output => h.complete hplan _ _ output _ path htype

theorem planGroup (h : scope.Confines P) (hplan : Planner scope P plan) {owner : String}
    {object : ObjectType} (hobject : scope.graph.type? owner = some (.object object))
    (parent : Option Erased) (path : Path) (group : FieldGroup) :
    (scope.planGroup plan object parent path group).ReportsOnly P := by
  rw [Scope.planGroup]
  split
  · exact .done _
  · split
    · rename_i property hproperty
      exact h.planProperty hplan hobject (List.mem_of_find?_eq_some hproperty) ..
    · exact .report (h.failure _ _ (.unknown object group.first.name) trivial) (.done _)

theorem planObject (h : scope.Confines P) (depth : Nat) :
    Planner scope P (scope.planObject depth) := by
  induction depth with
  | zero => exact fun _ _ _ _ _ => .unfinished
  | succ depth ih =>
    intro owner object parent selections path nullable hobject
    refine .reportAll (fun e he => ?_) (.together _ fun part hpart => ?_)
    · obtain ⟨spread, -, rfl⟩ := List.mem_map.mp he
      exact h.missing path spread
    · obtain ⟨group, -, rfl⟩ := List.mem_map.mp hpart
      exact h.planGroup ih hobject parent path group

theorem agenda (h : scope.Confines P) {owner : String} {root : ObjectType}
    (hroot : scope.graph.type? owner = some (.object root)) (depth : Nat)
    (selections : List Selection) (serial : Bool) :
    (scope.agenda depth root selections serial).ReportsOnly P := by
  constructor
  · intro e he
    obtain ⟨spread, -, rfl⟩ := List.mem_map.mp he
    exact h.missing [] spread
  · intro part hpart
    obtain ⟨group, -, rfl⟩ := List.mem_map.mp hpart
    exact h.planGroup (h.planObject depth) hroot none [] group

end Confines

end Scope

/-- At every moment of every run of a request, only errors that its places may fail with are
reported. -/
theorem Schema.errors_confined {s : Schema} {r : Request} {o : Opening} (ho : s.opening r = .ok o)
    (h : o.scope.Confines P) {depth : Nat} {log : List Event} {job : Job}
    (hreaches : (o.agenda depth).Reaches log job) : ∀ e ∈ Event.errors log, P e := by
  obtain ⟨hroot, hgraph⟩ := opening_eq ho
  obtain ⟨name, hname⟩ := root?_type? hroot
  exact (h.agenda (hgraph ▸ hname) depth _ _).reaches hreaches

end Trellis
