import Trellis.Proofs.Execution.Binding
import Trellis.Proofs.Execution.Invocations
import Trellis.Proofs.Execution.Place
import Trellis.Proofs.Schema.Keeping
import Trellis.Proofs.Schema.Lookups

/-!
Functions are called with all of their arguments, or not at all.

If a parameter of a resolver or of a transformation cannot be bound, the only thing that comes of the
field from then on is the error that names the argument. Otherwise the function is called once, with
everything that was bound. This is seen at every moment of a run, whether or not it comes to an end.
-/

namespace Trellis

/-- The receiver of a resolver is there, and with bound arguments the resolver does what its function
does. -/
inductive Behaviour.Receives : Behaviour → Option Erased → (List Bound → Action) → Prop
  | native {host : HostType} {read : HostValue → Output} {e : Erased} {v : HostValue} :
    e.downcast? host = some v →
      Receives (.native host read) (some e) fun _ => .answer (.ok (read v))
  | blocking {receiver : Option HostType} {run : HostValue → List Bound → Action}
    {parent : Option Erased} {v : HostValue} : Resolver.receive receiver parent = .ok v →
      Receives (.blocking receiver run) parent (run v)
  | suspending {receiver : Option HostType} {run : HostValue → List Bound → Suspension}
    {parent : Option Erased} {v : HostValue} : Resolver.receive receiver parent = .ok v →
      Receives (.suspending receiver run) parent fun bounds => (run v bounds).action

theorem Behaviour.Receives.call {behaviour : Behaviour} {parent : Option Erased}
    {run : List Bound → Action} (h : behaviour.Receives parent run) (bounds : List Bound) :
    Resolver.call behaviour parent bounds = run bounds := by
  cases h with
  | native h | blocking h | suspending h =>
    rw [Resolver.call, h]

/-- A resolver whose arguments cannot be bound fails whatever its function is, and one that is there
for its receiver is called with all bound arguments. -/
structure Resolver.AllOrNothing (r : Resolver) (parent : Option Erased)
    (provided : List (String × Literal)) (table : ScalarTable) (context : Context) : Prop where
  refused : ∀ name error, r.parameters.Refuses provided table context name error → ∀ behaviour,
    start { r with behaviour } parent provided table context = .error (.binding name error)
  called : ∀ bounds run, r.parameters.Binds provided table context bounds →
    r.behaviour.Receives parent run → r.start parent provided table context = .ok (run bounds)

/-- The same for a transformation and the value that it takes. -/
structure Transformation.AllOrNothing (t : Transformation) (output : Output)
    (provided : List (String × Literal)) (table : ScalarTable) (context : Context) : Prop where
  refused : ∀ name error, t.parameters.Refuses provided table context name error →
    ∀ recover apply erase, transform { t with recover, apply, erase } output provided table context =
      .error (.binding name error)
  called : ∀ bounds v, t.parameters.Binds provided table context bounds →
    t.recover output = some v → t.transform output provided table context =
      ((t.apply v bounds).map t.erase).mapError .failed

section

variable {provided : List (String × Literal)} {table : ScalarTable} {context : Context}

theorem Resolver.allOrNothing {r : Resolver} (h : r.parameters.ByPosition)
    (parent : Option Erased) : r.AllOrNothing parent provided table context where
  refused name error hrefuses behaviour := by
    have hbind := (h.refused provided table context _).mpr ⟨name, error, rfl, hrefuses⟩
    rw [start, hbind]
    rfl
  called bounds run hbinds hreceives := by
    have hbind := (h.bound provided table context bounds).mpr hbinds
    rw [start, hbind, ← hreceives.call]
    rfl

theorem Transformation.allOrNothing {t : Transformation} (h : t.parameters.ByPosition)
    (output : Output) : t.AllOrNothing output provided table context where
  refused name error hrefuses recover apply erase := by
    have hbind := (h.refused provided table context _).mpr ⟨name, error, rfl, hrefuses⟩
    rw [transform, hbind]
    rfl
  called bounds v hbinds hrecover := by
    have hbind := (h.bound provided table context bounds).mpr hbinds
    rw [transform, hbind]
    simp only [bind, Except.bind, hrecover]

end

/-- The parameters of all functions that are called for a property. -/
def Property.parameters (p : Property) : List Parameters :=
  p.resolver.parameters :: p.transformations.map (·.parameters)

theorem Property.mem_parameters (p : Property) {before after : List Transformation}
    {t : Transformation} (h : p.transformations = before ++ t :: after) :
    t.parameters ∈ p.parameters := by
  refine List.mem_cons_of_mem _ (List.mem_map_of_mem ?_)
  rw [h]
  exact List.mem_append_right _ List.mem_cons_self

/-! ### Moments of a run -/

namespace Job

/-- Nothing but some events is seen, in their order, and no call is under way. Once the run has ended
all of them were seen. -/
structure Portion.Shows (portion : Portion) (events : List Event) : Prop where
  log : portion.log <+: events
  front : portion.job.front = []
  ended : ∀ result, portion.job = .ended result → portion.log = events

/-- The same moment after some events. -/
def Portion.after (portion : Portion) (events : List Event) : Portion :=
  ⟨events ++ portion.log, portion.job⟩

theorem Portion.Shows.after {portion : Portion} {events : List Event} (h : portion.Shows events)
    (before : List Event) : (portion.after before).Shows (before ++ events) where
  log := (List.prefix_append_right_inj before).mpr h.log
  front := h.front
  ended result hresult := congrArg (before ++ ·) (h.ended result hresult)

/-- A plan that was not begun shows nothing yet, unless it is at its end or makes a call. -/
theorem Portion.shows_ready {plan : Plan} (hwaits : plan.awaited = [])
    (hends : ∀ result, plan ≠ .done result) (events : List Event) :
    (Portion.mk [] (.ready plan)).Shows events where
  log := List.nil_prefix
  front := hwaits
  ended result hresult := absurd (Job.ready.inj hresult) (hends result)

variable {portion : Portion} {rest : Plan} {path : Path}

theorem leaves_report {error : ExecutionError}
    (h : (Job.ready (.report error rest)).Leaves portion) :
    portion = ⟨[], .ready (.report error rest)⟩ ∨
      ∃ later, (Job.ready rest).Leaves later ∧ portion = later.after [.reported error] := by
  obtain ⟨log, job⟩ := portion
  cases h with
  | refl => exact .inl rfl
  | head hstep hrun =>
    cases hstep
    exact .inr ⟨⟨_, job⟩, hrun, rfl⟩

theorem leaves_transformed {index : Nat}
    (h : (Job.ready (.transformed path index rest)).Leaves portion) :
    portion = ⟨[], .ready (.transformed path index rest)⟩ ∨
      ∃ later, (Job.ready rest).Leaves later ∧ portion = later.after [.transformed path index] := by
  obtain ⟨log, job⟩ := portion
  cases h with
  | refl => exact .inl rfl
  | head hstep hrun =>
    cases hstep
    exact .inr ⟨⟨_, job⟩, hrun, rfl⟩

theorem leaves_invoke {mode : ResolverMode} {action : Action}
    {next : Except FieldError Output → Plan}
    (h : (Job.ready (.invoke path mode action next)).Leaves portion) :
    portion = ⟨[], .ready (.invoke path mode action next)⟩ ∨
      ∃ journal ending later, action.perform? journal = some ending ∧
        (Job.ready (next ending.result)).Leaves later ∧
          portion = later.after [.answered path ending.result] := by
  obtain ⟨log, job⟩ := portion
  cases h with
  | refl => exact .inl rfl
  | head hstep hrun =>
    cases hstep with
    | answer hperform => exact .inr ⟨_, _, ⟨_, job⟩, hperform, hrun, rfl⟩

theorem Portion.answered_unique {result other : Except FieldError Output}
    (h : (portion.after [.answered path result]).marks.Nodup)
    (hother : .answered path other ∈ (portion.after [.answered path result]).log) :
    other = result := by
  rcases List.mem_cons.mp hother with heq | hmem
  · exact (Event.answered.inj heq).2
  · have hmark : (path, Mark.answered) ∈ portion.marks :=
      List.mem_append_left _ (List.mem_map_of_mem hmem)
    exact absurd hmark (List.nodup_cons.mp h).1

/-- A failure is reported, and nothing comes after it. -/
theorem shows_of_fail {type : TypeLiteral} {location : Position} {error : FieldError}
    {kind : ErrorKind} (h : (Job.ready (Plan.fail type location path error kind)).Leaves portion) :
    portion.Shows [.reported ⟨location, path, error, kind⟩] := by
  rcases leaves_report h with rfl | ⟨later, hlater, rfl⟩
  · exact Portion.shows_ready rfl (fun _ h => by cases h) _
  · obtain ⟨hlog, hjob⟩ := Run.of_ended hlater
    refine ⟨?_, ?_, fun result _ => ?_⟩
    · rw [Portion.after, hlog]
      exact List.prefix_rfl
    · rw [Portion.after, hjob]
      rfl
    · rw [Portion.after, hlog]
      rfl

end Job

namespace Scope

variable (scope : Scope)

/-- The error of an argument that cannot be bound. It names the argument, and keeps what the failure of
its decoding carries. -/
def refusal (location : Position) (path : Path) (name : String) (error : FieldError) :
    ExecutionError :=
  ⟨location, path, ⟨s!"Invalid value for argument \"{name}\": " ++ error.message, error.extensions⟩,
    .argumentBinding⟩

/-- What is seen, at some moment of a run, of the functions that are called for a property. No call
takes place twice. If a function cannot be called for its arguments, then from then on the refusal is
all that is seen. Otherwise the call is made, with all bound arguments. -/
structure CallsAllOrNothing (p : Property) (parent : Option Erased)
    (provided : List (String × Literal)) (location : Position) (path : Path)
    (portion : Job.Portion) : Prop where
  once : portion.marks.Nodup
  refused : ∀ name error,
    p.resolver.parameters.Refuses provided scope.graph.scalarOf? scope.context name error →
    portion.Shows [.reported (refusal location path name error)]
  called : ∀ bounds run,
    p.resolver.parameters.Binds provided scope.graph.scalarOf? scope.context bounds →
    p.resolver.behaviour.Receives parent run →
    portion.marks.count (path, .answered) = 1 ∧ ∀ result, .answered path result ∈ portion.log →
      ∃ journal ending, (run bounds).perform? journal = some ending ∧ result = ending.result
  transformRefused : ∀ before t after output current name error,
    p.transformations = before ++ t :: after → .answered path (.ok output) ∈ portion.log →
    scope.transformed? provided before output = some current →
    t.parameters.Refuses provided scope.graph.scalarOf? scope.context name error →
    portion.Shows (.answered path (.ok output) ::
      (List.range before.length).map (.transformed path) ++
        [.reported (refusal location path name error)])
  transformCalled : ∀ before t after output current bounds v,
    p.transformations = before ++ t :: after → .answered path (.ok output) ∈ portion.log →
    scope.transformed? provided before output = some current →
    t.parameters.Binds provided scope.graph.scalarOf? scope.context bounds →
    t.recover current = some v →
    (∀ result, portion.job = .ended result →
      portion.marks.count (path, .transformed before.length) = 1) ∧
    match t.apply v bounds with
    | .ok w => scope.transformed? provided (before ++ [t]) output = some (t.erase w)
    | .error error => portion.Shows (.answered path (.ok output) ::
        (List.range (before.length + 1)).map (.transformed path) ++
          [.reported ⟨location, path, error, .resolver⟩])

variable {scope} {provided : List (String × Literal)} {path : Path} {portion : Job.Portion}
  {fail : CallError → Plan} {complete : Output → Plan}

/-- Transformations are gone through one after another: either some of them are still to come, or what
is left is to go on with what they made. -/
theorem leaves_transformAll {before after : List Transformation} {i : Nat}
    {output current : Output} (hcurrent : scope.transformed? provided before output = some current)
    (h : (Job.ready (scope.transformAll provided path fail complete i (before ++ after)
      output)).Leaves portion) :
    ((∀ result, portion.job ≠ .ended result) ∧ ∀ events,
      portion.Shows ((List.range' i before.length).map (.transformed path) ++ events)) ∨
    ∃ later, (Job.ready (scope.transformAll provided path fail complete (i + before.length) after
      current)).Leaves later ∧
        portion = later.after ((List.range' i before.length).map (.transformed path)) := by
  induction before generalizing i output portion with
  | nil =>
    cases hcurrent
    exact .inr ⟨portion, h, rfl⟩
  | cons t before ih =>
    rw [transformed?] at hcurrent
    split at hcurrent
    · rename_i next hnext
      rw [List.cons_append, transformAll, hnext] at h
      rcases Job.leaves_transformed h with rfl | ⟨later, hlater, rfl⟩
      · exact .inl ⟨fun _ => (by cases ·),
          fun events => Job.Portion.shows_ready rfl (fun _ h => by cases h) _⟩
      · rcases ih hcurrent hlater with ⟨hends, hshows⟩ | ⟨last, hlast, rfl⟩
        · exact .inl ⟨hends, fun events => (hshows events).after [.transformed path i]⟩
        · rw [show i + 1 + before.length = i + (t :: before).length by simp; omega] at hlast
          exact .inr ⟨last, hlast, rfl⟩
    · cases hcurrent

theorem transformed?_append (before after : List Transformation) (output : Output) :
    scope.transformed? provided (before ++ after) output =
      (scope.transformed? provided before output).bind (scope.transformed? provided after) := by
  induction before generalizing output with
  | nil => rfl
  | cons t before ih =>
    rw [List.cons_append, transformed?, transformed?]
    split
    · exact ih _
    · rfl

variable {depth : Nat} {object : ObjectType} {parent : Option Erased} {group : FieldGroup}
  {p : Property} {arguments : List (String × Literal)}

theorem marks_nodup_of_property
    (h : (Job.ready (scope.planProperty (scope.planObject depth) object parent group path
      p)).Leaves portion) : portion.marks.Nodup := by
  have hgraph := TypeGraph.does_anything scope.graph
  have hfits : (scope.planProperty (scope.planObject depth) object parent group path p).Fits _ path
      [] := fits_planProperty hgraph (fits_planObject hgraph depth) (fun _ _ => trivial) parent group
    path
  exact (hfits.marks_spread h).nodup

/-- The transformations from one on whose arguments cannot be bound. -/
theorem transformAll_of_refuses {t : Transformation} (ht : t.parameters.ByPosition)
    {name : String} {error : FieldError}
    (h : t.parameters.Refuses provided scope.graph.scalarOf? scope.context name error)
    (i : Nat) (after : List Transformation) (current : Output) :
    scope.transformAll provided path fail complete i (t :: after) current =
      fail (.binding name error) := by
  have htransform := (Transformation.allOrNothing ht current).refused name error h
    t.recover t.apply t.erase
  rw [transformAll, htransform]

/-- The transformations from one on that is called. -/
theorem transformAll_of_binds {t : Transformation} (ht : t.parameters.ByPosition)
    {bounds : List Bound}
    (h : t.parameters.Binds provided scope.graph.scalarOf? scope.context bounds) {current : Output}
    {v : HostValue} (hrecover : t.recover current = some v) (i : Nat)
    (after : List Transformation) :
    scope.transformAll provided path fail complete i (t :: after) current =
      .transformed path i (match t.apply v bounds with
        | .ok w => scope.transformAll provided path fail complete (i + 1) after (t.erase w)
        | .error error => fail (.failed error)) := by
  have htransform := (Transformation.allOrNothing ht current).called bounds v h hrecover
  rw [transformAll, htransform]
  cases t.apply v bounds <;> rfl

section

variable (harguments : scope.argumentsOf object p group.first.arguments = .ok arguments)
  (h : (Job.ready (scope.planProperty (scope.planObject depth) object parent group path p)).Leaves
    portion)

include harguments h

/-- What the resolver of a property handed out is transformed and completed, and no other call of the
resolver is seen. -/
theorem exists_leaves_transformAll {output : Output}
    (hmem : .answered path (.ok output) ∈ portion.log) :
    ∃ later, (Job.ready (scope.transformAll (Entries.ofPairs arguments) path
      (fun e => Plan.fail p.type group.first.start path e.error e.kind)
      (fun output => scope.complete (scope.planObject depth) group.selections group.first.start
        output p.type path) 0 p.transformations output)).Leaves later ∧
        portion = later.after [.answered path (.ok output)] := by
  have hmarks := marks_nodup_of_property h
  rw [planProperty, harguments] at h
  dsimp only at h
  split at h
  · -- A call that cannot be made only leaves an error behind.
    cases List.mem_singleton.mp ((Job.shows_of_fail h).log.subset hmem)
  · rcases Job.leaves_invoke h with rfl | ⟨journal, ending, later, -, hlater, rfl⟩
    · cases hmem
    · rw [← Job.Portion.answered_unique hmarks hmem] at hlater ⊢
      exact ⟨later, hlater, rfl⟩

/-- What a transformation makes is carried on with, and the transformation is not called again. -/
theorem transform_called_once {before after : List Transformation} {t : Transformation}
    (hsplit : p.transformations = before ++ t :: after) {output next : Output}
    (hmem : .answered path (.ok output) ∈ portion.log)
    (hnext : scope.transformed? (Entries.ofPairs arguments) (before ++ [t]) output = some next)
    {result : Option Value} (hended : portion.job = .ended result) :
    portion.marks.count (path, .transformed before.length) = 1 := by
  have hmarks := marks_nodup_of_property h
  obtain ⟨later, hlater, rfl⟩ := exists_leaves_transformAll harguments h hmem
  rw [hsplit, List.append_cons] at hlater
  rcases leaves_transformAll hnext hlater with ⟨hends, -⟩ | ⟨last, -, rfl⟩
  · exact absurd hended (hends result)
  · apply List.count_eq_one_of_mem hmarks
    simp [Job.Portion.marks, Job.Portion.after, Event.mark]

variable (hp : ∀ q ∈ p.parameters, q.ByPosition)

include hp

theorem shows_of_refused {name : String} {error : FieldError}
    (hrefuses : p.resolver.parameters.Refuses (Entries.ofPairs arguments) scope.graph.scalarOf?
      scope.context name error) :
    portion.Shows [.reported (refusal group.first.start path name error)] := by
  have hstart := (Resolver.allOrNothing (hp _ List.mem_cons_self) parent).refused name error hrefuses
    p.resolver.behaviour
  rw [planProperty, harguments] at h
  dsimp only at h
  rw [hstart] at h
  exact Job.shows_of_fail h

theorem called_once {bounds : List Bound} {run : List Bound → Action}
    (hbinds : p.resolver.parameters.Binds (Entries.ofPairs arguments) scope.graph.scalarOf?
      scope.context bounds) (hreceives : p.resolver.behaviour.Receives parent run) :
    portion.marks.count (path, .answered) = 1 ∧ ∀ result, .answered path result ∈ portion.log →
      ∃ journal ending, (run bounds).perform? journal = some ending ∧ result = ending.result := by
  have hmarks := marks_nodup_of_property h
  have hstart := (Resolver.allOrNothing (hp _ List.mem_cons_self) parent).called bounds run hbinds
    hreceives
  rw [planProperty, harguments] at h
  dsimp only at h
  rw [hstart] at h
  rcases Job.leaves_invoke h with rfl | ⟨journal, ending, later, hending, -, rfl⟩
  · exact ⟨List.count_eq_one_of_mem hmarks List.mem_cons_self, fun _ h => absurd h List.not_mem_nil⟩
  · refine ⟨List.count_eq_one_of_mem hmarks List.mem_cons_self, fun result hresult => ?_⟩
    exact ⟨journal, ending, hending, Job.Portion.answered_unique hmarks hresult⟩

theorem shows_of_transform_refused {before after : List Transformation} {t : Transformation}
    (hsplit : p.transformations = before ++ t :: after) {output current : Output}
    (hmem : .answered path (.ok output) ∈ portion.log)
    (hcurrent : scope.transformed? (Entries.ofPairs arguments) before output = some current)
    {name : String} {error : FieldError}
    (hrefuses : t.parameters.Refuses (Entries.ofPairs arguments) scope.graph.scalarOf? scope.context
      name error) :
    portion.Shows (.answered path (.ok output) ::
      (List.range before.length).map (.transformed path) ++
        [.reported (refusal group.first.start path name error)]) := by
  obtain ⟨later, hlater, rfl⟩ := exists_leaves_transformAll harguments h hmem
  have ht : t.parameters.ByPosition := hp _ (p.mem_parameters hsplit)
  rw [hsplit] at hlater
  rw [List.range_eq_range', List.cons_append]
  refine Job.Portion.Shows.after ?_ [.answered path (.ok output)]
  rcases leaves_transformAll hcurrent hlater with ⟨-, hshows⟩ | ⟨last, hlast, rfl⟩
  · exact hshows _
  · rw [transformAll_of_refuses ht hrefuses] at hlast
    exact (Job.shows_of_fail hlast).after _

/-- A transformation that fails is the last one that is called. -/
theorem shows_of_transform_failed {before after : List Transformation} {t : Transformation}
    (hsplit : p.transformations = before ++ t :: after) {output current : Output}
    (hmem : .answered path (.ok output) ∈ portion.log)
    (hcurrent : scope.transformed? (Entries.ofPairs arguments) before output = some current)
    {bounds : List Bound}
    (hbinds : t.parameters.Binds (Entries.ofPairs arguments) scope.graph.scalarOf? scope.context
      bounds) {v : HostValue} (hrecover : t.recover current = some v) {error : FieldError}
    (happly : t.apply v bounds = .error error) :
    portion.Shows (.answered path (.ok output) ::
      (List.range (before.length + 1)).map (.transformed path) ++
        [.reported ⟨group.first.start, path, error, .resolver⟩]) := by
  obtain ⟨later, hlater, rfl⟩ := exists_leaves_transformAll harguments h hmem
  have ht : t.parameters.ByPosition := hp _ (p.mem_parameters hsplit)
  rw [hsplit] at hlater
  rw [List.range_succ, List.range_eq_range', List.map_append, List.cons_append, List.append_assoc]
  refine Job.Portion.Shows.after ?_ [.answered path (.ok output)]
  rcases leaves_transformAll hcurrent hlater with ⟨-, hshows⟩ | ⟨last, hlast, rfl⟩
  · exact hshows _
  · rw [Nat.zero_add, transformAll_of_binds ht hbinds hrecover, happly] at hlast
    refine Job.Portion.Shows.after ?_ _
    rcases Job.leaves_transformed hlast with rfl | ⟨final, hfinal, rfl⟩
    · exact Job.Portion.shows_ready rfl (fun _ h => by cases h) _
    · exact (Job.shows_of_fail hfinal).after [.transformed path before.length]

/-- What is seen of a property whose arguments are bound by position. -/
theorem callsAllOrNothing :
    scope.CallsAllOrNothing p parent (Entries.ofPairs arguments) group.first.start path
      portion where
  once := marks_nodup_of_property h
  refused _ _ := shows_of_refused harguments h hp
  called _ _ := called_once harguments h hp
  transformRefused _ _ _ _ _ _ _ hsplit hmem hcurrent :=
    shows_of_transform_refused harguments h hp hsplit hmem hcurrent
  transformCalled before t after output current bounds v hsplit hmem hcurrent hbinds hrecover := by
    cases happly : t.apply v bounds with
    | ok w =>
      have ht : t.parameters.ByPosition := hp _ (p.mem_parameters hsplit)
      have htransform := (Transformation.allOrNothing ht current).called bounds v hbinds hrecover
      have hnext : scope.transformed? (Entries.ofPairs arguments) (before ++ [t]) output =
          some (t.erase w) := by
        rw [transformed?_append, hcurrent, Option.bind_some, transformed?, htransform, happly]
        rfl
      exact ⟨fun _ => transform_called_once harguments h hsplit hmem hnext, hnext⟩
    | error error =>
      have hshows := shows_of_transform_failed harguments h hp hsplit hmem hcurrent hbinds hrecover
        happly
      refine ⟨fun result hended => List.count_eq_one_of_mem (marks_nodup_of_property h) ?_, hshows⟩
      refine List.mem_append_left _ (List.mem_map.mpr ⟨.transformed path before.length, ?_, rfl⟩)
      rw [hshows.ended result hended]
      simp

end

end Scope

namespace SchemaBuilder

/-- The arguments of functions are bound by position, and all of them or none. Every resolver and every
transformation of a schema that was built has as many names as it has arguments, as they were declared;
so, whatever is given, either every parameter is bound in order or the first one that rejects its
argument is what the call fails with. In the first case the function is called with all that was bound,
provided that it has its receiver or takes its value, and it is called once. In the second case it is
not called, and the error of the argument is all that comes of the field. -/
theorem bound_by_position {b : SchemaBuilder} {catalogue : Catalogue} {s : Schema}
    (h : (b.build catalogue).1 = .ok s) {name : String} {object : ObjectType}
    (hobject : (name, .object object) ∈ s.graph.types) {p : Property} (hp : p ∈ object.properties) :
    b.declarations.Calls p ∧ (∀ q ∈ p.parameters, q.ByPosition) ∧
    (∀ provided table context,
      (∀ parent, p.resolver.AllOrNothing parent provided table context) ∧
      ∀ t ∈ p.transformations, ∀ output, t.AllOrNothing output provided table context) ∧
    ∀ (scope : Scope) (depth : Nat) (parent : Option Erased) (group : FieldGroup) (path : Path)
      (arguments : List (String × Literal)),
      scope.argumentsOf object p group.first.arguments = .ok arguments → ∀ portion,
        (Job.ready (scope.planProperty (scope.planObject depth) object parent group path p)).Leaves
          portion →
        scope.CallsAllOrNothing p parent (Entries.ofPairs arguments) group.first.start path
          portion := by
  have hcalls := Declarations.keepsTo_calls.of_register (register_of_build h) hobject p hp
  have hbinds : ∀ q ∈ p.parameters, q.ByPosition := by
    refine List.forall_mem_cons.mpr ⟨Parameters.byPosition hcalls.resolver.named, ?_⟩
    refine List.forall_mem_map.mpr fun t ht => ?_
    exact Parameters.byPosition (hcalls.transformations t ht).named
  refine ⟨hcalls, hbinds, fun provided table context => ⟨fun parent => ?_, fun t ht output => ?_⟩, ?_⟩
  · exact Resolver.allOrNothing (hbinds _ List.mem_cons_self) parent
  · exact Transformation.allOrNothing
      (hbinds _ (List.mem_cons_of_mem _ (List.mem_map_of_mem ht))) output
  · exact fun _ _ _ _ _ _ harguments _ hportion =>
      Scope.callsAllOrNothing harguments hportion hbinds

end SchemaBuilder

namespace Invoking.Sample

open Document

def film : HostType := .named "studio::Film"

def catalogue : Catalogue where
  objects := [(film, ⟨"Film", [⟨"title", .scalar .text, fun v => .single .text (v.field "title")⟩]⟩)]
  inputs := []

def text : Parameter :=
  .argument (.scalar .text) fun _ l =>
    match l with
    | .scalar (.string s) => .ok (.text s)
    | _ => .error ⟨"Expected a text", .string "null"⟩

/-- The review of a film by a critic in some paper. The context stands between the two. -/
def review : Resolver where
  parameters := .ofKinds [text, .context, text]
  returns := .scalar .text
  behaviour := .blocking (some film) fun _ bounds =>
    match bounds with
    | [.value (.text critic), .context _, .value (.text paper)] =>
      .answer (.ok (.single .text (.text (critic ++ " in " ++ paper))))
    | _ => .answer (.error Bound.mismatch)

/-- Reviews in some style. -/
def styled : Transformation where
  host := .text
  valueType := .text
  parameters := .ofKinds [.context, text]
  recover
    | .single .text v => some v
    | _ => none
  apply v _ := .ok v
  erase v := .single .text v

def builder : SchemaBuilder :=
  (SchemaBuilder.new.query { PropertyDeclaration.extension "latest" with
    resolver := some ⟨.ofKinds [], .object film film, .suspending none fun _ _ =>
      .answer (.ok (.single film .nothing))⟩ }).type (.object film film) fun d =>
    { d with
      properties := [{ PropertyDeclaration.extension "review" with
        arguments := ["critic", "paper"]
        resolver := some review }]
      transformations := [⟨"review", ["style"], some styled⟩] }

def property : Property :=
  ⟨"review", none, .current, .named "String" true,
    [⟨"critic", .named "String" true⟩, ⟨"paper", .named "String" true⟩,
      ⟨"style", .named "String" true⟩], .extension,
    { review with parameters := ⟨review.parameters.kinds, ["critic", "paper"]⟩ },
    [{ styled with parameters := ⟨styled.parameters.kinds, ["style"]⟩ }]⟩

def filmType : ObjectType :=
  ⟨"Film", none, some film,
    [⟨"title", none, .current, .named "String" true, [], .native,
      .ofField film ⟨"title", .scalar .text, fun v => .single .text (v.field "title")⟩, []⟩,
      property]⟩

theorem exists_schema : ∃ s, (builder.build catalogue).1 = .ok s ∧
    ("Film", .object filmType) ∈ s.graph.types :=
  ⟨_, rfl, List.mem_of_getElem? (i := ScalarType.builtin.length + 1) rfl⟩

def scope (s : Schema) : Scope := ⟨s.graph, [], [], [(.text, .text "guest")]⟩

def nightfall : Erased := ⟨film, .record [("title", .text "Nightfall")]⟩

def path : Path := [.field "review"]

def selected (arguments : List (String × Literal)) : FieldGroup :=
  ⟨"review", ⟨⟨0, 2⟩, none, "review", arguments, [], none⟩, []⟩

/-- Moments at which the review of a film is asked for with arguments. -/
def Asks (s : Schema) (arguments : List (String × Literal)) (portion : Job.Portion) : Prop :=
  (Job.ready ((scope s).planProperty ((scope s).planObject 1) filmType (some nightfall)
    (selected arguments) path property)).Leaves portion

def given : List (String × Literal) :=
  [("paper", .scalar (.string "Courier")), ("critic", .scalar (.string "Ann"))]

def bounds : List Bound :=
  [.value (.text "Ann"), .context [(.text, .text "guest")], .value (.text "Courier")]

theorem binds_given (table : ScalarTable) :
    property.resolver.parameters.Binds (Entries.ofPairs given) table [(.text, .text "guest")]
      bounds where
  length := rfl
  takes
    | 0, _, h => Option.some.inj h ▸ .argument rfl rfl rfl
    | 1, _, h => Option.some.inj h ▸ .context rfl
    | 2, _, h => Option.some.inj h ▸ .argument rfl rfl rfl

def missing (name : String) : Event :=
  .reported ⟨⟨0, 2⟩, path, ⟨s!"Invalid value for argument \"{name}\": Expected a text",
    .string "null"⟩, .argumentBinding⟩

end Invoking.Sample

namespace SchemaBuilder

open Invoking.Sample

/-- Without a critic and a paper, a review is refused for the critic and is not asked for. With both it
is asked for once, and then refused for the style that it lacks. -/
theorem bound_by_position_sample : ∃ s, (builder.build catalogue).1 = .ok s ∧
    ("Film", .object filmType) ∈ s.graph.types ∧ property ∈ filmType.properties ∧
    (∀ portion, Asks s [] portion → portion.Shows [missing "critic"]) ∧
    ∀ portion, Asks s given portion → portion.marks.count (path, .answered) = 1 ∧
      ∀ output, .answered path (.ok output) ∈ portion.log →
        portion.Shows [.answered path (.ok output), missing "style"] := by
  obtain ⟨s, hs, hfilm⟩ := exists_schema
  have hproperty : property ∈ filmType.properties := List.mem_cons_of_mem _ List.mem_cons_self
  obtain ⟨-, -, -, hcalls⟩ := bound_by_position hs hfilm hproperty
  refine ⟨s, hs, hfilm, hproperty, fun portion hasks => ?_, fun portion hasks => ?_⟩
  · have h := hcalls (scope s) 1 (some nightfall) (selected []) path [] rfl portion hasks
    exact h.refused "critic" ⟨"Expected a text", .string "null"⟩ ⟨0, .argument rfl rfl rfl, nofun⟩
  · have h := hcalls (scope s) 1 (some nightfall) (selected given) path given rfl portion hasks
    refine ⟨(h.called _ _ (binds_given _) (.blocking rfl)).1, fun output hmem => ?_⟩
    refine h.transformRefused [] _ [] output output "style" ⟨"Expected a text", .string "null"⟩ rfl
      hmem rfl ⟨1, .argument rfl rfl rfl, fun j hj => ⟨.context [(.text, .text "guest")], ?_⟩⟩
    obtain rfl := Nat.lt_one_iff.mp hj
    exact .context rfl

end SchemaBuilder

end Trellis
