import Trellis.Proofs.Execution.Selected
import Trellis.Proofs.Execution.Substitution
import Trellis.Proofs.Execution.Tracing

/-!
Every selected field is answered.

The fields that are selected for an object are collected by their response keys, and a response key is
answered through the first of its fields. So the value of a field that is called like the first one,
with the same arguments, is computed from its own name and arguments, or an error is recorded at its
path. A field that differs from the first one is not refused: it adds to what is selected below the
key, and nothing else of it counts.
-/

namespace Trellis

open Document

/-! ### Arguments that are the same -/

/-- Binding looks arguments up by their names. -/
theorem Parameters.bind_eq_of_lookup {provided other : List (String × Literal)}
    (h : ∀ name, provided.lookup name = other.lookup name) (p : Parameters) (table : ScalarTable)
    (context : Context) : p.bind provided table context = p.bind other table context := by
  obtain ⟨kinds, names⟩ := p
  change bindKinds provided table context kinds names = bindKinds other table context kinds names
  induction kinds generalizing names with
  | nil => cases names <;> simp only [bindKinds]
  | cons kind kinds ih =>
    cases kind with
    | context => cases names <;> simp only [bindKinds, ih]
    | argument =>
      cases names with
      | nil => simp only [bindKinds]
      | cons name names => simp only [bindKinds, h, ih]

theorem Resolver.start_eq_of_lookup {provided other : List (String × Literal)}
    (h : ∀ name, provided.lookup name = other.lookup name) (r : Resolver) (parent : Option Erased)
    (table : ScalarTable) (context : Context) :
    r.start parent provided table context = r.start parent other table context := by
  rw [start, start, r.parameters.bind_eq_of_lookup h]

theorem Transformation.transform_eq_of_lookup {provided other : List (String × Literal)}
    (h : ∀ name, provided.lookup name = other.lookup name) (t : Transformation) (output : Output)
    (table : ScalarTable) (context : Context) :
    t.transform output provided table context = t.transform output other table context := by
  rw [transform, transform, t.parameters.bind_eq_of_lookup h]

namespace Scope

variable (scope : Scope)

/-- Arguments with variables replaced by their values. -/
def resolved (given : List (String × Literal)) : List (String × Literal) :=
  given.map fun a => (a.1, a.2.resolve scope.values)

/-- Two lists of arguments have the same names, and the same values for them, in any order. -/
structure SameArguments (given other : List (String × Literal)) : Prop where
  names : ∀ name, name ∈ given.map (·.1) ↔ name ∈ other.map (·.1)
  values : ∀ name, (Entries.ofPairs (scope.resolved given)).lookup name =
    (Entries.ofPairs (scope.resolved other)).lookup name

variable {scope} {given other : List (String × Literal)}

theorem argumentsOf_eq_ok {object : ObjectType} {property : Property}
    {arguments : List (String × Literal)} :
    scope.argumentsOf object property given = .ok arguments ↔
      (∀ name ∈ given.map (·.1), (property.argument? name).isSome) ∧
        arguments = scope.resolved given := by
  induction given generalizing arguments with
  | nil =>
    rw [argumentsOf, resolved]
    exact ⟨fun h => ⟨List.forall_mem_nil _, (Except.ok.inj h).symm⟩,
      fun h => congrArg Except.ok h.2.symm⟩
  | cons a given ih =>
    obtain ⟨name, value⟩ := a
    rw [argumentsOf, List.map_cons, List.forall_mem_cons]
    cases hargument : property.argument? name with
    | none => exact ⟨(by cases ·), fun h => by cases h.1.1⟩
    | some argument =>
      cases hrest : scope.argumentsOf object property given with
      | error e =>
        refine ⟨(by cases ·), fun h => ?_⟩
        cases hrest.symm.trans (ih.mpr ⟨h.1.2, rfl⟩)
      | ok rest =>
        obtain ⟨hnames, rfl⟩ := ih.mp hrest
        constructor
        · intro h
          cases h
          exact ⟨⟨rfl, hnames⟩, rfl⟩
        · rintro ⟨-, rfl⟩
          rfl

/-- Arguments that are the same are taken alike. -/
theorem SameArguments.argumentsOf (h : scope.SameArguments given other) {object : ObjectType}
    {property : Property} {arguments : List (String × Literal)}
    (harguments : scope.argumentsOf object property given = .ok arguments) :
    scope.argumentsOf object property other = .ok (scope.resolved other) ∧
      ∀ name, (Entries.ofPairs arguments).lookup name =
        (Entries.ofPairs (scope.resolved other)).lookup name := by
  obtain ⟨hnames, rfl⟩ := argumentsOf_eq_ok.mp harguments
  exact ⟨argumentsOf_eq_ok.mpr ⟨fun name hname => hnames name ((h.names name).mpr hname), rfl⟩,
    h.values⟩

theorem transformed?_eq_of_lookup {provided others : List (String × Literal)}
    (h : ∀ name, provided.lookup name = others.lookup name) (transformations : List Transformation)
    (output : Output) : scope.transformed? provided transformations output =
      scope.transformed? others transformations output := by
  induction transformations generalizing output with
  | nil => rfl
  | cons t rest ih => simp only [transformed?, t.transform_eq_of_lookup h, ih]

/-- A transformation that fails is reported at the path of its field. -/
theorem exists_reported_of_transformAll {provided : List (String × Literal)} {type : TypeLiteral}
    {location : Position} {path : Path} {complete : Output → Plan}
    {transformations : List Transformation} {i : Nat} {output : Output} {t : Settled}
    (hnone : scope.transformed? provided transformations output = none)
    (ht : (scope.transformAll provided path (fun e => Plan.fail type location path e.error e.kind)
      complete i transformations output).Settles t) : ∃ e ∈ Event.errors t.events, e.path = path := by
  induction transformations generalizing i output t with
  | nil => cases hnone
  | cons first rest ih =>
    rw [transformed?] at hnone
    rw [transformAll] at ht
    split at ht
    · obtain rfl := Plan.settles_fail.mp ht
      exact ⟨_, List.mem_cons_self, rfl⟩
    · obtain ⟨u, hu, rfl⟩ := ht
      obtain rfl := Plan.settles_fail.mp hu
      exact ⟨_, List.mem_cons_self, rfl⟩
    · rename_i next hnext
      rw [hnext] at hnone
      obtain ⟨u, hu, rfl⟩ := ht
      obtain ⟨e, he, hpath⟩ := ih hnone hu
      exact ⟨e, he, hpath⟩

end Scope

/-! ### Answers -/

namespace Opening

/-- What the data show at a path was computed from the name and the arguments of a field of an object:
it is the name of the type of the object, or a call with these arguments was answered there, and what
the transformations made of the answer was completed to what is shown. -/
inductive Computes (o : Opening) (log : List Event) (data : Value) (object : ObjectType)
    (parent : Option Erased) (path : Path) (name : String) (given : List (String × Literal))
    (selections : List Selection) : Prop
  | typeName : name = "__typename" →
    (∀ value, data.follow? path = some value → value = .string object.name) →
    Computes o log data object parent path name given selections
  | resolved {property : Property} {arguments : List (String × Literal)} {action : Action}
    {journal : List String} {ending : Action.Ending} {output shown : Output} {depth : Nat}
    {location : Position} {t : Settled} : name ≠ "__typename" → object.property? name = some property →
    o.scope.argumentsOf object property given = .ok arguments →
    property.resolver.start parent (Entries.ofPairs arguments) o.scope.graph.scalarOf?
      o.scope.context = .ok action →
    action.perform? journal = some ending → ending.result = .ok output →
    .answered path (.ok output) ∈ log →
    o.scope.transformed? (Entries.ofPairs arguments) property.transformations output = some shown →
    (o.scope.complete (o.scope.planObject depth) selections location shown property.type
      path).Settles t → t.Within log data path →
    Computes o log data object parent path name given selections

/-- A field is answered at a path: what is shown was computed from its name and arguments, or an error
is recorded there. -/
def Answers (o : Opening) (log : List Event) (data : Value) (errors : List ExecutionError)
    (object : ObjectType) (parent : Option Erased) (path : Path) (name : String)
    (given : List (String × Literal)) (selections : List Selection) : Prop :=
  o.Computes log data object parent path name given selections ∨ ∃ e ∈ errors, e.path = path

variable {o : Opening} {log : List Event} {data : Value} {errors : List ExecutionError}
  {object : ObjectType} {parent : Option Erased} {path : Path} {name : String}
  {given other : List (String × Literal)} {selections : List Selection}

theorem Computes.congr (h : o.Computes log data object parent path name given selections)
    (hsame : o.scope.SameArguments given other) :
    o.Computes log data object parent path name other selections := by
  cases h with
  | typeName hname hshown => exact .typeName hname hshown
  | @resolved property _ _ _ _ output _ _ _ _ hname hproperty harguments haction hending hresult
      hanswered hshown ht hwithin =>
    obtain ⟨hother, hlookup⟩ := hsame.argumentsOf harguments
    rw [property.resolver.start_eq_of_lookup hlookup] at haction
    rw [Scope.transformed?_eq_of_lookup hlookup] at hshown
    exact .resolved hname hproperty hother haction hending hresult hanswered hshown ht hwithin

/-- The first field under a response key is answered at the path of the key. -/
theorem answers_first {depth : Nat} {group : FieldGroup} {t : Settled}
    (herrors : ∀ e ∈ Event.errors log, e ∈ errors)
    (ht : (o.scope.planGroup (o.scope.planObject depth) object parent path group).Settles t)
    (hwithin : t.Within log data (path ++ [.field group.key])) :
    o.Answers log data errors object parent (path ++ [.field group.key]) group.first.name
      group.first.arguments group.selections := by
  have hreported {e : ExecutionError} (he : e ∈ Event.errors t.events)
      (hpath : e.path = path ++ [.field group.key]) :
      ∃ e ∈ errors, e.path = path ++ [.field group.key] := by
    obtain ⟨event, hevent, herror⟩ := List.mem_filterMap.mp he
    exact ⟨e, herrors e (List.mem_filterMap.mpr ⟨event, hwithin.events hevent, herror⟩), hpath⟩
  have hfailed {type : TypeLiteral} {e : FieldError} {kind : ErrorKind}
      (ht : (Plan.fail type group.first.start (path ++ [.field group.key]) e kind).Settles t) :
      ∃ e ∈ errors, e.path = path ++ [.field group.key] := by
    obtain rfl := Plan.settles_fail.mp ht
    exact hreported List.mem_cons_self rfl
  rw [Scope.planGroup] at ht
  split at ht
  · rename_i hname
    obtain rfl := ht
    refine .inl (.typeName hname fun value hvalue => ?_)
    exact (Option.some.inj (hwithin.shown value hvalue)).symm
  · rename_i hname
    split at ht
    · rename_i property hproperty
      rw [Scope.planProperty] at ht
      dsimp only at ht
      split at ht
      · exact .inr (hfailed ht)
      · rename_i arguments harguments
        split at ht
        · exact .inr (hfailed ht)
        · rename_i action haction
          obtain ⟨journal, ending, u, hending, hu, rfl⟩ := ht
          have hanswered := hwithin.events List.mem_cons_self
          dsimp only at hu
          split at hu
          · obtain rfl := Plan.settles_fail.mp hu
            exact .inr (hreported List.mem_cons_self rfl)
          · rename_i output hresult
            rw [hresult] at hanswered
            cases hshown : o.scope.transformed? (Entries.ofPairs arguments) property.transformations
                output with
            | none =>
              obtain ⟨e, he, hpath⟩ := Scope.exists_reported_of_transformAll hshown hu
              exact .inr (hreported he hpath)
            | some shown =>
              obtain ⟨v, events, hv, rfl, hevents, -⟩ := Scope.exists_of_transformAll hshown hu
              have hinner := (hwithin.of_after (List.forall_mem_singleton.mpr rfl)).of_after hevents
              exact .inl (.resolved hname hproperty harguments haction hending hresult hanswered
                hshown hv hinner)
    · obtain ⟨_, rfl, rfl⟩ := ht
      exact .inr (hreported List.mem_cons_self rfl)

end Opening

/-- The group as if its first field alone had been selected, with the selections of all its fields. -/
def FieldGroup.merged (g : FieldGroup) : FieldGroup :=
  ⟨g.key, { g.first with selections := some g.selections }, []⟩

theorem Scope.planGroup_merged (scope : Scope) (planner : ObjectPlanner) (object : ObjectType)
    (parent : Option Erased) (path : Path) (group : FieldGroup) :
    scope.planGroup planner object parent path group =
      scope.planGroup planner object parent path group.merged := by
  have hselections : group.selections = group.merged.selections := by
    simp [FieldGroup.merged, FieldGroup.selections]
  have halike : scope.Alike scope (· = ·) object group group.merged :=
    ⟨rfl, rfl, rfl, fun _ => rfl, hselections⟩
  exact planGroup_congr (.refl _) rfl halike (fun _ _ _ _ => by rw [hselections]) parent path

namespace Opening

/-- How a field is answered that was collected for an object in a group. The group is answered through
its first field, as if all selections were those of the first one. If the field has the name and the
arguments of the first one, it is answered by its own. -/
structure Answered (o : Opening) (log : List Event) (data : Value) (errors : List ExecutionError)
    (object : ObjectType) (parent : Option Erased) (path : Path) (group : FieldGroup) (field : Field) :
    Prop where
  member : field ∈ group.first :: group.rest
  key : group.key = field.key
  first : o.Answers log data errors object parent (path ++ [.field field.key]) group.first.name
    group.first.arguments group.selections
  own : field.name = group.first.name → o.scope.SameArguments group.first.arguments field.arguments →
    o.Answers log data errors object parent (path ++ [.field field.key]) field.name field.arguments
      group.selections
  merged : ∀ planner parent path, o.scope.planGroup planner object parent path group =
    o.scope.planGroup planner object parent path group.merged

/-- Every field that is selected for an object of a response is answered in a group of fields that are
selected for it. -/
def AnswersSelected (o : Opening) (log : List Event) (data : Value) (errors : List ExecutionError) :
    Prop :=
  ∀ path place object selections, o.place? log path = some place →
    o.scope.objectAt? place = some (object, selections) →
      ∀ field, o.scope.Selects object selections field →
        ∃ group ∈ (o.scope.collect object selections).groups,
          (∀ other ∈ group.first :: group.rest, o.scope.Selects object selections other) ∧
            o.Answered log data errors object place.parent? path group field

variable {o : Opening} {log : List Event} {data : Value}

theorem answersSelected_of_reaches {errors : List ExecutionError} {depth : Nat}
    (hmarks : (Event.marks log).Nodup) (herrors : ∀ e ∈ Event.errors log, e ∈ errors)
    (hrun : (o.agenda depth).Reaches log (.ended (some data))) :
    o.AnswersSelected log data errors := by
  intro path place object selections hplace hobject field hfield
  obtain ⟨group, hgroup, hkey, hmember⟩ := Scope.has_collect_iff.mpr hfield
  obtain ⟨_, t, ht, hwithin, -⟩ := (traced_of_place? hmarks hrun hplace).group hobject hgroup
  have hfirst := answers_first herrors ht hwithin
  have hselected (other : Field) (hother : other ∈ group.first :: group.rest) :
      o.scope.Selects object selections other :=
    Scope.has_collect_iff.mp ⟨group, hgroup, o.scope.keyed_collect _ _ _ hgroup _ hother, hother⟩
  refine ⟨group, hgroup, hselected, hmember, hkey, hkey ▸ hfirst, fun hname harguments => ?_,
    fun planner parent path => o.scope.planGroup_merged planner object parent path group⟩
  rw [hname, ← hkey]
  exact hfirst.imp_left fun h => h.congr harguments

end Opening

namespace Schema

variable {s : Schema}

/-- Every field that is selected for an object of a response is answered: if it has the name and the
arguments of the first field under its response key, then by its own, so that the value was computed
from them or an error is recorded at its path. A field that differs from the first one under its key
adds its selections and is not refused: the value is computed from the first one. This holds of every
run of a request to its end, and so of what workers answer. -/
theorem selected_answered {r : Request} {o : Opening} (ho : s.opening r = .ok o) (depth : Nat) :
    (∀ log result, (o.agenda depth).Reaches log (.ended result) →
      o.AnswersSelected log (Agenda.recorded log result).1 (Agenda.recorded log result).2) ∧
    ∀ workers outcome rest, s.executeOn? workers depth r = some (.ok outcome, rest) →
      ∃ log result, (o.agenda depth).Reaches log (.ended result) ∧
        o.AnswersSelected log outcome.data outcome.errors := by
  have hruns (log : List Event) (result : Option Value)
      (hrun : (o.agenda depth).Reaches log (.ended result)) :
      o.AnswersSelected log (Agenda.recorded log result).1 (Agenda.recorded log result).2 := by
    have hmarks := nodup_marks ho hrun
    obtain ⟨data, rfl, hdata⟩ := exists_data_of_reaches ho hrun
    rw [hdata]
    exact Opening.answersSelected_of_reaches hmarks (fun e he => Agenda.mem_recorded.mpr he) hrun
  exact ⟨hruns, fun workers outcome rest h => exists_reaches_of_outcome ho hruns h⟩

theorem selected_answered_sample : Sample.schema.opening Sample.request = .ok Sample.opening ∧
    ∃ log result, (Sample.opening.agenda 2).Reaches log (.ended result) ∧
      Sample.opening.AnswersSelected log Sample.data Sample.errors := by
  refine ⟨Sample.opening_request, ?_⟩
  obtain ⟨log, result, hrun, hrecorded⟩ :=
    Agenda.exists_reaches_of_sequential Sample.sequential_opening
  have hanswered := (Sample.schema.selected_answered Sample.opening_request 2).1 log result hrun
  rw [hrecorded] at hanswered
  exact ⟨log, result, hrun, hanswered⟩

end Schema

namespace Sample

def echoing (word : Literal) : Field :=
  ⟨⟨0, 2⟩, some "a", "echo", [("word", word)], [], none⟩

def naming : Field := ⟨⟨0, 2⟩, some "a", "__typename", [], [], none⟩

def asking (fields : List Field) : Request :=
  ⟨[.operation ⟨.origin, .query, none, [], [], fields.map .field⟩], none, [], []⟩

def askingOpening (fields : List Field) : Opening :=
  ⟨⟨hall.graph, (asking fields).document, [], []⟩, ⟨"Query", none, none, [echo]⟩,
    ⟨.origin, .query, none, [], [], fields.map .field⟩⟩

theorem not_answers_naming (fields : List Field) (log : List Event) (parent : Option Erased)
    (selections : List Selection) :
    ¬ (askingOpening fields).Answers log (.object [("a", .string "sun")]) []
      (askingOpening fields).root parent [.field "a"] "__typename" naming.arguments selections := by
  rintro (h | ⟨e, he, -⟩)
  · cases h with
    | typeName _ hshown =>
      have hvalue := hshown (.string "sun") rfl
      simp [askingOpening, Value.string] at hvalue
    | resolved hname => exact hname rfl
  · cases he

theorem not_answers_moon (fields : List Field) (log : List Event) (parent : Option Erased)
    (selections : List Selection) :
    ¬ (askingOpening fields).Answers log (.object [("a", .string "sun")]) []
      (askingOpening fields).root parent [.field "a"] "echo" (echoing (.string "moon")).arguments
      selections := by
  rintro (h | ⟨e, he, -⟩)
  · cases h with
    | typeName hname => simp at hname
    | resolved hname hproperty harguments haction hending hresult _ hshown ht hwithin =>
      cases hproperty
      cases harguments
      cases haction
      cases hending
      cases hresult
      cases hshown
      cases ht
      have hvalue : some (Value.string "moon") = some (Value.string "sun") :=
        hwithin.shown (.string "sun") rfl
      simp [Value.string] at hvalue
  · cases he

end Sample

namespace Schema

open Sample

/-- Three fields with one response key, two of them with the same name and different arguments, merge
without any error. Only the first one is answered: what is shown was not computed from the name and
the arguments of any other, whatever took place. -/
theorem merged_silently :
    let first := echoing (.string "sun")
    let second := echoing (.string "moon")
    let o := askingOpening [first, second, naming]
    hall.opening (asking [first, second, naming]) = .ok o ∧
    first.name = second.name ∧ ¬ o.scope.SameArguments first.arguments second.arguments ∧
    first.name ≠ naming.name ∧
    (∀ f ∈ [first, second, naming], f.key = "a" ∧
      o.scope.Selects o.root o.operation.selections f) ∧
    hall.execute? 1 (asking [first, second, naming]) =
      some (.ok ⟨.object [("a", .string "sun")], [], []⟩) ∧
    ∀ log, ∀ f ∈ [second, naming], ∀ selections,
      ¬ o.Answers log (.object [("a", .string "sun")]) [] o.root none [.field "a"] f.name f.arguments
        selections := by
  refine ⟨rfl, rfl, fun h => ?_, by decide, fun f hf => ?_, ?_, fun log f hf selections => ?_⟩
  · have hvalues : some (Literal.string "sun") = some (Literal.string "moon") := h.values "word"
    simp [Literal.string] at hvalues
  · have hplain : f.key = "a" ∧ f.directives = [] := by
      simp only [List.mem_cons, List.not_mem_nil, or_false] at hf
      rcases hf with rfl | rfl | rfl <;> exact ⟨rfl, rfl⟩
    refine ⟨hplain.1, .field (List.mem_map_of_mem hf) ?_⟩
    rw [hplain.2]
    rfl
  · cbv
  · simp only [List.mem_cons, List.not_mem_nil, or_false] at hf
    rcases hf with rfl | rfl
    · exact not_answers_moon _ log none selections
    · exact not_answers_naming _ log none selections

end Schema

end Trellis
