import Trellis.Proofs.Execution.Tracing

/-!
Responses have the form that the selections and the schema ask for.

Whatever resolvers hand out, an object has the response keys that were collected for it, an element
of a list is what the output at its index is completed to, and every value conforms to the declared
type of its position. What cannot be shown so does not get into a response.
-/

namespace Trellis

/-- A value conforms to a type: it is null only where the type admits it, and otherwise it is of the
form that the type asks for. -/
def TypeGraph.Admits (g : TypeGraph) : TypeLiteral → Value → Prop
  | .list inner nonNull, value => (value = .null ∧ nonNull = false) ∨
      ∃ items, value = .list items ∧ ∀ item ∈ items, TypeGraph.Admits g inner item
  | .named name nonNull, value => (value = .null ∧ nonNull = false) ∨
      match g.type? name with
      | some (.scalar _) => ∃ raw, value = .scalar raw
      | some (.enumeration _) => ∃ label, value = .string label
      | some (.object _) | some (.union _) => ∃ fields, value = .object fields
      | some (.inputObject _) | none => False

theorem TypeGraph.admits_null {g : TypeGraph} {type : TypeLiteral} (h : type.isNonNull = false) :
    g.Admits type .null := by
  cases type <;> exact .inl ⟨rfl, h⟩

namespace Scope

variable (scope : Scope)

/-- The keys of an object are those that were collected from selections for its type, each once. -/
def HasKeys (object : ObjectType) (selections : List Document.Selection) (fields : Object) : Prop :=
  fields.keys = (scope.collect object selections).keys ∧ fields.keys.Nodup

/-- Something failed at a path or below. -/
def FailedBelow (errors : List ExecutionError) (path : Path) : Prop :=
  ∃ e ∈ errors, ¬ IsMissingFragment e ∧ path <+: e.path

theorem FailedBelow.of_subset {errors others : List ExecutionError} (h : errors ⊆ others)
    {path : Path} : FailedBelow errors path → FailedBelow others path
  | ⟨e, he, hrest⟩ => ⟨e, h he, hrest⟩

/-- What an output, if there is one, may give at a path: what is written for it, null for a failure
there or below, for a list one element each at the same index, and for an object the keys that are
collected for it. -/
inductive Yields (errors : List ExecutionError) (selections : List Document.Selection) :
    Path → TypeLiteral → Option Output → Value → Prop
  | leaf {path : Path} {type : TypeLiteral} {output : Option Output} {value : Value} :
    scope.Leaf (.value type output selections) value → Yields errors selections path type output value
  | failed {path : Path} {type : TypeLiteral} {output : Option Output} :
    type.isNonNull = false → FailedBelow errors path →
    Yields errors selections path type output .null
  | list {path : Path} {inner : TypeLiteral} {nonNull : Bool} {items : List Output}
    {values : List Value} : values.length = items.length →
    (∀ (i : Nat) (item : Output) (value : Value), items[i]? = some item → values[i]? = some value →
      Yields errors selections (path ++ [.index i]) inner (some item) value) →
    Yields errors selections path (.list inner nonNull) (some (.list items)) (.list values)
  | object {path : Path} {type : TypeLiteral} {output : Option Output} {object : ObjectType}
    {fields : Object} : scope.objectAt? (.value type output selections) = some (object, selections) →
    scope.HasKeys object selections fields → Yields errors selections path type output (.object fields)

/-- What a value at a path has to be like for its place. -/
def Shows (errors : List ExecutionError) (path : Path) (place : Place) (value : Value) : Prop :=
  match place with
  | .root type selections =>
    value = .null ∧ FailedBelow errors path ∨
      ∃ fields, value = .object fields ∧ scope.HasKeys type selections fields
  | .typeName object => value = .string object.name
  | .unknown .. => value = .null ∧ ∃ e ∈ errors, e.path = path ∧ e.kind = .unknownField
  | .value type output selections =>
    scope.graph.Admits type value ∧ scope.Yields errors selections path type output value

variable {scope} {errors : List ExecutionError} {path : Path}

theorem Yields.of_subset {others : List ExecutionError} (h : errors ⊆ others)
    {selections : List Document.Selection} {type : TypeLiteral} {output : Option Output}
    {value : Value} (hyields : scope.Yields errors selections path type output value) :
    scope.Yields others selections path type output value := by
  induction hyields with
  | leaf hleaf => exact .leaf hleaf
  | failed hnullable hfailed => exact .failed hnullable (hfailed.of_subset h)
  | list hlength _ ih => exact .list hlength ih
  | object hobject hkeys => exact .object hobject hkeys

theorem Shows.of_subset {others : List ExecutionError} (h : errors ⊆ others) {place : Place}
    {value : Value} (hshows : scope.Shows errors path place value) :
    scope.Shows others path place value := by
  cases place with
  | unknown object name =>
    obtain ⟨hnull, e, he, hrest⟩ := hshows
    exact ⟨hnull, e, h he, hrest⟩
  | root object selections => exact hshows.imp_left fun h' => ⟨h'.1, h'.2.of_subset h⟩
  | typeName => exact hshows
  | value type output selections => exact ⟨hshows.1, hshows.2.of_subset h⟩

theorem shows_null {type : TypeLiteral} {output : Option Output}
    {selections : List Document.Selection} (h : type.isNonNull = false)
    (hfailed : FailedBelow errors path) :
    scope.Shows errors path (.value type output selections) .null :=
  ⟨TypeGraph.admits_null h, .failed h hfailed⟩

theorem Failure.failedBelow {place : Place} {e : FieldError} {kind : ErrorKind} {location : Position}
    (h : scope.Failure place e kind) (hmem : ⟨location, path, e, kind⟩ ∈ errors) :
    FailedBelow errors path :=
  ⟨_, hmem, h.not_missingFragment location path, List.prefix_rfl⟩

theorem Leaf.shows {place : Place} {value : Value} (h : scope.Leaf place value) :
    scope.Shows errors path place value := by
  have hleaf := h
  cases h with
  | typeName object => rfl
  | null hnullable => exact ⟨TypeGraph.admits_null hnullable, .leaf hleaf⟩
  | @scalar name nonNull host value selections type raw htype _ =>
    refine ⟨.inr ?_, .leaf hleaf⟩
    rw [htype]
    exact ⟨raw, rfl⟩
  | @enumeration name nonNull host value selections type label htype _ =>
    refine ⟨.inr ?_, .leaf hleaf⟩
    rw [htype]
    exact ⟨label, rfl⟩

theorem Failure.shows {place : Place} {e : FieldError} {kind : ErrorKind} {location : Position}
    (h : scope.Failure place e kind) (hmem : ⟨location, path, e, kind⟩ ∈ errors) {value : Value}
    (hvalue : place.absent = some value) : scope.Shows errors path place value := by
  obtain ⟨hnullable, rfl⟩ := Place.absent_eq_some hvalue
  have hfailed := h.failedBelow hmem
  cases h with
  | unknown object name => exact ⟨rfl, _, hmem, rfl, rfl⟩
  | arguments | call | null | list | single | scalar | enumeration | union | unresolved =>
    exact shows_null (by simpa [Place.isNullable] using hnullable) hfailed

theorem hasKeys_zip (object : ObjectType) (selections : List Document.Selection)
    {values : List Value} (h : (scope.collect object selections).keys.length = values.length) :
    scope.HasKeys object selections ((scope.collect object selections).keys.zip values) := by
  have hkeys : Object.keys ((scope.collect object selections).keys.zip values) =
      (scope.collect object selections).keys := by
    rw [Object.keys, ← List.unzip_fst, List.unzip_zip h]
  refine ⟨hkeys, ?_⟩
  rw [hkeys]
  exact (scope.tidy_collect object selections).keys

/-- Only single values of named types are completed as objects. -/
theorem objectAt?_value {type : TypeLiteral} {output : Option Output}
    {selections others : List Document.Selection} {object : ObjectType}
    (h : scope.objectAt? (.value type output selections) = some (object, others)) :
    selections = others ∧ ∀ fields, scope.graph.Admits type (.object fields) := by
  unfold objectAt? at h
  split at h
  · rename_i heq
    cases heq
  · rename_i name nonNull host value _ heq
    cases heq
    obtain ⟨found, hfound, hpair⟩ := Option.map_eq_some_iff.mp h
    cases hpair
    refine ⟨rfl, fun fields => .inr ?_⟩
    rw [objectFor?] at hfound
    split at hfound
    · rename_i htype
      rw [htype]
      exact ⟨fields, rfl⟩
    · rename_i htype
      rw [htype]
      exact ⟨fields, rfl⟩
    · cases hfound
  · cases h

theorem shows_object {place : Place} {object : ObjectType} {selections : List Document.Selection}
    (h : scope.objectAt? place = some (object, selections)) {fields : Object}
    (hkeys : scope.HasKeys object selections fields) :
    scope.Shows errors path place (.object fields) := by
  cases place with
  | root type others =>
    cases h
    exact .inr ⟨fields, rfl, hkeys⟩
  | typeName | unknown => cases h
  | value type output others =>
    obtain ⟨rfl, hadmits⟩ := objectAt?_value h
    exact ⟨hadmits fields, .object h hkeys⟩

/-- A list is shown if each of its elements is shown for the output at its index. -/
theorem shows_list {inner : TypeLiteral} {nonNull : Bool} {items : List Output}
    {selections : List Document.Selection} {values : List Value}
    (hlength : values.length = items.length)
    (h : ∀ (i : Nat) (item : Output) (value : Value), items[i]? = some item →
      values[i]? = some value →
      scope.Shows errors (path ++ [.index i]) (.value inner (some item) selections) value) :
    scope.Shows errors path (.value (.list inner nonNull) (some (.list items)) selections)
      (.list values) := by
  refine ⟨.inr ⟨values, rfl, fun value hvalue => ?_⟩, .list hlength fun i item value hitem hvalue =>
    (h i item value hitem hvalue).2⟩
  obtain ⟨i, hi, rfl⟩ := List.getElem_of_mem hvalue
  exact (h i items[i] values[i] (List.getElem?_eq_getElem (hlength ▸ hi))
    (List.getElem?_eq_getElem hi)).1

/-- What has parts shows as null, wherever null may stand, once something below it failed. -/
theorem Composes.shows_absent {place : Place} {steps : List PathSegment} {values : List Value}
    {whole : Value} (h : scope.Composes place steps values whole) (hfailed : FailedBelow errors path)
    {value : Value} (hvalue : place.absent = some value) : scope.Shows errors path place value := by
  obtain ⟨hnullable, rfl⟩ := Place.absent_eq_some hvalue
  cases h with
  | object hobject =>
    cases place with
    | root => exact .inl ⟨rfl, hfailed⟩
    | typeName | unknown => cases hobject
    | value => exact shows_null (by simpa [Place.isNullable] using hnullable) hfailed
  | list => exact shows_null (by simpa [Place.isNullable] using hnullable) hfailed

end Scope

namespace Opening

/-- A value is what completing an output at a path comes to in a run, with what the calls below it
answered there. -/
def Completed (o : Opening) (log : List Event) (data : Value) (path : Path) (type : TypeLiteral)
    (output : Output) (selections : List Document.Selection) (value : Value) : Prop :=
  ∃ depth location t, (o.scope.complete (o.scope.planObject depth) selections location output type
    path).Settles t ∧ t.Within log data path ∧ t.result = some value

/-- All values inside of data are such as their places ask for: what an output is completed to, and
in a list what the outputs at the same indices are completed to. -/
structure Conforms (o : Opening) (log : List Event) (data : Value) (errors : List ExecutionError) :
    Prop where
  shown : ∀ path value, data.follow? path = some value →
    ∃ place, o.place? log path = some place ∧ o.scope.Shows errors path place value
  completed : ∀ path type output selections value, data.follow? path = some value →
    o.place? log path = some (.value type (some output) selections) →
    o.Completed log data path type output selections value
  elements : ∀ path inner nonNull items selections values,
    data.follow? path = some (.list values) →
    o.place? log path = some (.value (.list inner nonNull) (some (.list items)) selections) →
    values.length = items.length ∧ ∀ (i : Nat) item value, items[i]? = some item →
      values[i]? = some value →
      o.Completed log data (path ++ [.index i]) inner item selections value

/-- What a position settles to, as far as it is shown. -/
structure Shown (o : Opening) (log : List Event) (path : Path) (s : Settled) : Prop where
  failed : s.result = none → Scope.FailedBelow (Event.errors log) path
  values : ∀ whole, s.result = some whole → ∀ rest value, whole.follow? rest = some value →
    ∃ place, o.place? log (path ++ rest) = some place ∧
      o.scope.Shows (Event.errors log) (path ++ rest) place value

variable {o : Opening} {log : List Event}

/-- A position is shown if its value is, and what is below is shown. -/
theorem Shown.intro {path : Path} {place : Place} {whole : Value} {events : List Event}
    (hplace : o.place? log path = some place)
    (hwhole : o.scope.Shows (Event.errors log) path place whole)
    (hbelow : ∀ step rest value, whole.follow? (step :: rest) = some value →
      ∃ place, o.place? log (path ++ step :: rest) = some place ∧
        o.scope.Shows (Event.errors log) (path ++ step :: rest) place value) :
    o.Shown log path ⟨some whole, events⟩ := by
  refine ⟨fun h => (by cases h), fun _ h rest value hvalue => ?_⟩
  cases h
  cases rest with
  | nil =>
    cases hvalue
    rw [List.append_nil]
    exact ⟨place, hplace, hwhole⟩
  | cons step rest => exact hbelow step rest value hvalue

theorem Shown.of_absent {path : Path} {place : Place} {events : List Event}
    (hplace : o.place? log path = some place) (hfailed : Scope.FailedBelow (Event.errors log) path)
    (h : ∀ value, place.absent = some value → o.scope.Shows (Event.errors log) path place value) :
    o.Shown log path ⟨place.absent, events⟩ := by
  cases habsent : place.absent with
  | none => exact ⟨fun _ => hfailed, fun _ h => (by cases h)⟩
  | some value =>
    refine .intro hplace (h value habsent) fun step rest other hother => ?_
    obtain ⟨-, rfl⟩ := Place.absent_eq_some habsent
    cases step <;> cases hother

theorem Shown.shows {path : Path} {place : Place} {value : Value} {events : List Event}
    (h : o.Shown log path ⟨some value, events⟩) (hplace : o.place? log path = some place) :
    o.scope.Shows (Event.errors log) path place value := by
  obtain ⟨other, hother, hshows⟩ := h.values value rfl [] value rfl
  rw [List.append_nil] at hother hshows
  cases hplace.symm.trans hother
  exact hshows

/-- The place of an element is the output at its index. -/
theorem place?_index {path : Path} {inner : TypeLiteral} {nonNull : Bool} {items : List Output}
    {selections : List Document.Selection}
    (hplace : o.place? log path =
      some (.value (.list inner nonNull) (some (.list items)) selections))
    {i : Nat} {item : Output} (hitem : items[i]? = some item) :
    o.place? log (path ++ [.index i]) = some (.value inner (some item) selections) := by
  rw [place?_concat, hplace]
  simp only [Option.bind_some, Scope.step?, hitem, Option.map_some]

/-- Parts that are shown make up a value that is shown. -/
theorem Shown.shows_composed {path : Path} {place : Place} {steps : List PathSegment}
    {whole : Value} {parts : List (Value × List Event)} (hplace : o.place? log path = some place)
    (hcomposes : o.scope.Composes place steps (parts.map (·.1)) whole)
    (hparts : List.Forall₂ (fun step part => o.Shown log (path ++ [step]) (.valued part)) steps
      parts) : o.scope.Shows (Event.errors log) path place whole := by
  have hlength : steps.length = (parts.map (·.1)).length := by
    rw [List.length_map, hparts.length_eq]
  have hpart (step : PathSegment) {value : Value} (hstep : whole.step? step = some value) :=
    hcomposes.exists_part hparts hstep
  generalize parts.map (·.1) = values at hcomposes hlength
  cases hcomposes with
  | object hobject =>
    rw [List.length_map] at hlength
    exact Scope.shows_object hobject (Scope.hasKeys_zip _ _ hlength)
  | list =>
    rw [List.length_map, List.length_range'] at hlength
    refine Scope.shows_list hlength.symm fun i item value hitem hvalue => ?_
    obtain ⟨part, -, rfl, hshown⟩ := hpart (.index i) hvalue
    exact hshown.shows (place?_index hplace hitem)

/-- Positions keep being shown, whichever way they come to their values. -/
theorem keeps_shown (o : Opening) (log : List Event) : Keeps o log (o.Shown log) where
  quiet _ _ h := ⟨h.failed, h.values⟩
  missing _ h := ⟨h.failed, h.values⟩
  leaf hplace hleaf := .intro hplace hleaf.shows fun _ _ _ h => by
    cases hleaf.eq_nil h
  failed location hplace hfailure hlog := by
    have hmem : _ ∈ Event.errors log := List.mem_filterMap.mpr ⟨_, hlog, rfl⟩
    exact .of_absent hplace (hfailure.failedBelow hmem) fun _ hvalue => hfailure.shows hmem hvalue
  composed {path place steps whole parts} hplace hcomposes hparts := by
    refine .intro hplace (Shown.shows_composed hplace hcomposes hparts)
      fun step rest value hvalue => ?_
    obtain ⟨w, hstep, hrest⟩ := Option.bind_eq_some_iff.mp hvalue
    obtain ⟨part, -, rfl, hshown⟩ := hcomposes.exists_part hparts hstep
    have hbelow := hshown.values part.1 rfl rest value hrest
    rwa [List.append_assoc] at hbelow
  broken {path place steps each} hplace hcomposes hparts hfailed := by
    obtain ⟨values, whole, hcomposes⟩ := hcomposes
    obtain ⟨s, hs, hnone⟩ := hfailed
    obtain ⟨i, hi, rfl⟩ := List.getElem_of_mem hs
    obtain ⟨e, he, hkind, hpath⟩ := (hparts.get (hparts.length_eq ▸ hi) hi).failed hnone
    have hbelow : Scope.FailedBelow (Event.errors log) path :=
      ⟨e, he, hkind, (List.prefix_append path _).trans hpath⟩
    exact .of_absent hplace hbelow fun _ hvalue => hcomposes.shows_absent hbelow hvalue

end Opening

namespace Schema

variable {s : Schema}

theorem conforms_of_reaches {r : Request} {o : Opening} (ho : s.opening r = .ok o) {depth : Nat}
    {log : List Event} {result : Option Value} (hrun : (o.agenda depth).Reaches log (.ended result)) :
    o.Conforms log (Agenda.recorded log result).1 (Agenda.recorded log result).2 := by
  have hmarks := nodup_marks ho hrun
  obtain ⟨data, hresult, hdata⟩ := exists_data_of_reaches ho hrun
  obtain ⟨t, ht, htresult, -⟩ := (o.keeps_shown log).of_reaches hrun hmarks
  have hshown (path : Path) (value : Value) (hvalue : data.follow? path = some value) :=
    ht.values data (htresult.trans hresult) path value hvalue
  rw [hdata]
  rw [hresult] at hrun
  have hcompleted {path : Path} {type : TypeLiteral} {output : Output}
      {selections : List Document.Selection} {value : Value}
      (hvalue : data.follow? path = some value)
      (hplace : o.place? log path = some (.value type (some output) selections)) :
      o.Completed log data path type output selections value := by
    obtain ⟨inner, location, u, hu, hwithin, -⟩ :=
      (Opening.traced_of_place? hmarks hrun hplace).value _ _ _ rfl
    exact ⟨inner, location, u, hu, hwithin, hwithin.shown value hvalue⟩
  refine ⟨fun path value hvalue => ?_, fun _ _ _ _ _ hvalue hplace => hcompleted hvalue hplace,
    fun path inner nonNull items selections values hvalues hplace => ⟨?_, ?_⟩⟩
  · obtain ⟨place, hplace, hshows⟩ := hshown path value hvalue
    exact ⟨place, hplace, hshows.of_subset fun _ he => Agenda.mem_recorded.mpr he⟩
  · obtain ⟨place, hother, hshows⟩ := hshown path _ hvalues
    cases hplace.symm.trans hother
    cases hshows.2 with
    | leaf hleaf => cases hleaf
    | list hlength => exact hlength
  · intro i item value hitem hvalue
    refine hcompleted ?_ (Opening.place?_index hplace hitem)
    rw [Value.follow?_concat, hvalues]
    exact hvalue

/-- Whatever the resolvers of a schema hand out, every value in the data of a response is such as the
selections and the declared type of its position ask for, and each element of a list is what the
output at its index is completed to. This holds of every run of a request to its end, and so of what
workers answer. -/
theorem data_conforms {r : Request} {o : Opening} (ho : s.opening r = .ok o) (depth : Nat) :
    (∀ log result, (o.agenda depth).Reaches log (.ended result) →
      o.Conforms log (Agenda.recorded log result).1 (Agenda.recorded log result).2) ∧
    ∀ workers outcome rest, s.executeOn? workers depth r = some (.ok outcome, rest) →
      ∃ log result, (o.agenda depth).Reaches log (.ended result) ∧
        o.Conforms log outcome.data outcome.errors := by
  have hruns (log : List Event) (result : Option Value)
      (hrun : (o.agenda depth).Reaches log (.ended result)) :
      o.Conforms log (Agenda.recorded log result).1 (Agenda.recorded log result).2 :=
    conforms_of_reaches ho hrun
  exact ⟨hruns, fun workers outcome rest h => exists_reaches_of_outcome ho hruns h⟩

theorem data_conforms_sample : Sample.schema.opening Sample.request = .ok Sample.opening ∧
    ∃ log result, (Sample.opening.agenda 2).Reaches log (.ended result) ∧
      Sample.opening.Conforms log Sample.data Sample.errors := by
  refine ⟨Sample.opening_request, ?_⟩
  obtain ⟨log, result, hrun, hrecorded⟩ :=
    Agenda.exists_reaches_of_sequential Sample.sequential_opening
  have hconforms := (Sample.schema.data_conforms Sample.opening_request 2).1 log result hrun
  rw [hrecorded] at hconforms
  exact ⟨log, result, hrun, hconforms⟩

end Schema

end Trellis
