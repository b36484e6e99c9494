import Trellis.Proofs.Execution.Assembling
import Trellis.Proofs.Execution.Laying

/-!
Places of a response.

What a position of a response stands for follows from the way to it: the root is an object, a
response key leads to the field that is collected under it, and an index to an element of what was
handed out. Only what the resolvers answered enters into it, not what becomes of the answers. What
may stand at a place is given by three relations: leaves, failures and what parts make up.
-/

namespace Trellis

open Document

/-- Keys that are zipped with values lead to the values at their indices. -/
theorem Entries.lookup_zip {α : Type} {keys : List String} {values : List α} (h : keys.Nodup)
    (hlength : keys.length = values.length) {key : String} {value : α} :
    (keys.zip values).lookup key = some value ↔
      ∃ i : Nat, keys[i]? = some key ∧ values[i]? = some value := by
  induction keys generalizing values with
  | nil => simp
  | cons k keys ih =>
    cases values with
    | nil => simp at hlength
    | cons v values =>
      obtain ⟨hnew, hrest⟩ := List.nodup_cons.mp h
      rw [List.zip_cons_cons, List.lookup_cons]
      by_cases hk : key = k
      · subst hk
        simp only [beq_self_eq_true]
        constructor
        · exact fun hv => ⟨0, rfl, hv⟩
        · rintro ⟨i, hi, hv⟩
          cases i with
          | zero => exact hv
          | succ i =>
            rw [List.getElem?_cons_succ] at hi
            exact absurd (List.mem_of_getElem? hi) hnew
      · rw [beq_false_of_ne hk]
        dsimp only
        rw [ih hrest (Nat.succ.inj hlength)]
        constructor
        · rintro ⟨i, hi, hv⟩
          exact ⟨i + 1, hi, hv⟩
        · rintro ⟨i, hi, hv⟩
          cases i with
          | zero => exact absurd (Option.some.inj hi).symm hk
          | succ i => exact ⟨i, hi, hv⟩

namespace Value

/-- The part of a value in one step. -/
def step? (v : Value) : PathSegment → Option Value
  | .field key => v.object?.bind (Object.get? · key)
  | .index i => v.list?.bind (·[i]?)

/-- The part of a value at a path. -/
def follow? (v : Value) (path : Path) : Option Value := path.foldlM step? v

@[simp] theorem follow?_nil (v : Value) : v.follow? [] = some v := rfl

@[simp] theorem follow?_cons (v : Value) (step : PathSegment) (path : Path) :
    v.follow? (step :: path) = (v.step? step).bind (·.follow? path) := rfl

end Value

/-- What the resolver of the field at a path answered. -/
def Event.answer? (log : List Event) (path : Path) : Option (Except FieldError Output) :=
  log.findSome? fun
    | .answered p result => if p = path then some result else none
    | _ => none

/-- As nothing is answered twice at one path, every answer is the one for its path. -/
theorem Event.answer?_of_mem {log : List Event} (h : (Event.marks log).Nodup) {path : Path}
    {result : Except FieldError Output} (hmem : Event.answered path result ∈ log) :
    answer? log path = some result := by
  induction log with
  | nil => cases hmem
  | cons event log ih =>
    obtain ⟨hnew, hrest⟩ := List.nodup_cons.mp h
    rcases List.mem_cons.mp hmem with rfl | hin
    · simp [answer?]
    · have htail := ih hrest hin
      rw [answer?] at htail
      cases event with
      | reported | transformed => rw [answer?, List.findSome?_cons]; exact htail
      | answered p other =>
        have hne : p ≠ path := by
          rintro rfl
          exact hnew (List.mem_map.mpr ⟨_, hin, rfl⟩)
        simp only [answer?, List.findSome?_cons, if_neg hne]
        exact htail

/-- What a position of a response stands for: the root, the name of an object, an unknown field, or
what a field or an element of a list is given to show; that is nothing if the field failed before. -/
inductive Place where
  | root (type : ObjectType) (selections : List Selection)
  | typeName (object : ObjectType)
  | unknown (object : ObjectType) (name : String)
  | value (type : TypeLiteral) (output : Option Output) (selections : List Selection)

namespace Place

/-- Whether null may stand at a place. -/
def isNullable : Place → Bool
  | .root .. | .unknown .. => true
  | .typeName _ => false
  | .value type .. => !type.isNonNull

/-- What stands at a place that failed: null, or nothing where null may not stand. -/
def absent (place : Place) : Option Value := if place.isNullable then some .null else none

/-- Whether null was handed out for a place. -/
def IsNull : Place → Prop
  | .value _ output _ => output = some .null
  | _ => False

theorem absent_eq_some {place : Place} {value : Value} (h : place.absent = some value) :
    place.isNullable = true ∧ value = .null := by
  rw [absent] at h
  split at h
  · rename_i hnullable
    exact ⟨hnullable, (Option.some.inj h).symm⟩
  · cases h

theorem absent_value (type : TypeLiteral) (output : Option Output) (selections : List Selection) :
    (Place.value type output selections).absent = nullFor type := by
  rw [absent, isNullable, nullFor]
  cases type.isNonNull <;> rfl

end Place

namespace Scope

variable (scope : Scope)

/-- The object that values of a host type are completed as, at positions of a named type. -/
def objectFor? (name : String) (host : HostType) : Option ObjectType :=
  match scope.graph.type? name with
  | some (.object object) => some object
  | some (.union union) =>
    (union.member? host).bind fun m => (scope.graph.type? m).bind TypeNode.object?
  | _ => none

/-- The object at a place with its selections, if it is one. -/
def objectAt? : Place → Option (ObjectType × List Selection)
  | .root type selections => some (type, selections)
  | .value (.named name _) (some (.single host _)) selections =>
    (scope.objectFor? name host).map fun object => (object, selections)
  | _ => none

/-- What transformations make of an output, if none of them fails. -/
def transformed? (provided : List (String × Literal)) :
    List Transformation → Output → Option Output
  | [], output => some output
  | t :: rest, output =>
    match t.transform output provided scope.graph.scalarOf? scope.context with
    | .ok output => transformed? provided rest output
    | .error _ => none

/-- What a field is given to show: what its resolver and all its transformations hand out. -/
def outputOf? (log : List Event) (path : Path) (object : ObjectType) (property : Property)
    (group : FieldGroup) : Option Output :=
  match scope.argumentsOf object property group.first.arguments, Event.answer? log path with
  | .ok arguments, some (.ok output) =>
    scope.transformed? (Entries.ofPairs arguments) property.transformations output
  | _, _ => none

/-- The place of the fields under one response key. -/
def fieldPlace (log : List Event) (path : Path) (object : ObjectType) (group : FieldGroup) :
    Place :=
  if group.first.name = "__typename" then .typeName object
  else
    match object.property? group.first.name with
    | some property =>
      .value property.type (scope.outputOf? log path object property group) group.selections
    | none => .unknown object group.first.name

/-- The place one step below a place. -/
def step? (log : List Event) (path : Path) (place : Place) : PathSegment → Option Place
  | .field key =>
    (scope.objectAt? place).bind fun (object, selections) =>
      ((scope.collect object selections).groups.find? (·.key == key)).map
        (scope.fieldPlace log (path ++ [.field key]) object)
  | .index i =>
    match place with
    | .value (.list inner _) (some (.list items)) selections =>
      items[i]?.map fun item => .value inner (some item) selections
    | _ => none

/-- The place at the end of a way that starts at a place with a path. -/
def walk? (log : List Event) : Path → Place → Path → Option Place
  | _, place, [] => some place
  | path, place, step :: rest =>
    (scope.step? log path place step).bind fun next => walk? log (path ++ [step]) next rest

theorem walk?_append (log : List Event) (path : Path) (place : Place) (first second : Path) :
    scope.walk? log path place (first ++ second) = (scope.walk? log path place first).bind fun next =>
      scope.walk? log (path ++ first) next second := by
  induction first generalizing path place with
  | nil => simp [walk?]
  | cons step first ih =>
    simp only [List.cons_append, walk?, ih, Option.bind_assoc, List.append_assoc, List.nil_append]

/-- A value without parts may stand at a place. -/
inductive Leaf : Place → Value → Prop
  | typeName (object : ObjectType) : Leaf (.typeName object) (.string object.name)
  | null {type : TypeLiteral} {selections : List Selection} : type.isNonNull = false →
    Leaf (.value type (some .null) selections) .null
  | scalar {name : String} {nonNull : Bool} {host : HostType} {value : HostValue}
    {selections : List Selection} {type : ScalarType} {raw : Scalar} :
    scope.graph.type? name = some (.scalar type) → type.coercion.write ⟨host, value⟩ = .ok raw →
    Leaf (.value (.named name nonNull) (some (.single host value)) selections) (.scalar raw)
  | enumeration {name : String} {nonNull : Bool} {host : HostType} {value : HostValue}
    {selections : List Selection} {type : EnumType} {label : String} :
    scope.graph.type? name = some (.enumeration type) → type.label? ⟨host, value⟩ = some label →
    Leaf (.value (.named name nonNull) (some (.single host value)) selections) (.string label)

/-- A place may fail with an error. -/
inductive Failure : Place → FieldError → ErrorKind → Prop
  | unknown (object : ObjectType) (name : String) : Failure (.unknown object name)
    (.ofMessage s!"Unknown field \"{name}\" on type \"{object.name}\"") .unknownField
  | arguments {object : ObjectType} {property : Property} {given : List (String × Literal)}
    {output : Option Output} {selections : List Selection} {e : FieldError} :
    scope.argumentsOf object property given = .error e →
    Failure (.value property.type output selections) e .unknownField
  | call (type : TypeLiteral) (output : Option Output) (selections : List Selection)
    (e : CallError) : Failure (.value type output selections) e.error e.kind
  | null {type : TypeLiteral} {selections : List Selection} : type.isNonNull = true →
    Failure (.value type (some .null) selections)
      (.ofMessage "Cannot return null for non-nullable field") .nullViolation
  | list (name : String) (nonNull : Bool) (items : List Output) (selections : List Selection) :
    Failure (.value (.named name nonNull) (some (.list items)) selections)
      (wrongShape (.named name nonNull) "a list") .coercion
  | single (inner : TypeLiteral) (nonNull : Bool) (host : HostType) (value : HostValue)
    (selections : List Selection) :
    Failure (.value (.list inner nonNull) (some (.single host value)) selections)
      (wrongShape (.list inner nonNull) "a single value") .coercion
  | scalar {name : String} {nonNull : Bool} {host : HostType} {value : HostValue}
    {selections : List Selection} {type : ScalarType} {e : FieldError} :
    scope.graph.type? name = some (.scalar type) → type.coercion.write ⟨host, value⟩ = .error e →
    Failure (.value (.named name nonNull) (some (.single host value)) selections) e .coercion
  | enumeration {name : String} {nonNull : Bool} {host : HostType} {value : HostValue}
    {selections : List Selection} {type : EnumType} :
    scope.graph.type? name = some (.enumeration type) → type.label? ⟨host, value⟩ = none →
    Failure (.value (.named name nonNull) (some (.single host value)) selections)
      (.ofMessage s!"Value of type {host.name} is not a value of enum \"{name}\"") .coercion
  | union {name : String} {nonNull : Bool} {host : HostType} {value : HostValue}
    {selections : List Selection} {type : UnionType} :
    scope.graph.type? name = some (.union type) → scope.objectFor? name host = none →
    Failure (.value (.named name nonNull) (some (.single host value)) selections)
      (.ofMessage s!"Value of type {host.name} is not a member of union \"{name}\"") .coercion
  | unresolved {name : String} {nonNull : Bool} {host : HostType} {value : HostValue}
    {selections : List Selection} :
    (∀ node, scope.graph.type? name = some node → ∃ type, node = .inputObject type) →
    Failure (.value (.named name nonNull) (some (.single host value)) selections)
      (.ofMessage s!"Type \"{name}\" cannot be resolved") .coercion

/-- A value that is an object of a schema has an object type. -/
theorem exists_type?_of_objectFor? {name : String} {host : HostType} {object : ObjectType}
    (h : scope.objectFor? name host = some object) :
    ∃ owner, scope.graph.type? owner = some (.object object) := by
  rw [objectFor?] at h
  split at h
  · rename_i htype
    cases h
    exact ⟨name, htype⟩
  · obtain ⟨member, -, hmember⟩ := Option.bind_eq_some_iff.mp h
    obtain ⟨node, hnode, hobject⟩ := Option.bind_eq_some_iff.mp hmember
    cases node <;> cases hobject
    exact ⟨member, hnode⟩
  · cases h

/-- A single value is a leaf, is laid out as an object, or fails. -/
theorem completeSingle_cases (plan : ObjectPlanner) (selections : List Selection)
    (location : Position) (name : String) (nonNull : Bool) (host : HostType) (value : HostValue)
    (path : Path) {laid : Plan}
    (h : scope.completeSingle plan selections location (.named name nonNull) name ⟨host, value⟩ path
      = laid) :
    (∃ v, laid = .done (some v) ∧
      scope.Leaf (.value (.named name nonNull) (some (.single host value)) selections) v) ∨
    (∃ object, laid = plan object (some ⟨host, value⟩) selections path (!nonNull) ∧
      scope.objectFor? name host = some object) ∨
    ∃ e kind, laid = .fail (.named name nonNull) location path e kind ∧
      scope.Failure (.value (.named name nonNull) (some (.single host value)) selections) e kind := by
  rw [completeSingle] at h
  dsimp only at h
  split at h
  · rename_i scalar htype
    split at h
    · rename_i raw hwrite
      exact .inl ⟨_, h.symm, .scalar htype hwrite⟩
    · rename_i e hwrite
      exact .inr (.inr ⟨_, _, h.symm, .scalar htype hwrite⟩)
  · rename_i enumeration htype
    split at h
    · rename_i label hlabel
      exact .inl ⟨_, h.symm, .enumeration htype hlabel⟩
    · rename_i hlabel
      exact .inr (.inr ⟨_, _, h.symm, .enumeration htype hlabel⟩)
  · rename_i object htype
    refine .inr (.inl ⟨object, h.symm, ?_⟩)
    rw [objectFor?, htype]
  · rename_i union htype
    have hfor : scope.objectFor? name host = (union.member? host).bind fun m =>
        (scope.graph.type? m).bind TypeNode.object? := by
      rw [objectFor?, htype]
    split at h
    · rename_i object hmember
      exact .inr (.inl ⟨object, h.symm, hfor.trans hmember⟩)
    · rename_i hmember
      exact .inr (.inr ⟨_, _, h.symm, .union htype (hfor.trans hmember)⟩)
  · rename_i type htype
    refine .inr (.inr ⟨_, _, h.symm, .unresolved fun node hnode => ⟨type, ?_⟩⟩)
    exact Option.some.inj (hnode.symm.trans htype)
  · rename_i htype
    refine .inr (.inr ⟨_, _, h.symm, .unresolved fun node hnode => ?_⟩)
    cases htype.symm.trans hnode

/-- Whether an error is that of a spread of an unknown fragment. -/
def IsMissingFragment (e : ExecutionError) : Prop :=
  ∃ name, e = missingFragment e.path (e.location, name)

variable {scope}

theorem Leaf.eq_nil {place : Place} {value : Value} (h : scope.Leaf place value) {path : Path}
    {w : Value} (hw : value.follow? path = some w) : path = [] := by
  cases path with
  | nil => rfl
  | cons step path => cases h <;> cases step <;> cases hw

theorem argumentsOf_error {object : ObjectType} {property : Property}
    {given : List (String × Literal)} {e : FieldError}
    (h : scope.argumentsOf object property given = .error e) :
    ∃ name : String, e = .ofMessage (s!"Unknown argument \"{name}\" on field " ++
      s!"\"{property.name}\" of type \"{object.name}\"") := by
  induction given with
  | nil => cases h
  | cons argument given ih =>
    rcases argument with ⟨name, value⟩
    rw [argumentsOf] at h
    split at h
    · cases h
      exact ⟨name, rfl⟩
    · cases hrest : scope.argumentsOf object property given with
      | error other =>
        rw [hrest] at h
        cases h
        exact ih hrest
      | ok arguments =>
        rw [hrest] at h
        cases h

/-- No failure of a place looks like the error of an unknown fragment. -/
theorem Failure.not_missingFragment {place : Place} {e : FieldError} {kind : ErrorKind}
    (h : scope.Failure place e kind) (location : Position) (path : Path) :
    ¬ IsMissingFragment ⟨location, path, e, kind⟩ := by
  rintro ⟨fragment, heq⟩
  have hmessage : e.message = "Unknown fragment \"" ++ fragment ++ "\"" :=
    congrArg (·.error.message) heq
  have hkind : kind = .unknownField := congrArg (·.kind) heq
  have hstart := congrArg (fun message => message.toList.take 11) hmessage
  cases h with
  | unknown object name =>
    change (("Unknown field \"" ++ name ++ "\" on type \"" ++ object.name ++ "\"").toList.take 11) =
      _ at hstart
    simp at hstart
  | @arguments object property _ _ _ _ harguments =>
    obtain ⟨name, rfl⟩ := argumentsOf_error harguments
    change (("Unknown argument \"" ++ name ++ "\" on field " ++ ("\"" ++ property.name ++
      "\" of type \"" ++ object.name ++ "\"")).toList.take 11) = _ at hstart
    simp at hstart
  | call _ _ _ e => cases e <;> cases hkind
  | null | list | single | scalar | enumeration | union | unresolved => cases hkind

variable (scope)

/-- Values one step below a place make up the value of the place. -/
inductive Composes : Place → List PathSegment → List Value → Value → Prop
  | object {place : Place} {object : ObjectType} {selections : List Selection}
    {values : List Value} : scope.objectAt? place = some (object, selections) →
    Composes place ((scope.collect object selections).keys.map .field) values
      (.object ((scope.collect object selections).keys.zip values))
  | list {inner : TypeLiteral} {nonNull : Bool} {items : List Output}
    {selections : List Selection} {values : List Value} :
    Composes (.value (.list inner nonNull) (some (.list items)) selections)
      ((List.range' 0 items.length).map .index) values (.list values)

variable {scope}

/-- The parts of a value that is made up are the values at the ends of the steps. -/
theorem Composes.step?_eq_some_iff {place : Place} {steps : List PathSegment} {values : List Value}
    {value : Value} (h : scope.Composes place steps values value)
    (hlength : steps.length = values.length) {step : PathSegment} {w : Value} :
    value.step? step = some w ↔ ∃ i : Nat, steps[i]? = some step ∧ values[i]? = some w := by
  cases h with
  | @object _ o selections _ _ =>
    have hkeys := (scope.tidy_collect o selections).keys
    rw [List.length_map] at hlength
    cases step with
    | field key =>
      change ((scope.collect o selections).keys.zip values).lookup key = some w ↔ _
      rw [Entries.lookup_zip hkeys hlength]
      simp [List.getElem?_map]
    | index i => simp [Value.step?, Value.list?]
  | list =>
    cases step with
    | field key => simp [Value.step?, Value.object?]
    | index i =>
      simp only [List.length_map, List.length_range'] at hlength
      simp only [Value.step?, Value.list?, Option.bind_some]
      constructor
      · intro hw
        obtain ⟨hi, -⟩ := List.getElem?_eq_some_iff.mp hw
        exact ⟨i, by simp [hlength, hi], hw⟩
      · rintro ⟨j, hstep, hw⟩
        obtain ⟨hj, -⟩ := List.getElem?_eq_some_iff.mp hw
        simp only [List.getElem?_map, List.getElem?_range' (hlength ▸ hj)] at hstep
        simp at hstep
        exact hstep ▸ hw

section Parts

variable {place : Place} {steps : List PathSegment} {value : Value}
  {parts : List (Value × List Event)} {R : PathSegment → Value × List Event → Prop}

theorem Composes.exists_part (h : scope.Composes place steps (parts.map (·.1)) value)
    (hparts : List.Forall₂ R steps parts) {step : PathSegment} {w : Value}
    (hw : value.step? step = some w) : ∃ part ∈ parts, part.1 = w ∧ R step part := by
  have hlength : steps.length = (parts.map (·.1)).length := by
    rw [List.length_map, hparts.length_eq]
  obtain ⟨i, hstep, hvalue⟩ := (h.step?_eq_some_iff hlength).mp hw
  rw [List.getElem?_map, Option.map_eq_some_iff] at hvalue
  obtain ⟨part, hpart, rfl⟩ := hvalue
  obtain ⟨hi, rfl⟩ := List.getElem?_eq_some_iff.mp hpart
  obtain ⟨hi', rfl⟩ := List.getElem?_eq_some_iff.mp hstep
  exact ⟨_, List.getElem_mem hi, rfl, hparts.get hi' hi⟩

theorem Composes.exists_step (h : scope.Composes place steps (parts.map (·.1)) value)
    (hparts : List.Forall₂ R steps parts) {part : Value × List Event} (hpart : part ∈ parts) :
    ∃ step, value.step? step = some part.1 ∧ R step part := by
  have hlength : steps.length = (parts.map (·.1)).length := by
    rw [List.length_map, hparts.length_eq]
  obtain ⟨i, hi, rfl⟩ := List.getElem_of_mem hpart
  have hi' : i < steps.length := hparts.length_eq ▸ hi
  refine ⟨steps[i], (h.step?_eq_some_iff hlength).mpr ⟨i, ?_, ?_⟩, hparts.get hi' hi⟩
  · exact List.getElem?_eq_getElem hi'
  · rw [List.getElem?_map, List.getElem?_eq_getElem hi, Option.map_some]

theorem Composes.ne_null {values : List Value} (h : scope.Composes place steps values value) :
    value ≠ .null := by
  cases h <;> exact Value.noConfusion

end Parts

end Scope

namespace Opening

/-- The place at a path of the response to a request, as far as the resolvers answered. -/
def place? (o : Opening) (log : List Event) (path : Path) : Option Place :=
  o.scope.walk? log [] (.root o.root o.operation.selections) path

theorem place?_nil (o : Opening) (log : List Event) :
    o.place? log [] = some (.root o.root o.operation.selections) := rfl

theorem place?_concat (o : Opening) (log : List Event) (path : Path) (step : PathSegment) :
    o.place? log (path ++ [step]) = (o.place? log path).bind fun place =>
      o.scope.step? log path place step := by
  simp [place?, Scope.walk?_append, Scope.walk?]

end Opening

end Trellis
