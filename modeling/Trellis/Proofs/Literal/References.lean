import Trellis.Proofs.Literal.Resolution

/-!
What the variables of a literal decide.

Two assignments resolve a literal alike if and only if they agree on the variables it refers to. All
else stays in its place: a list keeps its length, and an object its keys in their order, repeated
ones included. Only the values that were put in may bring parts of their own.
-/

namespace Trellis

/-- What a variable stands for: null if it has no value. -/
def Variables.meaning (values : Variables) (name : String) : Literal :=
  (values.get? name).getD .null

/-- The values refer to no variables themselves. -/
def Variables.Closed (values : Variables) : Prop :=
  ∀ name value, values.get? name = some value → value.Closed

namespace Literal

variable {σ τ : String → Literal}

theorem resolve_eq (values : Variables) (l : Literal) :
    l.resolve values = l.substitute values.meaning :=
  resolve_eq_substitute (fun _ => rfl) l

theorem closed_meaning {values : Variables} (h : values.Closed) (name : String) :
    (values.meaning name).Closed := by
  unfold Variables.meaning
  cases hvalue : values.get? name with
  | none => simp [Literal.Closed, references]
  | some value => exact h name value hvalue

/-! ### What is referred to, and nothing else -/

mutual

/-- Two substitutions have the same outcome if and only if they agree on what is referred to. -/
theorem substitute_eq_iff :
    ∀ l : Literal, l.substitute σ = l.substitute τ ↔ ∀ name ∈ l.references, σ name = τ name
  | .null | .scalar _ | .enum _ => by simp [substitute, references]
  | .reference name => by simp [substitute, references]
  | .list items => by simp [substitute, references, substituteItems_eq_iff items]
  | .object fields => by simp [substitute, references, substituteFields_eq_iff fields]

theorem substituteItems_eq_iff : ∀ items : List Literal,
    substituteItems σ items = substituteItems τ items ↔
      ∀ name ∈ referencesOfItems items, σ name = τ name
  | [] => by simp [substituteItems, referencesOfItems]
  | item :: items => by
    simp [substituteItems, referencesOfItems, substitute_eq_iff item, substituteItems_eq_iff items,
      or_imp, forall_and]

theorem substituteFields_eq_iff : ∀ fields : List (String × Literal),
    substituteFields σ fields = substituteFields τ fields ↔
      ∀ name ∈ referencesOfFields fields, σ name = τ name
  | [] => by simp [substituteFields, referencesOfFields]
  | (key, value) :: fields => by
    simp [substituteFields, referencesOfFields, substitute_eq_iff value,
      substituteFields_eq_iff fields, or_imp, forall_and]

end

/-! ### Parts and their places -/

theorem substituteItems_eq_map (σ : String → Literal) (items : List Literal) :
    substituteItems σ items = items.map (substitute σ) := by
  induction items with
  | nil => rw [substituteItems, List.map_nil]
  | cons item items ih => rw [substituteItems, List.map_cons, ih]

theorem substituteFields_eq_map (σ : String → Literal) (fields : List (String × Literal)) :
    substituteFields σ fields = fields.map fun field => (field.1, field.2.substitute σ) := by
  induction fields with
  | nil => rw [substituteFields, List.map_nil]
  | cons field fields ih => rw [substituteFields, List.map_cons, ih]

/-- The part with a number: an element of a list, or a field of an object whether or not its key is
repeated. -/
def part? : Literal → Nat → Option Literal
  | .list items, i => items[i]?
  | .object fields, i => fields[i]?.map (·.2)
  | _, _ => none

def node? (l : Literal) (way : List Nat) : Option Literal := way.foldlM part? l

theorem node?_cons (l : Literal) (i : Nat) (way : List Nat) :
    l.node? (i :: way) = (l.part? i).bind (·.node? way) := rfl

theorem part?_substitute {l : Literal} (h : l.isReference = false) (i : Nat) :
    (l.substitute σ).part? i = (l.part? i).map (substitute σ) := by
  cases l with
  | reference name => cases h
  | list items => simp [substitute, part?, substituteItems_eq_map]
  | object fields =>
    simp only [substitute, part?, substituteFields_eq_map, List.getElem?_map, Option.map_map]
    rfl
  | _ => simp [substitute, part?]

theorem isReference_eq_false_of_part? {l part : Literal} {i : Nat} (h : l.part? i = some part) :
    l.isReference = false := by
  cases l with
  | reference name => cases h
  | _ => rfl

theorem node?_substitute {l part : Literal} {way : List Nat} (h : l.node? way = some part) :
    (l.substitute σ).node? way = some (part.substitute σ) := by
  induction way generalizing l with
  | nil =>
    cases h
    rfl
  | cons i way ih =>
    rw [node?_cons] at h
    obtain ⟨next, hnext, hway⟩ := Option.bind_eq_some_iff.mp h
    rw [node?_cons, part?_substitute (isReference_eq_false_of_part? hnext), hnext, Option.map_some,
      Option.bind_some]
    exact ih hway

/-- What is found after variables were replaced was there before, or it belongs to a value that was
put in. -/
theorem node?_of_substitute {l part : Literal} {way : List Nat}
    (h : (l.substitute σ).node? way = some part) :
    (∃ old, l.node? way = some old ∧ part = old.substitute σ) ∨
      ∃ first last name, way = first ++ last ∧ l.node? first = some (.reference name) ∧
        (σ name).node? last = some part := by
  induction way generalizing l with
  | nil =>
    cases h
    exact .inl ⟨l, rfl, rfl⟩
  | cons i way ih =>
    by_cases hl : l.isReference
    · cases l with
      | reference name => exact .inr ⟨[], i :: way, name, rfl, rfl, by rwa [substitute] at h⟩
      | _ => cases hl
    · rw [node?_cons, part?_substitute (by simpa using hl)] at h
      obtain ⟨replaced, hreplaced, hway⟩ := Option.bind_eq_some_iff.mp h
      obtain ⟨next, hnext, rfl⟩ := Option.map_eq_some_iff.mp hreplaced
      rcases ih hway with ⟨old, hold, hpart⟩ | ⟨first, last, name, rfl, hname, hlast⟩
      · exact .inl ⟨old, by rw [node?_cons, hnext, Option.bind_some, hold], hpart⟩
      · exact .inr ⟨i :: first, last, name, rfl, by rw [node?_cons, hnext, Option.bind_some, hname],
          hlast⟩

/-- A literal has the outline of another one, but for what stands where that has variables: lists
have as many elements, objects the same keys in the same order, leaves are equal, and nothing comes
in addition. -/
structure Outlines (l filled : Literal) : Prop where
  list : ∀ way items, l.node? way = some (.list items) →
    ∃ others, filled.node? way = some (.list others) ∧ others.length = items.length
  object : ∀ way fields, l.node? way = some (.object fields) →
    ∃ others, filled.node? way = some (.object others) ∧ Entries.keys others = Entries.keys fields
  null : ∀ way, l.node? way = some .null → filled.node? way = some .null
  scalar : ∀ way s, l.node? way = some (.scalar s) → filled.node? way = some (.scalar s)
  enum : ∀ way name, l.node? way = some (.enum name) → filled.node? way = some (.enum name)
  nothingElse : ∀ way, (filled.node? way).isSome → (l.node? way).isSome ∨
    ∃ first last name, way = first ++ last ∧ l.node? first = some (.reference name)

theorem outlines_substitute (σ : String → Literal) (l : Literal) : l.Outlines (l.substitute σ) where
  list way items h := by
    refine ⟨substituteItems σ items, ?_, ?_⟩
    · rw [node?_substitute h, substitute]
    · rw [substituteItems_eq_map, List.length_map]
  object way fields h := by
    refine ⟨substituteFields σ fields, ?_, ?_⟩
    · rw [node?_substitute h, substitute]
    · simp [substituteFields_eq_map, Entries.keys]
  null way h := by rw [node?_substitute h, substitute]
  scalar way s h := by rw [node?_substitute h, substitute]
  enum way name h := by rw [node?_substitute h, substitute]
  nothingElse way h := by
    obtain ⟨part, hpart⟩ := Option.isSome_iff_exists.mp h
    rcases node?_of_substitute hpart with ⟨old, hold, -⟩ | ⟨first, last, name, hway, hname, -⟩
    · exact .inl (by simp [hold])
    · exact .inr ⟨first, last, name, hway, hname⟩

/-- Resolving a literal depends on the variables it refers to and on nothing else.

* Assignments that agree on these variables have the same outcome, and no others do, except that a
  variable without a value is as good as null.
* A literal that refers to no variables stays as it is.
* Values without variables leave no variable behind, and nothing is left for a second time.
* Outside the values that are put in, all keeps its place. -/
theorem references_resolved (l : Literal) (values : Variables) :
    (∀ others : Variables, (∀ name ∈ l.references, values.get? name = others.get? name) →
      l.resolve values = l.resolve others) ∧
    (∀ others : Variables, l.resolve values = l.resolve others ↔
      ∀ name ∈ l.references, values.meaning name = others.meaning name) ∧
    (l.references = [] → l.resolve values = l) ∧
    (values.Closed → (l.resolve values).references = [] ∧
      ∀ others, (l.resolve values).resolve others = l.resolve values) ∧
    l.Outlines (l.resolve values) := by
  have hiff (others : Variables) : l.resolve values = l.resolve others ↔
      ∀ name ∈ l.references, values.meaning name = others.meaning name := by
    rw [resolve_eq, resolve_eq, substitute_eq_iff]
  refine ⟨fun others h => ?_, hiff, fun h => Closed.resolve_eq h, fun h => ?_, ?_⟩
  · rw [hiff]
    intro name hname
    rw [Variables.meaning, Variables.meaning, h name hname]
  · have hclosed : (l.resolve values).Closed := by
      rw [resolve_eq]
      exact closed_substitute (closed_meaning h) l
    exact ⟨hclosed, fun others => hclosed.resolve_eq⟩
  · rw [resolve_eq]
    exact outlines_substitute values.meaning l

/-- A query's argument with one variable that has a value, twice under one key, and one that has
none. -/
def template : Literal :=
  .object [("size", .reference "size"), ("tags", .list [.enum "RED", .reference "none"]),
    ("size", .list [.reference "size"])]

theorem references_resolved_sample :
    let values : Variables := [("size", .scalar (.int 2)), ("other", .reference "size")]
    let others : Variables := [("size", .scalar (.int 2))]
    let resolved : Literal := .object [("size", .scalar (.int 2)),
      ("tags", .list [.enum "RED", .null]), ("size", .list [.scalar (.int 2)])]
    template.resolve others = resolved ∧ template.resolve values = template.resolve others ∧
      template.resolve others = template.resolve (("none", .null) :: others) ∧
      resolved.resolve values = resolved ∧ resolved.references = [] ∧
      (template.resolve others).resolve values = template.resolve others ∧
      template.Outlines (template.resolve others) := by
  intro values others resolved
  have hreferences : template.references = ["size", "none", "size"] := rfl
  have hclosed : others.Closed := by
    intro name value h
    by_cases hname : name = "size"
    · subst hname
      cases h
      rfl
    · simp [others, Variables.get?, List.lookup_cons, beq_false_of_ne hname] at h
  have hresolved : template.resolve others = resolved := rfl
  have hvalues := references_resolved template values
  obtain ⟨-, hiff, -, honce, houtline⟩ := references_resolved template others
  refine ⟨hresolved, hvalues.1 others fun name hname => ?_, (hiff _).mpr fun name hname => ?_,
    (references_resolved resolved values).2.2.1 rfl, (honce hclosed).1, (honce hclosed).2 values, houtline⟩
  all_goals
    rw [hreferences] at hname
    simp only [List.mem_cons, List.not_mem_nil, or_false] at hname
    rcases hname with rfl | rfl | rfl <;> rfl

end Literal

end Trellis
