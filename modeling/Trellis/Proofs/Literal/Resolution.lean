import Trellis.Literal.Basic

/-!
Variables in literals.

Putting values in the place of variables is substitution. A literal without variables is not changed
by it, and substituting such literals leaves no variable behind, so what was resolved once is not
changed by being resolved again.
-/

namespace Trellis.Literal

mutual

/-- The literal with every variable replaced by what is given for its name. -/
def substitute (σ : String → Literal) : Literal → Literal
  | .reference name => σ name
  | .list items => .list (substituteItems σ items)
  | .object fields => .object (substituteFields σ fields)
  | .null => .null
  | .scalar s => .scalar s
  | .enum name => .enum name

def substituteItems (σ : String → Literal) : List Literal → List Literal
  | [] => []
  | item :: items => substitute σ item :: substituteItems σ items

def substituteFields (σ : String → Literal) : List (String × Literal) → List (String × Literal)
  | [] => []
  | (key, value) :: fields => (key, substitute σ value) :: substituteFields σ fields

end

def Closed (l : Literal) : Prop := l.references = []

variable {σ : String → Literal} {values : Variables}

mutual

/-- Resolving is substituting the values of the variables. -/
theorem resolve_eq_substitute (h : ∀ name, (values.get? name).getD .null = σ name) :
    ∀ l : Literal, l.resolve values = l.substitute σ
  | .reference name => by rw [resolve, substitute, h name]
  | .list items => by rw [resolve, substitute, resolveItems_eq_substituteItems h items]
  | .object fields => by rw [resolve, substitute, resolveFields_eq_substituteFields h fields]
  | .null | .scalar _ | .enum _ => by rw [resolve, substitute]

theorem resolveItems_eq_substituteItems (h : ∀ name, (values.get? name).getD .null = σ name) :
    ∀ items : List Literal, resolveItems values items = substituteItems σ items
  | [] => by rw [resolveItems, substituteItems]
  | item :: items => by
    rw [resolveItems, substituteItems, resolve_eq_substitute h item,
      resolveItems_eq_substituteItems h items]

theorem resolveFields_eq_substituteFields (h : ∀ name, (values.get? name).getD .null = σ name) :
    ∀ fields : List (String × Literal), resolveFields values fields = substituteFields σ fields
  | [] => by rw [resolveFields, substituteFields]
  | (key, value) :: fields => by
    rw [resolveFields, substituteFields, resolve_eq_substitute h value,
      resolveFields_eq_substituteFields h fields]

end

mutual

theorem Closed.substitute_eq : ∀ {l : Literal}, l.Closed → l.substitute σ = l
  | .reference name, h => by simp [Closed, references] at h
  | .list items, h => by
    rw [Closed, references] at h
    rw [substitute, substituteItems_of_closed h]
  | .object fields, h => by
    rw [Closed, references] at h
    rw [substitute, substituteFields_of_closed h]
  | .null, _ | .scalar _, _ | .enum _, _ => by rw [substitute]

theorem substituteItems_of_closed :
    ∀ {items : List Literal}, referencesOfItems items = [] → substituteItems σ items = items
  | [], _ => by rw [substituteItems]
  | item :: items, h => by
    obtain ⟨hitem, hitems⟩ := List.append_eq_nil_iff.mp (by simpa only [referencesOfItems] using h)
    rw [substituteItems, Closed.substitute_eq hitem, substituteItems_of_closed hitems]

theorem substituteFields_of_closed :
    ∀ {fields : List (String × Literal)}, referencesOfFields fields = [] →
      substituteFields σ fields = fields
  | [], _ => by rw [substituteFields]
  | (key, value) :: fields, h => by
    obtain ⟨hvalue, hfields⟩ :=
      List.append_eq_nil_iff.mp (by simpa only [referencesOfFields] using h)
    rw [substituteFields, Closed.substitute_eq hvalue, substituteFields_of_closed hfields]

end

theorem Closed.resolve_eq {l : Literal} (h : l.Closed) : l.resolve values = l :=
  (resolve_eq_substitute (fun _ => rfl) l).trans h.substitute_eq

mutual

theorem closed_substitute (h : ∀ name, (σ name).Closed) : ∀ l : Literal, (l.substitute σ).Closed
  | .reference name => by
    rw [substitute]
    exact h name
  | .list items => by rw [substitute, Closed, references, closed_substituteItems h items]
  | .object fields => by rw [substitute, Closed, references, closed_substituteFields h fields]
  | .null | .scalar _ | .enum _ => by simp [substitute, Closed, references]

theorem closed_substituteItems (h : ∀ name, (σ name).Closed) :
    ∀ items : List Literal, referencesOfItems (substituteItems σ items) = []
  | [] => by rw [substituteItems, referencesOfItems]
  | item :: items => by
    have hitem : (item.substitute σ).references = [] := closed_substitute h item
    rw [substituteItems, referencesOfItems, hitem, closed_substituteItems h items, List.append_nil]

theorem closed_substituteFields (h : ∀ name, (σ name).Closed) :
    ∀ fields : List (String × Literal), referencesOfFields (substituteFields σ fields) = []
  | [] => by rw [substituteFields, referencesOfFields]
  | (key, value) :: fields => by
    have hvalue : (value.substitute σ).references = [] := closed_substitute h value
    rw [substituteFields, referencesOfFields, hvalue, closed_substituteFields h fields,
      List.append_nil]

end

/-- Once values without variables were put in the place of variables, nothing is left to resolve. -/
theorem resolve_substitute (h : ∀ name, (σ name).Closed)
    (hvalues : ∀ name, (values.get? name).getD .null = σ name) (others : Variables) (l : Literal) :
    (l.substitute σ).resolve others = l.resolve values := by
  rw [(closed_substitute h l).resolve_eq, resolve_eq_substitute hvalues]

end Trellis.Literal
