import Trellis.Proofs.Literal.Written

/-!
Bounds of the grammar.

The readers of the grammar take bounds on the depth of the descent and on the number of items. A
larger bound reads all that a smaller one does, and reads the same.
-/

namespace Trellis.Document

namespace Parser

variable {α β : Type}

/-- Reads an item if a test tells so. -/
def optional (test : Parser Bool) (item : Parser α) : Parser (Option α) := do
  if ← test then some <$> item else pure none

theorem optional_bind (test : Parser Bool) (item : Parser α) (next : Option α → Parser β) :
    (optional test item >>= next) = test >>= fun yes =>
      if yes then (some <$> item) >>= next else pure none >>= next := by
  rw [optional, bind_assoc]
  congr
  funext yes
  cases yes <;> rfl

/-- Reads one or more items in parentheses, or nothing at all. -/
def inParens (starts : Parser Bool) (item : Parser α) (bound : Nat) : Parser (List α) := do
  if ← accept .openParen then
    let items ← oneOrMore starts item bound
    expect .closeParen
    pure items
  else pure []

/-- The second parser reads all that the first one does, and reads the same. -/
def Within (p q : Parser α) : Prop :=
  ∀ tokens result, p tokens = some result → q tokens = some result

namespace Within

theorem refl (p : Parser α) : Within p p := fun _ _ h => h

theorem failure {p : Parser α} : Within failure p := fun _ _ h => nomatch h

theorem bind {p q : Parser α} {k l : α → Parser β} (hp : Within p q)
    (hk : ∀ x, Within (k x) (l x)) : Within (p >>= k) (q >>= l) := by
  intro tokens result h
  obtain ⟨⟨x, rest⟩, hx, hrest⟩ := Option.bind_eq_some_iff.mp h
  exact Option.bind_eq_some_iff.mpr ⟨(x, rest), hp _ _ hx, hk x _ _ hrest⟩

theorem map {p q : Parser α} (f : α → β) (h : Within p q) : Within (f <$> p) (f <$> q) :=
  h.bind fun x => refl (pure (f x))

theorem many {starts : Parser Bool} {p q : Parser α} (h : Within p q) {m n : Nat} (hn : m ≤ n) :
    Within (many starts p m) (many starts q n) := by
  induction m generalizing n with
  | zero => exact failure
  | succ m ih =>
    obtain ⟨n, rfl⟩ : ∃ k, n = k + 1 := ⟨n - 1, by omega⟩
    rw [Parser.many, Parser.many]
    refine (refl _).bind fun more => ?_
    cases more with
    | false => exact refl _
    | true => exact h.bind fun x => (ih (by omega)).bind fun xs => refl _

theorem oneOrMore {starts : Parser Bool} {p q : Parser α} (h : Within p q) {m n : Nat}
    (hn : m ≤ n) : Within (oneOrMore starts p m) (oneOrMore starts q n) :=
  h.bind fun _ => (h.many hn).bind fun _ => refl _

theorem optional {test : Parser Bool} {p q : Parser α} (h : Within p q) :
    Within (optional test p) (optional test q) := by
  refine (refl _).bind fun yes => ?_
  cases yes with
  | false => exact refl _
  | true => exact h.map some

theorem keyed {p q : Parser α} (h : Within p q) : Within (keyed p) (keyed q) :=
  (refl _).bind fun _ => (refl _).bind fun _ => h.bind fun _ => refl _

theorem inParens {starts : Parser Bool} {p q : Parser α} (h : Within p q) {m n : Nat}
    (hn : m ≤ n) : Within (inParens starts p m) (inParens starts q n) := by
  refine (refl _).bind fun opens => ?_
  cases opens with
  | false => exact refl _
  | true => exact (h.oneOrMore hn).bind fun _ => refl _

end Within

end Parser

open Trellis.Document.Parser

/-! ### The rules of the grammar by their parts -/

theorem arguments_eq (bound : Nat) :
    arguments bound = inParens isName (keyed (value false bound bound)) bound := rfl

theorem variableDefinitions_eq (bound : Nat) :
    variableDefinitions bound = inParens (isNext .dollar) (variableDefinition bound) bound := rfl

theorem field_eq (bound : Nat) (set : Parser (List Selection)) :
    field bound set = (do
      let start ← position
      let first ← name
      let second ← optional (accept .colon) name
      let arguments ← arguments bound
      let directives ← directives bound
      let selections ← optional (isNext .openBrace) set
      match second with
      | some name => pure ⟨start, some first, name, arguments, directives, selections⟩
      | none => pure ⟨start, none, first, arguments, directives, selections⟩) := by
  symm
  simp only [optional_bind]
  rfl

theorem variableDefinition_eq (bound : Nat) :
    variableDefinition bound = (do
      let start ← position
      expect .dollar
      let name ← name
      expect .colon
      let type ← typeLiteral bound
      let default ← optional (accept .equals) (value true bound bound)
      pure ⟨start, name, type, default⟩) := by
  symm
  simp only [optional_bind]
  rfl

/-! ### The rules within their bounds -/

variable {m n bound bound' : Nat}

theorem typeLiteral_within (h : m ≤ n) : Within (typeLiteral m) (typeLiteral n) := by
  induction m generalizing n with
  | zero => exact .failure
  | succ m ih =>
    obtain ⟨n, rfl⟩ : ∃ k, n = k + 1 := ⟨n - 1, by omega⟩
    rw [typeLiteral_succ, typeLiteral_succ]
    refine (Within.refl _).bind fun opens => ?_
    cases opens with
    | false => exact .refl _
    | true => exact (ih (by omega)).bind fun _ => .refl _

theorem value_within {constant : Bool} (hbound : bound ≤ bound') (h : m ≤ n) :
    Within (value constant bound m) (value constant bound' n) := by
  induction m generalizing n with
  | zero => exact .failure
  | succ m ih =>
    obtain ⟨n, rfl⟩ : ∃ k, n = k + 1 := ⟨n - 1, by omega⟩
    have hvalue := ih (n := n) (by omega)
    rw [value_succ, value_succ]
    refine (Within.refl _).bind fun head => ?_
    rcases head with _ | ⟨p⟩ | _ | _ | _ | _
    · exact .refl _
    · cases p with
      | openBracket =>
        exact (Within.refl _).bind fun _ => (hvalue.many hbound).bind fun _ => .refl _
      | openBrace =>
        exact (Within.refl _).bind fun _ =>
          (hvalue.keyed.many hbound).bind fun _ => .refl _
      | _ => exact .refl _
    all_goals exact .refl _

theorem arguments_within (h : bound ≤ bound') : Within (arguments bound) (arguments bound') := by
  rw [arguments_eq, arguments_eq]
  exact (value_within h h).keyed.inParens h

theorem directive_within (h : bound ≤ bound') : Within (directive bound) (directive bound') :=
  (Within.refl _).bind fun _ => (Within.refl _).bind fun _ => (Within.refl _).bind fun _ =>
    (arguments_within h).bind fun _ => .refl _

theorem directives_within (h : bound ≤ bound') : Within (directives bound) (directives bound') :=
  (directive_within h).many h

section Selections

variable {set set' : Parser (List Selection)}

theorem field_within (h : bound ≤ bound') (hset : Within set set') :
    Within (field bound set) (field bound' set') := by
  rw [field_eq, field_eq]
  exact (Within.refl _).bind fun _ => (Within.refl _).bind fun _ => (Within.refl _).bind fun _ =>
    (arguments_within h).bind fun _ => (directives_within h).bind fun _ =>
      hset.optional.bind fun _ => .refl _

theorem spread_within (h : bound ≤ bound') (hset : Within set set') :
    Within (spread bound set) (spread bound' set') := by
  refine (Within.refl _).bind fun _ => (Within.refl _).bind fun head => ?_
  split
  · exact (Within.refl _).bind fun _ => (Within.refl _).bind fun _ =>
      (directives_within h).bind fun _ => hset.bind fun _ => .refl _
  · exact (Within.refl _).bind fun _ => (directives_within h).bind fun _ => .refl _
  · exact (directives_within h).bind fun _ => hset.bind fun _ => .refl _

end Selections

theorem selectionSet_within (hbound : bound ≤ bound') (h : m ≤ n) :
    Within (selectionSet bound m) (selectionSet bound' n) := by
  induction m generalizing n with
  | zero => exact .failure
  | succ m ih =>
    obtain ⟨n, rfl⟩ : ∃ k, n = k + 1 := ⟨n - 1, by omega⟩
    have hset := ih (n := n) (by omega)
    rw [selectionSet, selectionSet]
    refine (Within.refl _).bind fun _ => (Within.oneOrMore ?_ hbound).bind fun _ => .refl _
    refine (Within.refl _).bind fun dots => ?_
    cases dots with
    | false => exact (field_within hbound hset).map _
    | true => exact spread_within hbound hset

theorem variableDefinition_within (h : bound ≤ bound') :
    Within (variableDefinition bound) (variableDefinition bound') := by
  rw [variableDefinition_eq, variableDefinition_eq]
  exact (Within.refl _).bind fun _ => (Within.refl _).bind fun _ => (Within.refl _).bind fun _ =>
    (Within.refl _).bind fun _ => (typeLiteral_within h).bind fun _ =>
      (value_within h h).optional.bind fun _ => .refl _

theorem variableDefinitions_within (h : bound ≤ bound') :
    Within (variableDefinitions bound) (variableDefinitions bound') := by
  rw [variableDefinitions_eq, variableDefinitions_eq]
  exact (variableDefinition_within h).inParens h

theorem operation_within (h : bound ≤ bound') (start : Position) (kind : OperationKind) :
    Within (operation bound start kind) (operation bound' start kind) :=
  (Within.refl _).bind fun _ => (variableDefinitions_within h).bind fun _ =>
    (directives_within h).bind fun _ => (selectionSet_within h h).bind fun _ => .refl _

theorem definition_within (h : bound ≤ bound') :
    Within (definition bound) (definition bound') := by
  refine (Within.refl _).bind fun start => (Within.refl _).bind fun head => ?_
  split
  · exact (Within.refl _).bind fun _ => operation_within h _ _
  · exact (Within.refl _).bind fun _ => operation_within h _ _
  · exact (Within.refl _).bind fun _ => operation_within h _ _
  · exact (Within.refl _).bind fun _ => (Within.refl _).bind fun _ => (Within.refl _).bind fun _ =>
      (Within.refl _).bind fun _ => (directives_within h).bind fun _ =>
        (selectionSet_within h h).bind fun _ => .refl _
  · exact (selectionSet_within h h).bind fun _ => .refl _

end Trellis.Document
