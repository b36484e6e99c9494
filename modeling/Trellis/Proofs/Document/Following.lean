import Trellis.Proofs.Document.Bounds

/-!
A type literal in the place of another.

The type of a variable stands at a place of a query, and the query is read once with one type
literal there and once with another. No rule but that for the definition of a variable reads past
the start of the definition, so up to there both readings are the same. A value can take the dollar
and the name, as it can be a variable itself, but then nothing takes the colon.
-/

namespace Trellis.Document

open Trellis.Document.Parser

/-- The tokens before the type in the definition of a variable. -/
def definitionOpening (start nameStart colonStart : Position) (variableName : String) :
    List PlacedToken :=
  [⟨start, .punctuator .dollar⟩, ⟨nameStart, .name variableName⟩, ⟨colonStart, .punctuator .colon⟩]

/-- The start of the definition of a variable, and two lists of tokens that stand for a type there,
before the same rest. -/
structure Slot (bound : Nat) where
  start : Position
  nameStart : Position
  colonStart : Position
  variableName : String
  old : TypeLiteral
  new : TypeLiteral
  oldTokens : List PlacedToken
  newTokens : List PlacedToken
  rest : List PlacedToken
  reads_old : typeLiteral bound (oldTokens ++ rest) = some (old, rest)
  reads_new : typeLiteral bound (newTokens ++ rest) = some (new, rest)

namespace Slot

variable {bound : Nat} (s : Slot bound)

def colon : PlacedToken := ⟨s.colonStart, .punctuator .colon⟩

def opening : List PlacedToken :=
  definitionOpening s.start s.nameStart s.colonStart s.variableName

def oldTail : List PlacedToken := s.oldTokens ++ s.rest

def newTail : List PlacedToken := s.newTokens ++ s.rest

/-- What a reading can leave before the type: all of the opening, or else its colon alone if values
that are variables are read. -/
def Ahead (values : Bool) (before : List PlacedToken) : Prop :=
  (∃ others, before = others ++ s.opening) ∨ values = true ∧ before = [s.colon]

/-- Whatever a parser reads before the old type, it reads before the new one. -/
def Stays {α : Type} (a b : List PlacedToken → Prop) (p : Parser α) : Prop :=
  ∀ before, a before → ∀ x left, p (before ++ s.oldTail) = some (x, left) →
    ∃ after, b after ∧ left = after ++ s.oldTail ∧
      p (before ++ s.newTail) = some (x, after ++ s.newTail)

variable {s} {α β : Type} {a b c : List PlacedToken → Prop} {values : Bool}

namespace Stays

theorem pure (x : α) : s.Stays a a (Pure.pure x) := by
  intro before ha y left h
  cases h
  exact ⟨before, ha, rfl, rfl⟩

theorem failure : s.Stays a b (failure : Parser α) := fun _ _ _ _ h => nomatch h

theorem bind {p : Parser α} {k : α → Parser β} (hp : s.Stays a b p) (hk : ∀ x, s.Stays b c (k x)) :
    s.Stays a c (p >>= k) := by
  intro before ha y left h
  obtain ⟨⟨x, middle⟩, hx, h⟩ := Option.bind_eq_some_iff.mp h
  obtain ⟨between, hb, rfl, hnew⟩ := hp before ha x middle hx
  obtain ⟨after, hc, rfl, hlast⟩ := hk x between hb y left h
  exact ⟨after, hc, rfl, by rw [bind_apply, hnew]; exact hlast⟩

theorem map {p : Parser α} (f : α → β) (hp : s.Stays a b p) : s.Stays a b (f <$> p) :=
  hp.bind fun x => pure (f x)

theorem mono {a' b' : List PlacedToken → Prop} {p : Parser α} (hp : s.Stays a b p)
    (ha : ∀ before, a' before → a before) (hb : ∀ after, b after → b' after) : s.Stays a' b' p := by
  intro before hbefore x left h
  obtain ⟨after, hafter, hleft, hnew⟩ := hp before (ha _ hbefore) x left h
  exact ⟨after, hb _ hafter, hleft, hnew⟩

theorem many {starts : Parser Bool} {item : Parser α} (hstarts : s.Stays a a starts)
    (hitem : s.Stays a a item) (n : Nat) : s.Stays a a (many starts item n) := by
  induction n with
  | zero => exact failure
  | succ n ih =>
    rw [Parser.many]
    refine hstarts.bind fun more => ?_
    cases more with
    | false => exact pure _
    | true => exact hitem.bind fun _ => ih.bind fun _ => pure _

theorem oneOrMore {starts : Parser Bool} {item : Parser α} (hstarts : s.Stays a a starts)
    (hitem : s.Stays a a item) (n : Nat) : s.Stays a a (oneOrMore starts item n) :=
  hitem.bind fun _ => (many hstarts hitem n).bind fun _ => pure _

theorem optional {test : Parser Bool} {item : Parser α} (htest : s.Stays a a test)
    (hitem : s.Stays a a item) : s.Stays a a (optional test item) := by
  refine htest.bind fun yes => ?_
  cases yes with
  | false => exact pure _
  | true => exact hitem.map some

end Stays

/-! ### Single tokens -/

theorem failure_apply (tokens : List PlacedToken) : (failure : Parser α) tokens = none := rfl

theorem expect_cons {p : Punctuator} {first : PlacedToken} {tokens left : List PlacedToken}
    {x : Unit} : expect p (first :: tokens) = some (x, left) ↔
      first.token = .punctuator p ∧ left = tokens := by
  obtain ⟨start, token⟩ := first
  cases token with
  | punctuator q =>
    by_cases hq : p = q <;> simp [expect, peek, skip, bind_apply, failure_apply, hq, eq_comm]
  | _ => simp [expect, peek, bind_apply, failure_apply]

/-- More precisely, with the token that comes first. -/
def AheadAt (s : Slot bound) (values : Bool) (token : Token) (before : List PlacedToken) : Prop :=
  s.Ahead values before ∧ ∃ start others, before = ⟨start, token⟩ :: others

theorem Ahead.aheadAt {before : List PlacedToken} (h : s.Ahead values before) :
    ∃ first others, before = first :: others ∧ s.AheadAt values first.token before := by
  rcases h with ⟨_ | ⟨first, others⟩, rfl⟩ | ⟨hvalues, rfl⟩
  · exact ⟨_, _, rfl, .inl ⟨[], rfl⟩, _, _, rfl⟩
  · exact ⟨_, _, rfl, .inl ⟨first :: others, rfl⟩, _, _, rfl⟩
  · exact ⟨_, _, rfl, .inr ⟨hvalues, rfl⟩, _, _, rfl⟩

theorem Stays.look {p : Parser α} {f : PlacedToken → α} (ha : ∀ before, a before → before ≠ [])
    (hp : ∀ first others, p (first :: others) = some (f first, first :: others)) :
    s.Stays a a p := by
  intro before hbefore x left h
  obtain ⟨first, others, rfl⟩ := List.exists_cons_of_ne_nil (ha before hbefore)
  rw [List.cons_append, hp] at h
  cases h
  exact ⟨first :: others, hbefore, rfl, hp ..⟩

theorem Stays.peek_bind {k : Option Token → Parser β}
    (h : ∀ token, s.Stays (s.AheadAt values token) b (k (some token))) :
    s.Stays (s.Ahead values) b (peek >>= k) := by
  intro before ha x left hx
  obtain ⟨first, others, rfl, hat⟩ := ha.aheadAt
  exact h first.token _ hat x left hx

theorem Ahead.ne_nil {before : List PlacedToken} (h : s.Ahead values before) : before ≠ [] := by
  obtain ⟨first, others, rfl, -⟩ := h.aheadAt
  simp

theorem peek_stays : s.Stays (s.Ahead values) (s.Ahead values) peek :=
  .look (f := fun first => some first.token) (fun _ h => h.ne_nil) fun _ _ => rfl

theorem position_stays : s.Stays (s.Ahead values) (s.Ahead values) position :=
  .look (f := fun first => first.start) (fun _ h => h.ne_nil) fun _ _ => rfl

theorem isNext_stays (p : Punctuator) : s.Stays (s.Ahead values) (s.Ahead values) (isNext p) := by
  refine peek_stays.bind fun head => ?_
  split <;> exact .pure _

theorem isName_stays : s.Stays (s.Ahead values) (s.Ahead values) isName := by
  refine peek_stays.bind fun head => ?_
  split <;> exact .pure _

theorem valueStarts_stays : s.Stays (s.Ahead values) (s.Ahead values) valueStarts := by
  refine peek_stays.bind fun head => ?_
  split <;> exact .pure _

theorem selectionStarts_stays : s.Stays (s.Ahead values) (s.Ahead values) selectionStarts :=
  isName_stays.bind fun _ => (isNext_stays _).bind fun _ => .pure _

theorem skip_stays {token : Token} (hdollar : token ≠ .punctuator .dollar)
    (hcolon : values = true → token ≠ .punctuator .colon) :
    s.Stays (s.AheadAt values token) (s.Ahead false) skip := by
  rintro before ⟨ha, start, others, rfl⟩ x left h
  cases h
  refine ⟨others, ?_, rfl, rfl⟩
  rcases ha with ⟨_ | ⟨first, between⟩, hbefore⟩ | ⟨hvalues, hbefore⟩
  · cases hbefore
    exact absurd rfl hdollar
  · cases hbefore
    exact .inl ⟨between, rfl⟩
  · cases hbefore
    exact absurd rfl (hcolon hvalues)

theorem expect_stays {p : Punctuator} (hdollar : p ≠ .dollar)
    (hcolon : values = true → p ≠ .colon) :
    s.Stays (s.Ahead values) (s.Ahead false) (expect p) := by
  refine .peek_bind fun token => ?_
  cases token with
  | punctuator q =>
    by_cases hq : p = q
    · subst hq
      simp only [if_true]
      exact skip_stays (by simpa using hdollar) (by simpa using hcolon)
    · simp only [if_neg hq]
      exact .failure
  | _ => exact .failure

theorem name_stays : s.Stays (s.Ahead values) (s.Ahead false) Parser.name := by
  refine .peek_bind fun token => ?_
  cases token with
  | name n => exact (skip_stays (by simp) (by simp)).bind fun _ => .pure _
  | _ => exact .failure

theorem word_stays (w : String) : s.Stays (s.Ahead values) (s.Ahead false) (word w) := by
  refine name_stays.bind fun n => ?_
  split
  · exact .pure _
  · exact .failure

theorem accept_stays {p : Punctuator} (hdollar : p ≠ .dollar) :
    s.Stays (s.Ahead false) (s.Ahead false) (accept p) := by
  rw [accept, isNext, bind_assoc]
  refine .peek_bind fun token => ?_
  cases token with
  | punctuator q =>
    by_cases hq : p = q
    · subst hq
      simp only [pure_bind, decide_true, if_true]
      exact (skip_stays (by simpa using hdollar) (by simp)).bind fun _ => .pure _
    · simp only [pure_bind, hq, decide_false]
      exact (Stays.pure _).mono (fun _ h => h.1) fun _ h => h
  | _ => exact (Stays.pure _).mono (fun _ h => h.1) fun _ h => h

/-! ### The rules that do not read the type -/

theorem inParens_stays {starts : Parser Bool} {item : Parser α}
    (hstarts : s.Stays (s.Ahead true) (s.Ahead true) starts)
    (hitem : s.Stays (s.Ahead true) (s.Ahead true) item) (n : Nat) :
    s.Stays (s.Ahead false) (s.Ahead false) (inParens starts item n) := by
  refine (accept_stays (by decide)).bind fun opens => ?_
  cases opens with
  | false => exact .pure _
  | true =>
    have hitems := Stays.oneOrMore hstarts hitem n
    exact (hitems.bind fun _ => (expect_stays (by decide) (by decide)).bind fun _ => .pure _).mono
      (fun _ h => .inl (h.resolve_right (by simp))) fun _ h => h

theorem typeLiteral_stays (n : Nat) : s.Stays (s.Ahead false) (s.Ahead false) (typeLiteral n) := by
  induction n with
  | zero => exact .failure
  | succ n ih =>
    rw [typeLiteral_succ]
    refine (accept_stays (by decide)).bind fun opens => ?_
    cases opens with
    | false => exact name_stays.bind fun _ => (accept_stays (by decide)).bind fun _ => .pure _
    | true =>
      exact ih.bind fun _ => (expect_stays (by decide) (by decide)).bind fun _ =>
        (accept_stays (by decide)).bind fun _ => .pure _

theorem reference_stays : s.Stays (s.AheadAt true (.punctuator .dollar)) (s.Ahead true)
    (do skip; pure (Literal.reference (← Parser.name))) := by
  rintro before ⟨ha, start, others, rfl⟩ x left h
  rcases ha with ⟨_ | ⟨first, between⟩, hbefore⟩ | ⟨-, hbefore⟩
  · cases hbefore
    cases h
    exact ⟨[s.colon], .inr ⟨rfl, rfl⟩, rfl, rfl⟩
  · cases hbefore
    have hname : s.Stays (s.Ahead false) (s.Ahead true) (Literal.reference <$> Parser.name) :=
      (name_stays.map _).mono (fun _ h => h) fun _ h => .inl (h.resolve_right (by simp))
    exact hname _ (.inl ⟨between, rfl⟩) x left h
  · cases hbefore

theorem Ahead.of_false {before : List PlacedToken} (h : s.Ahead false before) :
    s.Ahead values before := .inl (h.resolve_right (by simp))

theorem keyed_stays {α : Type} {item : Parser α}
    (h : s.Stays (s.Ahead values) (s.Ahead values) item) :
    s.Stays (s.Ahead values) (s.Ahead values) (keyed item) :=
  name_stays.bind fun _ => (expect_stays (by decide) (by decide)).bind fun _ =>
    (h.bind fun _ => .pure _).mono (fun _ h => h.of_false) fun _ h => h

/-- A constant value has no variables, so it cannot reach into the opening. -/
theorem value_stays (constant : Bool) (limit n : Nat) :
    s.Stays (s.Ahead (!constant)) (s.Ahead (!constant)) (value constant limit n) := by
  induction n with
  | zero => exact .failure
  | succ n ih =>
    have hskip {token : Token} (hdollar : token ≠ .punctuator .dollar)
        (hcolon : token ≠ .punctuator .colon) :
        s.Stays (s.AheadAt (!constant) token) (s.Ahead (!constant)) skip :=
      (skip_stays hdollar fun _ => hcolon).mono (fun _ h => h) fun _ h => h.of_false
    have hclose {p : Punctuator} (hdollar : p ≠ .dollar) (hcolon : p ≠ .colon) :
        s.Stays (s.Ahead (!constant)) (s.Ahead (!constant)) (expect p) :=
      (expect_stays hdollar fun _ => hcolon).mono (fun _ h => h) fun _ h => h.of_false
    rw [value_succ]
    refine .peek_bind fun token => ?_
    cases token with
    | name w =>
      refine (hskip (by simp) (by simp)).bind fun _ => ?_
      split <;> exact .pure _
    | int _ | float _ | string _ => exact (hskip (by simp) (by simp)).bind fun _ => .pure _
    | punctuator p =>
      cases p with
      | dollar =>
        cases constant with
        | true => exact .failure
        | false => exact reference_stays
      | openBracket =>
        refine (hskip (by simp) (by simp)).bind fun _ => ?_
        exact (Stays.many valueStarts_stays ih limit).bind fun _ =>
          (hclose (by decide) (by decide)).bind fun _ => .pure _
      | openBrace =>
        refine (hskip (by simp) (by simp)).bind fun _ => ?_
        exact (Stays.many isName_stays (keyed_stays ih) limit).bind fun _ =>
          (hclose (by decide) (by decide)).bind fun _ => .pure _
      | _ => exact .failure

theorem arguments_stays (limit : Nat) :
    s.Stays (s.Ahead false) (s.Ahead false) (arguments limit) := by
  rw [arguments_eq]
  exact inParens_stays isName_stays (keyed_stays (value_stays false limit limit)) limit

theorem directives_stays (limit : Nat) :
    s.Stays (s.Ahead false) (s.Ahead false) (directives limit) :=
  Stays.many (isNext_stays _) (position_stays.bind fun _ =>
    (expect_stays (by decide) (by decide)).bind fun _ => name_stays.bind fun _ =>
      (arguments_stays limit).bind fun _ => .pure _) limit

section Selections

variable {set : Parser (List Selection)} (hset : s.Stays (s.Ahead false) (s.Ahead false) set)
include hset

theorem field_stays (limit : Nat) :
    s.Stays (s.Ahead false) (s.Ahead false) (field limit set) := by
  rw [field_eq]
  refine position_stays.bind fun _ => name_stays.bind fun _ =>
    (Stays.optional (accept_stays (by decide)) name_stays).bind fun second =>
      (arguments_stays limit).bind fun _ => (directives_stays limit).bind fun _ =>
        (Stays.optional (isNext_stays _) hset).bind fun _ => ?_
  cases second <;> exact .pure _

theorem spread_stays (limit : Nat) :
    s.Stays (s.Ahead false) (s.Ahead false) (spread limit set) := by
  refine position_stays.bind fun _ => .peek_bind fun token => ?_
  cases token with
  | name w =>
    have hskip : s.Stays (s.AheadAt false (.name w)) (s.Ahead false) skip :=
      skip_stays (by simp) (by simp)
    split
    · exact hskip.bind fun _ => name_stays.bind fun _ => (directives_stays limit).bind fun _ =>
        hset.bind fun _ => .pure _
    · exact hskip.bind fun _ => (directives_stays limit).bind fun _ => .pure _
    · next _ hother => exact absurd rfl (hother w)
  | _ =>
    exact ((directives_stays limit).bind fun _ => hset.bind fun _ => .pure _).mono
      (fun _ h => h.1) fun _ h => h

theorem selection_stays (limit : Nat) :
    s.Stays (s.Ahead false) (s.Ahead false) (do
      if ← accept .ellipsis then spread limit set else Selection.field <$> field limit set) := by
  refine (accept_stays (by decide)).bind fun dots => ?_
  cases dots with
  | false => exact (field_stays hset limit).map _
  | true => exact spread_stays hset limit

end Selections

theorem selectionSet_stays (limit n : Nat) :
    s.Stays (s.Ahead false) (s.Ahead false) (selectionSet limit n) := by
  induction n with
  | zero => exact .failure
  | succ n ih =>
    rw [selectionSet]
    exact (expect_stays (by decide) (by decide)).bind fun _ =>
      (Stays.oneOrMore selectionStarts_stays (selection_stays ih limit) limit).bind fun _ =>
        (expect_stays (by decide) (by decide)).bind fun _ => .pure _

/-! ### The rules that read the type -/

/-- Whatever a parser reads with the old type, it reads with the new one: either it ends before the
type, or what it reads is a frame around the type. -/
def Passes {α : Type} (s : Slot bound) (a : List PlacedToken → Prop) (F : (TypeLiteral → α) → Prop)
    (p : Parser α) : Prop :=
  ∀ before, a before → ∀ x left, p (before ++ s.oldTail) = some (x, left) →
    (∃ after, s.Ahead false after ∧ left = after ++ s.oldTail ∧
      p (before ++ s.newTail) = some (x, after ++ s.newTail)) ∨
    ∃ f, F f ∧ x = f s.old ∧ p (before ++ s.newTail) = some (f s.new, left)

variable {F : (TypeLiteral → α) → Prop} {G : (TypeLiteral → β) → Prop}

theorem Stays.passes {p : Parser α} (h : s.Stays a (s.Ahead false) p) : s.Passes a F p :=
  fun before ha x left hx => .inl (h before ha x left hx)

theorem Stays.bind_passes {p : Parser α} {k : α → Parser β} (hp : s.Stays a b p)
    (hk : ∀ x, s.Passes b G (k x)) : s.Passes a G (p >>= k) := by
  intro before ha y left h
  obtain ⟨⟨x, middle⟩, hx, h⟩ := Option.bind_eq_some_iff.mp h
  obtain ⟨between, hb, rfl, hnew⟩ := hp before ha x middle hx
  rw [bind_apply, hnew]
  exact hk x between hb y left h

theorem Passes.bind {p : Parser α} {k : α → Parser β} (hp : s.Passes a F p)
    (hk : ∀ x, s.Passes (s.Ahead false) G (k x))
    (hlast : ∀ f, F f → ∀ left y last, k (f s.old) left = some (y, last) →
      ∃ g, G g ∧ y = g s.old ∧ k (f s.new) left = some (g s.new, last)) :
    s.Passes a G (p >>= k) := by
  intro before ha y left h
  obtain ⟨⟨x, middle⟩, hx, h⟩ := Option.bind_eq_some_iff.mp h
  rcases hp before ha x middle hx with ⟨between, hb, rfl, hnew⟩ | ⟨f, hf, rfl, hnew⟩
  · rw [bind_apply, hnew]
    exact hk x between hb y left h
  · obtain ⟨g, hg, rfl, hrest⟩ := hlast f hf middle y left h
    exact .inr ⟨g, hg, rfl, by rw [bind_apply, hnew]; exact hrest⟩

theorem Passes.peek_bind {k : Option Token → Parser β}
    (h : ∀ token, s.Passes (s.AheadAt values token) G (k (some token))) :
    s.Passes (s.Ahead values) G (peek >>= k) := by
  intro before ha x left hx
  obtain ⟨first, others, rfl, hat⟩ := ha.aheadAt
  exact h first.token _ hat x left hx

def Amid (F : (TypeLiteral → α) → Prop) (f : TypeLiteral → List α) : Prop :=
  ∃ earlier later g, F g ∧ f = fun type => earlier ++ g type :: later

theorem Passes.cons {item : Parser α} {others : Parser (List α)} (hitem : s.Passes a F item)
    (hothers : s.Passes (s.Ahead false) (Amid F) others) :
    s.Passes a (Amid F) (do
      let x ← item
      let xs ← others
      pure (x :: xs)) := by
  refine hitem.bind (fun x => ?_) ?_
  · refine hothers.bind (fun xs => (Stays.pure _).passes) ?_
    rintro _ ⟨earlier, later, g, hg, rfl⟩ left y last h
    cases h
    exact ⟨_, ⟨x :: earlier, later, g, hg, rfl⟩, rfl, rfl⟩
  · intro f hf left y last h
    obtain ⟨⟨xs, rest⟩, hxs, h⟩ := Option.bind_eq_some_iff.mp h
    cases h
    exact ⟨_, ⟨[], xs, f, hf, rfl⟩, rfl, by rw [bind_apply, hxs]; rfl⟩

theorem many_passes {starts : Parser Bool} {item : Parser α}
    (hstarts : s.Stays (s.Ahead false) (s.Ahead false) starts)
    (hitem : s.Passes (s.Ahead false) F item) (n : Nat) :
    s.Passes (s.Ahead false) (Amid F) (many starts item n) := by
  induction n with
  | zero => exact Stays.failure.passes
  | succ n ih =>
    rw [many]
    refine hstarts.bind_passes fun more => ?_
    cases more with
    | false => exact (Stays.pure _).passes
    | true => exact hitem.cons ih

theorem oneOrMore_passes {starts : Parser Bool} {item : Parser α}
    (hstarts : s.Stays (s.Ahead false) (s.Ahead false) starts)
    (hitem : s.Passes (s.Ahead false) F item) (n : Nat) :
    s.Passes (s.Ahead false) (Amid F) (oneOrMore starts item n) :=
  hitem.cons (many_passes hstarts hitem n)

theorem inParens_passes {starts : Parser Bool} {item : Parser α}
    (hstarts : s.Stays (s.Ahead false) (s.Ahead false) starts)
    (hitem : s.Passes (s.Ahead false) F item) (n : Nat) :
    s.Passes (s.Ahead false) (Amid F) (inParens starts item n) := by
  refine (accept_stays (by decide)).bind_passes fun opens => ?_
  cases opens with
  | false => exact (Stays.pure _).passes
  | true =>
    refine (oneOrMore_passes hstarts hitem n).bind (fun xs => ?_) ?_
    · exact ((expect_stays (by decide) (by decide)).bind fun _ => .pure _).passes
    · intro f hf left y last h
      obtain ⟨⟨_, rest⟩, hclose, h⟩ := Option.bind_eq_some_iff.mp h
      cases h
      exact ⟨f, hf, rfl, by rw [bind_apply, hclose]; rfl⟩

/-- The definitions of the variable, with any default. -/
def Defines (s : Slot bound) (f : TypeLiteral → VariableDefinition) : Prop :=
  ∃ default, f = fun type => ⟨s.start, s.variableName, type, default⟩

theorem variableDefinition_opening {type : TypeLiteral} {tokens : List PlacedToken}
    (h : typeLiteral bound (tokens ++ s.rest) = some (type, s.rest)) :
    variableDefinition bound (s.opening ++ (tokens ++ s.rest)) =
      (optional (accept .equals) (value true bound bound) s.rest).bind fun (default, left) =>
        some (⟨s.start, s.variableName, type, default⟩, left) := by
  rw [variableDefinition_eq]
  change (typeLiteral bound >>= fun type => optional (accept .equals) (value true bound bound) >>=
    fun default => pure (VariableDefinition.mk s.start s.variableName type default))
      (tokens ++ s.rest) = _
  rw [bind_apply, h]
  rfl

/-- A definition that starts earlier ends before the opening. -/
theorem variableDefinition_stays :
    s.Stays (fun before => ∃ first others, before = first :: (others ++ s.opening)) (s.Ahead false)
      (variableDefinition bound) := by
  have hdollar : s.Stays (fun before => ∃ first others, before = first :: (others ++ s.opening))
      (s.Ahead false) (expect .dollar) := by
    rintro before ⟨⟨start, token⟩, others, rfl⟩ x left h
    obtain ⟨rfl, rfl⟩ := expect_cons.mp h
    exact ⟨_, .inl ⟨others, rfl⟩, rfl, expect_cons.mpr ⟨rfl, rfl⟩⟩
  have hposition : s.Stays (fun before => ∃ first others, before = first :: (others ++ s.opening))
      (fun before => ∃ first others, before = first :: (others ++ s.opening)) position := by
    refine .look (f := fun first => first.start) ?_ fun _ _ => rfl
    rintro _ ⟨first, others, rfl⟩
    simp
  rw [variableDefinition_eq]
  exact hposition.bind fun _ => hdollar.bind fun _ => name_stays.bind fun _ =>
    (expect_stays (by decide) (by simp)).bind fun _ => (typeLiteral_stays bound).bind fun _ =>
      (Stays.optional (accept_stays (by decide)) (value_stays true bound bound)).bind fun _ =>
        .pure _

theorem variableDefinition_passes :
    s.Passes (s.Ahead false) s.Defines (variableDefinition bound) := by
  -- Either this is the definition of the variable, or there are others before it.
  rintro before (⟨_ | ⟨first, others⟩, rfl⟩ | ⟨hfalse, -⟩) x left h
  · rw [List.nil_append, oldTail, variableDefinition_opening s.reads_old] at h
    obtain ⟨⟨default, last⟩, hdefault, hsame⟩ := Option.bind_eq_some_iff.mp h
    cases hsame
    refine .inr ⟨_, ⟨default, rfl⟩, rfl, ?_⟩
    rw [List.nil_append, newTail, variableDefinition_opening s.reads_new, hdefault]
    rfl
  · exact .inl (variableDefinition_stays _ ⟨first, others, rfl⟩ x left h)
  · cases hfalse

theorem variableDefinitions_passes :
    s.Passes (s.Ahead false) (Amid s.Defines) (variableDefinitions bound) := by
  rw [variableDefinitions_eq]
  exact inParens_passes (isNext_stays _) variableDefinition_passes bound

/-- The operations with the definition of the variable. -/
def Declares (s : Slot bound) (f : TypeLiteral → Definition) : Prop :=
  ∃ (o : Operation) (g : TypeLiteral → List VariableDefinition), Amid s.Defines g ∧
    f = fun type => .operation { o with variableDefinitions := g type }

theorem operation_passes (start : Position) (kind : OperationKind) :
    s.Passes (s.Ahead false) s.Declares (operation bound start kind) := by
  refine (Stays.optional isName_stays name_stays).bind_passes fun name => ?_
  refine variableDefinitions_passes.bind (fun _ => ?_) ?_
  · exact ((directives_stays bound).bind fun _ => (selectionSet_stays bound bound).bind fun _ =>
      .pure _).passes
  · intro g hg left y last h
    obtain ⟨⟨directives, middle⟩, hdirectives, h⟩ := Option.bind_eq_some_iff.mp h
    obtain ⟨⟨selections, rest⟩, hselections, h⟩ := Option.bind_eq_some_iff.mp h
    cases h
    refine ⟨_, ⟨⟨start, kind, name, [], directives, selections⟩, g, hg, rfl⟩, rfl, ?_⟩
    exact Option.bind_eq_some_iff.mpr ⟨_, hdirectives, Option.bind_eq_some_iff.mpr
      ⟨_, hselections, rfl⟩⟩

theorem definition_passes : s.Passes (s.Ahead false) s.Declares (definition bound) := by
  refine position_stays.bind_passes fun start => .peek_bind fun token => ?_
  have hset : s.Passes (s.AheadAt false token) s.Declares (do
      pure (.operation ⟨start, .query, none, [], [], ← selectionSet bound bound⟩)) :=
    (((selectionSet_stays bound bound).bind fun _ => .pure _).mono
      (fun _ h => h.1) fun _ h => h).passes
  cases token with
  | name w =>
    have hskip : s.Stays (s.AheadAt false (.name w)) (s.Ahead false) skip :=
      skip_stays (by simp) (by simp)
    split
    · exact hskip.bind_passes fun _ => operation_passes start _
    · exact hskip.bind_passes fun _ => operation_passes start _
    · exact hskip.bind_passes fun _ => operation_passes start _
    · exact (hskip.bind fun _ => name_stays.bind fun _ => (word_stays _).bind fun _ =>
        name_stays.bind fun _ => (directives_stays bound).bind fun _ =>
          (selectionSet_stays bound bound).bind fun _ => .pure _).passes
    · exact hset
  | _ => exact hset

theorem ofTokens?_eq_some {tokens : List PlacedToken} {d : Document} :
    ofTokens? tokens = some d ↔
      oneOrMore (do pure (← peek).isSome) (definition (tokens.length + 1)) (tokens.length + 1)
        tokens = some (d, []) := by
  unfold ofTokens?
  dsimp only
  split
  · next document hread =>
    rw [hread]
    simp
  · next hread => exact ⟨nofun, fun h => absurd h (hread d)⟩

/-- A document that is read with the old type is read with the new one, and nothing else changes. -/
theorem ofTokens?_replaced {before : List PlacedToken} {d : Document}
    (hlength : s.oldTail.length ≤ s.newTail.length)
    (hbound : (before ++ s.opening ++ s.newTail).length + 1 = bound)
    (h : ofTokens? (before ++ s.opening ++ s.oldTail) = some d) :
    ∃ f, Amid s.Declares f ∧ d = f s.old ∧
      ofTokens? (before ++ s.opening ++ s.newTail) = some (f s.new) := by
  have hsmaller : (before ++ s.opening ++ s.oldTail).length + 1 ≤ bound := by
    rw [List.length_append] at hbound ⊢
    omega
  -- The type may have more tokens than the old one, and then the bound is larger.
  have hold := (definition_within hsmaller).oneOrMore hsmaller _ _ (ofTokens?_eq_some.mp h)
  have hstarts : s.Stays (s.Ahead false) (s.Ahead false) (do pure (← peek).isSome) :=
    peek_stays.bind fun _ => .pure _
  rcases oneOrMore_passes hstarts definition_passes bound _ (.inl ⟨before, rfl⟩) d [] hold with
    ⟨after, hafter, hempty, -⟩ | ⟨f, hf, rfl, hnew⟩
  · exact absurd (List.append_eq_nil_iff.mp hempty.symm).1 hafter.ne_nil
  · exact ⟨f, hf, rfl, ofTokens?_eq_some.mpr (by rw [hbound]; exact hnew)⟩

end Slot

end Trellis.Document
