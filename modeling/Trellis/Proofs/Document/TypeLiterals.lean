import Mathlib
import Trellis.Proofs.Document.Following
import Trellis.Proofs.Document.Scanning

/-!
Type literals that are shown and read.

The text of a type literal can stand for the type of a variable in any query, and is read as the
type literal it came from. The mark of a layer follows the layer, both where the text is put together
and where it is read, so an induction on the layers takes the text apart. Two type literals never
have the same text.
-/

namespace Trellis

open Trellis.Document

namespace TypeLiteral

/-- Number of lists around the innermost type. -/
def depth : TypeLiteral → Nat
  | .named .. => 0
  | .list inner _ => inner.depth + 1

/-- What follows the text of a layer. -/
def mark (nonNull : Bool) : List Char := if nonNull then ['!'] else []

theorem toList_text_named (name : String) (nonNull : Bool) :
    (named name nonNull).text.toList = name.toList ++ mark nonNull := by
  cases nonNull <;> simp [text, mark]

theorem toList_text_list (inner : TypeLiteral) (nonNull : Bool) :
    (list inner nonNull).text.toList = '[' :: (inner.text.toList ++ ']' :: mark nonNull) := by
  cases nonNull <;> simp [text, mark]

theorem length_text_named (name : String) (nonNull : Bool) :
    (named name nonNull).text.length = name.length + (mark nonNull).length := by
  rw [← String.length_toList, toList_text_named, List.length_append, String.length_toList]

theorem length_text_list (inner : TypeLiteral) (nonNull : Bool) :
    (list inner nonNull).text.length = 1 + inner.text.length + 1 + (mark nonNull).length := by
  rw [← String.length_toList, toList_text_list, ← String.length_toList, List.length_cons,
    List.length_append, List.length_cons]
  omega

/-! ### Different texts -/

theorem append_mark_injective {s t : List Char} {a b : Bool} (hs : s.getLast? ≠ some '!')
    (ht : t.getLast? ≠ some '!') (h : s ++ mark a = t ++ mark b) : s = t ∧ a = b := by
  cases a <;> cases b <;>
    simp only [mark, List.append_nil, if_true, Bool.false_eq_true, if_false] at h
  · exact ⟨h, rfl⟩
  · exact absurd (by simp [h]) hs
  · exact absurd (by simp [← h]) ht
  · exact ⟨List.append_cancel_right h, rfl⟩

theorem getLast?_ne_of_isName {s : String} (h : Token.IsName s) : s.toList.getLast? ≠ some '!' := by
  obtain ⟨c, rest, hs, hc, hrest⟩ := h
  intro hlast
  rcases List.mem_cons.mp (hs ▸ List.mem_of_getLast? hlast) with rfl | hmem
  · cases hc
  · cases hrest _ hmem

theorem text_named_ne_text_list {m : String} {a b : Bool} {inner : TypeLiteral}
    (h : Token.IsName m) : (named m a).text.toList ≠ (list inner b).text.toList := by
  obtain ⟨c, rest, hm, hc, -⟩ := h
  intro hsame
  rw [toList_text_named, toList_text_list, hm] at hsame
  obtain rfl := (List.cons.inj hsame).1
  cases hc

theorem text_inj {s t : TypeLiteral} (hs : Token.IsName s.innermost) (ht : Token.IsName t.innermost)
    (h : s.text.toList = t.text.toList) : s = t := by
  induction s generalizing t with
  | named m a =>
    cases t with
    | named n b =>
      rw [toList_text_named, toList_text_named] at h
      obtain ⟨hname, rfl⟩ :=
        append_mark_injective (getLast?_ne_of_isName hs) (getLast?_ne_of_isName ht) h
      exact congrArg (named · a) (String.toList_inj.mp hname)
    | list inner b => exact absurd h (text_named_ne_text_list hs)
  | list inner a ih =>
    cases t with
    | named n b => exact absurd h.symm (text_named_ne_text_list ht)
    | list inner' b =>
      rw [toList_text_list, toList_text_list] at h
      have hmarked : (inner.text.toList ++ [']']) ++ mark a =
          (inner'.text.toList ++ [']']) ++ mark b := by simpa using h
      obtain ⟨hinner, rfl⟩ := append_mark_injective (by simp) (by simp) hmarked
      exact congrArg (list · a) (ih hs ht (List.append_cancel_right hinner))

end TypeLiteral

namespace Document

open Trellis.Document.Parser

namespace Token

variable {rest : List Char}

/-! ### Tokens of a type literal -/

def ofMark (nonNull : Bool) : List Token := if nonNull then [.punctuator .bang] else []

def ofType : TypeLiteral → List Token
  | .named s nonNull => .name s :: ofMark nonNull
  | .list inner nonNull =>
    .punctuator .openBracket :: (ofType inner ++ .punctuator .closeBracket :: ofMark nonNull)

theorem scanAt_mark (opened : Nat) (p : Position) (rest : List Char) (nonNull : Bool) :
    ∃ placed : List PlacedToken, placed.map (·.token) = ofMark nonNull ∧
      scanAt opened p (TypeLiteral.mark nonNull ++ rest) =
        (scanAt opened ⟨p.line, p.column + (TypeLiteral.mark nonNull).length⟩ rest).map
          (placed ++ ·) := by
  cases nonNull with
  | false => exact ⟨[], rfl, by simp [TypeLiteral.mark]⟩
  | true => exact ⟨[⟨p, .punctuator .bang⟩], rfl, scanAt_punctuator (c := '!') rfl⟩

theorem head?_mark_append {nonNull : Bool} (hrest : ∀ c ∈ rest.head?, isNamePart c = false) :
    ∀ c ∈ (TypeLiteral.mark nonNull ++ rest).head?, isNamePart c = false := by
  cases nonNull with
  | false => exact hrest
  | true =>
    rintro c ⟨⟩
    rfl

/-- The text of a type literal is cut into its tokens, and closes all brackets it opens. -/
theorem scanAt_type {t : TypeLiteral} {opened : Nat} (p : Position) (ht : IsName t.innermost)
    (hopened : opened + t.depth ≤ openLimit) (hrest : ∀ c ∈ rest.head?, isNamePart c = false) :
    ∃ placed : List PlacedToken, placed.map (·.token) = ofType t ∧
      scanAt opened p (t.text.toList ++ rest) =
        (scanAt opened ⟨p.line, p.column + t.text.length⟩ rest).map (placed ++ ·) := by
  induction t generalizing opened p rest with
  | named s nonNull =>
    have hs : IsName s := ht
    obtain ⟨placed, hplaced, hmark⟩ :=
      scanAt_mark opened ⟨p.line, p.column + s.length⟩ rest nonNull
    refine ⟨⟨p, .name s⟩ :: placed, by simp [hplaced, ofType], ?_⟩
    rw [TypeLiteral.toList_text_named, TypeLiteral.length_text_named, List.append_assoc,
      scanAt_name hs (head?_mark_append hrest), hmark, Option.map_map, ← Nat.add_assoc]
    rfl
  | list inner nonNull ih =>
    rw [TypeLiteral.depth] at hopened
    have hclosing : ∀ c ∈ (']' :: (TypeLiteral.mark nonNull ++ rest)).head?,
        isNamePart c = false := by
      rintro c ⟨⟩
      rfl
    obtain ⟨between, hbetween, hinner⟩ :=
      ih ⟨p.line, p.column + 1⟩ ht (by omega : opened + 1 + inner.depth ≤ openLimit) hclosing
    obtain ⟨placed, hplaced, hmark⟩ :=
      scanAt_mark opened ⟨p.line, p.column + 1 + inner.text.length + 1⟩ rest nonNull
    refine ⟨⟨p, .punctuator .openBracket⟩ :: (between ++
      ⟨⟨p.line, p.column + 1 + inner.text.length⟩, .punctuator .closeBracket⟩ :: placed),
      by simp [hbetween, hplaced, ofType], ?_⟩
    have hopen : opened < openLimit := by omega
    rw [TypeLiteral.toList_text_list, List.cons_append, List.append_assoc, List.cons_append,
      scanAt_punctuator (c := '[') rfl, track?, if_pos hopen, Option.bind_some, hinner,
      scanAt_punctuator (c := ']') rfl, track?, Option.bind_some, Nat.add_sub_cancel, hmark,
      TypeLiteral.length_text_list]
    simp only [Option.map_map, Nat.add_assoc]
    refine congrArg (Option.map · _) (funext fun tokens => ?_)
    simp

theorem depth_lt_length_ofType (t : TypeLiteral) : t.depth < (ofType t).length := by
  induction t with
  | named s nonNull => simp [TypeLiteral.depth, ofType]
  | list inner nonNull ih =>
    simp only [TypeLiteral.depth, ofType, List.length_cons, List.length_append]
    omega

/-- A text that does not start with a mark after its blanks has no mark for its first token. -/
theorem head_ne_bang {opened : Nat} {p : Position} {text : List Char} {tokens : List PlacedToken}
    (htext : (skipBlanks false .origin text).2.head? ≠ some '!')
    (h : scanAt opened p text = some tokens) :
    ∀ first ∈ tokens.head?, first.token ≠ .punctuator .bang := by
  rw [skipBlanks_snd false .origin p] at htext
  cases hskip : skipBlanks false p text with
  | mk start left =>
    rw [hskip] at htext
    cases left with
    | nil =>
      rw [scanAt_of_blank (by rw [hskip])] at h
      cases h
      simp
    | cons c tail =>
      rw [scanAt_of_skip hskip] at h
      obtain ⟨⟨token, rest⟩, hnext, h⟩ := Option.bind_eq_some_iff.mp h
      obtain ⟨_, -, h⟩ := Option.bind_eq_some_iff.mp h
      obtain ⟨_, -, rfl⟩ := Option.map_eq_some_iff.mp h
      rintro first ⟨⟩ rfl
      exact htext (next?_bang hnext)

end Token

/-! ### Tokens read as a type literal -/

section Reading

variable {placed rest : List PlacedToken} {nonNull : Bool}

theorem accept_self (mark : Punctuator) (start : Position) (tokens : List PlacedToken) :
    accept mark (⟨start, .punctuator mark⟩ :: tokens) = some (true, tokens) := by
  simp [accept, isNext, peek, skip, bind_apply, map_apply, pure_apply]

theorem accept_of_ne {mark : Punctuator} {tokens : List PlacedToken}
    (h : ∀ first ∈ tokens.head?, first.token ≠ .punctuator mark) :
    accept mark tokens = some (false, tokens) := by
  match tokens with
  | [] => rfl
  | ⟨start, token⟩ :: tokens =>
    cases token with
    | punctuator other =>
      have hne : mark ≠ other := fun hsame => h _ rfl (by rw [hsame])
      simp [accept, isNext, peek, bind_apply, pure_apply, hne]
    | _ => rfl

theorem accept_mark (hplaced : placed.map (·.token) = Token.ofMark nonNull)
    (hrest : ∀ first ∈ rest.head?, first.token ≠ .punctuator .bang) :
    accept .bang (placed ++ rest) = some (nonNull, rest) := by
  cases nonNull with
  | false =>
    obtain rfl : placed = [] := by simpa [Token.ofMark] using hplaced
    exact accept_of_ne hrest
  | true =>
    obtain ⟨⟨start, token⟩, rfl, rfl⟩ : ∃ first : PlacedToken,
        placed = [first] ∧ first.token = .punctuator .bang := by
      simpa [Token.ofMark, List.map_eq_cons_iff] using hplaced
    exact accept_self ..

theorem typeLiteral_ofType {t : TypeLiteral} {n : Nat} (hn : t.depth < n)
    (hplaced : placed.map (·.token) = Token.ofType t)
    (hrest : ∀ first ∈ rest.head?, first.token ≠ .punctuator .bang) :
    typeLiteral n (placed ++ rest) = some (t, rest) := by
  induction t generalizing n placed rest with
  | named s nonNull =>
    obtain ⟨n, rfl⟩ : ∃ k, n = k + 1 := ⟨n - 1, by omega⟩
    obtain ⟨⟨start, token⟩, marks, rfl, rfl, hmarks⟩ := List.map_eq_cons_iff.mp hplaced
    have hname : ∀ first ∈ (⟨start, .name s⟩ :: (marks ++ rest)).head?,
        first.token ≠ .punctuator .openBracket := by
      rintro first ⟨⟩ ⟨⟩
    have hmark := accept_mark hmarks hrest
    rw [typeLiteral_succ]
    simp [accept_of_ne hname, hmark, name, peek, skip, bind_apply, map_apply]
  | list inner nonNull ih =>
    obtain ⟨n, rfl⟩ : ∃ k, n = k + 1 := ⟨n - 1, by omega⟩
    obtain ⟨⟨start, token⟩, others, rfl, rfl, hothers⟩ := List.map_eq_cons_iff.mp hplaced
    obtain ⟨between, closing, rfl, hbetween, hclosing⟩ := List.map_eq_append_iff.mp hothers
    obtain ⟨⟨stop, token⟩, marks, rfl, rfl, hmarks⟩ := List.map_eq_cons_iff.mp hclosing
    rw [TypeLiteral.depth] at hn
    have hclosing : ∀ first ∈ (⟨stop, .punctuator .closeBracket⟩ :: (marks ++ rest)).head?,
        first.token ≠ .punctuator .bang := by
      rintro first ⟨⟩ ⟨⟩
    have hinner := ih (by omega : inner.depth < n) hbetween hclosing
    have hmark := accept_mark hmarks hrest
    rw [typeLiteral_succ]
    simp [accept_self, hinner, hmark, expect, peek, skip, bind_apply, map_apply]

end Reading

/-! ### Type literals in queries -/

/-- A text up to where the type of a variable is due. It ends with a dollar, a name and a colon,
leaves some brackets open, and does not end in a comment. -/
structure AwaitsType (front : String) (start : Position) (variableName : String) (opened : Nat) :
    Prop where
  declares : ∃ before nameStart colonStart,
    Token.scan? front = some (before ++ definitionOpening start nameStart colonStart variableName)
  leaves_open : (Token.scan? front).bind (Token.trackAll? 0) = some opened
  goes_on : Token.scan? (front ++ "$") ≠ Token.scan? front

/-- A text that neither goes on with a name nor starts with a mark. -/
structure FollowsType (back : String) : Prop where
  no_name : ∀ c ∈ back.toList.head?, Token.isNamePart c = false
  no_mark : (Token.skipBlanks false .origin back.toList).2.head? ≠ some '!'

variable {front back variableName filler : String} {start : Position} {opened : Nat}

/-- The tokens after a type literal do not depend on it, as long as its text is equally long. -/
theorem scan?_type (hfront : AwaitsType front start variableName opened)
    (hback : FollowsType back) :
    ∃ (before : List PlacedToken) (nameStart colonStart place : Position), ∀ t : TypeLiteral,
      Token.IsName t.innermost → opened + t.depth ≤ Token.openLimit → ∃ placed : List PlacedToken,
        placed.map (·.token) = Token.ofType t ∧
          Token.scan? (front ++ t.text ++ back) =
            (Token.scanAt opened ⟨place.line, place.column + t.text.length⟩ back.toList).map
              fun rest => before ++ definitionOpening start nameStart colonStart variableName ++
                (placed ++ rest) := by
  obtain ⟨before, nameStart, colonStart, hscan⟩ := hfront.declares
  have hopened := hfront.leaves_open
  have hgoes := hfront.goes_on
  rw [hscan] at hopened hgoes
  rw [Token.scan?_eq] at hscan hgoes
  rw [String.toList_append] at hgoes
  obtain ⟨left, place, hleft, happend⟩ :=
    Token.scanAt_append hscan (by simp [definitionOpening]) (by simp) hgoes
  obtain rfl : left = opened := by simpa [hleft] using hopened
  refine ⟨before, nameStart, colonStart, place, fun t ht hdepth => ?_⟩
  obtain ⟨placed, hplaced, htype⟩ :=
    Token.scanAt_type place ht hdepth hback.no_name
  refine ⟨placed, hplaced, ?_⟩
  rw [Token.scan?_eq, String.toList_append, String.toList_append, List.append_assoc, happend, htype,
    Option.map_map]
  rfl

/-- A query with a name for the type of a variable and the query with a type literal for it, as two
lists of tokens around the same place. -/
theorem scan?_slot (hfront : AwaitsType front start variableName opened)
    (hback : FollowsType back) (hfiller : Token.IsName filler) {t : TypeLiteral}
    (ht : Token.IsName t.innermost) (hlength : filler.length = t.text.length)
    (hdepth : opened + t.depth ≤ Token.openLimit) {tokens : List PlacedToken}
    (h : Token.scan? (front ++ filler ++ back) = some tokens) :
    ∃ (before : List PlacedToken) (bound : Nat) (s : Slot bound),
      s.start = start ∧ s.variableName = variableName ∧ s.old = .named filler false ∧ s.new = t ∧
      tokens = before ++ s.opening ++ s.oldTail ∧
      Token.scan? (front ++ t.text ++ back) = some (before ++ s.opening ++ s.newTail) ∧
      s.oldTail.length ≤ s.newTail.length ∧
      (before ++ s.opening ++ s.newTail).length + 1 = bound := by
  obtain ⟨before, nameStart, colonStart, place, hscan⟩ := scan?_type hfront hback
  obtain ⟨fillerTokens, hfillerTokens, hold⟩ :=
    hscan (.named filler false) hfiller (by rw [TypeLiteral.depth]; omega)
  obtain ⟨typeTokens, htypeTokens, hnew⟩ := hscan t ht hdepth
  have htext : (TypeLiteral.named filler false).text = filler := by simp [TypeLiteral.text]
  rw [htext, hlength, h] at hold
  -- Both texts go on at the same place, as the name is as long as the type literal.
  obtain ⟨rest, hrest, rfl⟩ := Option.map_eq_some_iff.mp hold.symm
  rw [hrest] at hnew
  have hmark := Token.head_ne_bang hback.no_mark hrest
  have hone : fillerTokens.length = 1 := by
    simpa [Token.ofType, Token.ofMark] using congrArg List.length hfillerTokens
  have htokens : t.depth < typeTokens.length := by
    rw [← List.length_map, htypeTokens]
    exact Token.depth_lt_length_ofType t
  have hbound : t.depth < (before ++ definitionOpening start nameStart colonStart variableName ++
      (typeTokens ++ rest)).length + 1 := by
    simp only [List.length_append]
    omega
  refine ⟨before, _, {
    start, nameStart, colonStart, variableName, rest
    old := .named filler false
    new := t
    oldTokens := fillerTokens
    newTokens := typeTokens
    reads_old := typeLiteral_ofType (Nat.zero_lt_of_lt hbound) hfillerTokens hmark
    reads_new := typeLiteral_ofType hbound htypeTokens hmark },
    rfl, rfl, rfl, rfl, rfl, hnew, ?_, rfl⟩
  simp only [Slot.oldTail, Slot.newTail, List.length_append]
  omega

/-- The text of a type literal can stand for the type of a variable in any query, up to the number
of brackets that may be open, and stands for that very type literal. All else is as with a plain name
that takes equally much space. Different type literals have different texts. -/
theorem type_literals_read_back :
    (∀ (front back filler variableName : String) (start : Position) (opened : Nat) (t : TypeLiteral)
      (d : Document), AwaitsType front start variableName opened → FollowsType back →
      Token.IsName filler → Token.IsName t.innermost → filler.length = t.text.length →
      opened + t.depth ≤ Token.openLimit → parse? (front ++ filler ++ back) = some d →
        ∃ (earlier : List Definition) (o : Operation) (vs₁ : List VariableDefinition)
          (default : Option Literal) (vs₂ : List VariableDefinition) (later : List Definition),
          d = earlier ++ .operation { o with variableDefinitions :=
            vs₁ ++ ⟨start, variableName, .named filler false, default⟩ :: vs₂ } :: later ∧
          parse? (front ++ t.text ++ back) = some (earlier ++ .operation { o with
            variableDefinitions := vs₁ ++ ⟨start, variableName, t, default⟩ :: vs₂ } :: later)) ∧
      ∀ s t : TypeLiteral, Token.IsName s.innermost → Token.IsName t.innermost → s.text = t.text →
        s = t := by
  constructor
  · intro front back filler variableName start opened t d hfront hback hfiller ht hlength hdepth h
    obtain ⟨tokens, hscan, hd⟩ := Option.bind_eq_some_iff.mp h
    obtain ⟨before, bound, s, rfl, rfl, hold, rfl, rfl, hnew, hmore, hbound⟩ :=
      scan?_slot hfront hback hfiller ht hlength hdepth hscan
    obtain ⟨_, ⟨earlier, later, _, hdeclares, rfl⟩, hframe, hread⟩ :=
      s.ofTokens?_replaced hmore hbound hd
    obtain ⟨o, _, ⟨vs₁, vs₂, _, ⟨default, rfl⟩, rfl⟩, rfl⟩ := hdeclares
    rw [hold] at hframe
    exact ⟨earlier, o, vs₁, default, vs₂, later, hframe,
      Option.bind_eq_some_iff.mpr ⟨_, hnew, hread⟩⟩
  · intro s t hs ht h
    exact TypeLiteral.text_inj hs ht (congrArg String.toList h)

def films : Document :=
  [.operation ⟨⟨0, 0⟩, .query, none,
    [⟨⟨0, 6⟩, "first", .named "Int" false, none⟩,
      ⟨⟨0, 19⟩, "ids", .named "Integer" false, none⟩],
    [], [.field ⟨⟨0, 36⟩, none, "films", [], [], none⟩]⟩]

theorem awaitsType_ids : AwaitsType "query($first: Int, $ids: " ⟨0, 19⟩ "ids" 1 where
  declares := ⟨[⟨⟨0, 0⟩, .name "query"⟩, ⟨⟨0, 5⟩, .punctuator .openParen⟩,
    ⟨⟨0, 6⟩, .punctuator .dollar⟩, ⟨⟨0, 7⟩, .name "first"⟩, ⟨⟨0, 12⟩, .punctuator .colon⟩,
    ⟨⟨0, 14⟩, .name "Int"⟩], ⟨0, 20⟩, ⟨0, 23⟩, by cbv⟩
  leaves_open := by cbv
  goes_on := by
    intro hsame
    have hlength := congrArg (Option.map List.length) hsame
    cbv at hlength
    simp at hlength

theorem followsType_films : FollowsType ") \x7b films \x7d" where
  no_name := by
    rintro c ⟨⟩
    rfl
  no_mark := by
    cbv
    simp

theorem type_literals_read_back_sample :
    (∃ (earlier : List Definition) (o : Operation) (vs₁ : List VariableDefinition)
      (default : Option Literal) (vs₂ : List VariableDefinition) (later : List Definition),
      films = earlier ++ .operation { o with variableDefinitions :=
        vs₁ ++ ⟨⟨0, 19⟩, "ids", .named "Integer" false, default⟩ :: vs₂ } :: later ∧
      parse? ("query($first: Int, $ids: " ++ (TypeLiteral.list (.named "Int" true) true).text ++
        ") \x7b films \x7d") = some (earlier ++ .operation { o with variableDefinitions :=
          vs₁ ++ ⟨⟨0, 19⟩, "ids", .list (.named "Int" true) true, default⟩ :: vs₂ } :: later)) ∧
    (TypeLiteral.list (.named "Int" true) false).text ≠
      (TypeLiteral.list (.named "Int" false) true).text := by
  have hint : Token.IsName "Int" := ⟨'I', ['n', 't'], rfl, rfl, by simp [Token.isNamePart]⟩
  have hfiller : Token.IsName "Integer" :=
    ⟨'I', ['n', 't', 'e', 'g', 'e', 'r'], rfl, rfl, by simp [Token.isNamePart]⟩
  constructor
  · exact type_literals_read_back.1 _ _ "Integer" _ _ 1 (.list (.named "Int" true) true) films
      awaitsType_ids followsType_films hfiller hint (by cbv) (by cbv) (by cbv)
  · intro hsame
    exact absurd (type_literals_read_back.2 (.list (.named "Int" true) false)
      (.list (.named "Int" false) true) hint hint hsame) (by decide)

end Document

end Trellis
