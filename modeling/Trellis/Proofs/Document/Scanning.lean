import Mathlib.Data.List.TakeWhile
import Trellis.Document.Token

/-!
Tokens of a text that is put together.

Unless it is a name or a number at the very end, a token of a text stays the same whatever the text
goes on with. So what is appended to a text is scanned on its own, as long as the text does not end
in a comment. The bound of the scanner never shows: with more than the length of the text, it makes
no difference.
-/

namespace Trellis.Document.Token

/-! ### Single tokens -/

theorem string?_append {text content rest : List Char} (h : string? text = some (content, rest))
    (more : List Char) :
    rest.length < text.length ∧ string? (text ++ more) = some (content, rest ++ more) := by
  fun_induction string? text generalizing content rest with
  | case1 => cases h
  | case2 tail =>
    cases h
    simp [string?]
  | case3 => cases h
  | case4 a b c d tail join hquote =>
    rename_i ih
    obtain ⟨x, hx, htail⟩ := Option.bind_eq_some_iff.mp h
    obtain ⟨⟨xs, last⟩, hlast, hsame⟩ := Option.bind_eq_some_iff.mp htail
    cases hsame
    obtain ⟨hlength, hstring⟩ := ih hlast
    refine ⟨by simp only [List.length_cons]; omega, ?_⟩
    simp [string?, hquote, hx, hstring]
  | case5 e tail hshort ih =>
    obtain ⟨x, hx, htail⟩ := Option.bind_eq_some_iff.mp h
    obtain ⟨⟨xs, last⟩, hlast, hsame⟩ := Option.bind_eq_some_iff.mp htail
    cases hsame
    obtain ⟨hlength, hstring⟩ := ih hlast
    have he : e ≠ 'u' := by
      rintro rfl
      cases hx
    refine ⟨by simp only [List.length_cons]; omega, ?_⟩
    simp [string?, he, hx, hstring]
  | case6 => cases h
  | case7 c tail hquote hcode hescape hraw ih =>
    obtain ⟨⟨xs, last⟩, hlast, hsame⟩ := Option.bind_eq_some_iff.mp h
    cases hsame
    obtain ⟨hlength, hstring⟩ := ih hlast
    obtain ⟨hfeed, hbackslash⟩ := not_or.mp hraw
    refine ⟨by simp only [List.length_cons]; omega, ?_⟩
    simp [string?, hbackslash, hfeed, hstring]

theorem block?_append {escaped : Bool} {text content rest : List Char}
    (h : block? escaped text = some (content, rest)) (more : List Char) :
    rest.length + 3 ≤ text.length ∧
      block? escaped (text ++ more) = some (content, rest ++ more) := by
  fun_induction block? escaped text generalizing content rest with
  | case1 tail ih =>
    obtain ⟨⟨inner, last⟩, hinner, hsame⟩ := Option.map_eq_some_iff.mp h
    cases hsame
    obtain ⟨hlength, hblock⟩ := ih hinner
    refine ⟨by simp only [List.length_cons]; omega, ?_⟩
    simp [block?, hblock]
  | case2 escaped tail hescaped =>
    cases h
    simp [block?, hescaped]
  | case3 escaped c tail hquotes ih =>
    obtain ⟨⟨inner, last⟩, hinner, hsame⟩ := Option.map_eq_some_iff.mp h
    cases hsame
    obtain ⟨hlength, hblock⟩ := ih hinner
    refine ⟨by simp only [List.length_cons]; omega, ?_⟩
    -- The end of the content is still to come, so what is appended cannot end it here.
    obtain ⟨d, e, tail, rfl⟩ : ∃ d e others, tail = d :: e :: others := by
      match tail, hlength with
      | d :: e :: others, _ => exact ⟨d, e, others, rfl⟩
      | [_], hlength | [], hlength => simp at hlength
    have hopen : ∀ others, c = '"' → d :: e :: tail ++ more = '"' :: '"' :: others → False := by
      intro others hc hquote
      simp only [List.cons_append, List.cons.injEq] at hquote
      exact hquotes tail hc (by rw [hquote.1, hquote.2.1])
    rw [List.cons_append, block?, hblock]
    · rfl
    · exact hopen
  | case4 => cases h

theorem punctuator?_of_isNameStart {c : Char} (h : isNameStart c = true) :
    punctuator? c = none := by
  unfold punctuator?
  split <;> simp_all [isNameStart]

theorem punctuator?_of_number {c : Char} (h : c = '-' ∨ c.isDigit = true) :
    punctuator? c = none := by
  unfold punctuator?
  split <;> simp_all

theorem next?_punctuator {c : Char} {p : Punctuator} (h : punctuator? c = some p)
    (rest : List Char) : next? (c :: rest) = some (.punctuator p, rest) := by
  have hdot : c ≠ '.' := by
    rintro rfl
    cases h
  have hquote : c ≠ '"' := by
    rintro rfl
    cases h
  simp [next?, hdot, hquote, h]

theorem next?_name {c : Char} (h : isNameStart c = true) (rest : List Char) :
    next? (c :: rest) = some (.name (String.ofList (c :: rest.takeWhile isNamePart)),
      rest.dropWhile isNamePart) := by
  have hdot : c ≠ '.' := by
    rintro rfl
    cases h
  have hquote : c ≠ '"' := by
    rintro rfl
    cases h
  simp [next?, hdot, hquote, punctuator?_of_isNameStart h, h]

theorem next?_number {c : Char} (hname : isNameStart c = false) (h : c = '-' ∨ c.isDigit = true)
    (rest : List Char) :
    next? (c :: rest) = (number? (c :: rest.takeWhile fun c => !endsNumber c)).map
      (·, rest.dropWhile fun c => !endsNumber c) := by
  have hdot : c ≠ '.' := by
    rintro rfl
    simp at h
  have hquote : c ≠ '"' := by
    rintro rfl
    simp at h
  simp [next?, hdot, hquote, punctuator?_of_number h, hname, h]

/-- How a text starts with a token, and what is left after it. -/
inductive StartsWith : List Char → Token → List Char → Prop
  | ellipsis (rest : List Char) :
    StartsWith ('.' :: '.' :: '.' :: rest) (.punctuator .ellipsis) rest
  | block {text content rest : List Char} (h : block? false text = some (content, rest)) :
    StartsWith ('"' :: '"' :: '"' :: text) (.string (String.ofList (blockValue content))) rest
  | string {text content rest : List Char} (hopen : ∀ others, text ≠ '"' :: '"' :: others)
    (h : string? text = some (content, rest)) :
    StartsWith ('"' :: text) (.string (String.ofList content)) rest
  | punctuator {c : Char} {p : Punctuator} (h : punctuator? c = some p) (rest : List Char) :
    StartsWith (c :: rest) (.punctuator p) rest
  | name {c : Char} (h : isNameStart c = true) (text : List Char) :
    StartsWith (c :: text) (.name (String.ofList (c :: text.takeWhile isNamePart)))
      (text.dropWhile isNamePart)
  | number {c : Char} {text : List Char} {token : Token} (hname : isNameStart c = false)
    (hc : c = '-' ∨ c.isDigit = true)
    (h : number? (c :: text.takeWhile fun c => !endsNumber c) = some token) :
    StartsWith (c :: text) token (text.dropWhile fun c => !endsNumber c)

theorem next?_eq_some_iff {text rest : List Char} {token : Token} :
    next? text = some (token, rest) ↔ StartsWith text token rest := by
  constructor
  · intro h
    fun_cases next? text with
    | case1 tail =>
      cases h
      exact .ellipsis _
    | case2 tail =>
      obtain ⟨⟨content, last⟩, hblock, hsame⟩ := Option.map_eq_some_iff.mp h
      cases hsame
      exact .block hblock
    | case3 tail hopen =>
      rw [next?] at h
      · obtain ⟨⟨content, last⟩, hstring, hsame⟩ := Option.map_eq_some_iff.mp h
        cases hsame
        exact .string hopen hstring
      · exact hopen
    | case4 c tail _ _ _ p hp =>
      rw [next?_punctuator hp] at h
      cases h
      exact .punctuator hp _
    | case5 c tail _ _ _ _ hname =>
      rw [next?_name hname] at h
      cases h
      exact .name hname _
    | case6 c tail _ _ _ _ hname hc =>
      rw [next?_number (by simpa using hname) hc] at h
      obtain ⟨token, htoken, hsame⟩ := Option.map_eq_some_iff.mp h
      cases hsame
      exact .number (by simpa using hname) hc htoken
    | case7 c tail _ _ _ hp hname hc => simp [next?, hp, hname, hc] at h
    | case8 => cases h
  · intro h
    cases h with
    | ellipsis => rfl
    | block h => simp [next?, h]
    | string hopen h =>
      rw [next?, h]
      · rfl
      · exact hopen
    | punctuator h => exact next?_punctuator h _
    | name h => exact next?_name h _
    | number hname hc h =>
      rw [next?_number hname hc, h]
      rfl

theorem unsigned?_ne_punctuator {negative : Bool} {text : List Char} {p : Punctuator} :
    unsigned? negative text ≠ some (.punctuator p) := by
  unfold unsigned?
  rcases cutExponent text with ⟨mantissa, exponent⟩
  dsimp only
  rcases Text.cut '.' mantissa with ⟨whole, fraction⟩
  intro h
  obtain ⟨digits, -, h⟩ := Option.bind_eq_some_iff.mp h
  cases fraction <;> cases exponent <;> simp [Option.bind_eq_some_iff] at h

theorem number?_ne_punctuator {text : List Char} {p : Punctuator} :
    number? text ≠ some (.punctuator p) := by
  unfold number?
  split <;> exact unsigned?_ne_punctuator

theorem run_append {test : Char → Bool} {run : List Char} (h : run.dropWhile test ≠ [])
    (more : List Char) :
    (run ++ more).takeWhile test = run.takeWhile test ∧
      (run ++ more).dropWhile test = run.dropWhile test ++ more := by
  induction run with
  | nil => exact absurd rfl h
  | cons c run ih =>
    by_cases hc : test c
    · simp only [List.dropWhile_cons, hc, if_true] at h
      simp [hc, ih h]
    · simp [hc]

/-- A token has at least one character. -/
theorem length_next? {text rest : List Char} {token : Token} (h : next? text = some (token, rest)) :
    rest.length < text.length := by
  rw [next?_eq_some_iff] at h
  cases h with
  | ellipsis rest =>
    simp only [List.length_cons]
    omega
  | block h =>
    have := (block?_append h []).1
    simp only [List.length_cons]
    omega
  | string hopen h =>
    have := (string?_append h []).1
    simp only [List.length_cons]
    omega
  | punctuator h rest => simp
  | name h text =>
    have := List.length_dropWhile_le isNamePart text
    simp only [List.length_cons]
    omega
  | @number c text token hname hc h =>
    have := List.length_dropWhile_le (fun c => !endsNumber c) text
    simp only [List.length_cons]
    omega

/-- A token that something follows, or a punctuator, is the same whatever else follows. -/
theorem next?_append {text rest : List Char} {token : Token} (h : next? text = some (token, rest))
    (hend : rest ≠ [] ∨ ∃ p, token = .punctuator p) (more : List Char) :
    next? (text ++ more) = some (token, rest ++ more) := by
  rw [next?_eq_some_iff] at h ⊢
  cases h with
  | ellipsis rest => exact .ellipsis _
  | block h => exact .block (block?_append h more).2
  | @string text content rest hopen h =>
    have hrest : rest ≠ [] := by simpa using hend
    obtain ⟨hlength, hmore⟩ := string?_append h more
    refine .string ?_ hmore
    -- An empty string has something after it, which is no third quote.
    obtain ⟨c, d, tail, rfl⟩ : ∃ c d others, text = c :: d :: others := by
      have := List.length_pos_iff.mpr hrest
      match text, hlength with
      | c :: d :: others, _ => exact ⟨c, d, others, rfl⟩
      | [_], hlength | [], hlength =>
        simp only [List.length_cons, List.length_nil] at hlength
        omega
    intro others (hquote : c :: d :: (tail ++ more) = '"' :: '"' :: others)
    simp only [List.cons.injEq] at hquote
    exact hopen tail (by rw [hquote.1, hquote.2.1])
  | punctuator h rest => exact .punctuator h _
  | name h text =>
    obtain ⟨htake, hdrop⟩ := run_append (by simpa using hend) more
    rw [← htake, ← hdrop]
    exact .name h _
  | @number c text token hname hc h =>
    have hrest : text.dropWhile (fun c => !endsNumber c) ≠ [] := by
      refine hend.resolve_right ?_
      rintro ⟨p, rfl⟩
      exact number?_ne_punctuator h
    obtain ⟨htake, hdrop⟩ := run_append hrest more
    rw [← hdrop]
    exact .number hname hc (by rw [← htake] at h; exact h)

theorem next?_bang {text rest : List Char} (h : next? text = some (.punctuator .bang, rest)) :
    text.head? = some '!' := by
  rw [next?_eq_some_iff] at h
  cases h with
  | punctuator h rest =>
    unfold punctuator? at h
    split at h <;> simp_all
  | number hname hc h => exact absurd h number?_ne_punctuator

/-! ### Blanks -/

/-- The characters that may stand between tokens, and the one that starts a comment. -/
def blanks : List Char := ['\ufeff', '\r', '\t', '\n', ' ', ',', '#']

theorem skipBlanks_of_notMem {c : Char} (h : c ∉ blanks) (p : Position) (rest : List Char) :
    skipBlanks false p (c :: rest) = (p, c :: rest) := by
  simp only [blanks, List.mem_cons, List.not_mem_nil, or_false, not_or] at h
  simp [skipBlanks, h]

/-- A character is either where blanks end, or it only changes the place and whether a comment goes
on. -/
theorem skipBlanks_cons (inComment : Bool) (c : Char) :
    (∀ p rest, skipBlanks inComment p (c :: rest) = (p, c :: rest)) ∨
      ∃ later, ∀ p, ∃ q, ∀ rest, skipBlanks inComment p (c :: rest) = skipBlanks later q rest := by
  cases inComment with
  | true =>
    by_cases hc : c = '\r' ∨ c = '\n'
    · exact .inr ⟨false, fun p => ⟨⟨p.line + 1, 0⟩, fun rest => by simp [skipBlanks, hc]⟩⟩
    · exact .inr ⟨true, fun p => ⟨p, fun rest => by simp [skipBlanks, hc]⟩⟩
  | false =>
    by_cases hc : c ∈ blanks
    · right
      simp only [blanks, List.mem_cons, List.not_mem_nil, or_false] at hc
      rcases hc with rfl | rfl | rfl | rfl | rfl | rfl | rfl
      all_goals exact ⟨_, fun p => ⟨_, fun rest => rfl⟩⟩
    · exact .inl (skipBlanks_of_notMem hc)

theorem length_skipBlanks (inComment : Bool) (p : Position) (text : List Char) :
    (skipBlanks inComment p text).2.length ≤ text.length := by
  induction text generalizing inComment p with
  | nil => simp [skipBlanks]
  | cons c text ih =>
    rcases skipBlanks_cons inComment c with hstay | ⟨later, hgo⟩
    · simp [hstay]
    · obtain ⟨q, hq⟩ := hgo p
      have := ih later q
      simp only [hq, List.length_cons]
      omega

theorem skipBlanks_append {inComment : Bool} {p q : Position} {c : Char} {text rest : List Char}
    (h : skipBlanks inComment p text = (q, c :: rest)) (more : List Char) :
    skipBlanks inComment p (text ++ more) = (q, c :: (rest ++ more)) := by
  induction text generalizing inComment p with
  | nil => simp [skipBlanks] at h
  | cons d text ih =>
    rcases skipBlanks_cons inComment d with hstay | ⟨later, hgo⟩
    · rw [hstay] at h
      cases h
      exact hstay ..
    · obtain ⟨q, hq⟩ := hgo p
      rw [hq] at h
      rw [List.cons_append, hq, ih h]

theorem skipBlanks_comment {run : List Char} (h : ∀ c ∈ run, c ≠ '\r' ∧ c ≠ '\n') (p : Position) :
    skipBlanks true p run = (p, []) := by
  induction run with
  | nil => rfl
  | cons c run ih =>
    obtain ⟨hc, hrun⟩ := List.forall_mem_cons.mp h
    simp [skipBlanks, hc, ih hrun]

/-- Where a text has nothing but blanks left, either it ends in a comment, or what is appended to it
goes on where it ended. -/
theorem skipBlanks_end {inComment : Bool} {p : Position} {text run : List Char}
    (h : (skipBlanks inComment p text).2 = []) (hrun : ∀ c ∈ run, c ≠ '\r' ∧ c ≠ '\n') :
    (skipBlanks inComment p (text ++ run)).2 = [] ∨
      ∃ q, ∀ more, skipBlanks inComment p (text ++ more) = skipBlanks false q more := by
  induction text generalizing inComment p with
  | nil =>
    cases inComment with
    | true => exact .inl (by rw [List.nil_append, skipBlanks_comment hrun])
    | false => exact .inr ⟨p, fun _ => rfl⟩
  | cons d text ih =>
    rcases skipBlanks_cons inComment d with hstay | ⟨later, hgo⟩
    · rw [hstay] at h
      cases h
    · obtain ⟨q, hq⟩ := hgo p
      rw [hq] at h
      simpa only [List.cons_append, hq] using ih h

theorem skipBlanks_snd (inComment : Bool) (p q : Position) (text : List Char) :
    (skipBlanks inComment p text).2 = (skipBlanks inComment q text).2 := by
  induction text generalizing inComment p q with
  | nil => rfl
  | cons c text ih =>
    rcases skipBlanks_cons inComment c with hstay | ⟨later, hgo⟩
    · simp [hstay]
    · obtain ⟨p', hp⟩ := hgo p
      obtain ⟨q', hq⟩ := hgo q
      rw [hp, hq, ih]

/-! ### Whole texts -/

theorem scanFrom?_congr {m n : Nat} {text : List Char} (hm : text.length < m)
    (hn : text.length < n) (opened : Nat) (p : Position) :
    scanFrom? m opened p text = scanFrom? n opened p text := by
  induction m generalizing n opened p text with
  | zero => omega
  | succ m ih =>
    obtain ⟨n, rfl⟩ : ∃ k, n = k + 1 := ⟨n - 1, by omega⟩
    have hlength := length_skipBlanks false p text
    rw [scanFrom?, scanFrom?]
    split
    · rfl
    · next start tail hne hskip =>
      rw [hskip] at hlength
      cases hnext : next? tail with
      | none => rfl
      | some result =>
        obtain ⟨token, rest⟩ := result
        have hshorter := length_next? hnext
        simp only [Option.bind_eq_bind, Option.bind_some]
        cases track? opened token with
        | none => rfl
        | some opened =>
          simp only [Option.bind_some]
          rw [ih (n := n) (by simp only at hlength; omega) (by simp only at hlength; omega)]

/-- The tokens of a text from a place on, with some brackets open before it. -/
def scanAt (opened : Nat) (p : Position) (text : List Char) : Option (List PlacedToken) :=
  scanFrom? (text.length + 1) opened p text

theorem scan?_eq (text : String) : scan? text = scanAt 0 .origin text.toList := by
  rw [scan?, scanAt, String.length_toList]

variable {opened : Nat} {p q start : Position} {c : Char} {text tail rest run : List Char}

theorem scanAt_of_blank (h : (skipBlanks false p text).2 = []) :
    scanAt opened p text = some [] := by
  cases hskip : skipBlanks false p text with
  | mk start left =>
    obtain rfl : left = [] := by simpa [hskip] using h
    rw [scanAt, scanFrom?, hskip]

theorem scanAt_of_skip (h : skipBlanks false p text = (start, c :: tail)) :
    scanAt opened p text = (next? (c :: tail)).bind fun (token, rest) =>
      (track? opened token).bind fun opened =>
        (scanAt opened (start.after ((c :: tail).take ((c :: tail).length - rest.length))) rest).map
          (⟨start, token⟩ :: ·) := by
  have hlength := length_skipBlanks false p text
  rw [h] at hlength
  rw [scanAt, scanFrom?, h]
  cases hnext : next? (c :: tail) with
  | none => simp [hnext]
  | some result =>
    obtain ⟨token, rest⟩ := result
    have hshorter := length_next? hnext
    simp only [hnext, Option.bind_eq_bind, Option.bind_some]
    cases track? opened token with
    | none => rfl
    | some opened =>
      simp only [Option.bind_some, scanAt]
      rw [scanFrom?_congr (n := rest.length + 1) (by simp only at hlength; omega) (by omega)]
      exact (Option.map_eq_bind).symm

theorem scanAt_congr {other : List Char} (h : skipBlanks false p text = skipBlanks false q other) :
    scanAt opened p text = scanAt opened q other := by
  cases hskip : skipBlanks false q other with
  | mk start left =>
    rw [hskip] at h
    cases left with
    | nil => rw [scanAt_of_blank (by rw [h]), scanAt_of_blank (by rw [hskip])]
    | cons c tail => rw [scanAt_of_skip h, scanAt_of_skip hskip]

/-- Number of brackets that are open after some tokens; none if there are too many on the way. -/
def trackAll? (opened : Nat) : List PlacedToken → Option Nat
  | [] => some opened
  | placed :: tokens => (track? opened placed.token).bind (trackAll? · tokens)

/-- If a text ends after a punctuator, and not in a comment, what is appended to it is scanned on
its own, from some place on. -/
theorem scanAt_append {tokens : List PlacedToken} (h : scanAt opened p text = some tokens)
    (hlast : ∀ placed ∈ tokens.getLast?, ∃ q, placed.token = .punctuator q)
    (hrun : ∀ c ∈ run, c ≠ '\r' ∧ c ≠ '\n') (hends : scanAt opened p (text ++ run) ≠ some tokens) :
    ∃ left q, trackAll? opened tokens = some left ∧
      ∀ more, scanAt opened p (text ++ more) = (scanAt left q more).map (tokens ++ ·) := by
  -- A token may have many characters, so the induction is on the length of the text.
  induction hlength : text.length using Nat.strong_induction_on
    generalizing text opened p tokens with
  | _ length ih =>
    cases hskip : skipBlanks false p text with
    | mk start left =>
      cases left with
      | nil =>
        rw [scanAt_of_blank (by rw [hskip])] at h
        cases h
        rcases skipBlanks_end (by rw [hskip]) hrun with hcomment | ⟨q, hq⟩
        · exact absurd (scanAt_of_blank hcomment) hends
        · exact ⟨opened, q, rfl, fun more => by simp [scanAt_congr (hq more)]⟩
      | cons c tail =>
        have hskipped := length_skipBlanks false p text
        rw [hskip] at hskipped
        rw [scanAt_of_skip hskip] at h
        obtain ⟨⟨token, rest⟩, hnext, h⟩ := Option.bind_eq_some_iff.mp h
        obtain ⟨opened', htrack, h⟩ := Option.bind_eq_some_iff.mp h
        obtain ⟨tokens, hrest, rfl⟩ := Option.map_eq_some_iff.mp h
        have hshorter := length_next? hnext
        -- Only the last token has nothing after it, and that one is a punctuator.
        have hend : rest ≠ [] ∨ ∃ p, token = .punctuator p := by
          by_cases hnil : rest = []
          · subst hnil
            rw [scanAt_of_blank rfl] at hrest
            cases hrest
            exact .inr (hlast _ rfl)
          · exact .inl hnil
        have hmore : ∀ more, scanAt opened p (text ++ more) =
            (scanAt opened' (start.after ((c :: tail).take ((c :: tail).length - rest.length)))
              (rest ++ more)).map (⟨start, token⟩ :: ·) := by
          intro more
          have hconsumed : (c :: (tail ++ more)).take
              ((c :: (tail ++ more)).length - (rest ++ more).length) =
                (c :: tail).take ((c :: tail).length - rest.length) := by
            rw [← List.cons_append, List.length_append, List.length_append, Nat.add_sub_add_right,
              List.take_append_of_le_length (Nat.sub_le ..)]
          rw [scanAt_of_skip (skipBlanks_append hskip more), ← List.cons_append,
            next?_append hnext hend more, Option.bind_some]
          simp only [List.cons_append, hconsumed, htrack, Option.bind_some]
        have hlast' : ∀ placed ∈ tokens.getLast?, ∃ q, placed.token = .punctuator q := by
          intro placed hplaced
          exact hlast placed (by simp [List.getLast?_cons, Option.mem_def.mp hplaced])
        have hends' : scanAt opened' _ (rest ++ run) ≠ some tokens := fun hsame =>
          hends (by rw [hmore, hsame]; rfl)
        obtain ⟨left, q, hleft, happend⟩ :=
          ih rest.length (by simp only at hskipped; omega) hrest hlast' hends' rfl
        refine ⟨left, q, ?_, fun more => ?_⟩
        · rw [trackAll?, htrack, Option.bind_some, hleft]
        · rw [hmore, happend, Option.map_map]
          rfl

/-! ### Single names and punctuators -/

/-- Whether a text is a name as the grammar has it. -/
def IsName (s : String) : Prop :=
  ∃ c rest, s.toList = c :: rest ∧ isNameStart c = true ∧ ∀ d ∈ rest, isNamePart d = true

theorem notMem_blanks_of_isNameStart (h : isNameStart c = true) : c ∉ blanks := by
  intro hc
  simp only [blanks, List.mem_cons, List.not_mem_nil, or_false] at hc
  rcases hc with rfl | rfl | rfl | rfl | rfl | rfl | rfl <;> cases h

theorem notMem_blanks_of_punctuator {mark : Punctuator} (h : punctuator? c = some mark) :
    c ∉ blanks := by
  intro hc
  simp only [blanks, List.mem_cons, List.not_mem_nil, or_false] at hc
  rcases hc with rfl | rfl | rfl | rfl | rfl | rfl | rfl <;> cases h

theorem after_of_notMem {run : List Char} (h : '\n' ∉ run) (p : Position) :
    p.after run = ⟨p.line, p.column + run.length⟩ := by
  induction run generalizing p with
  | nil => rfl
  | cons c run ih =>
    simp only [List.mem_cons, not_or] at h
    simp [Position.after, Ne.symm h.1, ih h.2, Nat.add_assoc, Nat.add_comm 1]

theorem scanAt_punctuator {mark : Punctuator} (h : punctuator? c = some mark) :
    scanAt opened p (c :: rest) = (track? opened (.punctuator mark)).bind fun opened =>
      (scanAt opened ⟨p.line, p.column + 1⟩ rest).map (⟨p, .punctuator mark⟩ :: ·) := by
  have hc : c ≠ '\n' := by
    rintro rfl
    cases h
  rw [scanAt_of_skip (skipBlanks_of_notMem (notMem_blanks_of_punctuator h) p rest),
    next?_punctuator h, Option.bind_some]
  simp [Position.after, hc]

theorem scanAt_name {s : String} (h : IsName s)
    (hrest : ∀ d ∈ rest.head?, isNamePart d = false) :
    scanAt opened p (s.toList ++ rest) =
      (scanAt opened ⟨p.line, p.column + s.length⟩ rest).map (⟨p, .name s⟩ :: ·) := by
  obtain ⟨c, run, hs, hc, hrun⟩ := h
  have hend : rest.takeWhile isNamePart = [] ∧ rest.dropWhile isNamePart = rest := by
    cases rest with
    | nil => simp
    | cons d rest => simp [hrest d rfl]
  have hline : '\n' ∉ c :: run := by
    intro hmem
    rcases List.mem_cons.mp hmem with rfl | hmem
    · cases hc
    · cases hrun _ hmem
  rw [hs, List.cons_append,
    scanAt_of_skip (skipBlanks_of_notMem (notMem_blanks_of_isNameStart hc) p _), next?_name hc,
    List.takeWhile_append_of_pos hrun, List.dropWhile_append_of_pos hrun, hend.1, hend.2,
    List.append_nil, Option.bind_some, ← hs, String.ofList_toList]
  have hconsumed : (c :: (run ++ rest)).take ((c :: (run ++ rest)).length - rest.length) =
      c :: run := by
    rw [← List.cons_append, List.length_append, Nat.add_sub_cancel, List.take_left]
  have hafter : p.after (c :: run) = ⟨p.line, p.column + s.length⟩ := by
    rw [after_of_notMem hline, ← hs, String.length_toList]
  simp only [hconsumed, hafter, track?, Option.bind_some]

end Trellis.Document.Token
