import Mathlib.Data.List.TakeWhile
import Trellis.Json.Reader
import Trellis.Literal.Json
import Trellis.Proofs.Document.Reading
import Trellis.Proofs.Typing.KeyOrder

/-!
Values written in a query and values sent along as JSON.

A JSON value can be written in a query instead: its keys without quotes, and all else as it is. The
reader of queries sorts the keys of objects, and the reader of JSON leaves them in place, but both
come to literals with the same content. So no input type tells the two apart. The one exception is a
zero with a minus sign, which JSON takes for a float.
-/

namespace Trellis

mutual

/-- Whether all numbers are whole and fit 64 bits with a sign. -/
def Json.isPlain : Json → Bool
  | .null | .boolean _ | .string _ => true
  | .integer n => (Width.int64? n).isSome
  | .real _ => false
  | .array items => Json.itemsArePlain items
  | .object entries => Json.entriesArePlain entries

def Json.itemsArePlain : List Json → Bool
  | [] => true
  | item :: items => item.isPlain && Json.itemsArePlain items

def Json.entriesArePlain : List (String × Json) → Bool
  | [] => true
  | (_, value) :: entries => value.isPlain && Json.entriesArePlain entries

end

namespace Document.Token

mutual

/-- The tokens of a JSON value that is written in a query. -/
def ofJson : Json → List Token
  | .null => [.name "null"]
  | .boolean true => [.name "true"]
  | .boolean false => [.name "false"]
  | .integer n => [.int (Int64.ofInt n)]
  | .real x => [.float x]
  | .string s => [.string s]
  | .array items =>
    .punctuator .openBracket :: (itemsOfJson items ++ [.punctuator .closeBracket])
  | .object entries => .punctuator .openBrace :: (entriesOfJson entries ++ [.punctuator .closeBrace])

def itemsOfJson : List Json → List Token
  | [] => []
  | item :: items => ofJson item ++ itemsOfJson items

def entriesOfJson : List (String × Json) → List Token
  | [] => []
  | (key, value) :: entries =>
    .name key :: .punctuator .colon :: (ofJson value ++ entriesOfJson entries)

end

end Document.Token

namespace Literal

mutual

/-- The literal that a JSON value stands for when it is written in a query. -/
def written : Json → Literal
  | .null => .null
  | .boolean b => .scalar (.boolean b)
  | .integer n => .scalar (.ofInt64 (Int64.ofInt n))
  | .real x => .scalar (.float x)
  | .string s => .scalar (.string s)
  | .array items => .list (itemsWritten items)
  | .object entries => .object (Document.sortFields (fieldsWritten entries))

def itemsWritten : List Json → List Literal
  | [] => []
  | item :: items => written item :: itemsWritten items

def fieldsWritten : List (String × Json) → List (String × Literal)
  | [] => []
  | (key, value) :: entries => (key, written value) :: fieldsWritten entries

end

end Literal

namespace Document

open Trellis.Document.Parser

/-! ### What the grammar reads -/

theorem Parser.pure_apply {α : Type} (x : α) (tokens : List PlacedToken) :
    (pure x : Parser α) tokens = some (x, tokens) := rfl

theorem Parser.bind_apply {α β : Type} (read : Parser α) (next : α → Parser β)
    (tokens : List PlacedToken) :
    (read >>= next) tokens = (read tokens).bind fun (x, rest) => next x rest := rfl

theorem Parser.map_apply {α β : Type} (f : α → β) (read : Parser α) (tokens : List PlacedToken) :
    (f <$> read) tokens = (read tokens).bind fun (x, rest) => some (f x, rest) := rfl

theorem Parser.many_stop {α : Type} {starts : Parser Bool} {item : Parser α} {n : Nat}
    {tokens : List PlacedToken} (h : starts tokens = some (false, tokens)) :
    many starts item (n + 1) tokens = some ([], tokens) := by
  simp [many, h, bind_apply, pure_apply]

theorem Parser.many_step {α : Type} {starts : Parser Bool} {item : Parser α} {n : Nat}
    {tokens rest last : List PlacedToken} {x : α} {xs : List α}
    (hstarts : starts tokens = some (true, tokens)) (hitem : item tokens = some (x, rest))
    (hrest : many starts item n rest = some (xs, last)) :
    many starts item (n + 1) tokens = some (x :: xs, last) := by
  simp [many, hstarts, hitem, hrest, bind_apply, map_apply]

variable {constant : Bool} {bound n : Nat} {start stop : Position} {tokens rest : List PlacedToken}

theorem value_list {items : List Literal}
    (h : many valueStarts (value constant bound n) bound tokens =
      some (items, ⟨stop, .punctuator .closeBracket⟩ :: rest)) :
    value constant bound (n + 1) (⟨start, .punctuator .openBracket⟩ :: tokens) =
      some (.list items, rest) := by
  rw [value_succ]
  simp [peek, skip, expect, h, bind_apply, map_apply]

theorem value_object {fields : List (String × Literal)}
    (h : many isName (keyed (value constant bound n)) bound tokens =
      some (fields, ⟨stop, .punctuator .closeBrace⟩ :: rest)) :
    value constant bound (n + 1) (⟨start, .punctuator .openBrace⟩ :: tokens) =
      some (.object (sortFields fields), rest) := by
  rw [value_succ]
  simp [peek, skip, expect, h, bind_apply, map_apply]

theorem Parser.keyed_eq {α : Type} {item : Parser α} {key : String} {colon : Position} {x : α}
    (h : item tokens = some (x, rest)) :
    keyed item (⟨start, .name key⟩ :: ⟨colon, .punctuator .colon⟩ :: tokens) =
      some ((key, x), rest) := by
  simp [keyed, name, peek, skip, expect, h, bind_apply, map_apply]

theorem Token.ofJson_ne_nil (j : Json) : Token.ofJson j ≠ [] := by
  cases j with
  | boolean b => cases b <;> simp [Token.ofJson]
  | null | integer | real | string | array | object => simp [Token.ofJson]

theorem valueStarts_ofJson (j : Json) {placed : List PlacedToken}
    (h : placed.map (·.token) = Token.ofJson j) (rest : List PlacedToken) :
    valueStarts (placed ++ rest) = some (true, placed ++ rest) := by
  cases j with
  | boolean b =>
    cases b <;> obtain ⟨⟨start, _⟩, tail, rfl, rfl, -⟩ := List.map_eq_cons_iff.mp h <;> rfl
  | null | integer | real | string | array | object =>
    obtain ⟨⟨start, _⟩, tail, rfl, rfl, -⟩ := List.map_eq_cons_iff.mp h
    rfl

mutual

/-- A JSON value that is written in a query is read as the literal that it stands for. -/
theorem value_ofJson (constant : Bool) (bound : Nat) :
    ∀ (j : Json) (n : Nat) (rest placed : List PlacedToken),
      placed.map (·.token) = Token.ofJson j → placed.length ≤ n → placed.length < bound →
        value constant bound n (placed ++ rest) = some (Literal.written j, rest)
  | .array items, n, rest, placed, h, hn, hbound => by
    obtain ⟨⟨start, _⟩, tail, rfl, rfl, htail⟩ := List.map_eq_cons_iff.mp h
    obtain ⟨inner, last, rfl, hinner, hlast⟩ := List.map_eq_append_iff.mp htail
    obtain ⟨⟨stop, _⟩, hlast, rfl⟩ := List.map_eq_singleton_iff.mp hlast
    subst hlast
    simp only [List.length_cons, List.length_append, List.length_nil] at hn hbound
    obtain ⟨n, rfl⟩ : ∃ m, n = m + 1 := ⟨n - 1, by omega⟩
    rw [Literal.written, List.cons_append, List.append_assoc]
    exact value_list (items_ofJson constant bound items n bound rest inner stop hinner (by omega)
      (by omega) (by omega))
  | .object entries, n, rest, placed, h, hn, hbound => by
    obtain ⟨⟨start, _⟩, tail, rfl, rfl, htail⟩ := List.map_eq_cons_iff.mp h
    obtain ⟨inner, last, rfl, hinner, hlast⟩ := List.map_eq_append_iff.mp htail
    obtain ⟨⟨stop, _⟩, hlast, rfl⟩ := List.map_eq_singleton_iff.mp hlast
    subst hlast
    simp only [List.length_cons, List.length_append, List.length_nil] at hn hbound
    obtain ⟨n, rfl⟩ : ∃ m, n = m + 1 := ⟨n - 1, by omega⟩
    rw [Literal.written, List.cons_append, List.append_assoc]
    exact value_object (entries_ofJson constant bound entries n bound rest inner stop hinner
      (by omega) (by omega) (by omega))
  | .boolean b, n, rest, placed, h, hn, _ => by
    cases b <;>
      obtain ⟨⟨start, _⟩, hplaced, rfl⟩ := List.map_eq_singleton_iff.mp h <;>
      subst hplaced <;>
      obtain ⟨n, rfl⟩ := Nat.exists_eq_add_of_le' hn <;> rfl
  | .null, n, rest, placed, h, hn, _ | .integer _, n, rest, placed, h, hn, _
  | .real _, n, rest, placed, h, hn, _ | .string _, n, rest, placed, h, hn, _ => by
    obtain ⟨⟨start, _⟩, hplaced, rfl⟩ := List.map_eq_singleton_iff.mp h
    subst hplaced
    obtain ⟨n, rfl⟩ := Nat.exists_eq_add_of_le' hn
    rfl

theorem items_ofJson (constant : Bool) (bound : Nat) :
    ∀ (items : List Json) (n k : Nat) (rest placed : List PlacedToken) (stop : Position),
      placed.map (·.token) = Token.itemsOfJson items → placed.length ≤ n →
        placed.length < bound → placed.length < k →
          many valueStarts (value constant bound n) k
              (placed ++ (⟨stop, .punctuator .closeBracket⟩ :: rest)) =
            some (Literal.itemsWritten items, ⟨stop, .punctuator .closeBracket⟩ :: rest)
  | [], n, k + 1, rest, placed, stop, h, _, _, _ => by
    obtain rfl := List.map_eq_nil_iff.mp h
    exact many_stop rfl
  | item :: items, n, k + 1, rest, placed, stop, h, hn, hbound, hk => by
    obtain ⟨first, later, rfl, hfirst, hlater⟩ := List.map_eq_append_iff.mp h
    simp only [List.length_append] at hn hbound hk
    have hpos : 0 < first.length := by
      refine List.length_pos_iff.mpr fun hnil => Token.ofJson_ne_nil item ?_
      rw [← hfirst, hnil, List.map_nil]
    rw [List.append_assoc, Literal.itemsWritten]
    exact many_step (valueStarts_ofJson item hfirst _)
      (value_ofJson constant bound item n _ first hfirst (by omega) (by omega))
      (items_ofJson constant bound items n k rest later stop hlater (by omega) (by omega)
        (by omega))

theorem entries_ofJson (constant : Bool) (bound : Nat) :
    ∀ (entries : List (String × Json)) (n k : Nat) (rest placed : List PlacedToken)
      (stop : Position),
      placed.map (·.token) = Token.entriesOfJson entries → placed.length ≤ n →
        placed.length < bound → placed.length < k →
          many isName (keyed (value constant bound n)) k
              (placed ++ (⟨stop, .punctuator .closeBrace⟩ :: rest)) =
            some (Literal.fieldsWritten entries, ⟨stop, .punctuator .closeBrace⟩ :: rest)
  | [], n, k + 1, rest, placed, stop, h, _, _, _ => by
    obtain rfl := List.map_eq_nil_iff.mp h
    exact many_stop rfl
  | (key, value) :: entries, n, k + 1, rest, placed, stop, h, hn, hbound, hk => by
    obtain ⟨⟨start, _⟩, tail, rfl, rfl, htail⟩ := List.map_eq_cons_iff.mp h
    obtain ⟨⟨colon, _⟩, values, rfl, rfl, hvalues⟩ := List.map_eq_cons_iff.mp htail
    obtain ⟨first, later, rfl, hfirst, hlater⟩ := List.map_eq_append_iff.mp hvalues
    simp only [List.length_cons, List.length_append] at hn hbound hk
    rw [List.cons_append, List.cons_append, List.append_assoc, Literal.fieldsWritten]
    exact many_step rfl
      (keyed_eq (value_ofJson constant bound value n _ first hfirst (by omega) (by omega)))
      (entries_ofJson constant bound entries n k rest later stop hlater (by omega) (by omega)
        (by omega))

end

end Document

namespace Literal

/-! ### Both readers come to the same content -/

theorem int64?_of_isSome {n : Int} (h : (Width.int64? n).isSome = true) :
    Width.int64? n = some (Int64.ofInt n) := by
  rw [Width.int64?] at h ⊢
  split at h
  · rename_i hfits
    rw [if_pos hfits]
  · cases h

theorem forall₂_put {key : String} {l m : Literal} (h : l.SameContent m)
    {fields others : List (String × Literal)} (hfields : List.Forall₂ SameField fields others) :
    List.Forall₂ SameField (Entries.put key l fields) (Entries.put key m others) := by
  induction hfields with
  | nil => exact .cons ⟨rfl, h⟩ .nil
  | @cons field other _ _ hfield hrest ih =>
    obtain ⟨k, v⟩ := field
    obtain ⟨k', v'⟩ := other
    obtain ⟨rfl : k = k', hvalue⟩ := hfield
    rw [Entries.put, Entries.put]
    split
    · exact .cons ⟨rfl, h⟩ hrest
    · exact .cons ⟨rfl, hvalue⟩ ih

/-- Repeated keys are merged alike. -/
theorem forall₂_ofPairs {fields others : List (String × Literal)}
    (h : List.Forall₂ SameField fields others) :
    List.Forall₂ SameField (Entries.ofPairs fields) (Entries.ofPairs others) := by
  have hfold (merged mergedOthers : List (String × Literal))
      (hmerged : List.Forall₂ SameField merged mergedOthers) :
      List.Forall₂ SameField
        (fields.foldl (fun entries pair => Entries.put pair.1 pair.2 entries) merged)
        (others.foldl (fun entries pair => Entries.put pair.1 pair.2 entries) mergedOthers) := by
    induction h generalizing merged mergedOthers with
    | nil => exact hmerged
    | cons hfield _ ih =>
      rw [List.foldl_cons, List.foldl_cons, hfield.1]
      exact ih _ _ (forall₂_put hfield.2 hmerged)
  exact hfold [] [] .nil

/-- An object that is read from a query has the content of one whose keys stay in place. -/
theorem sameContent_sortFields {fields others : List (String × Literal)}
    (h : List.Forall₂ SameField fields others) :
    SameContent (.object (Document.sortFields fields)) (.object (Entries.ofPairs others)) := by
  have hsorted : (Document.sortFields fields).Perm (Entries.ofPairs fields) :=
    List.mergeSort_perm ..
  obtain ⟨reordered, hfields, hperm⟩ := List.perm_comp_forall₂ hsorted (forall₂_ofPairs h)
  rw [SameContent]
  exact ⟨_, rfl, (hsorted.map _).nodup_iff.mpr (Entries.nodup_keys_ofPairs fields), reordered,
    hperm, sameFields_iff.mpr hfields⟩

mutual

/-- A plain JSON value has the same content if it is written in a query and if it is sent along. -/
theorem written_sameContent : ∀ j : Json, j.isPlain = true → (written j).SameContent (ofJson j)
  | .null, _ | .boolean _, _ | .real _, _ => by rw [written, ofJson, SameContent]
  | .string _, _ => by
    rw [written, ofJson, SameContent]
    rfl
  | .integer n, h => by
    rw [written, ofJson, int64?_of_isSome h, SameContent]
  | .array items, h => by
    rw [written, ofJson, SameContent]
    exact ⟨_, rfl, sameItems_iff.mpr (itemsWritten_sameContent items h)⟩
  | .object entries, h => by
    rw [written, ofJson]
    exact sameContent_sortFields (fieldsWritten_sameContent entries h)

theorem itemsWritten_sameContent : ∀ items : List Json, Json.itemsArePlain items = true →
    List.Forall₂ SameContent (itemsWritten items) (itemsOfJson items)
  | [], _ => .nil
  | item :: items, h => by
    obtain ⟨hitem, hitems⟩ := Bool.and_eq_true_iff.mp h
    rw [itemsWritten, itemsOfJson]
    exact .cons (written_sameContent item hitem) (itemsWritten_sameContent items hitems)

theorem fieldsWritten_sameContent : ∀ entries : List (String × Json),
    Json.entriesArePlain entries = true →
      List.Forall₂ SameField (fieldsWritten entries) (fieldsOfJson entries)
  | [], _ => .nil
  | (key, value) :: entries, h => by
    obtain ⟨hvalue, hentries⟩ := Bool.and_eq_true_iff.mp h
    rw [fieldsWritten, fieldsOfJson]
    exact .cons ⟨rfl, written_sameContent value hvalue⟩ (fieldsWritten_sameContent entries hentries)

end

end Literal

/-! ### Both readers take the same whole numbers -/

theorem Document.Token.digit_of_wholeDigits {digits : List Char}
    (h : wholeDigits? digits = some digits) {c : Char} (hc : c ∈ digits) : '0' ≤ c ∧ c ≤ '9' := by
  have hdigit {d : Char} (hd : (Decimal.digitValue? d).isSome = true) : '0' ≤ d ∧ d ≤ '9' := by
    rw [Decimal.digitValue?] at hd
    split at hd
    · assumption
    · cases hd
  rw [wholeDigits?.eq_def] at h
  split at h
  · obtain rfl := List.mem_singleton.mp hc
    decide
  · cases h
  · obtain ⟨n, hn, -⟩ := Option.map_eq_some_iff.mp h
    rw [Text.digits?] at hn
    split at hn
    · rename_i hall
      exact hdigit (List.all_eq_true.mp hall.2 c hc)
    · cases hn

/-- A whole number that fits 64 bits is read alike as JSON and in a query, unless it is zero and has
a minus sign. -/
theorem read_whole {negative : Bool} {digits : List Char} {n : Int}
    (hdigits : Document.Token.wholeDigits? digits = some digits)
    (hn : n = if negative then -(Decimal.digitsValue digits : Int) else Decimal.digitsValue digits)
    (hzero : negative = true → n ≠ 0) (hfits : (Width.int64? n).isSome = true) :
    Json.Reader.number? negative digits none = some (.integer n) ∧
      Document.Token.unsigned? negative digits = some (.int (Int64.ofInt n)) := by
  have hrange := (Width.int64?_isSome_iff n).mp hfits
  have least : Int64.minValue.toInt = -9223372036854775808 := by decide
  have greatest : Int64.maxValue.toInt = 9223372036854775807 := by decide
  constructor
  · cases negative with
    | true =>
      simp only [if_true] at hn
      have hnonzero : Decimal.digitsValue digits ≠ 0 := by
        have := hzero rfl
        omega
      simp only [Json.Reader.number?, ← hn, hfits, hnonzero, ne_eq, not_false_eq_true, and_self,
        if_true]
    | false =>
      simp only [Bool.false_eq_true, if_false] at hn
      have hsmall : Decimal.digitsValue digits < UInt64.size := by
        rw [UInt64.size]
        omega
      simp only [Json.Reader.number?, hsmall, hn, Bool.false_eq_true, if_false, if_true]
  · have hdigit (c : Char) (hc : c ∈ digits) : '0' ≤ c ∧ c ≤ '9' :=
      Document.Token.digit_of_wholeDigits hdigits hc
    have hletter (c : Char) (hc : c ∈ digits) : (c != 'e' && c != 'E') = true := by
      have hlow : c ≤ '9' := (hdigit c hc).2
      have he : c ≠ 'e' := fun h => absurd (h ▸ hlow) (by decide)
      have hE : c ≠ 'E' := fun h => absurd (h ▸ hlow) (by decide)
      simp [he, hE]
    have hexponent : Document.Token.cutExponent digits = (digits, none) := by
      rw [Document.Token.cutExponent, List.dropWhile_eq_nil_iff.mpr hletter]
    have hpoint : Text.cut '.' digits = (digits, none) :=
      Text.cut_of_notMem fun hmem => absurd (hdigit _ hmem) (by decide)
    simp only [Document.Token.unsigned?, hexponent, hpoint, hdigits, Option.bind_eq_bind,
      Option.bind_some, ← hn, Literal.int64?_of_isSome hfits, Option.map_some]

namespace Literal

/-- A plain JSON value is read alike whether it is written in a query or sent along as JSON: the
literals are equal up to the order of keys, and every host type decodes both to the same value or
refuses both. Every whole number that fits 64 bits is plain, but for a zero with a minus sign. -/
theorem written_decodes_alike :
    (∀ j : Json, j.isPlain = true → ∀ placed : List Document.PlacedToken,
      placed.map (·.token) = Document.Token.ofJson j → ∀ constant bound n rest,
        placed.length ≤ n → placed.length < bound →
          ∃ l, Document.value constant bound n (placed ++ rest) = some (l, rest) ∧
            l.SameContent (ofJson j) ∧ ∀ (u : Universe) (table : ScalarTable) (t : HostType),
              (u.decode table l t).toOption = (u.decode table (ofJson j) t).toOption) ∧
    ∀ negative digits n, Document.Token.wholeDigits? digits = some digits →
      n = (if negative then -(Decimal.digitsValue digits : Int) else Decimal.digitsValue digits) →
        (negative = true → n ≠ 0) → (Width.int64? n).isSome = true →
          Json.Reader.number? negative digits none = some (.integer n) ∧
            Document.Token.unsigned? negative digits = some (.int (Int64.ofInt n)) := by
  refine ⟨fun j hj placed hplaced constant bound n rest hn hbound => ?_,
    fun negative digits n => read_whole⟩
  have hsame := written_sameContent j hj
  exact ⟨written j, Document.value_ofJson constant bound j n rest placed hplaced hn hbound, hsame,
    fun u table t => Universe.decode_sameContent hsame t⟩

/-- A nested object whose keys are out of order, one of them twice. -/
theorem written_decodes_alike_sample :
    let j : Json := .object [("title", .string "Nightfall"), ("since", .integer 1990),
      ("near", .object [("b", .null), ("a", .array [.boolean true])]), ("since", .integer 1991)]
    let placed := (Document.Token.ofJson j).map fun token => ⟨.origin, token⟩
    j.isPlain = true ∧
      (∃ l, Document.value true 40 40 (placed ++ []) = some (l, []) ∧ l.SameContent (ofJson j) ∧
        ∀ (u : Universe) (table : ScalarTable) (t : HostType),
          (u.decode table l t).toOption = (u.decode table (ofJson j) t).toOption) ∧
      Json.Reader.number? true ['7'] none = some (.integer (-7)) ∧
      Document.Token.unsigned? true ['7'] = some (.int (Int64.ofInt (-7))) := by
  intro j placed
  have hj : j.isPlain = true := by decide
  have hplaced : placed.map (·.token) = Document.Token.ofJson j := by
    rw [List.map_map]
    exact List.map_id _
  exact ⟨hj, written_decodes_alike.1 j hj placed hplaced true 40 40 [] (by decide) (by decide),
    written_decodes_alike.2 true ['7'] (-7) (by rfl) (by decide) (by decide) (by decide)⟩

/-- A zero with a minus sign is a whole number in a query and a float in JSON, so the two are not
equal, and only one of them is decoded as a whole number. -/
theorem negative_zero_differs :
    Document.Token.scan? "-0" = some [⟨.origin, .int 0⟩] ∧
      Document.value true 2 2 [⟨.origin, .int 0⟩] = some (.scalar (.int 0), []) ∧
      Json.read? "-0" = some (.real (-0.0)) ∧
      ofJson (.real (-0.0)) = .scalar (.float (-0.0)) ∧
      ¬ (Literal.scalar (.int 0)).SameContent (.scalar (.float (-0.0))) ∧
      ∀ (u : Universe) (table : ScalarTable),
        (u.decode table (.scalar (.int 0)) .int).toOption = some (.int 0) ∧
          (u.decode table (.scalar (.float (-0.0))) .int).toOption = none := by
  have htext : "-0".toList = ['-', '0'] := by decide
  refine ⟨?_, rfl, ?_, by rw [ofJson], ?_, fun u table => ⟨?_, ?_⟩⟩
  · rw [Document.Token.scan?, htext]
    rfl
  · rw [Json.read?, Json.readStart?, htext]
    rfl
  · rw [SameContent]
    exact fun h => by cases h
  · rw [Universe.decode]
    rfl
  · rw [Universe.decode]
    rfl

end Literal

end Trellis
