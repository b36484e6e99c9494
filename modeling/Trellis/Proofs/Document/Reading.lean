import Trellis.Document.Grammar

/-!
What is read for a type and for a value.

The grammar reads what is written and translates it at the end. The same comes of translating each
part as soon as it is read, so types and values are read as by a grammar of literals.
-/

namespace Trellis.Document

namespace Parser

variable {α β : Type}

theorem many_map (f : α → β) (starts : Parser Bool) (item : Parser α) (n : Nat) :
    many starts (f <$> item) n = List.map f <$> many starts item n := by
  induction n with
  | zero => rfl
  | succ n ih =>
    simp only [many, ih, map_bind, bind_map_left]
    refine bind_congr fun more => ?_
    cases more with
    | false => rfl
    | true => simp

theorem keyed_map (f : α → β) (item : Parser α) :
    keyed (f <$> item) = (fun e => (e.1, f e.2)) <$> keyed item := by
  simp only [keyed, map_bind, map_pure, bind_map_left]

end Parser

open Trellis.Document.Parser

theorem sortFields_map {α β : Type} (f : α → β) (fields : List (String × α)) :
    sortFields (fields.map fun e => (e.1, f e.2)) =
      (sortFields fields).map fun e => (e.1, f e.2) := by
  rw [sortFields, sortFields, Entries.ofPairs_map]
  refine (List.map_mergeSort (f := fun e : String × α => (e.1, f e.2)) fun _ _ _ _ => ?_).symm
  rfl

theorem literal_marked (type : WrittenType) : WrittenType.literal <$> marked type = (do
    if ← accept .bang then pure (WrittenType.nonNull type).literal else pure type.literal) := by
  rw [marked, map_bind]
  refine bind_congr fun marks => ?_
  cases marks <;> rfl

/-- A layer of a type is followed by its mark. -/
theorem typeLiteral_succ (n : Nat) : typeLiteral (n + 1) = (do
    if ← accept .openBracket then
      let inner ← typeLiteral n
      expect .closeBracket
      pure (.list inner (← accept .bang))
    else
      let name ← name
      pure (.named name (← accept .bang))) := by
  simp only [typeLiteral, writtenType, map_bind]
  refine bind_congr fun opens => ?_
  cases opens with
  | false =>
    simp only [Bool.false_eq_true, if_false, map_bind, literal_marked]
    refine bind_congr fun name => bind_congr fun marks => ?_
    cases marks <;> rfl
  | true =>
    simp only [if_true, map_bind, bind_map_left, literal_marked]
    refine bind_congr fun inner => bind_congr fun _ => bind_congr fun marks => ?_
    cases marks <;> rfl

theorem value_succ (constant : Bool) (bound n : Nat) : value constant bound (n + 1) = (do
    match ← peek with
    | some (.name s) =>
      skip
      match s with
      | "true" => pure (.scalar (.boolean true))
      | "false" => pure (.scalar (.boolean false))
      | "null" => pure .null
      | _ => pure (.enum s)
    | some (.int i) => skip; pure (.scalar (.ofInt64 i))
    | some (.float x) => skip; pure (.scalar (.float x))
    | some (.string s) => skip; pure (.scalar (.string s))
    | some (.punctuator .dollar) =>
      if constant then failure
      else
        skip
        pure (.reference (← name))
    | some (.punctuator .openBracket) =>
      skip
      let items ← many valueStarts (value constant bound n) bound
      expect .closeBracket
      pure (.list items)
    | some (.punctuator .openBrace) =>
      skip
      let fields ← many isName (keyed (value constant bound n)) bound
      expect .closeBrace
      pure (.object (sortFields fields))
    | _ => failure) := by
  rw [value, writtenValue, map_bind]
  refine bind_congr fun head => ?_
  rcases head with _ | ⟨p⟩ | s | i | x | s
  · rfl
  · cases p with
    | openBracket =>
      simp only [value, many_map, map_bind, map_pure, bind_map_left, WrittenValue.literal,
        WrittenValue.literalItems_eq_map]
    | openBrace =>
      simp only [value, keyed_map, many_map, map_bind, map_pure, bind_map_left, WrittenValue.literal,
        WrittenValue.literalFields_eq_map, sortFields_map]
    | dollar =>
      cases constant with
      | false => simp only [Bool.false_eq_true, if_false, map_bind, map_pure, WrittenValue.literal]
      | true => rfl
    | _ => rfl
  · rw [map_bind]
    refine bind_congr fun _ => ?_
    split
    · rfl
    · rfl
    · rfl
    · simp_all [WrittenValue.literal]
  all_goals rfl

end Trellis.Document
