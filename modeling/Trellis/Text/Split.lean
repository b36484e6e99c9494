/-!
Cutting lists of characters.
-/

namespace Trellis.Text

/-- The pieces between the occurrences of a separator. There is one piece more than there are
separators. -/
def split (separator : Char) : List Char → List (List Char)
  | [] => [[]]
  | c :: rest =>
    if c = separator then [] :: split separator rest
    else match split separator rest with
      | [] => [[c]]
      | piece :: pieces => (c :: piece) :: pieces

theorem split_ne_nil (separator : Char) (text : List Char) : split separator text ≠ [] := by
  cases text with
  | nil => simp [split]
  | cons c rest =>
    rw [split]
    split
    · simp
    · split <;> simp

theorem length_split (separator : Char) (text : List Char) :
    (split separator text).length = text.count separator + 1 := by
  induction text with
  | nil => rfl
  | cons c rest ih =>
    rw [split]
    split
    · next h => simp [h, ih]
    · next h =>
      rw [List.count_cons_of_ne h, ← ih]
      split
      · next e => exact absurd e (split_ne_nil separator rest)
      · next e => rw [e, List.length_cons, List.length_cons]

theorem split_of_notMem {separator : Char} {text : List Char} (h : separator ∉ text) :
    split separator text = [text] := by
  induction text with
  | nil => rfl
  | cons c rest ih =>
    simp only [List.mem_cons, not_or] at h
    rw [split, if_neg (Ne.symm h.1), ih h.2]

/-- A piece ends at the first separator after it. -/
theorem split_append {separator : Char} {piece : List Char} (h : separator ∉ piece)
    (rest : List Char) :
    split separator (piece ++ separator :: rest) = piece :: split separator rest := by
  induction piece with
  | nil => simp [split]
  | cons c piece ih =>
    simp only [List.mem_cons, not_or] at h
    rw [List.cons_append, split, if_neg (Ne.symm h.1), ih h.2]

/-- What stands before the first occurrence of a separator, and what stands after it, if it
occurs. -/
def cut (separator : Char) : List Char → List Char × Option (List Char)
  | [] => ([], none)
  | c :: rest =>
    if c = separator then ([], some rest)
    else
      let (before, after) := cut separator rest
      (c :: before, after)

theorem cut_of_notMem {separator : Char} {text : List Char} (h : separator ∉ text) :
    cut separator text = (text, none) := by
  induction text with
  | nil => rfl
  | cons c text ih =>
    simp only [List.mem_cons, not_or] at h
    rw [cut, if_neg (Ne.symm h.1), ih h.2]

theorem cut_append {separator : Char} {before : List Char} (h : separator ∉ before)
    (after : List Char) : cut separator (before ++ separator :: after) = (before, some after) := by
  induction before with
  | nil => simp [cut]
  | cons c before ih =>
    simp only [List.mem_cons, not_or] at h
    rw [List.cons_append, cut, if_neg (Ne.symm h.1), ih h.2]

/-- What stands up to the end of the first occurrence of a part, if it occurs. -/
def through? (part : List Char) : List Char → Option (List Char)
  | [] => none
  | c :: rest =>
    if part.isPrefixOf (c :: rest) then some part else (through? part rest).map (c :: ·)

/-- The texts joined with a separator between neighbours. -/
def join (separator : String) : List String → String
  | [] => ""
  | [s] => s
  | s :: rest => s ++ separator ++ join separator rest

/-- Texts that do not have the separator are the pieces of what they are joined to. -/
theorem split_join (separator : Char) {texts : List String} (hne : texts ≠ [])
    (h : ∀ text ∈ texts, separator ∉ text.toList) :
    split separator (join separator.toString texts).toList = texts.map String.toList := by
  induction texts with
  | nil => exact absurd rfl hne
  | cons first rest ih =>
    obtain ⟨hfirst, hrest⟩ := List.forall_mem_cons.mp h
    cases rest with
    | nil => rw [join, split_of_notMem hfirst, List.map_singleton]
    | cons second rest =>
      have hjoin : (join separator.toString (first :: second :: rest)).toList =
          first.toList ++ separator :: (join separator.toString (second :: rest)).toList := by
        simp [join]
      rw [hjoin, split_append hfirst, ih (by simp) hrest]
      rfl

end Trellis.Text
