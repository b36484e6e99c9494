import Trellis.Proofs.Execution.Place
import Trellis.Value.Path

/-!
Addresses of the nodes of a value.

An address writes down segments, each a field with the indices of list elements below it. Looking an
address up comes to the same as going its way one step after another, so it fails where the way
ends, and nowhere else. As long as no key has one of the two characters that cut an address, every
way that starts at a field has an address.
-/

namespace Trellis.Value

/-! ### Ways that end -/

/-- A step that leads nowhere: only an object has fields, and only a list has elements. -/
inductive Stuck : Value → PathSegment → Prop
  | notObject {v : Value} {key : String} : v.object? = none → Stuck v (.field key)
  | noField {v : Value} {fields : Object} {key : String} :
      v.object? = some fields → fields.get? key = none → Stuck v (.field key)
  | notList {v : Value} {i : Nat} : v.list? = none → Stuck v (.index i)
  | outOfRange {v : Value} {items : List Value} {i : Nat} :
      v.list? = some items → items.length ≤ i → Stuck v (.index i)

theorem step?_eq_none_iff {v : Value} {step : PathSegment} :
    v.step? step = none ↔ v.Stuck step := by
  cases step with
  | field key =>
    cases hfields : v.object? with
    | none => simp [step?, hfields, Stuck.notObject hfields]
    | some fields =>
      simp only [step?, hfields, Option.bind_some]
      refine ⟨Stuck.noField hfields, ?_⟩
      rintro (hnone | ⟨hsame, hmissing⟩)
      · simp [hnone] at hfields
      · rw [hfields] at hsame
        rwa [Option.some.inj hsame]
  | index i =>
    cases hitems : v.list? with
    | none => simp [step?, hitems, Stuck.notList hitems]
    | some items =>
      simp only [step?, hitems, Option.bind_some, List.getElem?_eq_none_iff]
      refine ⟨Stuck.outOfRange hitems, ?_⟩
      rintro (_ | _ | hnone | ⟨hsame, hrange⟩)
      · simp [hnone] at hitems
      · rw [hitems] at hsame
        rwa [Option.some.inj hsame]

/-- A way leads nowhere if and only if one of its steps does. -/
theorem follow?_eq_none_iff {v : Value} {path : Path} :
    v.follow? path = none ↔ ∃ first step rest w,
      path = first ++ step :: rest ∧ v.follow? first = some w ∧ w.Stuck step := by
  induction path generalizing v with
  | nil => simp
  | cons step path ih =>
    rw [follow?_cons]
    constructor
    · intro h
      cases hstep : v.step? step with
      | none => exact ⟨[], step, path, v, rfl, rfl, step?_eq_none_iff.mp hstep⟩
      | some w =>
        rw [hstep, Option.bind_some, ih] at h
        obtain ⟨first, last, rest, u, rfl, hfirst, hlast⟩ := h
        exact ⟨step :: first, last, rest, u, rfl, by simp [hstep, hfirst], hlast⟩
    · rintro ⟨first, last, rest, w, hpath, hfirst, hlast⟩
      cases first with
      | nil =>
        simp only [List.nil_append, List.cons.injEq] at hpath
        simp only [follow?_nil, Option.some.injEq] at hfirst
        rw [hpath.1, hfirst, step?_eq_none_iff.mpr hlast, Option.bind_none]
      | cons next first =>
        simp only [List.cons_append, List.cons.injEq] at hpath
        rw [← hpath.1, follow?_cons] at hfirst
        obtain ⟨u, hu, hfirst⟩ := Option.bind_eq_some_iff.mp hfirst
        rw [hu, Option.bind_some, ih]
        exact ⟨first, last, rest, w, hpath.2, hfirst, hlast⟩

/-! ### Lists whose elements can be numbered -/

mutual

/-- No list in a value has more elements than there are machine words to number them. The values of
a program are always of this kind. -/
def ListsFit : Value → Prop
  | .null => True
  | .scalar _ => True
  | .list items => items.length ≤ UInt64.size ∧ ItemsFit items
  | .object fields => FieldsFit fields

def ItemsFit : List Value → Prop
  | [] => True
  | item :: items => ListsFit item ∧ ItemsFit items

def FieldsFit : List (String × Value) → Prop
  | [] => True
  | (_, value) :: fields => ListsFit value ∧ FieldsFit fields

end

theorem itemsFit_iff {items : List Value} : ItemsFit items ↔ ∀ item ∈ items, item.ListsFit := by
  induction items with
  | nil => simp [ItemsFit]
  | cons item items ih => simp [ItemsFit, ih]

theorem fieldsFit_iff {fields : List (String × Value)} :
    FieldsFit fields ↔ ∀ field ∈ fields, field.2.ListsFit := by
  induction fields with
  | nil => simp [FieldsFit]
  | cons field fields ih => simp [FieldsFit, ih]

theorem ListsFit.step {v w : Value} (h : v.ListsFit) {step : PathSegment}
    (hstep : v.step? step = some w) : w.ListsFit := by
  cases v with
  | null | scalar => cases step <;> cases hstep
  | list items =>
    cases step with
    | field key => cases hstep
    | index i => exact itemsFit_iff.mp h.2 w (List.mem_of_getElem? hstep)
  | object fields =>
    cases step with
    | field key => exact fieldsFit_iff.mp h _ (Entries.mem_of_lookup hstep)
    | index i => cases hstep

theorem ListsFit.follow {v w : Value} (h : v.ListsFit) {path : Path}
    (hpath : v.follow? path = some w) : w.ListsFit := by
  induction path generalizing v with
  | nil =>
    cases hpath
    exact h
  | cons step path ih =>
    rw [follow?_cons] at hpath
    obtain ⟨u, hu, hpath⟩ := Option.bind_eq_some_iff.mp hpath
    exact ih (h.step hu) hpath

/-! ### Segments -/

/-- A field with the indices of elements below it. -/
structure Segment where
  name : String
  indices : List Nat

/-- A name without the characters that cut an address. -/
def IsPlain (name : String) : Prop := '/' ∉ name.toList ∧ '[' ∉ name.toList

def indexText : List Nat → List Char
  | [] => []
  | i :: indices => '[' :: (Nat.toDigits 10 i ++ ']' :: indexText indices)

namespace Segment

def text (s : Segment) : String := s.name ++ String.ofList (indexText s.indices)

def steps (s : Segment) : Path := .field s.name :: s.indices.map .index

end Segment

def address (segments : List Segment) : String := Text.join "/" (segments.map Segment.text)

def way (segments : List Segment) : Path := segments.flatMap Segment.steps

theorem notMem_toDigits {c : Char} (h : c.isDigit = false) (i : Nat) : c ∉ Nat.toDigits 10 i := by
  intro hmem
  simp [Nat.isDigit_of_mem_toDigits (by decide) (by decide) hmem] at h

theorem slash_notMem_indexText (indices : List Nat) : '/' ∉ indexText indices := by
  induction indices with
  | nil => simp [indexText]
  | cons i indices ih => simp [indexText, ih, notMem_toDigits (c := '/') rfl i]

/-- The text after the first bracket is cut into the digits of the indices, each with the bracket
that closes it. -/
theorem split_indexText (i : Nat) (indices : List Nat) :
    Text.split '[' (Nat.toDigits 10 i ++ ']' :: indexText indices) =
      (i :: indices).map fun j => Nat.toDigits 10 j ++ [']'] := by
  have hpiece : '[' ∉ Nat.toDigits 10 i ++ [']'] := by
    simp [notMem_toDigits (c := '[') rfl i]
  induction indices generalizing i with
  | nil => rw [indexText, Text.split_of_notMem hpiece, List.map_singleton]
  | cons j indices ih =>
    have hsplit : Nat.toDigits 10 i ++ ']' :: indexText (j :: indices) =
        (Nat.toDigits 10 i ++ [']']) ++ '[' :: (Nat.toDigits 10 j ++ ']' :: indexText indices) := by
      simp [indexText]
    rw [hsplit, Text.split_append hpiece, ih j (by simp [notMem_toDigits (c := '[') rfl j])]
    rfl

/-- An index that is written in decimal leads to the element with that number. One that is no
machine word is refused, and there is no such element either. -/
theorem stepIndices_cons {v : Value} (h : v.ListsFit) (i : Nat) (pieces : List (List Char)) :
    stepIndices v ((Nat.toDigits 10 i ++ [']']) :: pieces) =
      (v.step? (.index i)).bind (stepIndices · pieces) := by
  have hpiece : (Nat.toDigits 10 i ++ [']']).reverse = ']' :: (Nat.toDigits 10 i).reverse := by simp
  rw [stepIndices, if_neg (by simp), hpiece]
  simp only [List.reverse_reverse, Text.word?_toDigits]
  by_cases hword : i < UInt64.size
  · simp only [if_pos hword, step?, Option.bind_eq_bind, Option.bind_some, Option.bind_assoc]
  · have hnone : v.step? (.index i) = none := by
      rw [step?_eq_none_iff]
      cases v with
      | list items => exact .outOfRange rfl (Nat.le_trans h.1 (Nat.le_of_not_lt hword))
      | _ => exact .notList rfl
    rw [if_neg hword, hnone]
    rfl

theorem stepIndices_map {v : Value} (h : v.ListsFit) (indices : List Nat) :
    stepIndices v (indices.map fun j => Nat.toDigits 10 j ++ [']']) =
      v.follow? (indices.map .index) := by
  induction indices generalizing v with
  | nil => rfl
  | cons i indices ih =>
    rw [List.map_cons, stepIndices_cons h, List.map_cons, follow?_cons]
    cases hstep : v.step? (.index i) with
    | none => rfl
    | some w => exact ih (h.step hstep)

/-- A segment is read as the steps it was written for. -/
theorem stepSegment_text {v : Value} (h : v.ListsFit) {s : Segment} (hplain : IsPlain s.name) :
    stepSegment v s.text.toList = v.follow? s.steps := by
  obtain ⟨name, indices⟩ := s
  have hfield (rest : Value → Option Value) :
      (do let fields ← v.object?
          let found ← Object.get? fields name
          rest found) = (v.step? (.field name)).bind rest := by
    simp [step?, Option.bind_assoc]
  have hcut : ∃ after, Text.cut '[' (Segment.text ⟨name, indices⟩).toList = (name.toList, after) ∧
      ∀ w : Value, w.ListsFit →
        stepIndices w (Text.split '[' (after.getD [])) = w.follow? (indices.map .index) := by
    cases indices with
    | nil =>
      refine ⟨none, ?_, fun w _ => ?_⟩
      · simp [Segment.text, indexText, Text.cut_of_notMem hplain.2]
      · simp [Text.split, stepIndices]
    | cons i indices =>
      refine ⟨some (Nat.toDigits 10 i ++ ']' :: indexText indices), ?_, fun w hw => ?_⟩
      · simp [Segment.text, indexText, Text.cut_append hplain.2]
      · rw [Option.getD_some, split_indexText, stepIndices_map hw]
  obtain ⟨after, htext, hindices⟩ := hcut
  rw [stepSegment, htext]
  simp only [String.ofList_toList]
  rw [hfield, Segment.steps, follow?_cons]
  cases hstep : v.step? (.field name) with
  | none => rfl
  | some w => exact hindices w (h.step hstep)

/-! ### Addresses -/

theorem follow?_append (v : Value) (first rest : Path) :
    v.follow? (first ++ rest) = (v.follow? first).bind (·.follow? rest) := by
  rw [follow?, List.foldlM_append]
  rfl

theorem stepSegments {v : Value} (h : v.ListsFit) {segments : List Segment}
    (hplain : ∀ s ∈ segments, IsPlain s.name) :
    (segments.map fun s => s.text.toList).foldlM stepSegment v = v.follow? (way segments) := by
  induction segments generalizing v with
  | nil => rfl
  | cons s segments ih =>
    obtain ⟨hs, hsegments⟩ := List.forall_mem_cons.mp hplain
    rw [List.map_cons, List.foldlM_cons, stepSegment_text h hs, way, List.flatMap_cons,
      follow?_append]
    cases hstep : v.follow? s.steps with
    | none => rfl
    | some w => exact ih (h.follow hstep) hsegments

theorem lookup?_address {v : Value} (h : v.ListsFit) {segments : List Segment}
    (hne : segments ≠ []) (hplain : ∀ s ∈ segments, IsPlain s.name) :
    v.lookup? (address segments) = v.follow? (way segments) := by
  have hslash : ∀ text ∈ segments.map Segment.text, '/' ∉ text.toList := by
    simp only [List.forall_mem_map]
    intro s hs
    simp [Segment.text, (hplain s hs).1, slash_notMem_indexText]
  have hsplit : Text.split '/' (address segments).toList =
      (segments.map Segment.text).map String.toList :=
    Text.split_join '/' (by simpa using hne) hslash
  rw [lookup?, hsplit, List.map_map]
  exact stepSegments h hplain

/-- Every way is some indices and then the way of segments. -/
theorem exists_segments (path : Path) : ∃ (indices : List Nat) (segments : List Segment),
    path = indices.map .index ++ way segments ∧
      ∀ s ∈ segments, PathSegment.field s.name ∈ path := by
  induction path with
  | nil => exact ⟨[], [], rfl, by simp⟩
  | cons step path ih =>
    obtain ⟨indices, segments, hpath, hnames⟩ := ih
    cases step with
    | field key =>
      refine ⟨[], ⟨key, indices⟩ :: segments, ?_, ?_⟩
      · simp [way, Segment.steps, hpath]
      · simp only [List.forall_mem_cons]
        exact ⟨by simp, fun s hs => List.mem_cons_of_mem _ (hnames s hs)⟩
    | index i =>
      refine ⟨i :: indices, segments, ?_, fun s hs => List.mem_cons_of_mem _ (hnames s hs)⟩
      simp [hpath]

/-- An address leads where its steps lead, one after another, and it leads nowhere if and only if
one of them does: because what was reached is no object or no list, or has no such field or element.
Every node below the root has an address if the way to it starts at a field and none of the fields
has a slash or an opening bracket in its name. -/
theorem addresses_followed {v : Value} (h : v.ListsFit) :
    (∀ segments : List Segment, segments ≠ [] → (∀ s ∈ segments, IsPlain s.name) →
      v.lookup? (address segments) = v.follow? (way segments) ∧
      (v.lookup? (address segments) = none ↔ ∃ first step rest w,
        way segments = first ++ step :: rest ∧ v.follow? first = some w ∧ w.Stuck step)) ∧
    ∀ key path node, v.follow? (.field key :: path) = some node →
      (∀ name, .field name ∈ .field key :: path → IsPlain name) →
        ∃ segments, segments ≠ [] ∧ (∀ s ∈ segments, IsPlain s.name) ∧
          way segments = .field key :: path ∧ v.lookup? (address segments) = some node := by
  refine ⟨fun segments hne hplain => ?_, fun key path node hnode hplain => ?_⟩
  · rw [lookup?_address h hne hplain]
    exact ⟨rfl, follow?_eq_none_iff⟩
  · obtain ⟨indices, segments, hpath, hnames⟩ := exists_segments path
    have hway : way (⟨key, indices⟩ :: segments) = .field key :: path := by
      simp [way, Segment.steps, hpath]
    have hsegments : ∀ s ∈ ⟨key, indices⟩ :: segments, IsPlain s.name := by
      simp only [List.forall_mem_cons]
      exact ⟨hplain key (by simp), fun s hs => hplain _ (List.mem_cons_of_mem _ (hnames s hs))⟩
    refine ⟨⟨key, indices⟩ :: segments, by simp, hsegments, hway, ?_⟩
    rw [lookup?_address h (by simp) hsegments, hway, hnode]

def nested : Value :=
  .object [("all", .list [.object [("id", .scalar (.int 1))],
    .object [("id", .scalar (.int 2)),
      ("kids", .list [.list [.scalar (.int 7), .scalar (.int 8)]])]])]

theorem addresses_followed_sample :
    nested.ListsFit ∧ address [⟨"all", [1]⟩, ⟨"kids", [0, 1]⟩] = "all[1]/kids[0][1]" ∧
      nested.lookup? "all[1]/kids[0][1]" = some (.scalar (.int 8)) ∧
      nested.lookup? (address [⟨"all", [18446744073709551616]⟩, ⟨"id", []⟩]) = none ∧
      ∃ segments, way segments = [.field "all", .index 0, .field "id"] ∧
        nested.lookup? (address segments) = some (.scalar (.int 1)) := by
  have hfit : nested.ListsFit := by simp [nested, ListsFit, ItemsFit, FieldsFit, UInt64.size]
  have hplain : ∀ name ∈ ["all", "kids", "id"], IsPlain name := by
    simp [IsPlain]
  have haddress : address [⟨"all", [1]⟩, ⟨"kids", [0, 1]⟩] = "all[1]/kids[0][1]" := by decide
  obtain ⟨hfollow, hreach⟩ := addresses_followed hfit
  have hkid := (hfollow [⟨"all", [1]⟩, ⟨"kids", [0, 1]⟩] (by simp) (by simp [hplain])).1
  have hlarge := (hfollow [⟨"all", [18446744073709551616]⟩, ⟨"id", []⟩] (by simp)
    (by simp [hplain])).2
  rw [haddress] at hkid
  refine ⟨hfit, haddress, hkid, hlarge.mpr ?_, ?_⟩
  · exact ⟨[.field "all"], .index 18446744073709551616, [.field "id"], _, rfl, rfl,
      .outOfRange rfl (by simp)⟩
  · obtain ⟨segments, -, -, hway, hnode⟩ := hreach "all" [.index 0, .field "id"]
      (.scalar (.int 1)) rfl (by simp [hplain])
    exact ⟨segments, hway, hnode⟩

end Trellis.Value
