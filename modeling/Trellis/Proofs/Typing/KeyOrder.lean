import Trellis.Proofs.Schema.Reordering
import Trellis.Proofs.Typing.Acceptance

/-!
The order of keys in literals.

Two literals have the same content if they are equal up to the order of keys, at every level of
lists and objects. No decoder tells them apart: they are decoded to the same value, or both are
refused.
-/

namespace Trellis

namespace Literal

mutual

/-- Equality up to the order of keys, of which objects have none twice. -/
def SameContent : Literal → Literal → Prop
  | .null, m => m = .null
  | .scalar s, m => m = .scalar s
  | .enum name, m => m = .enum name
  | .reference name, m => m = .reference name
  | .list items, m => ∃ others, m = .list others ∧ SameItems items others
  | .object fields, m => ∃ others, m = .object others ∧ (fields.map (·.1)).Nodup ∧
      ∃ reordered, reordered.Perm others ∧ SameFields fields reordered

def SameItems : List Literal → List Literal → Prop
  | [], others => others = []
  | item :: items, others => ∃ first rest, others = first :: rest ∧ SameContent item first ∧
      SameItems items rest

def SameFields : List (String × Literal) → List (String × Literal) → Prop
  | [], others => others = []
  | (key, value) :: fields, others => ∃ other rest, others = (key, other) :: rest ∧
      SameContent value other ∧ SameFields fields rest

end

theorem sameItems_iff {items others : List Literal} :
    SameItems items others ↔ List.Forall₂ SameContent items others := by
  induction items generalizing others with
  | nil => rw [SameItems, List.forall₂_nil_left_iff]
  | cons item items ih =>
    rw [SameItems, List.forall₂_cons_left_iff]
    constructor
    · rintro ⟨first, rest, rfl, hfirst, hrest⟩
      exact ⟨first, rest, hfirst, ih.mp hrest, rfl⟩
    · rintro ⟨first, rest, hfirst, hrest, rfl⟩
      exact ⟨first, rest, rfl, hfirst, ih.mpr hrest⟩

/-- Fields with the same keys whose values have the same content. -/
def SameField (a b : String × Literal) : Prop := a.1 = b.1 ∧ a.2.SameContent b.2

theorem sameFields_iff {fields others : List (String × Literal)} :
    SameFields fields others ↔ List.Forall₂ SameField fields others := by
  induction fields generalizing others with
  | nil => rw [SameFields, List.forall₂_nil_left_iff]
  | cons field fields ih =>
    obtain ⟨key, value⟩ := field
    rw [SameFields, List.forall₂_cons_left_iff]
    constructor
    · rintro ⟨other, rest, rfl, hvalue, hrest⟩
      exact ⟨(key, other), rest, ⟨rfl, hvalue⟩, ih.mp hrest, rfl⟩
    · rintro ⟨⟨_, other⟩, rest, ⟨rfl, hvalue⟩, hrest, rfl⟩
      exact ⟨other, rest, rfl, hvalue, ih.mpr hrest⟩

theorem keys_of_sameFields {fields others : List (String × Literal)}
    (h : List.Forall₂ SameField fields others) : fields.map (·.1) = others.map (·.1) := by
  induction h with
  | nil => rfl
  | cons hfield _ ih => rw [List.map_cons, List.map_cons, hfield.1, ih]

theorem rel_lookup {fields others : List (String × Literal)}
    (h : List.Forall₂ SameField fields others) (key : String) :
    Option.Rel SameContent (fields.lookup key) (others.lookup key) := by
  induction h with
  | nil => exact .none
  | @cons field other _ _ hfield _ ih =>
    obtain ⟨k, v⟩ := field
    obtain ⟨k', v'⟩ := other
    obtain ⟨rfl : k = k', hvalue⟩ := hfield
    rw [List.lookup_cons, List.lookup_cons]
    by_cases hk : key = k
    · subst hk
      simpa using Option.Rel.some hvalue
    · rw [beq_false_of_ne hk]
      exact ih

variable {l m : Literal}

/-- The fields of objects with the same content are found alike. -/
theorem SameContent.rel_last? {fields others : List (String × Literal)}
    (h : SameContent (.object fields) (.object others)) (key : String) :
    Option.Rel SameContent (last? fields key) (last? others key) := by
  rw [SameContent] at h
  obtain ⟨_, hothers, hkeys, reordered, hperm, hfields⟩ := h
  cases hothers
  have hfields := sameFields_iff.mp hfields
  have hnodup : (reordered.reverse.map (·.1)).Nodup := by
    rw [List.map_reverse, List.nodup_reverse, ← keys_of_sameFields hfields]
    exact hkeys
  have hreverse : reordered.reverse.Perm others.reverse :=
    (List.reverse_perm _).trans (hperm.trans (List.reverse_perm _).symm)
  rw [last?, last?, ← Entries.lookup_perm hreverse hnodup]
  exact rel_lookup (List.rel_reverse hfields) key

theorem SameContent.perm_keys {fields others : List (String × Literal)}
    (h : SameContent (.object fields) (.object others)) :
    (fields.map (·.1)).Perm (others.map (·.1)) := by
  rw [SameContent] at h
  obtain ⟨_, hothers, -, reordered, hperm, hfields⟩ := h
  cases hothers
  rw [keys_of_sameFields (sameFields_iff.mp hfields)]
  exact hperm.map _

theorem SameContent.eq_null_iff (h : l.SameContent m) : m = .null ↔ l = .null := by
  cases l <;> rw [SameContent] at h
  case list | object =>
    obtain ⟨_, rfl, -⟩ := h
    simp
  all_goals simp [h]

theorem SameContent.eq_list_iff (h : l.SameContent m) :
    (∃ items, m = .list items) ↔ ∃ items, l = .list items := by
  cases l <;> rw [SameContent] at h
  case list | object =>
    obtain ⟨_, rfl, -⟩ := h
    simp
  all_goals simp [h]

theorem SameContent.scalar? (h : l.SameContent m) : m.scalar? = l.scalar? := by
  cases l <;> rw [SameContent] at h
  case list | object =>
    obtain ⟨_, rfl, -⟩ := h
    rfl
  all_goals rw [h]

theorem SameContent.enum? (h : l.SameContent m) : m.enum? = l.enum? := by
  cases l <;> rw [SameContent] at h
  case list | object =>
    obtain ⟨_, rfl, -⟩ := h
    rfl
  all_goals rw [h]

theorem SameContent.string? (h : l.SameContent m) : m.string? = l.string? := by
  rw [Literal.string?, Literal.string?, h.scalar?]

end Literal

namespace Except

variable {ε ε' α β : Type}

theorem toOption_map (f : α → β) (x : Except ε α) : (x.map f).toOption = x.toOption.map f := by
  cases x <;> rfl

theorem toOption_mapError (f : ε → ε') (x : Except ε α) :
    (x.mapError f).toOption = x.toOption := by
  cases x <;> rfl

theorem toOption_bind (x : Except ε α) (f : α → Except ε β) :
    (x >>= f).toOption = x.toOption.bind fun a => (f a).toOption := by
  cases x <;> rfl

end Except

namespace Universe

open Literal (SameContent)

variable {u : Universe} {table : ScalarTable} {l m : Literal}

theorem decodeBuiltin_sameContent (h : l.SameContent m) (name : String)
    (view : Scalar → Option HostValue) :
    (decodeBuiltin name view l).toOption = (decodeBuiltin name view m).toOption := by
  rw [decodeBuiltin, decodeBuiltin, h.scalar?]
  cases l.scalar?.bind view <;> rfl

theorem decodeScalar_sameContent (h : l.SameContent m) (host : HostType) :
    (decodeScalar table host l).toOption = (decodeScalar table host m).toOption := by
  rw [decodeScalar, decodeScalar, h.scalar?]
  cases table host with
  | none => rfl
  | some scalar => cases l.scalar? <;> rfl

theorem decodeVariant_sameContent (h : l.SameContent m) (name : String) (values : List String) :
    (decodeVariant name values l).toOption = (decodeVariant name values m).toOption := by
  rw [decodeVariant, decodeVariant, h.enum?, h.string?]
  cases (l.enum?).or l.string? with
  | none => rfl
  | some label =>
    by_cases hmem : label ∈ values
    · simp only [hmem, if_true]
    · simp only [hmem, if_false]
      rfl

theorem checkKeys_congr {given others : List String} (h : ∀ key, key ∈ given ↔ key ∈ others)
    (name : String) (known : List String) :
    (checkKeys name known given).toOption = (checkKeys name known others).toOption := by
  have hok (keys : List String) : (checkKeys name known keys).toOption = some () ↔
      ∀ key ∈ keys, key ∈ known := by
    refine .trans ?_ (checkKeys_eq_ok : checkKeys name known keys = .ok () ↔ _)
    cases checkKeys name known keys <;> simp [Except.toOption]
  refine Option.ext fun _ => ?_
  rw [hok, hok]
  simp only [h]

theorem decodeItems_sameContent {t : HostType} {items others : List Literal}
    (h : List.Forall₂ SameContent items others)
    (hitems : ∀ l ∈ items, ∀ m, l.SameContent m →
      (u.decode table l t).toOption = (u.decode table m t).toOption) :
    (u.decodeItems table items t).toOption = (u.decodeItems table others t).toOption := by
  induction h with
  | nil => rfl
  | cons hitem _ ih =>
    obtain ⟨hfirst, hrest⟩ := List.forall_mem_cons.mp hitems
    rw [decodeItems, decodeItems, Except.toOption_bind, Except.toOption_bind, hfirst _ hitem]
    refine congrArg _ (funext fun v => ?_)
    rw [Except.toOption_bind, Except.toOption_bind, ih hrest]

theorem toOption_decodeFields_cons (fields : List (String × Literal)) (name : String) (t : HostType)
    (declared : List (String × HostType)) :
    (u.decodeFields table fields ((name, t) :: declared)).toOption =
      (u.decode table ((Literal.last? fields name).getD .null) t).toOption.bind fun v =>
        (u.decodeFields table fields declared).toOption.map ((name, v) :: ·) := by
  rw [decodeFields, Except.toOption_bind, Except.toOption_mapError]
  split
  all_goals
    rename_i hlast
    rw [hlast]
    refine congrArg _ (funext fun v => ?_)
    rw [Except.toOption_bind]
    cases u.decodeFields table fields declared <;> rfl

/-- Fields are decoded alike if their values are. -/
theorem decodeFields_sameContent {fields others : List (String × Literal)}
    {declared : List (String × HostType)}
    (h : ∀ field ∈ declared,
      (u.decode table ((Literal.last? fields field.1).getD .null) field.2).toOption =
        (u.decode table ((Literal.last? others field.1).getD .null) field.2).toOption) :
    (u.decodeFields table fields declared).toOption =
      (u.decodeFields table others declared).toOption := by
  induction declared with
  | nil => rw [decodeFields, decodeFields]
  | cons field declared ih =>
    obtain ⟨name, t⟩ := field
    obtain ⟨hfield, hdeclared⟩ := List.forall_mem_cons.mp h
    rw [toOption_decodeFields_cons, toOption_decodeFields_cons, hfield, ih hdeclared]

/-- Literals with the same content decode alike as every host type if all lighter ones do. -/
theorem decode_named_sameContent {path : String} (h : l.SameContent m)
    (ih : ∀ l', l'.weight < l.weight → ∀ m', l'.SameContent m' → ∀ t,
      (u.decode table l' t).toOption = (u.decode table m' t).toOption) :
    (u.decode table l (.named path)).toOption = (u.decode table m (.named path)).toOption := by
  cases hpath : u.definition? path with
  | none => simp only [decode, hpath]
  | some definition =>
    cases definition with
    | scalar =>
      simp only [decode, hpath]
      exact decodeScalar_sameContent h _
    | enumeration name values =>
      simp only [decode, hpath]
      exact decodeVariant_sameContent h name values
    | object name fields => simp only [decode, hpath]
    | disguise => simp only [decode, hpath]
    | mask shown => simp only [decode, hpath]
    | inputObject name declared =>
      cases l with
      | object fields =>
        have hobject := h
        rw [SameContent] at hobject
        obtain ⟨others, rfl, -⟩ := hobject
        have hkeys (key : String) : key ∈ Entries.keys (Entries.ofPairs fields) ↔
            key ∈ Entries.keys (Entries.ofPairs others) := by
          rw [Entries.mem_keys_ofPairs, Entries.mem_keys_ofPairs, h.perm_keys.mem_iff]
        have hfields : (u.decodeFields table fields declared).toOption =
            (u.decodeFields table others declared).toOption := by
          refine decodeFields_sameContent fun field _ => ?_
          have hrel := h.rel_last? field.1
          cases hl : Literal.last? fields field.1 with
          | none =>
            rw [hl] at hrel
            cases hm : Literal.last? others field.1 with
            | none => rfl
            | some m' =>
              rw [hm] at hrel
              cases hrel
          | some l' =>
            rw [hl] at hrel
            cases hm : Literal.last? others field.1 with
            | none =>
              rw [hm] at hrel
              cases hrel
            | some m' =>
              rw [hm] at hrel
              obtain ⟨hvalue⟩ := hrel
              have hlight := Literal.weight_lt_of_last? hl
              exact ih l' (by rw [Literal.weight]; omega) m' hvalue field.2
        simp only [decode, hpath, Except.toOption_bind, Except.toOption_map,
          checkKeys_congr hkeys, hfields]
      | list items =>
        rw [SameContent] at h
        obtain ⟨others, rfl, -⟩ := h
        simp only [decode, hpath]
        rfl
      | null | scalar | enum | reference =>
        rw [SameContent] at h
        rw [h]

/-- Literals with the same content are decoded to the same value, or both are refused. -/
theorem decode_sameContent (h : l.SameContent m) (t : HostType) :
    (u.decode table l t).toOption = (u.decode table m t).toOption := by
  induction hweight : l.weight using Nat.strongRecOn generalizing l m t with
  | ind weight ih =>
    subst hweight
    have hlighter : ∀ l', l'.weight < l.weight → ∀ m', l'.SameContent m' → ∀ t,
        (u.decode table l' t).toOption = (u.decode table m' t).toOption :=
      fun l' hl' m' h' t => ih _ hl' h' t rfl
    induction t with
    | text | int | long | float | boolean | id =>
      rw [decode, decode]
      exact decodeBuiltin_sameContent h _ _
    | boxed t iht =>
      rw [decode, decode]
      exact iht
    | named path => exact decode_named_sameContent h hlighter
    | optional t iht =>
      by_cases hnull : l = .null
      · rw [hnull, h.eq_null_iff.mpr hnull]
      · have hother : m ≠ .null := fun hm => hnull (h.eq_null_iff.mp hm)
        rw [decode, decode, Except.toOption_map, Except.toOption_map, iht]
        · exact hother
        · exact hnull
    | sequence t iht =>
      by_cases hnull : l = .null
      · rw [hnull, h.eq_null_iff.mpr hnull]
      by_cases hlist : ∃ items, l = .list items
      · obtain ⟨items, rfl⟩ := hlist
        have hitems := h
        rw [SameContent] at hitems
        obtain ⟨others, rfl, hsame⟩ := hitems
        rw [decode, decode, Except.toOption_map, Except.toOption_map]
        refine congrArg _ (decodeItems_sameContent (Literal.sameItems_iff.mp hsame) ?_)
        intro item hitem other hother
        have hlight := Literal.weight_lt_of_mem_items hitem
        exact hlighter item (by rw [Literal.weight]; omega) other hother t
      · have hother : m ≠ .null := fun hm => hnull (h.eq_null_iff.mp hm)
        have hotherList : ¬ ∃ items, m = .list items := fun hm => hlist (h.eq_list_iff.mp hm)
        rw [decode, decode, Except.toOption_map, Except.toOption_map, iht]
        · exact not_exists.mp hotherList
        · exact hother
        · exact not_exists.mp hlist
        · exact hnull
    | member | shared | nothing | parameter | generic | tuple | function | closure =>
      simp only [decode]

end Universe

end Trellis
