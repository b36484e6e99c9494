import Trellis.Literal.Weight
import Trellis.Proofs.Typing.Restoring

/-!
Normal forms of literals.

A literal that is written as JSON and read back comes to its normal form. At every depth a variable
has become null, an enum value a string and a whole number one of the smallest kind that holds it,
and an object has each of its keys once, where it stood first and with the value that came last. A
normal form comes back as it is, so writing and reading a second time changes nothing. The leaves
are where they were, and those that were scalars before still have the same views.
-/

namespace Trellis

/-! ### Each key once -/

namespace Entries

variable {κ α β : Type} [DecidableEq κ]

/-- Each key where it occurs first, with its last value. -/
def settled (pairs : List (κ × α)) : List (κ × α) :=
  (keys pairs).eraseDups.filterMap fun key => (pairs.reverse.lookup key).map (key, ·)

/-- An ordered map is known by its keys and what is looked up. -/
theorem filterMap_lookup {entries : List (κ × α)} (h : (keys entries).Nodup) :
    ((keys entries).filterMap fun key => (entries.lookup key).map (key, ·)) = entries := by
  induction entries with
  | nil => rfl
  | cons entry rest ih =>
    obtain ⟨key, value⟩ := entry
    obtain ⟨hnew : key ∉ keys rest, hrest : (keys rest).Nodup⟩ := List.nodup_cons.mp h
    have hlater : ∀ k ∈ keys rest, (List.lookup k ((key, value) :: rest)).map (k, ·) =
        (rest.lookup k).map (k, ·) := by
      intro k hk
      have hne : k ≠ key := fun e => hnew (e ▸ hk)
      rw [List.lookup_cons, beq_false_of_ne hne]
    change ((key :: keys rest).filterMap _) = _
    rw [List.filterMap_cons_some (b := (key, value)) (by simp), List.filterMap_congr hlater,
      ih hrest]

theorem ofPairs_eq_settled (pairs : List (κ × α)) : ofPairs pairs = settled pairs := by
  rw [← filterMap_lookup (nodup_keys_ofPairs pairs), keys_ofPairs]
  simp only [lookup_ofPairs, settled]

theorem ofPairs_of_nodup {pairs : List (κ × α)} (h : (keys pairs).Nodup) :
    ofPairs pairs = pairs := by
  induction pairs using List.reverseRecOn with
  | nil => rfl
  | append_singleton first pair ih =>
    obtain ⟨key, value⟩ := pair
    have hsplit : keys (first ++ [(key, value)]) = (keys first).concat key := by simp [keys]
    rw [hsplit, List.nodup_concat] at h
    rw [ofPairs_concat, ih h.2, put_of_notMem h.1]

theorem ofPairs_map_ofPairs (f : α → β) (pairs : List (κ × α)) :
    ofPairs ((ofPairs pairs).map fun e => (e.1, f e.2)) =
      ofPairs (pairs.map fun e => (e.1, f e.2)) := by
  rw [← ofPairs_map, ofPairs_of_nodup (nodup_keys_ofPairs _)]

end Entries

/-! ### Normal forms -/

/-- A whole number is an integer of 32 bits if it lies in their range. -/
def Scalar.normal : Scalar → Scalar
  | .long n =>
    if Int32.minValue.toInt ≤ n.toInt ∧ n.toInt ≤ Int32.maxValue.toInt then .int n.toInt32
    else .long n
  | s => s

namespace Literal

mutual

def normal : Literal → Literal
  | .null => .null
  | .reference _ => .null
  | .scalar s => .scalar s.normal
  | .enum name => .string name
  | .list items => .list (normalItems items)
  | .object fields => .object (Entries.settled (normalFields fields))

def normalItems : List Literal → List Literal
  | [] => []
  | item :: items => normal item :: normalItems items

def normalFields : List (String × Literal) → List (String × Literal)
  | [] => []
  | (key, value) :: fields => (key, normal value) :: normalFields fields

end

mutual

/-- Whether no number in a literal is a float. -/
def isFloatFree : Literal → Bool
  | .null | .reference _ | .enum _ => true
  | .scalar (.float _) => false
  | .scalar _ => true
  | .list items => itemsAreFloatFree items
  | .object fields => fieldsAreFloatFree fields

def itemsAreFloatFree : List Literal → Bool
  | [] => true
  | item :: items => isFloatFree item && itemsAreFloatFree items

def fieldsAreFloatFree : List (String × Literal) → Bool
  | [] => true
  | (_, value) :: fields => isFloatFree value && fieldsAreFloatFree fields

end

theorem normalFields_eq_map (fields : List (String × Literal)) :
    normalFields fields = fields.map fun field => (field.1, field.2.normal) := by
  induction fields with
  | nil => rfl
  | cons field fields ih => rw [normalFields, ih, List.map_cons]

theorem normalItems_eq_map (items : List Literal) : normalItems items = items.map normal := by
  induction items with
  | nil => rfl
  | cons item items ih => rw [normalItems, ih, List.map_cons]

theorem normal_object (fields : List (String × Literal)) :
    normal (.object fields) =
      .object (Entries.ofPairs (fields.map fun field => (field.1, field.2.normal))) := by
  rw [normal, normalFields_eq_map, Entries.ofPairs_eq_settled]

theorem fieldsAreFloatFree_iff {fields : List (String × Literal)} :
    fieldsAreFloatFree fields = true ↔ ∀ field ∈ fields, field.2.isFloatFree = true := by
  induction fields with
  | nil => simp [fieldsAreFloatFree]
  | cons field fields ih => simp [fieldsAreFloatFree, ih]

end Literal

/-! ### Scalars -/

namespace Scalar

theorem normal_long (n : Int64) : (Scalar.long n).normal = ofInt64 n := by
  simp only [normal, ofInt64, narrow?, ← Width.int32?_isSome_iff]
  cases hword : Width.int32? n.toInt with
  | none => rfl
  | some m =>
    have hvalue : n.toInt32 = m := by
      rw [← Int32.ofInt_int64ToInt, ← Width.toInt_of_int32? hword, Int32.ofInt_toInt]
    rw [hvalue]
    rfl

theorem ofInt64_toInt64 (n : Int32) : ofInt64 n.toInt64 = .int n := by
  rw [ofInt64, narrow?, Int32.toInt_toInt64, Width.int32?_toInt]

theorem normal_normal (s : Scalar) : s.normal.normal = s.normal := by
  cases s with
  | long n =>
    rw [normal]
    split
    · rfl
    · rename_i hrange
      rw [normal, if_neg hrange]
  | _ => rfl

theorem views_normal (s : Scalar) :
    s.normal.int? = s.int? ∧ s.normal.long? = s.long? ∧ s.normal.string? = s.string? ∧
      s.normal.boolean? = s.boolean? := by
  cases s with
  | long n =>
    rw [normal_long]
    refine ⟨int?_ofInt64 n, long?_ofInt64 n, ?_, ?_⟩
    all_goals
      rw [ofInt64]
      cases narrow? n <;> rfl
  | _ => exact ⟨rfl, rfl, rfl, rfl⟩

end Scalar

namespace Literal

/-! ### Writing and reading -/

theorem ofJson_scalar {s : Scalar} (h : (Literal.scalar s).isFloatFree = true) :
    ofJson s.toJson = .scalar s.normal := by
  cases s with
  | int n =>
    have hword : Width.int64? n.toInt = some n.toInt64 := by
      rw [← Int32.toInt_toInt64, Width.int64?_toInt]
    rw [Scalar.toJson, ofJson, hword]
    exact congrArg scalar (Scalar.ofInt64_toInt64 n)
  | long n =>
    rw [Scalar.toJson, ofJson, Width.int64?_toInt, Scalar.normal_long]
  | float x => cases h
  | string s => rfl
  | boolean b => rfl

theorem fieldsOfJson_eq_map (entries : List (String × Json)) :
    fieldsOfJson entries = entries.map fun entry => (entry.1, ofJson entry.2) := by
  induction entries with
  | nil => rfl
  | cons entry entries ih => rw [fieldsOfJson, ih, List.map_cons]

mutual

/-- What is read back is the normal form. -/
theorem ofJson_toJson : ∀ l : Literal, l.isFloatFree = true → ofJson l.toJson = l.normal
  | .null, _ => rfl
  | .reference _, _ => rfl
  | .enum _, _ => rfl
  | .scalar s, h => by
    rw [toJson, normal, ofJson_scalar h]
  | .list items, h => by
    rw [toJson, ofJson, normal, itemsOfJson_itemsToJson items h]
  | .object fields, h => by
    -- The keys are made unique when the object is written and again when it is read.
    rw [toJson, ofJson, fieldsOfJson_eq_map, Entries.ofPairs_map_ofPairs, ← fieldsOfJson_eq_map,
      fieldsOfJson_fieldsToJson fields h, normal, Entries.ofPairs_eq_settled]

theorem itemsOfJson_itemsToJson : ∀ items : List Literal, itemsAreFloatFree items = true →
    itemsOfJson (itemsToJson items) = normalItems items
  | [], _ => rfl
  | item :: items, h => by
    rw [itemsAreFloatFree, Bool.and_eq_true] at h
    rw [itemsToJson, itemsOfJson, normalItems, ofJson_toJson item h.1,
      itemsOfJson_itemsToJson items h.2]

theorem fieldsOfJson_fieldsToJson : ∀ fields : List (String × Literal),
    fieldsAreFloatFree fields = true → fieldsOfJson (fieldsToJson fields) = normalFields fields
  | [], _ => rfl
  | (key, value) :: fields, h => by
    rw [fieldsAreFloatFree, Bool.and_eq_true] at h
    rw [fieldsToJson, fieldsOfJson, normalFields, ofJson_toJson value h.1,
      fieldsOfJson_fieldsToJson fields h.2]

end

mutual

/-- A normal form is its own normal form. -/
theorem normal_normal : ∀ l : Literal, l.normal.normal = l.normal
  | .null => rfl
  | .reference _ => rfl
  | .enum _ => rfl
  | .scalar s => by
    rw [normal, normal, s.normal_normal]
  | .list items => by
    rw [normal, normal, normalItems_normalItems items]
  | .object fields => by
    rw [normal_object, normal_object, Entries.ofPairs_map_ofPairs, ← normalFields_eq_map,
      ← normalFields_eq_map, normalFields_normalFields fields]

theorem normalItems_normalItems : ∀ items : List Literal,
    normalItems (normalItems items) = normalItems items
  | [] => rfl
  | item :: items => by
    rw [normalItems, normalItems, normal_normal item, normalItems_normalItems items]

theorem normalFields_normalFields : ∀ fields : List (String × Literal),
    normalFields (normalFields fields) = normalFields fields
  | [] => rfl
  | (key, value) :: fields => by
    rw [normalFields, normalFields, normal_normal value, normalFields_normalFields fields]

end

mutual

theorem isFloatFree_normal : ∀ l : Literal, l.isFloatFree = true → l.normal.isFloatFree = true
  | .null, _ => rfl
  | .reference _, _ => rfl
  | .enum _, _ => rfl
  | .scalar s, h => by
    cases s with
    | long n =>
      rw [normal, Scalar.normal]
      split <;> rfl
    | _ => exact h
  | .list items, h => by
    rw [normal, isFloatFree, itemsAreFloatFree_normalItems items h]
  | .object fields, h => by
    have hfields := fieldsAreFloatFree_iff.mp (fieldsAreFloatFree_normalFields fields h)
    rw [normal, ← Entries.ofPairs_eq_settled, isFloatFree, fieldsAreFloatFree_iff]
    exact fun field hfield => hfields field (Entries.mem_of_mem_ofPairs hfield)

theorem itemsAreFloatFree_normalItems : ∀ items : List Literal, itemsAreFloatFree items = true →
    itemsAreFloatFree (normalItems items) = true
  | [], _ => rfl
  | item :: items, h => by
    rw [itemsAreFloatFree, Bool.and_eq_true] at h
    rw [normalItems, itemsAreFloatFree, isFloatFree_normal item h.1,
      itemsAreFloatFree_normalItems items h.2, Bool.and_self]

theorem fieldsAreFloatFree_normalFields : ∀ fields : List (String × Literal),
    fieldsAreFloatFree fields = true → fieldsAreFloatFree (normalFields fields) = true
  | [], _ => rfl
  | (key, value) :: fields, h => by
    rw [fieldsAreFloatFree, Bool.and_eq_true] at h
    rw [normalFields, fieldsAreFloatFree, isFloatFree_normal value h.1,
      fieldsAreFloatFree_normalFields fields h.2, Bool.and_self]

end

/-! ### Leaves -/

/-- A step from a literal to a part of it. -/
inductive Step where
  | element (index : Nat)
  | field (key : String)

/-- The part that a step leads to. In an object it is the last one under the key. -/
def step? : Literal → Step → Option Literal
  | .list items, .element index => items[index]?
  | .object fields, .field key => last? fields key
  | _, _ => none

def at? (l : Literal) (path : List Step) : Option Literal := path.foldlM step? l

theorem last?_ofPairs (fields : List (String × Literal)) (key : String) :
    last? (Entries.ofPairs fields) key = last? fields key := by
  have hnodup := Entries.nodup_keys_ofPairs fields
  rw [last?, last?, ← Entries.lookup_ofPairs, ← Entries.lookup_ofPairs]
  exact congrArg (List.lookup key) (Entries.ofPairs_of_nodup hnodup)

theorem last?_map (f : Literal → Literal) (fields : List (String × Literal)) (key : String) :
    last? (fields.map fun field => (field.1, f field.2)) key = (last? fields key).map f := by
  rw [last?, last?, ← List.map_reverse]
  exact Entries.lookup_map f fields.reverse key

theorem step?_normal (l : Literal) (step : Step) :
    l.normal.step? step = (l.step? step).map normal := by
  cases l with
  | list items =>
    cases step with
    | element index =>
      rw [normal, step?, step?, normalItems_eq_map, List.getElem?_map]
    | field key => rfl
  | object fields =>
    cases step with
    | element index => rw [normal]; rfl
    | field key =>
      rw [normal_object, step?, step?, last?_ofPairs, last?_map]
  | _ => cases step <;> rfl

theorem at?_normal (l : Literal) (path : List Step) :
    l.normal.at? path = (l.at? path).map normal := by
  induction path generalizing l with
  | nil => rfl
  | cons step path ih =>
    rw [at?, at?, List.foldlM_cons, List.foldlM_cons, step?_normal]
    cases l.step? step with
    | none => rfl
    | some part => exact ih part

/-- A literal without floats that is written as JSON and read back comes to its normal form, in
which every variable is null, every enum value a string, every whole number of the smallest kind and
every key unique, first in its place and last in its value. That is a form which does not change any
more. Every part of it is the normal form of the part at the same place, so scalars stay scalars
with the same views. -/
theorem json_normalizes {l : Literal} (h : l.isFloatFree = true) :
    ofJson l.toJson = l.normal ∧ l.normal.normal = l.normal ∧
      ofJson (ofJson l.toJson).toJson = ofJson l.toJson ∧
      ∀ path, (ofJson l.toJson).at? path = (l.at? path).map normal ∧
        ∀ s, l.at? path = some (.scalar s) →
          (ofJson l.toJson).at? path = some (.scalar s.normal) ∧ s.normal.int? = s.int? ∧
            s.normal.long? = s.long? ∧ s.normal.string? = s.string? ∧
            s.normal.boolean? = s.boolean? := by
  rw [ofJson_toJson l h]
  refine ⟨rfl, normal_normal l, ?_, fun path => ⟨at?_normal l path, fun s hs => ⟨?_, ?_⟩⟩⟩
  · rw [ofJson_toJson _ (isFloatFree_normal l h), normal_normal]
  · rw [at?_normal, hs, Option.map_some, normal]
  · exact s.views_normal

/-- An object in which a key is repeated, the first time before another one. -/
def repeating : Literal :=
  .object [("a", .scalar (.string "first")),
    ("b", .list [.scalar (.long 5), .scalar (.long 5000000000), .enum "RED", .reference "v"]),
    ("a", .object [("c", .scalar (.int 1)), ("c", .scalar (.boolean true))])]

theorem json_normalizes_sample :
    repeating.isFloatFree = true ∧
      ofJson repeating.toJson =
        .object [("a", .object [("c", .scalar (.boolean true))]),
          ("b", .list [.scalar (.int 5), .scalar (.long 5000000000), .string "RED", .null])] ∧
      ofJson (ofJson repeating.toJson).toJson = ofJson repeating.toJson ∧
      (ofJson repeating.toJson).at? [.field "b", .element 0] = some (.scalar (.int 5)) ∧
      (Scalar.int 5).long? = (Scalar.long 5).long? := by
  have hfree : repeating.isFloatFree = true := rfl
  obtain ⟨hread, -, hagain, hparts⟩ := json_normalizes hfree
  obtain ⟨hleaf, -, hlong, -⟩ := (hparts [.field "b", .element 0]).2 (.long 5) rfl
  exact ⟨hfree, hread, hagain, hleaf, hlong⟩

end Literal

end Trellis
