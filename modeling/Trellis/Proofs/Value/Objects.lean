import Mathlib.Data.List.Induction
import Mathlib.Data.List.Nodup
import Trellis.Entries
import Trellis.Value.Basic

/-!
Objects that are merged.

An object is made up by adding fields in order. Its keys are the different keys of the fields, in
order of first occurrence, and under each of them is what its values come to when each is merged
with what was there before. Where both are objects, that goes on below, at every level: what is
there keeps its place, what is not mentioned keeps its value, and new keys come last. Everything
else is replaced, and only then is a former value given back.
-/

namespace Trellis

namespace Value

def isObject (v : Value) : Bool := v.object?.isSome

def at? (v : Value) (path : List String) : Option Value :=
  path.foldlM (fun v key => v.object?.bind (·.get? key)) v

/-- What values come to that are merged one after another. -/
def merged? : List Value → Option Value
  | [] => none
  | first :: later => some (later.foldl merge first)

mutual

/-- The keys of every object in a value differ from each other. A value whose objects are
made up by adding fields is always of this kind. -/
def WellKeyed : Value → Prop
  | .null => True
  | .scalar _ => True
  | .list items => ItemsWellKeyed items
  | .object fields => (Object.keys fields).Nodup ∧ FieldsWellKeyed fields

def ItemsWellKeyed : List Value → Prop
  | [] => True
  | item :: items => WellKeyed item ∧ ItemsWellKeyed items

def FieldsWellKeyed : List (String × Value) → Prop
  | [] => True
  | (_, value) :: fields => WellKeyed value ∧ FieldsWellKeyed fields

end

theorem merge_object (a b : Object) :
    (Value.object a).merge (.object b) = .object (a.addAll b) := by
  rw [merge]

theorem merge_of_not_object {old new : Value} (h : ¬ (old.isObject ∧ new.isObject)) :
    old.merge new = new := by
  cases new with
  | object fields =>
    cases old with
    | object existing => exact absurd ⟨rfl, rfl⟩ h
    | _ => rfl
  | _ => rfl

theorem eq_object {v : Value} {fields : Object} (h : v.object? = some fields) :
    v = .object fields := by
  cases v <;> cases h
  rfl

theorem fieldsWellKeyed_iff {fields : List (String × Value)} :
    FieldsWellKeyed fields ↔ ∀ field ∈ fields, field.2.WellKeyed := by
  induction fields with
  | nil => simp [FieldsWellKeyed]
  | cons field fields ih => simp [FieldsWellKeyed, ih]

end Value

namespace Object

/-- The values that fields give for a key. -/
def valuesUnder (fields : List (String × Value)) (key : String) : List Value :=
  (fields.filter (·.1 = key)).map (·.2)

variable {o : Object} {key : String} {value : Value}

/-! ### One field -/

theorem keys_adjust (o : Object) (key : String) (change : Value → Value) (new : Value) :
    (o.adjust key change new).keys = if key ∈ o.keys then o.keys else o.keys ++ [key] := by
  induction o with
  | nil => rfl
  | cons field rest ih =>
    obtain ⟨k, v⟩ := field
    rw [adjust]
    by_cases h : k = key
    · simp [keys, h]
    · have hne : key ≠ k := Ne.symm h
      rw [if_neg h]
      change k :: keys (adjust rest key change new) = _
      rw [ih]
      by_cases hmem : key ∈ keys rest <;> simp_all [keys]

theorem get?_adjust (o : Object) (key k : String) (change : Value → Value) (new : Value) :
    (o.adjust key change new).get? k =
      if k = key then some ((o.get? key).elim new change) else o.get? k := by
  induction o with
  | nil =>
    by_cases h : k = key
    · simp [adjust, get?, h]
    · simp [adjust, get?, List.lookup_cons, beq_false_of_ne h, h]
  | cons field rest ih =>
    obtain ⟨k', v⟩ := field
    simp only [get?] at ih
    by_cases hkey : k' = key
    · subst hkey
      by_cases h : k = k'
      · simp [adjust, get?, h]
      · simp [adjust, get?, List.lookup_cons, beq_false_of_ne h, h]
    · by_cases h : k = k'
      · subst h
        simp [adjust, get?, hkey]
      · simp [adjust, get?, hkey, List.lookup_cons, beq_false_of_ne h,
          beq_false_of_ne (Ne.symm hkey), ih]

theorem keys_add (o : Object) (key : String) (value : Value) :
    (o.add key value).keys = if key ∈ o.keys then o.keys else o.keys ++ [key] :=
  o.keys_adjust ..

theorem get?_add (o : Object) (key k : String) (value : Value) :
    (o.add key value).get? k =
      if k = key then some ((o.get? key).elim value (·.merge value)) else o.get? k :=
  o.get?_adjust ..

/-- A value is given back if and only if the new one takes its place. -/
theorem replaced?_eq_some_iff {old : Value} :
    o.replaced? key value = some old ↔
      o.get? key = some old ∧ ¬ (old.isObject ∧ value.isObject) := by
  rw [replaced?.eq_def]
  split
  · rename_i existing new hold
    rw [hold]
    constructor
    · exact fun hnone => nomatch hnone
    · rintro ⟨hsame, hkinds⟩
      cases hsame
      exact absurd ⟨rfl, rfl⟩ hkinds
  · rename_i hkinds
    refine ⟨fun hold => ⟨hold, fun ⟨hobject, hvalue⟩ => ?_⟩, And.left⟩
    obtain ⟨existing, hexisting⟩ := Option.isSome_iff_exists.mp hobject
    obtain ⟨new, hnew⟩ := Option.isSome_iff_exists.mp hvalue
    exact hkinds existing new (hold.trans (congrArg some (Value.eq_object hexisting)))
      (Value.eq_object hnew)

/-! ### Many fields -/

theorem addAll_concat (o : Object) (fields : List (String × Value)) (key : String) (value : Value) :
    o.addAll (fields ++ [(key, value)]) = (o.addAll fields).add key value := by
  rw [addAll_eq_foldl, addAll_eq_foldl, List.foldl_append]
  rfl

/-- New keys come after the old ones, in order of first occurrence. -/
theorem keys_addAll (o : Object) (fields : List (String × Value)) :
    (o.addAll fields).keys = o.keys ++ ((keys fields).filter (· ∉ o.keys)).eraseDups := by
  -- What a field adds depends on the keys before it, so the induction takes fields from the right.
  induction fields using List.reverseRecOn with
  | nil => simp [addAll, keys]
  | append_singleton first field ih =>
    obtain ⟨key, value⟩ := field
    have hkeys : keys (first ++ [(key, value)]) = keys first ++ [key] := by simp [keys]
    rw [addAll_concat, keys_add, hkeys, List.filter_append, ih]
    by_cases hold : key ∈ o.keys
    · simp [hold]
    · have hnew : [key].filter (· ∉ o.keys) = [key] := by simp [hold]
      rw [hnew, eraseDups_concat]
      by_cases hfirst : key ∈ keys first <;> simp [hold, hfirst]

theorem valuesUnder_cons (field : String × Value) (fields : List (String × Value)) (key : String) :
    valuesUnder (field :: fields) key =
      if field.1 = key then field.2 :: valuesUnder fields key else valuesUnder fields key := by
  by_cases h : field.1 = key <;> simp [valuesUnder, h]

/-- What is under a key is merged with the values that are added for it, in order. -/
theorem get?_addAll (o : Object) (fields : List (String × Value)) (key : String) :
    (o.addAll fields).get? key =
      Value.merged? ((o.get? key).toList ++ valuesUnder fields key) := by
  induction fields generalizing o with
  | nil =>
    rw [addAll]
    cases o.get? key <;> rfl
  | cons field rest ih =>
    obtain ⟨k, v⟩ := field
    rw [addAll_cons, ih, get?_add, valuesUnder_cons]
    by_cases h : k = key
    · subst h
      rw [if_pos rfl, if_pos rfl]
      cases o.get? k <;> rfl
    · rw [if_neg h, if_neg (Ne.symm h)]

theorem keys_ofFields (fields : List (String × Value)) :
    (ofFields fields).keys = (keys fields).eraseDups := by
  rw [ofFields, keys_addAll]
  simp [keys]

theorem get?_ofFields (fields : List (String × Value)) (key : String) :
    (ofFields fields).get? key = Value.merged? (valuesUnder fields key) := by
  rw [ofFields, get?_addAll]
  rfl

/-! ### Two objects -/

theorem valuesUnder_of_nodup {fields : Object} (h : fields.keys.Nodup) (key : String) :
    valuesUnder fields key = (fields.get? key).toList := by
  induction fields with
  | nil => rfl
  | cons field rest ih =>
    obtain ⟨k, v⟩ := field
    obtain ⟨hnew : k ∉ keys rest, hrest : (keys rest).Nodup⟩ := List.nodup_cons.mp h
    rw [valuesUnder_cons, ih hrest, get?, get?, List.lookup_cons]
    by_cases hk : k = key
    · subst hk
      simp [Entries.lookup_of_notMem hnew]
    · rw [if_neg hk, beq_false_of_ne (Ne.symm hk)]

theorem get?_addAll_of_nodup {b : Object} (h : b.keys.Nodup) (a : Object) (key : String) :
    (a.addAll b).get? key = Option.merge Value.merge (a.get? key) (b.get? key) := by
  rw [get?_addAll, valuesUnder_of_nodup h]
  cases a.get? key <;> cases b.get? key <;> rfl

theorem keys_addAll_of_nodup {b : Object} (h : b.keys.Nodup) (a : Object) :
    (a.addAll b).keys = a.keys ++ b.keys.filter (· ∉ a.keys) := by
  rw [keys_addAll, eraseDups_of_nodup (h.filter _)]

/-- An object has taken in the fields of another: its keys stay in their places, new ones come last,
and only values under keys of the other have changed. -/
structure Absorbs (a b c : Object) : Prop where
  keys : c.keys = a.keys ++ b.keys.filter (· ∉ a.keys)
  values : ∀ key, c.get? key = Option.merge Value.merge (a.get? key) (b.get? key)

theorem absorbs_addAll {b : Object} (h : b.keys.Nodup) (a : Object) : Absorbs a b (a.addAll b) :=
  ⟨keys_addAll_of_nodup h a, get?_addAll_of_nodup h a⟩

end Object

/-! ### Levels -/

namespace Value

variable {old new : Value}

theorem WellKeyed.get? {fields : Object} (h : (Value.object fields).WellKeyed) {key : String}
    {v : Value} (hv : fields.get? key = some v) : v.WellKeyed :=
  fieldsWellKeyed_iff.mp h.2 _ (Entries.mem_of_lookup hv)

theorem at?_cons_eq_some {v result : Value} {key : String} {path : List String} :
    v.at? (key :: path) = some result ↔
      ∃ (fields : Object) (next : Value), v = .object fields ∧ fields.get? key = some next ∧
        next.at? path = some result := by
  rw [at?, List.foldlM_cons, Option.bind_eq_bind, Option.bind_eq_some_iff]
  constructor
  · rintro ⟨next, hstep, hpath⟩
    obtain ⟨fields, hfields, hnext⟩ := Option.bind_eq_some_iff.mp hstep
    exact ⟨fields, next, eq_object hfields, hnext, hpath⟩
  · rintro ⟨fields, next, rfl, hnext, hpath⟩
    exact ⟨next, hnext, hpath⟩

/-- Where both values have an object, their merge has the merge of these. -/
theorem at?_merge (h : new.WellKeyed) {path : List String} {a b : Object}
    (hold : old.at? path = some (.object a)) (hnew : new.at? path = some (.object b)) :
    (old.merge new).at? path = some (.object (a.addAll b)) := by
  induction path generalizing old new with
  | nil =>
    cases hold
    cases hnew
    rw [merge_object]
    rfl
  | cons key path ih =>
    obtain ⟨fields, u, rfl, hu, hold⟩ := at?_cons_eq_some.mp hold
    obtain ⟨added, w, rfl, hw, hnew⟩ := at?_cons_eq_some.mp hnew
    rw [merge_object, at?_cons_eq_some]
    refine ⟨_, u.merge w, rfl, ?_, ih (h.get? hw) hold hnew⟩
    rw [Object.get?_addAll_of_nodup h.1, hu, hw]
    rfl

theorem WellKeyed.at? (h : new.WellKeyed) {path : List String} {v : Value}
    (hv : new.at? path = some v) : v.WellKeyed := by
  induction path generalizing new with
  | nil =>
    cases hv
    exact h
  | cons key path ih =>
    obtain ⟨fields, next, rfl, hnext, hv⟩ := at?_cons_eq_some.mp hv
    exact ih (h.get? hnext) hv

/-! ### Keys stay different -/

/-- A field that is changed or new leaves the keys of an object different. -/
theorem wellKeyed_adjust {o : Object} (h : (Value.object o).WellKeyed) {key : String}
    {change : Value → Value} {new : Value} (hnew : new.WellKeyed)
    (hchange : ∀ v : Value, v.WellKeyed → (change v).WellKeyed) :
    (Value.object (o.adjust key change new)).WellKeyed := by
  constructor
  · rw [Object.keys_adjust]
    split
    · exact h.1
    · rename_i hfresh
      rw [← List.concat_eq_append]
      exact h.1.concat hfresh
  · have hfields := h.2
    clear h
    induction o with
    | nil => exact ⟨hnew, trivial⟩
    | cons field rest ih =>
      obtain ⟨k, v⟩ := field
      rw [Object.adjust]
      split
      · exact ⟨hchange v hfields.1, hfields.2⟩
      · exact ⟨hfields.1, ih hfields.2⟩

-- Both go along the value that is added: the merged fields are those of an object in it.
mutual

theorem WellKeyed.merge : ∀ {new : Value}, new.WellKeyed → ∀ {old : Value}, old.WellKeyed →
    (old.merge new).WellKeyed
  | .null, hnew, _, _ | .scalar _, hnew, _, _ | .list _, hnew, _, _ => hnew
  | .object fields, hnew, old, hold => by
    cases old with
    | object existing =>
      rw [merge_object]
      exact WellKeyed.addAll hnew.2 hold
    | _ => exact hnew

theorem WellKeyed.addAll : ∀ {fields : List (String × Value)}, FieldsWellKeyed fields →
    ∀ {o : Object}, (Value.object o).WellKeyed → (Value.object (o.addAll fields)).WellKeyed
  | [], _, _, h => by rwa [Object.addAll]
  | (key, value) :: fields, hfields, o, h => by
    rw [Object.addAll]
    exact WellKeyed.addAll hfields.2
      (wellKeyed_adjust h hfields.1 fun _ hv => WellKeyed.merge hfields.1 hv)

end

/-! ### The same fields once more -/

/-- A field that merges with its own value changes nothing. -/
theorem add_of_get? {o : Object} {key : String} {value : Value} (h : o.get? key = some value)
    (hvalue : value.merge value = value) : o.add key value = o := by
  rw [Object.add]
  induction o with
  | nil => cases h
  | cons field rest ih =>
    obtain ⟨k, v⟩ := field
    rw [Object.adjust]
    split
    · rename_i hkey
      subst hkey
      have hfound : v = value := by simpa [Object.get?] using h
      rw [hfound, hvalue]
    · rename_i hkey
      rw [Object.get?, List.lookup_cons, beq_false_of_ne (Ne.symm hkey)] at h
      rw [ih h]

theorem addAll_of_get? {o : Object} {fields : List (String × Value)}
    (h : ∀ field ∈ fields, o.get? field.1 = some field.2 ∧ field.2.merge field.2 = field.2) :
    o.addAll fields = o := by
  induction fields with
  | nil => rw [Object.addAll]
  | cons field rest ih =>
    obtain ⟨key, value⟩ := field
    obtain ⟨⟨hkey, hvalue⟩, hrest⟩ := List.forall_mem_cons.mp h
    rw [Object.addAll_cons, add_of_get? hkey hvalue, ih hrest]

mutual

/-- A value that arrives a second time changes nothing. -/
theorem WellKeyed.merge_self : ∀ {v : Value}, v.WellKeyed → v.merge v = v
  | .null, _ | .scalar _, _ | .list _, _ => rfl
  | .object fields, h => by
    rw [merge_object, addAll_of_get?]
    intro field hmem
    exact ⟨Entries.lookup_of_mem h.1 hmem, merge_self_of_mem h.2 field hmem⟩

theorem merge_self_of_mem : ∀ {fields : List (String × Value)}, FieldsWellKeyed fields →
    ∀ field ∈ fields, field.2.merge field.2 = field.2
  | (_, _) :: _, h => List.forall_mem_cons.mpr ⟨WellKeyed.merge_self h.1, merge_self_of_mem h.2⟩
  | [], _ => fun _ hmem => nomatch hmem

end

end Value

/-- Objects are made up by merging.

* Fields that are collected make up an object with their different keys in order of first
  occurrence, and under each key its values merged one after another. All keys stay unique, at every
  level.
* Two objects are merged by adding the fields of the second one. Otherwise the later value counts.
* Adding a field gives back the value it replaces, if it replaces one and does not merge with it.
  Wherever both have an object, at any level, that of the first absorbs that of the second.
* Fields that are there already change nothing. -/
theorem Object.collected_merged :
    (∀ fields : List (String × Value),
      (ofFields fields).keys = (keys fields).eraseDups ∧
      (∀ key, (ofFields fields).get? key = Value.merged? (valuesUnder fields key)) ∧
      ((∀ field ∈ fields, field.2.WellKeyed) → (Value.object (ofFields fields)).WellKeyed)) ∧
    (∀ a b : Object, (Value.object a).merge (.object b) =
      .object (b.foldl (fun (o : Object) field => o.add field.1 field.2) a)) ∧
    (∀ old new : Value, ¬ (old.isObject ∧ new.isObject) → old.merge new = new) ∧
    (∀ (o : Object) (key : String) (value : Value),
      (∀ old, o.replaced? key value = some old ↔
        o.get? key = some old ∧ ¬ (old.isObject ∧ value.isObject)) ∧
      (value.WellKeyed →
        ((Value.object o).WellKeyed → (Value.object (o.add key value)).WellKeyed) ∧
        ∀ path a b, (Value.object o).at? path = some (.object a) →
          (Value.object [(key, value)]).at? path = some (.object b) →
          ∃ c, (Value.object (o.add key value)).at? path = some (.object c) ∧ Absorbs a b c)) ∧
    ∀ o : Object, (Value.object o).WellKeyed → o.addAll o = o := by
  refine ⟨fun fields => ⟨keys_ofFields fields, get?_ofFields fields, fun h => ?_⟩, fun a b => ?_,
    fun _ _ => Value.merge_of_not_object,
    fun o key value => ⟨fun old => replaced?_eq_some_iff, fun hvalue => ?_⟩, fun o ho => ?_⟩
  · exact Value.WellKeyed.addAll (Value.fieldsWellKeyed_iff.mpr h) ⟨List.nodup_nil, trivial⟩
  · rw [Value.merge_object, addAll_eq_foldl]
  · have hfield : (Value.object [(key, value)]).WellKeyed :=
      ⟨List.nodup_singleton key, hvalue, trivial⟩
    have hmerge : (Value.object o).merge (.object [(key, value)]) = .object (o.add key value) := by
      rw [Value.merge_object, addAll_cons, addAll]
    rw [← hmerge]
    refine ⟨hfield.merge, fun path a b ha hb => ?_⟩
    exact ⟨_, Value.at?_merge hfield ha hb, absorbs_addAll (hfield.at? hb).1 a⟩
  · exact Value.object.inj (by rw [← Value.merge_object, ho.merge_self])

namespace Object

/-- Fields of which two objects and two other values come under one key. -/
def overlapping : List (String × Value) :=
  [("a", .object [("x", .scalar (.int 1))]), ("b", .scalar (.int 2)),
    ("a", .object [("y", .scalar (.int 3)), ("x", .null)]), ("b", .list [])]

theorem collected_merged_sample :
    (∀ field ∈ overlapping, field.2.WellKeyed) ∧
      (ofFields overlapping).keys = ["a", "b"] ∧
      (ofFields overlapping).get? "a" =
        some (.object [("x", .null), ("y", .scalar (.int 3))]) ∧
      (ofFields overlapping).replaced? "b" (.object []) = some (.list []) ∧
      (∃ c, (Value.object ((ofFields overlapping).add "a" (.object [("z", .null)]))).at? ["a"] =
          some (.object c) ∧
        Absorbs [("x", .null), ("y", .scalar (.int 3))] [("z", .null)] c) ∧
      (ofFields overlapping).addAll (ofFields overlapping) = ofFields overlapping := by
  have hfields : ∀ field ∈ overlapping, field.2.WellKeyed := by
    simp [overlapping, Value.WellKeyed, Value.FieldsWellKeyed, Value.ItemsWellKeyed, keys]
  have hadded : (Value.object [("z", .null)]).WellKeyed :=
    ⟨List.nodup_singleton "z", trivial, trivial⟩
  obtain ⟨hcollected, -, -, hadd, hself⟩ := collected_merged
  obtain ⟨hkeys, hvalues, hwell⟩ := hcollected overlapping
  refine ⟨hfields, hkeys, hvalues "a", ?_, ?_, hself _ (hwell hfields)⟩
  · exact ((hadd _ "b" (.object [])).1 _).mpr ⟨rfl, fun h => nomatch h.1⟩
  · exact ((hadd _ "a" _).2 hadded).2 ["a"] _ _ rfl rfl

end Object

end Trellis
