/-!
Ordered maps as lists of pairs.

`Entries.put` keeps each key once: a new key goes to the end, an old one keeps its place and takes
the new value. So `Entries.ofPairs` has the keys in order of first occurrence (`keys_ofPairs`), each
with its last value (`lookup_ofPairs`).
-/

namespace Trellis

/-! ### First occurrences -/

theorem eraseDups_concat {α : Type} [DecidableEq α] (items : List α) (item : α) :
    (items ++ [item]).eraseDups =
      if item ∈ items then items.eraseDups else items.eraseDups ++ [item] := by
  rw [List.eraseDups_append]
  by_cases h : item ∈ items <;> simp [h, List.removeAll, List.eraseDups_cons]

theorem nodup_eraseDups {α : Type} [BEq α] [LawfulBEq α] : (items : List α) → items.eraseDups.Nodup
  | [] => List.nodup_nil
  | first :: rest => by
    rw [List.eraseDups_cons, List.nodup_cons, List.mem_eraseDups]
    refine ⟨fun hmem => ?_, nodup_eraseDups _⟩
    simpa using (List.mem_filter.mp hmem).2
  termination_by items => items.length
  decreasing_by exact Nat.lt_succ_of_le (List.length_filter_le _ _)

theorem eraseDups_of_nodup {α : Type} [DecidableEq α] {items : List α} (h : items.Nodup) :
    items.eraseDups = items := by
  induction items with
  | nil => rfl
  | cons item rest ih =>
    obtain ⟨hnew, hrest⟩ := List.nodup_cons.mp h
    have hall : rest.filter (fun other => !other == item) = rest := by
      refine List.filter_eq_self.mpr fun other hother => ?_
      simpa using fun e : other = item => hnew (e ▸ hother)
    rw [List.eraseDups_cons, hall, ih hrest]

namespace Entries

variable {κ α : Type} [DecidableEq κ]

def put (key : κ) (value : α) : List (κ × α) → List (κ × α)
  | [] => [(key, value)]
  | (k, v) :: rest => if k = key then (k, value) :: rest else (k, v) :: put key value rest

def ofPairs (pairs : List (κ × α)) : List (κ × α) :=
  pairs.foldl (fun entries pair => put pair.1 pair.2 entries) []

def keys (entries : List (κ × α)) : List κ := entries.map (·.1)

/-- Mapping the values of entries maps what is under each key. -/
theorem lookup_map {κ α β : Type} [BEq κ] (f : α → β) (entries : List (κ × α)) (key : κ) :
    (entries.map (Prod.map id f)).lookup key = (entries.lookup key).map f := by
  induction entries with
  | nil => rfl
  | cons entry entries ih =>
    obtain ⟨k, v⟩ := entry
    rw [List.map_cons, Prod.map_apply, List.lookup_cons, List.lookup_cons, id]
    cases key == k
    · exact ih
    · rfl

theorem mem_of_lookup {key : κ} {value : α} {entries : List (κ × α)}
    (h : entries.lookup key = some value) : (key, value) ∈ entries := by
  induction entries with
  | nil => simp at h
  | cons entry rest ih =>
    obtain ⟨k, v⟩ := entry
    by_cases hk : key = k
    · simp_all
    · rw [List.lookup_cons, beq_false_of_ne hk] at h
      exact List.mem_cons_of_mem _ (ih h)

theorem lookup_of_notMem {entries : List (κ × α)} {key : κ} (h : key ∉ entries.map (·.1)) :
    entries.lookup key = none := by
  rw [List.lookup_eq_none_iff]
  intro entry hmem
  simpa using fun he : key = entry.1 => h (he ▸ List.mem_map_of_mem hmem)

theorem notMem_of_lookup {entries : List (κ × α)} {key : κ} (h : entries.lookup key = none) :
    key ∉ entries.map (·.1) := by
  intro hmem
  obtain ⟨entry, hentry, rfl⟩ := List.mem_map.mp hmem
  simpa using List.lookup_eq_none_iff.mp h entry hentry

/-- An entry whose key is there once is found under it. -/
theorem lookup_of_mem {entries : List (κ × α)} {key : κ} {value : α}
    (h : (entries.map (·.1)).Nodup) (hmem : (key, value) ∈ entries) :
    entries.lookup key = some value := by
  obtain ⟨before, after, rfl⟩ := List.append_of_mem hmem
  refine List.lookup_eq_some_iff.mpr ⟨before, after, rfl, fun entry hentry => ?_⟩
  rw [List.map_append, List.nodup_append] at h
  have hne := h.2.2 entry.1 (List.mem_map_of_mem hentry) key (by simp)
  simpa using hne.symm

theorem lookup_put (key k : κ) (value : α) (entries : List (κ × α)) :
    (put key value entries).lookup k = if k = key then some value else entries.lookup k := by
  induction entries with
  | nil =>
    by_cases h : k = key
    · simp [put, h]
    · simp [put, List.lookup_cons, beq_false_of_ne h, h]
  | cons entry rest ih =>
    obtain ⟨k', v⟩ := entry
    by_cases h : k' = key
    · subst h
      by_cases hk : k = k'
      · simp [put, hk]
      · simp [put, List.lookup_cons, beq_false_of_ne hk, hk]
    · by_cases hk : k = k'
      · subst hk
        simp [put, h]
      · simp [put, h, List.lookup_cons, beq_false_of_ne hk, ih]

theorem keys_put (key : κ) (value : α) (entries : List (κ × α)) :
    keys (put key value entries) =
      if key ∈ keys entries then keys entries else keys entries ++ [key] := by
  induction entries with
  | nil => simp [put, keys]
  | cons entry rest ih =>
    obtain ⟨k, v⟩ := entry
    by_cases h : k = key
    · simp [put, keys, h]
    · have h' : key ≠ k := fun e => h e.symm
      simp only [keys] at ih
      by_cases hm : key ∈ rest.map (·.1) <;> simp_all [put, keys]

theorem put_of_notMem {entries : List (κ × α)} {key : κ} (h : key ∉ entries.map (·.1)) (value : α) :
    put key value entries = entries ++ [(key, value)] := by
  induction entries with
  | nil => rfl
  | cons entry entries ih =>
    rcases entry with ⟨k, v⟩
    rw [List.map_cons, List.mem_cons, not_or] at h
    rw [put, if_neg fun he => h.1 he.symm, ih h.2, List.cons_append]

theorem mem_of_mem_put {entries : List (κ × α)} {key : κ} {value : α} {entry : κ × α}
    (h : entry ∈ put key value entries) : entry = (key, value) ∨ entry ∈ entries := by
  induction entries with
  | nil => exact .inl (List.mem_singleton.mp h)
  | cons other entries ih =>
    rcases other with ⟨k, v⟩
    rw [put] at h
    split at h
    · rename_i hk
      rcases List.mem_cons.mp h with rfl | hmem
      · exact .inl (by rw [hk])
      · exact .inr (List.mem_cons_of_mem _ hmem)
    · rcases List.mem_cons.mp h with rfl | hmem
      · exact .inr List.mem_cons_self
      · exact (ih hmem).imp_right (List.mem_cons_of_mem _)

/-! ### Pairs that are made an ordered map -/

theorem ofPairs_concat (pairs : List (κ × α)) (key : κ) (value : α) :
    ofPairs (pairs ++ [(key, value)]) = put key value (ofPairs pairs) := by
  rw [ofPairs, List.foldl_append]
  rfl

theorem keys_ofPairs (pairs : List (κ × α)) : keys (ofPairs pairs) = (keys pairs).eraseDups := by
  -- Pairs are put from the left, so the induction takes them from the right.
  rw [← List.reverse_reverse pairs]
  induction pairs.reverse with
  | nil => rfl
  | cons pair first ih =>
    obtain ⟨key, value⟩ := pair
    have hkeys : keys (first.reverse ++ [(key, value)]) = keys first.reverse ++ [key] := by
      simp [keys]
    rw [List.reverse_cons, ofPairs_concat, keys_put, hkeys, eraseDups_concat, ih]
    simp only [List.mem_eraseDups]

theorem mem_keys_ofPairs {pairs : List (κ × α)} {key : κ} :
    key ∈ keys (ofPairs pairs) ↔ key ∈ pairs.map (·.1) := by
  rw [keys_ofPairs, List.mem_eraseDups, keys]

/-- Keys are unique once pairs are made an ordered map. -/
theorem nodup_keys_ofPairs (pairs : List (κ × α)) : ((ofPairs pairs).map (·.1)).Nodup := by
  rw [← keys, keys_ofPairs]
  exact nodup_eraseDups _

/-- Of the values that are given for a key, the last one counts. -/
theorem lookup_ofPairs (pairs : List (κ × α)) (key : κ) :
    (ofPairs pairs).lookup key = pairs.reverse.lookup key := by
  rw [← List.reverse_reverse pairs]
  induction pairs.reverse with
  | nil => rfl
  | cons pair first ih =>
    obtain ⟨k, value⟩ := pair
    rw [List.reverse_cons, ofPairs_concat, lookup_put, ih, List.reverse_append,
      List.reverse_reverse, List.reverse_singleton, List.singleton_append, List.lookup_cons]
    by_cases h : key = k
    · simp [h]
    · rw [if_neg h, beq_false_of_ne h]

theorem mem_of_mem_ofPairs {pairs : List (κ × α)} {entry : κ × α} (h : entry ∈ ofPairs pairs) :
    entry ∈ pairs := by
  have hlookup := lookup_of_mem (nodup_keys_ofPairs pairs) h
  rw [lookup_ofPairs] at hlookup
  exact List.mem_reverse.mp (mem_of_lookup hlookup)

/-! ### Values that are changed -/

theorem put_map {β : Type} (f : α → β) (key : κ) (value : α) (entries : List (κ × α)) :
    put key (f value) (entries.map fun e => (e.1, f e.2)) =
      (put key value entries).map fun e => (e.1, f e.2) := by
  induction entries with
  | nil => rfl
  | cons entry rest ih =>
    rw [List.map_cons, put, put, ih]
    split <;> rfl

/-- Values are changed alike before and after the keys are made unique. -/
theorem ofPairs_map {β : Type} (f : α → β) (pairs : List (κ × α)) :
    ofPairs (pairs.map fun e => (e.1, f e.2)) = (ofPairs pairs).map fun e => (e.1, f e.2) := by
  rw [← List.reverse_reverse pairs]
  induction pairs.reverse with
  | nil => rfl
  | cons pair first ih =>
    rw [List.reverse_cons, List.map_append, List.map_singleton, ofPairs_concat, ofPairs_concat, ih,
      put_map]

end Entries

end Trellis
