import Trellis.Proofs.Execution.Territory

/-!
What a gathering puts together.

If every part has a value, the whole is made up of these values in the order of the parts. If some
part failed, nothing of the others is kept: the whole is null, or it fails as well.
-/

namespace Trellis

namespace Object

theorem adjust_of_notMem {o : Object} {key : String} (h : key ∉ o.keys) (change : Value → Value)
    (new : Value) : o.adjust key change new = o ++ [(key, new)] := by
  induction o with
  | nil => rfl
  | cons entry o ih =>
    rcases entry with ⟨k, v⟩
    rw [keys, List.map_cons, List.mem_cons, not_or] at h
    rw [adjust, if_neg fun he => h.1 he.symm, ih h.2, List.cons_append]

theorem addAll_eq_append {o : Object} {fields : List (String × Value)}
    (h : ((o ++ fields).map (·.1)).Nodup) : addAll o fields = o ++ fields := by
  induction fields generalizing o with
  | nil => rw [addAll, List.append_nil]
  | cons field fields ih =>
    rcases field with ⟨key, value⟩
    have hsplit : o ++ (key, value) :: fields = o ++ [(key, value)] ++ fields := by simp
    have hnew : key ∉ o.keys := by
      rw [List.map_append, List.map_cons] at h
      exact fun hmem => (List.nodup_append.mp h).2.2 key hmem key List.mem_cons_self rfl
    rw [addAll_cons, add, adjust_of_notMem hnew, hsplit]
    exact ih (hsplit ▸ h)

theorem ofFields_of_nodup {fields : List (String × Value)} (h : (fields.map (·.1)).Nodup) :
    ofFields fields = fields :=
  addAll_eq_append h

end Object

/-- What values make up. -/
def Assembly.compose : Assembly → List Value → Value
  | .object keys, values => .object (Object.ofFields (keys.zip values))
  | .list, values => .list values

theorem Assembly.compose_object {keys : List String} {values : List Value} (hkeys : keys.Nodup)
    (hlength : keys.length = values.length) :
    (Assembly.object keys).compose values = .object (keys.zip values) := by
  rw [compose, Object.ofFields_of_nodup]
  rwa [← List.unzip_fst, List.unzip_zip hlength]

namespace Settled

/-- A part that has a value, with what was seen of it. -/
def valued (part : Value × List Event) : Settled := ⟨some part.1, part.2⟩

/-- Either every part has a value, or some part failed. -/
theorem valued_or_failed (each : List Settled) :
    (∃ parts : List (Value × List Event), each = parts.map valued) ∨
      ∃ s ∈ each, s.result = none := by
  induction each with
  | nil => exact .inl ⟨[], rfl⟩
  | cons s each ih =>
    rcases s with ⟨result, events⟩
    cases result with
    | none => exact .inr ⟨_, List.mem_cons_self, rfl⟩
    | some value =>
      rcases ih with ⟨parts, rfl⟩ | ⟨t, ht, hfailed⟩
      · exact .inl ⟨(value, events) :: parts, rfl⟩
      · exact .inr ⟨t, List.mem_cons_of_mem _ ht, hfailed⟩

end Settled

namespace Tray

theorem failed_add (t : Tray) (i : Nat) (result : Option Value) :
    (t.add i result).failed = (t.failed || result.isNone) := by
  cases result <;> simp [add]

theorem failed_addAll (t : Tray) (parts : List (Nat × Settled)) :
    (t.addAll parts).failed = (t.failed || parts.any (·.2.result.isNone)) := by
  induction parts generalizing t with
  | nil => simp [addAll]
  | cons part parts ih =>
    have hcons : t.addAll (part :: parts) = (t.add part.1 part.2.result).addAll parts := rfl
    rw [hcons, ih, failed_add, List.any_cons, Bool.or_assoc]

/-- Values that come in one after another fill the slots one after another. -/
theorem addAll_valued (filled : List Value) (parts : List (Value × List Event)) :
    ((⟨⟨(filled.map some ++ List.replicate parts.length none).toArray⟩, false⟩ : Tray).addAll
        (Job.numbered (parts.map Settled.valued) filled.length)) =
      ⟨⟨((filled ++ parts.map (·.1)).map some).toArray⟩, false⟩ := by
  induction parts generalizing filled with
  | nil => simp [addAll, Job.numbered]
  | cons part parts ih =>
    have hstep : ((⟨⟨(filled.map some ++ List.replicate (part :: parts).length none).toArray⟩,
        false⟩ : Tray).add filled.length (some part.1)) =
        ⟨⟨((filled ++ [part.1]).map some ++ List.replicate parts.length none).toArray⟩, false⟩ := by
      simp [add, Slots.fill, List.replicate_succ]
    have hlength : (filled ++ [part.1]).length = filled.length + 1 := by simp
    have hrest := ih (filled ++ [part.1])
    rw [hlength, ← hstep, List.append_assoc] at hrest
    exact hrest

/-- Parts that all have values make up a value of these, in their order. -/
theorem settle_valued (frame : Frame) (parts : List (Value × List Event)) :
    (Tray.ofSize parts.length).settle frame (Job.numbered (parts.map Settled.valued) 0) =
      ⟨some (frame.assembly.compose (parts.map (·.1))), parts.flatMap (·.2)⟩ := by
  have hslots : (Tray.ofSize parts.length).addAll (Job.numbered (parts.map Settled.valued) 0) =
      ⟨⟨((parts.map (·.1)).map some).toArray⟩, false⟩ := by
    simpa [ofSize, Slots.ofSize] using addAll_valued [] parts
  have hvalues : (⟨((parts.map (·.1)).map some).toArray⟩ : Slots).toList = parts.map (·.1) := by
    simp [Slots.toList, Function.comp_def]
  have hevents : (Job.numbered (parts.map Settled.valued) 0).flatMap (·.2.events) =
      parts.flatMap (·.2) := by
    rw [Plan.flatMap_numbered, List.flatMap_map]
    rfl
  rw [settle, hslots, hevents, assemble]
  cases hassembly : frame.assembly with
  | object keys =>
    simp only [Slots.toObject, hvalues, Assembly.compose]
    rfl
  | list =>
    simp only [hvalues, Assembly.compose]
    rfl

theorem settle_failed (frame : Frame) (n : Nat) {each : List Settled}
    (h : ∃ s ∈ each, s.result = none) :
    (Tray.ofSize n).settle frame (Job.numbered each 0) =
      ⟨if frame.nullable then some .null else none, each.flatMap (·.events)⟩ := by
  have hfailed : ((Tray.ofSize n).addAll (Job.numbered each 0)).failed = true := by
    obtain ⟨s, hs, hnone⟩ := h
    have hany : (Job.numbered each 0).any (·.2.result.isNone) = true := by
      obtain ⟨i, hi, rfl⟩ := List.getElem_of_mem hs
      refine List.any_eq_true.mpr ⟨(i, each[i]), ?_, by simp [hnone]⟩
      exact List.mem_map.mpr ⟨(each[i], i), List.mem_zipIdx_iff_getElem?.mpr (by simp [hi]), rfl⟩
    rw [failed_addAll, hany, Bool.or_true]
  rw [settle, assemble, if_pos hfailed, Plan.flatMap_numbered]

end Tray

end Trellis
