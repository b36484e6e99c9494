import Trellis.Proofs.Pointers.Stripping
import Trellis.Proofs.Schema.MemberOrder
import Trellis.Proofs.Typing.Soundness

/-!
Values that are handed out and taken back.

What is handed out forgets the layers of optional types: a value that is handed out as null looks
the same in any number of them. All else comes back as it was, and what is taken back at all is
handed out again as it came. Whether it is taken back depends on its shape alone, as long as nobody
else holds on to its single values.
-/

namespace Trellis

/-- The types that optional types inside of a type are applied to. -/
def HostType.optionals : HostType → List HostType
  | .optional t => t :: t.optionals
  | .sequence t | .boxed t | .shared t => t.optionals
  | _ => []

namespace Universe

/-- Types whose values are handed out as they are: scalars, enums and objects. -/
inductive Single (u : Universe) : HostType → Prop
  | text : Single u .text
  | int : Single u .int
  | long : Single u .long
  | float : Single u .float
  | boolean : Single u .boolean
  | id : Single u .id
  | scalar {path : String} : u.definition? path = some .scalar → Single u (.named path)
  | enumeration {path name : String} {values : List String} :
    u.definition? path = some (.enumeration name values) → Single u (.named path)
  | object {path name : String} {fields : List (String × HostType)} :
    u.definition? path = some (.object name fields) → Single u (.named path)

/-- Types that are built from single values and members of unions. -/
inductive Exchanges (u : Universe) : HostType → Prop
  | single {t : HostType} : u.Single t → Exchanges u t
  | member : Exchanges u .member
  | optional {t : HostType} : Exchanges u t → Exchanges u (.optional t)
  | sequence {t : HostType} : Exchanges u t → Exchanges u (.sequence t)
  | boxed {t : HostType} : Exchanges u t → Exchanges u (.boxed t)
  | shared {t : HostType} : Exchanges u t → Exchanges u (.shared t)

/-- The shape of an output is that of a type: null where the type is optional, a single value where
it is of just this type, a list where all elements have the right shape, and anything where a member
of a union is asked for. -/
inductive Fits (u : Universe) : HostType → Output → Prop
  | single {t : HostType} {v : HostValue} : u.Single t → Fits u t (.single t v)
  | member (output : Output) : Fits u .member output
  | absent (t : HostType) : Fits u (.optional t) .null
  | present {t : HostType} {output : Output} : Fits u t output → Fits u (.optional t) output
  | sequence {t : HostType} {items : List Output} : (∀ item ∈ items, Fits u t item) →
    Fits u (.sequence t) (.list items)
  | boxed {t : HostType} {output : Output} : Fits u t output → Fits u (.boxed t) output
  | shared {t : HostType} {output : Output} : Fits u t output → Fits u (.shared t) output

/-- Every single value of an output has the type that it is tagged with. -/
inductive Tagged (u : Universe) : Output → Prop
  | null : Tagged u .null
  | single {t : HostType} {v : HostValue} : u.Single t → u.HasType t v → Tagged u (.single t v)
  | list {items : List Output} : (∀ item ∈ items, Tagged u item) → Tagged u (.list items)

variable (u : Universe)

/-- The value with nothing, at every level, in the place of what is handed out as null. -/
def collapse : HostType → HostValue → HostValue
  | .optional t, .present v => if (u.erase t v).isNull then .absent else .present (collapse t v)
  | .sequence t, .sequence items => .sequence (items.map (collapse t))
  | .boxed t, v => collapse t v
  | .shared t, v => collapse t v
  | _, v => v

variable {u} {t : HostType} {v w : HostValue} {output : Output}

/-! ### Single values -/

theorem Single.erase_eq (h : u.Single t) (v : HostValue) : u.erase t v = .single t v := by
  cases h with
  | scalar h | enumeration h | object h => simp only [erase, h]
  | _ => rfl

theorem Single.collapse_eq (h : u.Single t) (v : HostValue) : u.collapse t v = v := by
  cases h <;> rfl

theorem Single.recover_eq_some_iff (h : u.Single t) :
    u.recover t output = some w ↔ output = .single t w := by
  cases h with
  | scalar h | enumeration h | object h => cases output <;> simp [recover, h]
  | _ => cases output <;> simp [recover]

theorem fits_single_iff (h : u.Single t) : u.Fits t output ↔ ∃ v, output = .single t v := by
  constructor
  · intro hfits
    cases hfits with
    | single => exact ⟨_, rfl⟩
    | member | absent | present | sequence | boxed | shared => cases h
  · rintro ⟨v, rfl⟩
    exact .single h

/-! ### Shapes -/

theorem fits_optional_iff : u.Fits (.optional t) output ↔ output = .null ∨ u.Fits t output := by
  constructor
  · intro h
    cases h with
    | single h => cases h
    | absent => exact .inl rfl
    | present h => exact .inr h
  · rintro (rfl | h)
    · exact .absent t
    · exact .present h

theorem fits_sequence_iff : u.Fits (.sequence t) output ↔
    ∃ items, output = .list items ∧ ∀ item ∈ items, u.Fits t item := by
  constructor
  · intro h
    cases h with
    | single h => cases h
    | sequence h => exact ⟨_, rfl, h⟩
  · rintro ⟨items, rfl, h⟩
    exact .sequence h

theorem fits_boxed_iff : u.Fits (.boxed t) output ↔ u.Fits t output := by
  refine ⟨fun h => ?_, .boxed⟩
  cases h with
  | single h => cases h
  | boxed h => exact h

theorem fits_shared_iff : u.Fits (.shared t) output ↔ u.Fits t output := by
  refine ⟨fun h => ?_, .shared⟩
  cases h with
  | single h => cases h
  | shared h => exact h

/-! ### Taking back -/

theorem isNull_eq_false (h : output ≠ .null) : output.isNull = false := by
  cases output with
  | null => exact absurd rfl h
  | single | list => rfl

theorem recover_optional_of_ne_null (h : output ≠ .null) :
    u.recover (.optional t) output = (u.recover t output).map .present := by
  cases output with
  | null => exact absurd rfl h
  | single | list => rfl

/-- What is taken back is handed out again as it came. -/
theorem Exchanges.erase_of_recover (ht : u.Exchanges t) (h : u.recover t output = some w) :
    u.erase t w = output := by
  induction ht generalizing output w with
  | single ht => rw [ht.erase_eq, ht.recover_eq_some_iff.mp h]
  | member =>
    cases h
    rfl
  | optional _ ih =>
    by_cases hnull : output = .null
    · subst hnull
      cases h
      rfl
    · rw [recover_optional_of_ne_null hnull] at h
      obtain ⟨v, hv, rfl⟩ := Option.map_eq_some_iff.mp h
      exact ih hv
  | @sequence t _ ih =>
    cases output with
    | null | single => cases h
    | list items =>
      obtain ⟨vs, hvs, rfl⟩ := Option.map_eq_some_iff.mp h
      have hitems := (mapM_eq_some_iff_forall₂.mp hvs).imp fun _ _ => ih
      have hmap : vs.map (u.erase t) = items.map id := map_eq_map_iff_forall₂.mpr hitems.flip
      rw [erase, hmap, List.map_id]
  | boxed _ ih | shared _ ih => exact ih h

/-- Taking back succeeds exactly for outputs of the right shape. -/
theorem Exchanges.recover_isSome_iff (ht : u.Exchanges t) :
    (∃ w, u.recover t output = some w) ↔ u.Fits t output := by
  induction ht generalizing output with
  | single ht => simp only [ht.recover_eq_some_iff, fits_single_iff ht]
  | member => exact ⟨fun _ => .member output, fun _ => ⟨_, rfl⟩⟩
  | @optional t _ ih =>
    rw [fits_optional_iff]
    by_cases hnull : output = .null
    · subst hnull
      exact ⟨fun _ => .inl rfl, fun _ => ⟨_, rfl⟩⟩
    · rw [recover_optional_of_ne_null hnull, ← ih]
      simp [hnull]
  | @sequence t _ ih =>
    rw [fits_sequence_iff]
    constructor
    · rintro ⟨w, h⟩
      cases output with
      | null | single => cases h
      | list items =>
        obtain ⟨vs, hvs, -⟩ := Option.map_eq_some_iff.mp h
        refine ⟨items, rfl, fun item hitem => ih.mp ?_⟩
        obtain ⟨v, -, hv⟩ := exists_of_mem_mapM hvs hitem
        exact ⟨v, hv⟩
    · rintro ⟨items, rfl, hitems⟩
      obtain ⟨vs, hvs⟩ := exists_mapM fun item hitem => ih.mpr (hitems item hitem)
      exact ⟨.sequence vs, by rw [recover, hvs]; rfl⟩
  | boxed _ ih => exact ih.trans fits_boxed_iff.symm
  | shared _ ih => exact ih.trans fits_shared_iff.symm

/-! ### Handing out -/

/-- What is handed out is taken back, up to what is handed out as null. -/
theorem Exchanges.recover_erase (ht : u.Exchanges t) (hv : u.HasType t v) :
    u.recover t (u.erase t v) = some (u.collapse t v) := by
  induction ht generalizing v with
  | single ht => rw [ht.recover_eq_some_iff, ht.erase_eq, ht.collapse_eq]
  | member =>
    cases hv
    rfl
  | @optional t _ ih =>
    rcases hasType_optional.mp hv with rfl | ⟨w, rfl, hw⟩
    · rfl
    · rw [erase, collapse]
      by_cases hnull : u.erase t w = .null
      · rw [hnull]
        rfl
      · rw [recover_optional_of_ne_null hnull, ih hw, isNull_eq_false hnull]
        rfl
  | @sequence t _ ih =>
    obtain ⟨vs, rfl, hvs⟩ := hasType_sequence.mp hv
    have hmap : (vs.map (u.erase t)).mapM (u.recover t) = some (vs.map (u.collapse t)) := by
      rw [mapM_eq_some_iff_forall₂, List.forall₂_map_left_iff, List.forall₂_map_right_iff]
      exact List.forall₂_same.mpr fun v hmem => ih (hvs v hmem)
    rw [erase, recover, hmap, collapse]
    rfl
  | boxed _ ih => exact ih (hasType_boxed.mp hv)
  | shared _ ih => exact ih (hasType_shared.mp hv)

/-- A value collapses to itself if no optional type is applied to one that may be handed out as
null. -/
theorem collapse_eq_self
    (h : ∀ inner ∈ t.optionals, ∀ v, u.HasType inner v → u.erase inner v ≠ .null)
    (hv : u.HasType t v) : u.collapse t v = v := by
  induction t generalizing v with
  | optional t ih =>
    obtain ⟨hnever, hinner⟩ := List.forall_mem_cons.mp h
    rcases hasType_optional.mp hv with rfl | ⟨w, rfl, hw⟩
    · rfl
    · rw [collapse, isNull_eq_false (hnever w hw), ih hinner hw]
      rfl
  | sequence t ih =>
    obtain ⟨vs, rfl, hvs⟩ := hasType_sequence.mp hv
    rw [collapse, List.map_congr_left fun v hmem => ih h (hvs v hmem), List.map_id']
  | boxed t ih => exact ih h (hasType_boxed.mp hv)
  | shared t ih => exact ih h (hasType_shared.mp hv)
  | _ => rfl

/-! ### What is taken back has its type -/

/-- What a value is handed out as has single values of the types that they are tagged with. -/
theorem HasType.tagged (h : u.HasType t v) : u.Tagged (u.erase t v) := by
  induction h with
  | text s => exact .single .text (.text s)
  | int n => exact .single .int (.int n)
  | long n => exact .single .long (.long n)
  | float x => exact .single .float (.float x)
  | boolean b => exact .single .boolean (.boolean b)
  | id s => exact .single .id (.id s)
  | absent => exact .null
  | present _ ih | boxed _ ih | shared _ ih | member _ ih => exact ih
  | sequence _ ih =>
    refine .list fun item hitem => ?_
    obtain ⟨v, hv, rfl⟩ := List.mem_map.mp hitem
    exact ih v hv
  | scalar v hpath =>
    rw [(Single.scalar hpath).erase_eq]
    exact .single (.scalar hpath) (.scalar v hpath)
  | variant hpath hlabel =>
    rw [(Single.enumeration hpath).erase_eq]
    exact .single (.enumeration hpath) (.variant hpath hlabel)
  | object hpath hfields =>
    rw [(Single.object hpath).erase_eq]
    exact .single (.object hpath) (.object hpath hfields)
  | inputObject hpath =>
    simp only [erase, hpath]
    exact .null

/-- A member of a union may wrap every output whose single values have the types that they are
tagged with. -/
theorem hasType_member_iff : u.HasType .member (.member output) ↔ u.Tagged output := by
  constructor
  · intro h
    cases h with
    | member h => exact h.tagged
  · intro h
    induction h with
    | null => exact .member (.absent .text)
    | @single t v ht hv =>
      have hmember := HasType.member hv
      rwa [ht.erase_eq] at hmember
    | @list items _ ih =>
      have hitems : u.HasType (.sequence .member) (.sequence (items.map .member)) :=
        .sequence fun v hv => by
          obtain ⟨item, hitem, rfl⟩ := List.mem_map.mp hv
          exact ih item hitem
      have hmember := HasType.member hitems
      have herase : (items.map .member).map (u.erase .member) = items := by
        rw [List.map_map]
        exact List.map_id items
      rwa [erase, herase] at hmember

/-- What is taken back as a type has that type, if single values have the types that they are tagged
with. -/
theorem Exchanges.hasType_of_recover (ht : u.Exchanges t) (h : u.recover t output = some w)
    (houtput : u.Tagged output) : u.HasType t w := by
  induction ht generalizing output w with
  | single ht =>
    obtain rfl := ht.recover_eq_some_iff.mp h
    cases houtput with
    | single _ hw => exact hw
  | member =>
    cases h
    exact hasType_member_iff.mpr houtput
  | @optional t _ ih =>
    by_cases hnull : output = .null
    · subst hnull
      cases h
      exact .absent t
    · rw [recover_optional_of_ne_null hnull] at h
      obtain ⟨v, hv, rfl⟩ := Option.map_eq_some_iff.mp h
      exact .present (ih hv houtput)
  | sequence _ ih =>
    cases houtput with
    | null | single => cases h
    | list hitems =>
      obtain ⟨vs, hvs, rfl⟩ := Option.map_eq_some_iff.mp h
      refine .sequence fun v hv => ?_
      obtain ⟨item, hitem, hrecover⟩ := exists_of_mapM hvs hv
      exact ih hrecover (hitems item hitem)
  | boxed _ ih => exact .boxed (ih h houtput)
  | shared _ ih => exact .shared (ih h houtput)

/-- Handing out and taking back are inverse, up to what is handed out as null. A value is taken back
with nothing in the place of what is present in it and handed out as null; that changes nothing if
no optional type is applied to a type with such values. What is taken back is a value of the type,
and is handed out as it came. Taking back fails exactly where the shape of an output is not that of
the type at some level. -/
theorem exchange_inverse (ht : u.Exchanges t) :
    (∀ v, u.HasType t v → u.recover t (u.erase t v) = some (u.collapse t v)) ∧
    ((∀ inner ∈ t.optionals, ∀ v, u.HasType inner v → u.erase inner v ≠ .null) →
      ∀ v, u.HasType t v → u.collapse t v = v) ∧
    (∀ output w, u.recover t output = some w →
      u.erase t w = output ∧ (u.Tagged output → u.HasType t w)) ∧
    ∀ output, u.recover t output = none ↔ ¬ u.Fits t output := by
  refine ⟨fun v hv => ht.recover_erase hv, fun h v hv => collapse_eq_self h hv,
    fun output w h => ⟨ht.erase_of_recover h, ht.hasType_of_recover h⟩, fun output => ?_⟩
  rw [← ht.recover_isSome_iff, Option.eq_none_iff_forall_ne_some, not_exists]

namespace Sample

/-- Lists of films, where both the lists and the films may be missing, the films in two ways. -/
def programme : HostType := .optional (.sequence (.optional (.optional (.boxed film))))

/-- A film, and two films that are missing, each in its own way. -/
def evening : HostValue :=
  .present (.sequence [.present (.present nightfall), .present .absent, .absent])

theorem exchanges_programme : studio.Exchanges programme :=
  .optional (.sequence (.optional (.optional (.boxed (.single (.object rfl))))))

theorem not_fits_title :
    ¬ studio.Fits programme (.list [.null, .single .text (.text "Nightfall")]) := by
  have hobject : studio.Single film := .object rfl
  have hfilm : ¬ studio.Fits film (.single .text (.text "Nightfall")) := by
    rw [fits_single_iff hobject]
    rintro ⟨v, h⟩
    cases h
  simp [programme, fits_optional_iff, fits_sequence_iff, fits_boxed_iff, hfilm]

theorem hasType_evening : studio.HasType programme evening := by
  refine .present (.sequence fun v hv => ?_)
  simp only [List.mem_cons, List.not_mem_nil, or_false] at hv
  rcases hv with rfl | rfl | rfl
  · exact .present (.present (.boxed hasType_nightfall))
  · exact .present (.absent _)
  · exact .absent _

end Sample

open Universe.Sample in
/-- Which way a film is missing is forgotten. A title in the place of a film is not taken back. -/
theorem exchange_inverse_sample : studio.Exchanges programme ∧ studio.HasType programme evening ∧
    studio.recover programme (studio.erase programme evening) =
      some (.present (.sequence [.present (.present nightfall), .absent, .absent])) ∧
    studio.recover programme (.list [.null, .single .text (.text "Nightfall")]) = none := by
  obtain ⟨htaken, -, -, hshape⟩ := exchange_inverse exchanges_programme
  exact ⟨exchanges_programme, hasType_evening, htaken evening hasType_evening,
    (hshape _).mpr not_fits_title⟩

end Universe

end Trellis
