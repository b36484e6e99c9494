import Mathlib.Logic.Relation
import Trellis.Literal.Weight
import Trellis.Schema.Graph

/-!
Literals and the types that a schema publishes.

What may be given for an argument is read off the type that a schema publishes for it. Nothing is
said here of how literals are decoded: a type literal and the named types of a graph decide which
literals conform, and host types appear only as those that have a literal form at all.
-/

namespace Trellis

/-- The value of a whole number. -/
def Scalar.whole? : Scalar → Option Int
  | .int n => some n.toInt
  | .long n => some n.toInt
  | _ => none

namespace RawKind

/-- A scalar is of a kind: whole numbers by their values, and any number as a float. -/
def Fits : RawKind → Scalar → Prop
  | .string, s => ∃ text, s = .string text
  | .int, s => ∃ n, s.whole? = some n ∧ Int32.minValue.toInt ≤ n ∧ n ≤ Int32.maxValue.toInt
  | .long, s => ∃ n, s.whole? = some n
  | .float, s => (∃ n, s.whole? = some n) ∨ ∃ x, s = .float x
  | .boolean, s => ∃ b, s = .boolean b

/-- The scalars of a kind are those that can be viewed as it. -/
theorem fits_iff {kind : RawKind} {s : Scalar} : kind.Fits s ↔ ∃ raw, kind.view? s = some raw := by
  cases kind with
  | int =>
    cases s with
    | int n =>
      have hrange : Int32.minValue.toInt ≤ n.toInt ∧ n.toInt ≤ Int32.maxValue.toInt :=
        ⟨n.minValue_le_toInt, n.toInt_le⟩
      exact ⟨fun _ => ⟨n, rfl⟩, fun _ => ⟨_, rfl, hrange⟩⟩
    | long n =>
      change (∃ m, some n.toInt = some m ∧ _) ↔ ∃ raw, Width.int32? n.toInt = some raw
      rw [← Option.isSome_iff_exists, Width.int32?_isSome_iff]
      simp
    | float | string | boolean => simp [Fits, Scalar.whole?, view?, Scalar.int?]
  | string | long | float | boolean =>
    cases s <;> simp [Fits, Scalar.whole?, view?, Scalar.string?, Scalar.long?, Scalar.float?,
      Scalar.boolean?]

end RawKind

/-- A scalar type takes a scalar if it is of its raw kind and the coercion accepts it. Identifiers
may be whole numbers of 32 bits as well. -/
def ScalarType.Takes (t : ScalarType) (s : Scalar) : Prop :=
  (t.coercion.raw.Fits s ∧ ∃ v, t.coercion.read s = .ok v) ∨
    t.coercion.host = .id ∧ RawKind.int.Fits s

namespace ScalarType

theorem takes_iff_fits {t : ScalarType} (hread : ∀ raw, ∃ v, t.coercion.deserialize raw = .ok v)
    (hid : t.coercion.host ≠ .id) {s : Scalar} : t.Takes s ↔ t.coercion.raw.Fits s := by
  constructor
  · rintro (⟨hfits, -⟩ | ⟨hhost, -⟩)
    · exact hfits
    · exact absurd hhost hid
  · intro hfits
    obtain ⟨raw, hraw⟩ := RawKind.fits_iff.mp hfits
    obtain ⟨v, hv⟩ := hread raw
    exact .inl ⟨hfits, v, by rw [Coercion.read, hraw, ← hv]⟩

theorem id_takes_iff {s : Scalar} :
    ScalarType.id.Takes s ↔ RawKind.string.Fits s ∨ RawKind.int.Fits s := by
  constructor
  · rintro (⟨hfits, -⟩ | ⟨-, hfits⟩)
    · exact .inl hfits
    · exact .inr hfits
  · rintro (⟨text, rfl⟩ | hfits)
    · exact .inl ⟨⟨text, rfl⟩, .text text, rfl⟩
    · exact .inr ⟨rfl, hfits⟩

end ScalarType

namespace TypeGraph

/-- A literal conforms to a published type. Null conforms to nullable types only. A list conforms
element by element, and any other literal conforms to a list type as its only element. An object has
declared fields only, and what it gives for each of them, or null, conforms to its type. -/
inductive Conforms (g : TypeGraph) : Literal → TypeLiteral → Prop
  | null {type : TypeLiteral} : type.isNonNull = false → Conforms g .null type
  | list {items : List Literal} {inner : TypeLiteral} {nonNull : Bool} :
    (∀ item ∈ items, Conforms g item inner) → Conforms g (.list items) (.list inner nonNull)
  | single {l : Literal} {inner : TypeLiteral} {nonNull : Bool} : l ≠ .null →
    (∀ items, l ≠ .list items) → Conforms g l inner → Conforms g l (.list inner nonNull)
  | scalar {s : Scalar} {t : ScalarType} {name : String} {nonNull : Bool} :
    g.type? name = some (.scalar t) → t.Takes s → Conforms g (.scalar s) (.named name nonNull)
  | enumeration {l : Literal} {e : EnumType} {label name : String} {nonNull : Bool} :
    g.type? name = some (.enumeration e) → l = .enum label ∨ l = .string label →
    label ∈ e.shape.values → Conforms g l (.named name nonNull)
  | inputObject {fields : List (String × Literal)} {i : InputObjectType} {name : String}
    {nonNull : Bool} : g.type? name = some (.inputObject i) →
    (∀ key ∈ fields.map (·.1), key ∈ i.fields.map (·.1)) →
    (∀ f ∈ i.fields, Conforms g ((Literal.last? fields f.1).getD .null) f.2) →
    Conforms g (.object fields) (.named name nonNull)

variable {g : TypeGraph} {l : Literal} {name : String} {nonNull : Bool}

theorem conforms_null {type : TypeLiteral} : g.Conforms .null type ↔ type.isNonNull = false := by
  constructor
  · intro h
    cases h with
    | null h => exact h
    | single h => exact absurd rfl h
    | enumeration _ h => rcases h with h | h <;> cases h
  · exact .null

theorem conforms_list {items : List Literal} {inner : TypeLiteral} :
    g.Conforms (.list items) (.list inner nonNull) ↔ ∀ item ∈ items, g.Conforms item inner := by
  constructor
  · intro h
    cases h with
    | list h => exact h
    | single _ h => exact absurd rfl (h items)
  · exact .list

theorem conforms_single {inner : TypeLiteral} (hnull : l ≠ .null)
    (hlist : ∀ items, l ≠ .list items) :
    g.Conforms l (.list inner nonNull) ↔ g.Conforms l inner := by
  constructor
  · intro h
    cases h with
    | null => exact absurd rfl hnull
    | list => exact absurd rfl (hlist _)
    | single _ _ h => exact h
  · exact .single hnull hlist

/-- Whether a type is nullable matters to null only. -/
theorem conforms_nullable {type : TypeLiteral} (hnull : l ≠ .null) :
    g.Conforms l type.nullable ↔ g.Conforms l type := by
  cases type with
  | named name nonNull =>
    constructor
    all_goals
      intro h
      cases h with
      | null => exact absurd rfl hnull
      | scalar ht hs => exact .scalar ht hs
      | enumeration ht hl hmem => exact .enumeration ht hl hmem
      | inputObject ht hkeys hfields => exact .inputObject ht hkeys hfields
  | list inner nonNull =>
    constructor
    all_goals
      intro h
      cases h with
      | null => exact absurd rfl hnull
      | list h => exact .list h
      | single _ hlist h => exact .single hnull hlist h

theorem conforms_scalar {t : ScalarType} (ht : g.type? name = some (.scalar t)) :
    g.Conforms l (.named name true) ↔ ∃ s, l = .scalar s ∧ t.Takes s := by
  constructor
  · intro h
    cases h with
    | null h => cases h
    | scalar ht' hs =>
      cases ht.symm.trans ht'
      exact ⟨_, rfl, hs⟩
    | enumeration ht' | inputObject ht' => cases ht.symm.trans ht'
  · rintro ⟨s, rfl, hs⟩
    exact .scalar ht hs

theorem conforms_enumeration {e : EnumType} (ht : g.type? name = some (.enumeration e)) :
    g.Conforms l (.named name true) ↔
      ∃ label ∈ e.shape.values, l = .enum label ∨ l = .string label := by
  constructor
  · intro h
    cases h with
    | null h => cases h
    | enumeration ht' hl hmem =>
      cases ht.symm.trans ht'
      exact ⟨_, hmem, hl⟩
    | scalar ht' | inputObject ht' => cases ht.symm.trans ht'
  · rintro ⟨label, hmem, hl⟩
    exact .enumeration ht hl hmem

theorem conforms_inputObject {i : InputObjectType} (ht : g.type? name = some (.inputObject i)) :
    g.Conforms l (.named name true) ↔ ∃ fields, l = .object fields ∧
      (∀ key ∈ fields.map (·.1), key ∈ i.fields.map (·.1)) ∧
        ∀ f ∈ i.fields, g.Conforms ((Literal.last? fields f.1).getD .null) f.2 := by
  constructor
  · intro h
    cases h with
    | null h => cases h
    | inputObject ht' hkeys hfields =>
      cases ht.symm.trans ht'
      exact ⟨_, rfl, hkeys, hfields⟩
    | scalar ht' | enumeration ht' => cases ht.symm.trans ht'
  · rintro ⟨fields, rfl, hkeys, hfields⟩
    exact .inputObject ht hkeys hfields

end TypeGraph

namespace Universe

variable (u : Universe)

/-- A type has a literal form, as far as its parts have one. -/
inductive Readable : HostType → Prop
  | text : Readable .text
  | int : Readable .int
  | long : Readable .long
  | float : Readable .float
  | boolean : Readable .boolean
  | id : Readable .id
  | optional (t : HostType) : Readable (.optional t)
  | sequence (t : HostType) : Readable (.sequence t)
  | boxed (t : HostType) : Readable (.boxed t)
  | scalar {path : String} : u.definition? path = some .scalar → Readable (.named path)
  | enumeration {path name : String} {values : List String} :
    u.definition? path = some (.enumeration name values) → Readable (.named path)
  | inputObject {path name : String} {fields : List (String × HostType)} :
    u.definition? path = some (.inputObject name fields) → Readable (.named path)

/-- What a type is made of. An input object may be made of itself. -/
inductive Part : HostType → HostType → Prop
  | optional (t : HostType) : Part (.optional t) t
  | sequence (t : HostType) : Part (.sequence t) t
  | boxed (t : HostType) : Part (.boxed t) t
  | field {path name : String} {fields : List (String × HostType)} {field : String × HostType} :
    u.definition? path = some (.inputObject name fields) → field ∈ fields →
    Part (.named path) field.2

/-- A type that is built from types with a literal form. -/
def IsInput (t : HostType) : Prop := ∀ part, Relation.ReflTransGen u.Part t part → u.Readable part

variable {u}

theorem IsInput.readable {t : HostType} (h : u.IsInput t) : u.Readable t := h t .refl

theorem IsInput.part {t t' : HostType} (h : u.IsInput t) (hpart : u.Part t t') : u.IsInput t' :=
  fun other hother => h other (.head hpart hother)

end Universe

end Trellis
