import Trellis.Proofs.Typing.Arguments
import Trellis.Proofs.Typing.Published

/-!
Decoding accepts what is published.

The type that a schema publishes for an argument and the decoder that is run for it come from two
recursions over the same host type. They agree: a literal is decoded exactly if it conforms to the
published type.
-/

namespace Trellis

namespace Except

variable {ε ε' α β : Type}

/-! When steps are taken to their ends -/

theorem exists_map_ok {f : α → β} {x : Except ε α} : (∃ b, x.map f = .ok b) ↔ ∃ a, x = .ok a := by
  cases x <;> simp [Except.map]

theorem exists_mapError_ok {f : ε → ε'} {x : Except ε α} :
    (∃ a, x.mapError f = .ok a) ↔ ∃ a, x = .ok a := by
  cases x <;> simp [Except.mapError]

theorem exists_bind_ok {x : Except ε α} {f : α → Except ε β} :
    (∃ b, x >>= f = .ok b) ↔ ∃ a, x = .ok a ∧ ∃ b, f a = .ok b := by
  cases x <;> simp [bind, Except.bind]

end Except

namespace Universe

variable {u : Universe} {table : ScalarTable} {l : Literal}

/-! ### What the decoders accept -/

theorem exists_decodeBuiltin {name : String} {view : Scalar → Option HostValue} :
    (∃ v, decodeBuiltin name view l = .ok v) ↔ ∃ s, l = .scalar s ∧ ∃ v, view s = some v := by
  rw [decodeBuiltin]
  cases l with
  | scalar s => cases hview : view s <;> simp [Literal.scalar?, hview]
  | null | enum | reference | list | object => simp [Literal.scalar?]

/-- A scalar that is decoded by viewing it as a raw kind accepts what its scalar type takes. -/
theorem exists_decodeBuiltin_view {name : String} {t : ScalarType}
    (hread : ∀ raw, ∃ v, t.coercion.deserialize raw = .ok v) (hid : t.coercion.host ≠ .id)
    (wrap : t.coercion.raw.Carrier → HostValue) :
    (∃ v, decodeBuiltin name (fun s => (t.coercion.raw.view? s).map wrap) l = .ok v) ↔
      ∃ s, l = .scalar s ∧ t.Takes s := by
  have hview (s : Scalar) :
      (∃ v, (t.coercion.raw.view? s).map wrap = some v) ↔ t.Takes s := by
    rw [ScalarType.takes_iff_fits hread hid, RawKind.fits_iff]
    simp only [← Option.isSome_iff_exists, Option.isSome_map]
  simp only [exists_decodeBuiltin, hview]

theorem exists_decodeId {name : String} :
    (∃ v, decodeBuiltin name viewId l = .ok v) ↔ ∃ s, l = .scalar s ∧ ScalarType.id.Takes s := by
  have hview (s : Scalar) : (∃ v, viewId s = some v) ↔ ScalarType.id.Takes s := by
    rw [ScalarType.id_takes_iff, RawKind.fits_iff, RawKind.fits_iff, viewId]
    cases s <;> simp [RawKind.view?, Scalar.string?, Scalar.int?]
  simp only [exists_decodeBuiltin, hview]

/-- A custom scalar is decoded by the coercion that is declared for its host type. -/
theorem exists_decodeScalar {host : HostType} {t : ScalarType} (ht : table host = some t)
    (hhost : t.coercion.host ≠ .id) :
    (∃ v, decodeScalar table host l = .ok v) ↔ ∃ s, l = .scalar s ∧ t.Takes s := by
  have hread (s : Scalar) : (∃ v, t.coercion.read s = .ok v) ↔ t.Takes s := by
    constructor
    · rintro ⟨v, hv⟩
      refine .inl ⟨RawKind.fits_iff.mpr ?_, v, hv⟩
      rw [Coercion.read] at hv
      split at hv
      · exact ⟨_, ‹_›⟩
      · cases hv
    · rintro (⟨-, hv⟩ | ⟨hid, -⟩)
      · exact hv
      · exact absurd hid hhost
  rw [decodeScalar, ht]
  cases l with
  | scalar s => simp [Literal.scalar?, hread]
  | null | enum | reference | list | object => simp [Literal.scalar?]

theorem exists_decodeVariant {name : String} {values : List String} :
    (∃ v, decodeVariant name values l = .ok v) ↔
      ∃ label ∈ values, l = .enum label ∨ l = .string label := by
  have hlabel (label : String) : (l.enum?).or l.string? = some label ↔
      l = .enum label ∨ l = .string label := by
    cases l with
    | scalar s =>
      cases s <;>
        simp [Literal.enum?, Literal.string?, Literal.scalar?, Scalar.string?, Literal.string]
    | null | enum | reference | list | object =>
      simp [Literal.enum?, Literal.string?, Literal.scalar?, Literal.string]
  simp only [← hlabel]
  rw [decodeVariant]
  cases (l.enum?).or l.string? with
  | none => simp
  | some label => by_cases hmem : label ∈ values <;> simp [hmem]

theorem checkKeys_eq_ok {name : String} {known given : List String} {v : Unit} :
    checkKeys name known given = .ok v ↔ ∀ key ∈ given, key ∈ known := by
  rw [checkKeys]
  cases hfind : given.find? (· ∉ known) with
  | none => simpa using hfind
  | some key =>
    have hkey := List.find?_some hfind
    have hmem := List.mem_of_find?_eq_some hfind
    simp only [reduceCtorEq, false_iff, not_forall]
    exact ⟨key, hmem, by simpa using hkey⟩

theorem exists_decodeItems {items : List Literal} {t : HostType} :
    (∃ vs, u.decodeItems table items t = .ok vs) ↔
      ∀ item ∈ items, ∃ v, u.decode table item t = .ok v := by
  induction items with
  | nil => simp [decodeItems]
  | cons item items ih =>
    rw [decodeItems, Except.exists_bind_ok, List.forall_mem_cons, ← ih]
    simp only [Except.exists_bind_ok]
    simp [pure, Except.pure]

/-- Fields are decoded if each of them is, from its last value or from null. -/
theorem exists_decodeFields {given : List (String × Literal)}
    {declared : List (String × HostType)} :
    (∃ vs, u.decodeFields table given declared = .ok vs) ↔ ∀ field ∈ declared,
      ∃ v, u.decode table ((Literal.last? given field.1).getD .null) field.2 = .ok v := by
  induction declared with
  | nil => simp [decodeFields]
  | cons field declared ih =>
    rw [decodeFields, Except.exists_bind_ok, List.forall_mem_cons, ← ih]
    simp only [Except.exists_bind_ok]
    split
    all_goals
      rename_i hlast
      simp [pure, Except.pure, hlast, Except.exists_mapError_ok]

theorem exists_decode_optional {t : HostType} (hnull : l ≠ .null) :
    (∃ v, u.decode table l (.optional t) = .ok v) ↔ ∃ v, u.decode table l t = .ok v := by
  rw [decode]
  · exact Except.exists_map_ok
  · exact hnull

theorem exists_decode_list {items : List Literal} {t : HostType} :
    (∃ v, u.decode table (.list items) (.sequence t) = .ok v) ↔
      ∀ item ∈ items, ∃ v, u.decode table item t = .ok v := by
  rw [decode, Except.exists_map_ok, exists_decodeItems]

theorem exists_decode_single {t : HostType} (hnull : l ≠ .null) (hlist : ∀ items, l ≠ .list items) :
    (∃ v, u.decode table l (.sequence t) = .ok v) ↔ ∃ v, u.decode table l t = .ok v := by
  rw [decode]
  · exact Except.exists_map_ok
  · exact hlist
  · exact hnull

/-- An object is decoded if all its keys are declared and every declared field is decoded. -/
theorem exists_decode_inputObject {path name : String} {declared : List (String × HostType)}
    (hpath : u.definition? path = some (.inputObject name declared)) :
    (∃ v, u.decode table l (.named path) = .ok v) ↔ ∃ fields, l = .object fields ∧
      (∀ key ∈ fields.map (·.1), key ∈ declared.map (·.1)) ∧ ∀ field ∈ declared,
        ∃ v, u.decode table ((Literal.last? fields field.1).getD .null) field.2 = .ok v := by
  cases l with
  | object fields =>
    rw [decode]
    simp only [hpath, Except.exists_bind_ok, checkKeys_eq_ok, Except.exists_map_ok,
      exists_decodeFields, Entries.mem_keys_ofPairs]
    simp
  | null | scalar | enum | reference | list =>
    unfold decode
    simp [hpath]

/-! ### Agreement with what is published -/

variable {d : Declarations} {g : TypeGraph} {type : TypeLiteral}

theorem takes_scalar (hg : d.Publishes u.catalogue g) {t : ScalarType} (ht : t ∈ d.allScalars)
    (htakes : g.Takes (.scalar t.coercion.host) type) :
    type = .named t.name true ∧ g.type? t.name = some (.scalar t) := by
  obtain ⟨name, rfl, hname, -⟩ := htakes
  obtain ⟨hlookup, hnode⟩ := hg.scalar t ht
  obtain rfl : t.name = name := Option.some.inj (hlookup.symm.trans hname)
  exact ⟨rfl, hnode⟩

theorem exists_decode_builtin (hg : d.Publishes u.catalogue g) {t : ScalarType}
    (ht : t ∈ ScalarType.builtin) (htakes : g.Takes (.scalar t.coercion.host) type) :
    (∃ v, u.decode g.scalarOf? l t.coercion.host = .ok v) ↔ g.Conforms l type := by
  obtain ⟨rfl, hnode⟩ := takes_scalar hg (List.mem_append_left _ ht) htakes
  rw [TypeGraph.conforms_scalar hnode]
  simp only [ScalarType.builtin, List.mem_cons, List.not_mem_nil, or_false] at ht
  rcases ht with rfl | rfl | rfl | rfl | rfl | rfl
  · unfold decode
    exact exists_decodeBuiltin_view (t := .string) (fun raw => ⟨_, rfl⟩) nofun .text
  · unfold decode
    exact exists_decodeBuiltin_view (t := .int) (fun raw => ⟨_, rfl⟩) nofun .int
  · unfold decode
    exact exists_decodeBuiltin_view (t := .long) (fun raw => ⟨_, rfl⟩) nofun .long
  · unfold decode
    exact exists_decodeBuiltin_view (t := .float) (fun raw => ⟨_, rfl⟩) nofun .float
  · unfold decode
    exact exists_decodeBuiltin_view (t := .boolean) (fun raw => ⟨_, rfl⟩) nofun .boolean
  · unfold decode
    exact exists_decodeId

/-- Decoding agrees with what is published for all types that are described. -/
def Agrees (u : Universe) (d : Declarations) (g : TypeGraph) (l : Literal) : Prop :=
  ∀ {t : HostType} {type : TypeLiteral}, u.IsInput t →
    d.Describes u.catalogue (u.describe t).innermost → g.Takes (u.describe t) type →
    ((∃ v, u.decode g.scalarOf? l t = .ok v) ↔ g.Conforms l type)

/-- Objects agree if lighter literals do: the fields of an input object are published as they are
defined. -/
theorem exists_decode_object (hu : u.FieldsDistinct) (hg : d.Publishes u.catalogue g)
    (hlighter : ∀ other : Literal, other.weight < l.weight → u.Agrees d g other)
    {path label name : String} {fields : List (String × HostType)} {i : InputObjectType}
    (hpath : u.definition? path = some (.inputObject label fields)) (ht : u.IsInput (.named path))
    (hdescribes : d.Describes u.catalogue (u.describe (.named path)))
    (hi : g.type? name = some (.inputObject i)) (hhost : i.host = .named path) :
    (∃ v, u.decode g.scalarOf? l (.named path) = .ok v) ↔ g.Conforms l (.named name true) := by
  have hkey (key : String) : key ∈ fields.map (·.1) ↔ key ∈ i.fields.map (·.1) := by
    constructor
    · intro h
      obtain ⟨field, hfield, rfl⟩ := List.mem_map.mp h
      obtain ⟨type, htype, -⟩ := exists_published hu hg hi hhost hpath hdescribes hfield
      exact List.mem_map_of_mem (Entries.mem_of_lookup htype)
    · intro h
      obtain ⟨f, hf, rfl⟩ := List.mem_map.mp h
      obtain ⟨field, hfield, hname, -⟩ := exists_defined hg hi hhost hpath hdescribes hf
      exact List.mem_map.mpr ⟨field, hfield, hname⟩
  have hvalue {given : List (String × Literal)} (hl : l = .object given) {field : String × HostType}
      (hfield : field ∈ fields) {type : TypeLiteral} (htakes : g.Takes (u.describe field.2) type) :
      (∃ v, u.decode g.scalarOf? ((Literal.last? given field.1).getD .null) field.2 = .ok v) ↔
        g.Conforms ((Literal.last? given field.1).getD .null) type := by
    refine hlighter _ ?_ (ht.part (.field hpath hfield)) ?_ htakes
    · rw [hl, Literal.weight]
      cases hlast : Literal.last? given field.1 with
      | none =>
        rw [Option.getD_none, Literal.weight]
        omega
      | some value =>
        have := Literal.weight_lt_of_last? hlast
        rw [Option.getD_some]
        omega
    · exact (describes_field hpath hdescribes hfield).innermost
  rw [exists_decode_inputObject hpath, TypeGraph.conforms_inputObject hi]
  simp only [hkey]
  refine exists_congr fun given => and_congr_right fun hl => and_congr_right fun _ => ?_
  constructor
  · intro h f hf
    obtain ⟨field, hfield, hname, htakes⟩ := exists_defined hg hi hhost hpath hdescribes hf
    rw [← hname]
    exact (hvalue hl hfield htakes).mp (h field hfield)
  · intro h field hfield
    obtain ⟨type, htype, htakes⟩ := exists_published hu hg hi hhost hpath hdescribes hfield
    exact (hvalue hl hfield htakes).mpr (h _ (Entries.mem_of_lookup htype))

/-- A literal of a named type agrees if lighter literals do. -/
theorem exists_decode_named (hu : u.FieldsDistinct) (hg : d.Publishes u.catalogue g)
    (hlighter : ∀ other : Literal, other.weight < l.weight → u.Agrees d g other) {path : String}
    (ht : u.IsInput (.named path))
    (hdescribes : d.Describes u.catalogue (u.describe (.named path)).innermost)
    (htakes : g.Takes (u.describe (.named path)) type) :
    (∃ v, u.decode g.scalarOf? l (.named path) = .ok v) ↔ g.Conforms l type := by
  obtain ⟨name, rfl, hname⟩ := htakes
  cases ht.readable with
  | scalar hpath =>
    simp only [describe, hpath, TypeRef.innermost, TypeRef.literal] at hname ⊢
    obtain ⟨hlookup, t, hnode, hhost⟩ := hname
    have htable : g.scalarOf? (.named path) = some t := by
      simp [TypeGraph.scalarOf?, TypeGraph.scalar?, hlookup, hnode, TypeNode.scalar?]
    rw [TypeGraph.conforms_scalar hnode, ← exists_decodeScalar htable (by simp [hhost])]
    unfold decode
    simp only [hpath]
  | enumeration hpath =>
    simp only [describe, hpath, TypeRef.innermost, TypeRef.literal] at hname hdescribes ⊢
    obtain ⟨-, e, hnode, hhost⟩ := hname
    rw [TypeGraph.conforms_enumeration hnode, hg.enumeration hnode hhost hdescribes]
    unfold decode
    simp only [hpath]
    exact exists_decodeVariant
  | inputObject hpath =>
    have hdescribe : u.describe (.named path) = .inputObject (.named path) (.named path) := by
      simp only [describe, hpath]
    have hself : (u.describe (.named path)).innermost = u.describe (.named path) := by
      simp only [hdescribe, TypeRef.innermost]
    rw [hself] at hdescribes
    rw [hself, hdescribe] at hname
    obtain ⟨-, i, hnode, hhost⟩ := hname
    rw [hdescribe]
    exact exists_decode_object hu hg hlighter hpath ht hdescribes hnode hhost

/-- Decoding accepts exactly what is published. -/
theorem agrees (hu : u.FieldsDistinct) (hg : d.Publishes u.catalogue g) (l : Literal) :
    u.Agrees d g l := by
  induction hweight : l.weight using Nat.strongRecOn generalizing l with
  | ind weight ih =>
    subst hweight
    intro t type ht hdescribes htakes
    induction t generalizing type with
    | text => exact exists_decode_builtin hg (t := .string) (by simp [ScalarType.builtin]) htakes
    | int => exact exists_decode_builtin hg (t := .int) (by simp [ScalarType.builtin]) htakes
    | long => exact exists_decode_builtin hg (t := .long) (by simp [ScalarType.builtin]) htakes
    | float => exact exists_decode_builtin hg (t := .float) (by simp [ScalarType.builtin]) htakes
    | boolean =>
      exact exists_decode_builtin hg (t := .boolean) (by simp [ScalarType.builtin]) htakes
    | id => exact exists_decode_builtin hg (t := .id) (by simp [ScalarType.builtin]) htakes
    | optional t iht =>
      obtain ⟨name, rfl, hname⟩ := htakes
      by_cases hnull : l = .null
      · subst hnull
        have hnone : u.decode g.scalarOf? .null (.optional t) = .ok .absent := by rw [decode]
        rw [TypeGraph.conforms_null]
        exact ⟨fun _ => TypeLiteral.isNonNull_nullable _, fun _ => ⟨_, hnone⟩⟩
      · rw [exists_decode_optional hnull]
        exact (iht (ht.part (.optional t)) hdescribes ⟨name, rfl, hname⟩).trans
          (TypeGraph.conforms_nullable hnull).symm
    | sequence t iht =>
      obtain ⟨name, rfl, hname⟩ := htakes
      have htakes : g.Takes (u.describe t) ((u.describe t).literal name) := ⟨name, rfl, hname⟩
      have hpart := ht.part (.sequence t)
      by_cases hnull : l = .null
      · subst hnull
        rw [TypeGraph.conforms_null]
        constructor
        · rintro ⟨v, hv⟩
          rw [decode] at hv
          cases hv
        · intro hnullable
          cases hnullable
      by_cases hlist : ∃ items, l = .list items
      · obtain ⟨items, rfl⟩ := hlist
        rw [exists_decode_list, describe, TypeRef.literal, TypeGraph.conforms_list]
        refine forall₂_congr fun item hitem => ih _ ?_ item rfl hpart hdescribes htakes
        rw [Literal.weight]
        have := Literal.weight_lt_of_mem_items hitem
        omega
      · have hlist := not_exists.mp hlist
        rw [exists_decode_single hnull hlist]
        exact (iht hpart hdescribes htakes).trans (TypeGraph.conforms_single hnull hlist).symm
    | boxed t iht =>
      rw [decode]
      exact iht (ht.part (.boxed t)) hdescribes htakes
    | named path =>
      exact exists_decode_named hu hg (fun other hother => ih _ hother other rfl) ht hdescribes
        htakes
    | _ => cases ht.readable

end Universe

namespace SchemaBuilder

variable {u : Universe} {calls : List BuilderCall}

/-- Decoding accepts exactly what is published. In a schema that is made up, every argument that a
function declares has a published type, and so has every field that an input object is defined with.
A literal is decoded as the host type of the argument or of the field exactly if it conforms to the
published type, whenever that host type is built from types with a literal form. -/
theorem decode_iff_conforms (hu : u.FieldsDistinct)
    (hd : (ofCalls calls).declarations.Coherent u.catalogue) {s : Schema}
    (hs : ((ofCalls calls).build u.catalogue).1 = .ok s) :
    (∀ name o, s.graph.type? name = some (.object o) → ∀ p ∈ o.properties,
      ∀ declared ∈ p.declaredArguments, ∃ a, p.argument? declared.1 = some a ∧
        ∀ t, declared.2 = u.describe t → u.IsInput t → ∀ l,
          (∃ v, u.decode s.graph.scalarOf? l t = .ok v) ↔ s.graph.Conforms l a.type) ∧
    ∀ path label fields i, u.definition? path = some (.inputObject label fields) →
      (ofCalls calls).declarations.Describes u.catalogue (u.describe (.named path)) →
      s.graph.input? (.named path) = some i →
      ∀ field ∈ fields, ∃ type, i.fields.lookup field.1 = some type ∧ (u.IsInput field.2 → ∀ l,
        (∃ v, u.decode s.graph.scalarOf? l field.2 = .ok v) ↔ s.graph.Conforms l type) := by
  obtain ⟨-, hregister, -⟩ := build_eq_ok.mp hs
  obtain ⟨r, hr, hgraph⟩ := Declarations.register_eq_ok.mp hregister
  have hsettled := Registering.addAll_settled hd (proper_ofCalls calls) hr
  have hg := hsettled.publishes hd (proper_ofCalls calls)
    (if (ofCalls calls).declarations.mutations.isEmpty then none else some Registering.mutationName)
  rw [hgraph]
  constructor
  · intro name o ho p hp declared hdeclared
    obtain ⟨a, ha, hdescribes, htakes⟩ := hsettled.exists_argument hd ho hp hdeclared
    refine ⟨a, ha, fun t hdescribe ht l => ?_⟩
    rw [hdescribe] at hdescribes htakes
    exact Universe.agrees hu hg l ht hdescribes htakes
  · intro path label fields i hpath hdescribes hi field hfield
    obtain ⟨name, hnode, hhost⟩ := hsettled.exists_input hi
    obtain ⟨type, htype, htakes⟩ :=
      Universe.exists_published hu hg hnode hhost hpath hdescribes hfield
    refine ⟨type, htype, fun ht l => Universe.agrees hu hg l ht ?_ htakes⟩
    exact (Universe.describes_field hpath hdescribes hfield).innermost

end SchemaBuilder

namespace Universe.Archive

def genre : HostType := .named "archive::Genre"

def year : HostType := .named "archive::Year"

def filter : HostType := .named "archive::Filter"

/-- Films are filtered by their genres and years, and by what another filter leaves out. -/
def archive : Universe where
  definitions := [("archive::Genre", .enumeration "Genre" ["FEATURE", "SHORT"]),
    ("archive::Year", .scalar), ("archive::Filter", .inputObject "Filter"
      [("genres", .optional (.sequence genre)), ("since", .optional year),
        ("without", .optional (.boxed filter))])]

theorem fieldsDistinct : archive.FieldsDistinct := by
  intro path name fields h
  have hmem := Entries.mem_of_lookup h
  simp only [archive, List.mem_cons, Prod.mk.injEq, reduceCtorEq, and_false, false_or,
    Definition.inputObject.injEq, List.not_mem_nil, or_false] at hmem
  obtain ⟨-, -, rfl⟩ := hmem
  decide

/-- Years are whole numbers from the first film on. -/
def yearScalar : ScalarType := ⟨"Year", none, year, .int, fun | .int n => n | _ => 0,
  fun n => if n < 1888 then .error (.ofMessage "No film is that old") else .ok (.int n)⟩

def count : Resolver :=
  ⟨.ofKinds [archive.argument filter], archive.describe .int,
    .suspending none fun _ _ => .answer (.ok (.single .int (.int 0)))⟩

/-- The years in which films came out, where they are known. -/
def releases : HostType := .optional (.boxed (.sequence (.optional year)))

def list : Resolver :=
  ⟨.ofKinds [], archive.describe releases, .suspending none fun _ _ => .answer (.ok .null)⟩

/-- Calls that declare years, a root field with a filter, and one that hands out years. -/
def calls : List BuilderCall :=
  [.scalar ⟨year, .int, none, none, some yearScalar.coercion.serialize,
      some yearScalar.coercion.deserialize⟩,
    .query { PropertyDeclaration.extension "count" with
      arguments := ["filter"]
      resolver := some count },
    .query { PropertyDeclaration.extension "releases" with resolver := some list }]

/-- Only genres are enums, and filters are input objects. -/
def Expected : TypeRef → Prop
  | .enumeration host shape => .enumeration host shape = archive.describe genre
  | .inputObject host outline => host = filter ∧ outline = filter
  | .object .. => False
  | .list _ inner | .nullable _ inner => Expected inner
  | _ => True

theorem expected {ref : TypeRef}
    (h : (SchemaBuilder.ofCalls calls).declarations.Describes archive.catalogue ref) :
    Expected ref := by
  induction h with
  | mention hmem =>
    have hmentions : (SchemaBuilder.ofCalls calls).declarations.mentions =
        [.scalar .int, .inputObject filter filter, archive.describe releases] := rfl
    rw [hmentions] at hmem
    simp only [List.mem_cons, List.not_mem_nil, or_false] at hmem
    rcases hmem with rfl | rfl | rfl
    · trivial
    · exact ⟨rfl, rfl⟩
    · trivial
  | customized hmem => cases hmem
  | nullable _ ih => exact ih
  | list _ ih => exact ih
  | field _ _ ih => exact ih.elim
  | inputField _ hf ih =>
    obtain ⟨rfl, rfl⟩ := ih
    have hfields : (archive.catalogue.input filter).fields =
        [⟨"genres", archive.describe (.optional (.sequence genre))⟩,
          ⟨"since", archive.describe (.optional year)⟩,
          ⟨"without", archive.describe (.optional (.boxed filter))⟩] := rfl
    rw [hfields] at hf
    simp only [List.mem_cons, List.not_mem_nil, or_false] at hf
    rcases hf with rfl | rfl | rfl
    · rfl
    · trivial
    · exact ⟨rfl, rfl⟩

theorem coherent : (SchemaBuilder.ofCalls calls).declarations.Coherent archive.catalogue where
  object _ _ _ _ hobject := (expected hobject).elim
  inputObject host shape outline henum hinput := by
    have hhost := (TypeRef.enumeration.inj (expected henum)).1.symm.trans (expected hinput).1
    simp [filter] at hhost
  shapes host shape other hshape hother :=
    (TypeRef.enumeration.inj ((expected hshape).trans (expected hother).symm)).2
  outlines _ _ _ houtline _ := (expected houtline).elim
  inputOutlines host outline other houtline hother :=
    (expected houtline).2.trans (expected hother).2.symm

/-! The schema that the calls make up -/

def queryType : ObjectType :=
  ⟨"Query", none, none,
    [⟨"count", none, .current, .named "Int" true, [⟨"filter", .named "Filter" true⟩], .extension,
      { count with parameters := ⟨[archive.argument filter], ["filter"]⟩ }, []⟩,
    ⟨"releases", none, .current, .list (.named "Year" false) false, [], .extension, list, []⟩]⟩

def filterType : InputObjectType :=
  ⟨"Filter", none, filter, [("genres", .list (.named "Genre" true) false),
    ("since", .named "Year" false), ("without", .named "Filter" false)]⟩

def genreType : EnumType :=
  ⟨"Genre", none, genre, enumShape "Genre" ["FEATURE", "SHORT"]⟩

def schema : Schema where
  graph := ⟨(ScalarType.builtin ++ [yearScalar]).map (fun s => (s.name, .scalar s)) ++
      [("Query", .object queryType), ("Filter", .inputObject filterType),
        ("Genre", .enumeration genreType)],
    [(genre, "Genre")], [(filter, "Filter"), (genre, "Genre")],
    (ScalarType.builtin ++ [yearScalar]).map (fun s => (s.coercion.host, s.name)), "Query", none⟩
  configuration := .default

theorem build_calls : ((SchemaBuilder.ofCalls calls).build archive.catalogue).1 = .ok schema := rfl

/-- The types that filters are built from. -/
theorem mem_of_part {part : HostType} (h : Relation.ReflTransGen archive.Part filter part) :
    part ∈ [filter, .optional (.sequence genre), .optional year, .optional (.boxed filter),
      .sequence genre, genre, year, .boxed filter] := by
  induction h with
  | refl => exact List.mem_cons_self
  | tail _ hpart ih =>
    simp only [List.mem_cons, List.not_mem_nil, or_false] at ih
    rcases ih with rfl | rfl | rfl | rfl | rfl | rfl | rfl | rfl
    · cases hpart with
      | field hpath hfield =>
        cases hpath
        simp only [List.mem_cons, List.not_mem_nil, or_false] at hfield
        rcases hfield with rfl | rfl | rfl <;> decide
    · cases hpart
      decide
    · cases hpart
      decide
    · cases hpart
      decide
    · cases hpart
      decide
    · cases hpart with
      | field hpath => cases hpath
    · cases hpart with
      | field hpath => cases hpath
    · cases hpart
      decide

theorem isInput_filter : archive.IsInput filter := by
  intro part hpart
  have hmem := mem_of_part hpart
  simp only [List.mem_cons, List.not_mem_nil, or_false] at hmem
  rcases hmem with rfl | rfl | rfl | rfl | rfl | rfl | rfl | rfl
  · exact .inputObject rfl
  · exact .optional _
  · exact .optional _
  · exact .optional _
  · exact .sequence _
  · exact .enumeration rfl
  · exact .scalar rfl
  · exact .boxed _

def taken : Literal :=
  .object [("genres", .enum "FEATURE"), ("without", .object [("since", .scalar (.int 1990))])]

def refused : Literal := .object [("since", .scalar (.int 1492))]

theorem takes_year {n : Int32} : yearScalar.Takes (.int n) ↔ ¬ n < 1888 := by
  have hread : yearScalar.coercion.read (.int n) =
      if n < 1888 then .error (.ofMessage "No film is that old") else .ok (.int n) := rfl
  constructor
  · rintro (⟨-, v, hv⟩ | ⟨hhost, -⟩)
    · intro hold
      rw [hread, if_pos hold] at hv
      cases hv
    · cases hhost
  · intro hnew
    exact .inl ⟨RawKind.fits_iff.mpr ⟨n, rfl⟩, .int n, by rw [hread, if_neg hnew]⟩

/-- A filter by years alone has to name a year that there is. -/
theorem conforms_since {n : Int32} {nonNull : Bool} :
    schema.graph.Conforms (.object [("since", .scalar (.int n))]) (.named "Filter" nonNull) ↔
      ¬ n < 1888 := by
  constructor
  · intro h
    cases h with
    | enumeration ht => cases ht
    | inputObject ht _ hfields =>
      cases ht
      have hsince := hfields ("since", .named "Year" false) (by simp [filterType])
      cases hsince with
      | scalar ht hs =>
        cases ht
        exact takes_year.mp hs
      | enumeration ht => cases ht
  · intro hn
    refine .inputObject (i := filterType) rfl (by simp [filterType]) fun f hf => ?_
    simp only [filterType, List.mem_cons, List.not_mem_nil, or_false] at hf
    rcases hf with rfl | rfl | rfl
    · exact .null rfl
    · exact .scalar (t := yearScalar) rfl (takes_year.mpr hn)
    · exact .null rfl

theorem conforms_taken : schema.graph.Conforms taken (.named "Filter" true) := by
  refine .inputObject (i := filterType) rfl (by decide) fun f hf => ?_
  simp only [filterType, List.mem_cons, List.not_mem_nil, or_false] at hf
  rcases hf with rfl | rfl | rfl
  · exact .single nofun nofun (.enumeration (e := genreType) rfl (.inl rfl) (by decide))
  · exact .null rfl
  · exact conforms_since.mpr (by decide)

theorem not_conforms_refused : ¬ schema.graph.Conforms refused (.named "Filter" true) :=
  fun h => conforms_since.mp h (by decide)

end Universe.Archive

namespace SchemaBuilder

open Universe.Archive

theorem decode_iff_conforms_sample : archive.FieldsDistinct ∧
    (ofCalls calls).declarations.Coherent archive.catalogue ∧
    ((ofCalls calls).build archive.catalogue).1 = .ok schema ∧ archive.IsInput filter ∧
    (∃ v, archive.decode schema.graph.scalarOf? taken filter = .ok v) ∧
    ¬ ∃ v, archive.decode schema.graph.scalarOf? refused filter = .ok v := by
  obtain ⟨harguments, -⟩ := decode_iff_conforms fieldsDistinct coherent build_calls
  obtain ⟨a, ha, hdecode⟩ := harguments "Query" queryType rfl _ List.mem_cons_self
    ("filter", archive.describe filter) List.mem_cons_self
  obtain rfl : a = ⟨"filter", .named "Filter" true⟩ := (Option.some.inj ha).symm
  have hdecode := hdecode filter rfl isInput_filter
  exact ⟨fieldsDistinct, coherent, build_calls, isInput_filter,
    (hdecode taken).mpr conforms_taken, mt (hdecode refused).mp not_conforms_refused⟩

end SchemaBuilder

namespace Universe.Relabelled

open Archive (genre)

def seriesShape : EnumShape := ⟨"Genre", ["SERIES"], fun _ => "SERIES"⟩

/-- Genres are described as enums by themselves, and in another way by formats. -/
def relabelled : Universe where
  definitions := [("archive::Genre", .enumeration "Genre" ["FEATURE", "SHORT"]),
    ("archive::Format", .mask (.enumeration genre seriesShape))]

def format : Resolver :=
  ⟨.ofKinds [], relabelled.describe (.named "archive::Format"),
    .suspending none fun _ _ => .answer (.ok .null)⟩

def find : Resolver :=
  ⟨.ofKinds [relabelled.argument genre, relabelled.argument .id], relabelled.describe .int,
    .suspending none fun _ _ => .answer (.ok (.single .int (.int 0)))⟩

/-- A root field that hands out formats, and one with a genre and an identifier. -/
def calls : List BuilderCall :=
  [.query { PropertyDeclaration.extension "format" with resolver := some format },
    .query { PropertyDeclaration.extension "find" with
      arguments := ["genre", "id"]
      resolver := some find }]

def formatProperty : Property :=
  ⟨"format", none, .current, .named "Genre" true, [], .extension, format, []⟩

def findProperty : Property :=
  ⟨"find", none, .current, .named "Int" true, [⟨"genre", .named "Genre" true⟩, ⟨"id", .named "ID" true⟩],
    .extension, { find with parameters := ⟨find.parameters.kinds, ["genre", "id"]⟩ }, []⟩

def queryType : ObjectType := ⟨"Query", none, none, [formatProperty, findProperty]⟩

/-- What is published is what formats say. -/
def schema : Schema where
  graph := ⟨ScalarType.builtin.map (fun s => (s.name, .scalar s)) ++
      [("Query", .object queryType), ("Genre", .enumeration ⟨"Genre", none, genre, seriesShape⟩)],
    [(genre, "Genre")], [(genre, "Genre")],
    ScalarType.builtin.map (fun s => (s.coercion.host, s.name)), "Query", none⟩
  configuration := .default

theorem build_calls :
    ((SchemaBuilder.ofCalls calls).build relabelled.catalogue).1 = .ok schema := rfl

theorem isInput_genre : relabelled.IsInput genre := by
  intro part hpart
  rcases hpart.cases_head with rfl | ⟨_, hpart, -⟩
  · exact .enumeration rfl
  · cases hpart with
    | field hpath => cases hpath

theorem conforms_genre {label : String} :
    schema.graph.Conforms (.enum label) (.named "Genre" true) ↔ label = "SERIES" := by
  rw [TypeGraph.conforms_enumeration (e := ⟨"Genre", none, genre, seriesShape⟩) rfl]
  simp [seriesShape, Literal.string]

theorem exists_decode_genre {table : ScalarTable} {l : Literal} :
    (∃ v, relabelled.decode table l genre = .ok v) ↔
      ∃ label ∈ ["FEATURE", "SHORT"], l = .enum label ∨ l = .string label := by
  unfold decode
  exact exists_decodeVariant

end Universe.Relabelled

namespace SchemaBuilder

open Universe.Relabelled
open Universe.Archive (genre)

/-- What is decoded and what is published part where a host type is described in two ways. And a whole
number is decoded as an identifier, though the coercion of identifiers reads no numbers. -/
theorem decode_unpublished :
    ((ofCalls calls).build relabelled.catalogue).1 = .ok schema ∧
    schema.graph.type? "Query" = some (.object queryType) ∧ findProperty ∈ queryType.properties ∧
    findProperty.declaredArguments =
      [("genre", relabelled.describe genre), ("id", relabelled.describe .id)] ∧
    findProperty.arguments = [⟨"genre", .named "Genre" true⟩, ⟨"id", .named "ID" true⟩] ∧
    relabelled.IsInput genre ∧
    (∃ v, relabelled.decode schema.graph.scalarOf? (.enum "FEATURE") genre = .ok v) ∧
    ¬ schema.graph.Conforms (.enum "FEATURE") (.named "Genre" true) ∧
    schema.graph.Conforms (.enum "SERIES") (.named "Genre" true) ∧
    (¬ ∃ v, relabelled.decode schema.graph.scalarOf? (.enum "SERIES") genre = .ok v) ∧
    schema.graph.type? "ID" = some (.scalar .id) ∧
    (∃ v, relabelled.decode schema.graph.scalarOf? (.scalar (.int 5)) .id = .ok v) ∧
    ∀ v, ScalarType.id.coercion.read (.int 5) ≠ .ok v := by
  refine ⟨build_calls, rfl, List.mem_cons_of_mem _ List.mem_cons_self, rfl, rfl, isInput_genre,
    exists_decode_genre.mpr ⟨_, List.mem_cons_self, .inl rfl⟩, mt conforms_genre.mp (by simp),
    conforms_genre.mpr rfl, mt exists_decode_genre.mp (by simp [Literal.string]), rfl, ?_, nofun⟩
  unfold Universe.decode
  exact ⟨_, rfl⟩

end SchemaBuilder

end Trellis
