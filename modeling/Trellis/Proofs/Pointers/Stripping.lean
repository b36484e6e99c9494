import Trellis.Proofs.Itemwise
import Trellis.Proofs.Typing.Functions

/-!
Host types without their pointers.

Boxes and shared pointers are described, handed out and taken back as what they point to, also
inside of optional types and sequences. What is left of them are the host types that nullable types
and lists are described with. So what a program declares is the same for two spellings of its types
once the pointers are stripped from those.
-/

namespace Trellis

/-- The host type with what they point to in the place of pointers. -/
def HostType.pointee : HostType → HostType
  | .optional t => .optional t.pointee
  | .sequence t => .sequence t.pointee
  | .boxed t => t.pointee
  | .shared t => t.pointee
  | t => t

/-- The host type with what they hold in the place of boxes; shared pointers stay. -/
def HostType.unboxed : HostType → HostType
  | .optional t => .optional t.unboxed
  | .sequence t => .sequence t.unboxed
  | .boxed t => t.unboxed
  | t => t

namespace HostType

theorem pointee_pointee (t : HostType) : t.pointee.pointee = t.pointee := by
  induction t with
  | optional t ih | sequence t ih => simp only [pointee, ih]
  | boxed t ih | shared t ih => exact ih
  | _ => rfl

theorem pointee_unboxed (t : HostType) : t.unboxed.pointee = t.pointee := by
  induction t with
  | optional t ih | sequence t ih => simp only [unboxed, pointee, ih]
  | boxed t ih => exact ih
  | _ => rfl

theorem pointee_eq_of_unboxed {t t' : HostType} (h : t.unboxed = t'.unboxed) :
    t.pointee = t'.pointee := by
  rw [← pointee_unboxed t, h, pointee_unboxed]

end HostType

/-- The description without the pointers in the host types of nullable types and lists. -/
def TypeRef.bare : TypeRef → TypeRef
  | .list host inner => .list host.pointee inner.bare
  | .nullable host inner => .nullable host.pointee inner.bare
  | ref => ref

namespace TypeRef

/-- Two descriptions that are the same without pointers. They differ in the host types of nullable
types and lists at most. -/
inductive Alike : TypeRef → TypeRef → Prop
  | scalar (host : HostType) : Alike (.scalar host) (.scalar host)
  | enumeration (host : HostType) (shape : EnumShape) :
    Alike (.enumeration host shape) (.enumeration host shape)
  | object (host outline : HostType) : Alike (.object host outline) (.object host outline)
  | inputObject (host outline : HostType) :
    Alike (.inputObject host outline) (.inputObject host outline)
  | union (host : HostType) : Alike (.union host) (.union host)
  | list {host host' : HostType} {inner inner' : TypeRef} : host.pointee = host'.pointee →
    Alike inner inner' → Alike (.list host inner) (.list host' inner')
  | nullable {host host' : HostType} {inner inner' : TypeRef} : host.pointee = host'.pointee →
    Alike inner inner' → Alike (.nullable host inner) (.nullable host' inner')
  | function (host : HostType) : Alike (.function host) (.function host)
  | generic (host : HostType) : Alike (.generic host) (.generic host)

theorem alike_of_bare {ref ref' : TypeRef} (h : ref.bare = ref'.bare) : ref.Alike ref' := by
  induction ref generalizing ref' with
  | list host inner ih =>
    cases ref' <;> simp only [bare, reduceCtorEq, list.injEq] at h
    exact .list h.1 (ih h.2)
  | nullable host inner ih =>
    cases ref' <;> simp only [bare, reduceCtorEq, nullable.injEq] at h
    exact .nullable h.1 (ih h.2)
  | _ =>
    cases ref' <;> cases h
    constructor

theorem Alike.refl (ref : TypeRef) : ref.Alike ref := alike_of_bare rfl

theorem Alike.pointee_host {ref ref' : TypeRef} (h : ref.Alike ref') :
    ref.host.pointee = ref'.host.pointee := by
  cases h with
  | list h | nullable h => exact h
  | _ => rfl

theorem Alike.isUnion {ref ref' : TypeRef} (h : ref.Alike ref') : ref.isUnion = ref'.isUnion := by
  induction h with
  | list _ _ ih | nullable _ _ ih => exact ih
  | _ => rfl

end TypeRef

namespace Universe

variable {u : Universe}

theorem bare_describe_pointee (t : HostType) :
    (u.describe t).bare = (u.describe t.pointee).bare := by
  induction t with
  | optional t ih | sequence t ih =>
    simp only [HostType.pointee, describe, TypeRef.bare, HostType.pointee_pointee, ih]
  | boxed t ih | shared t ih => exact ih
  | _ => rfl

theorem bare_describe {t t' : HostType} (h : t.pointee = t'.pointee) :
    (u.describe t).bare = (u.describe t').bare := by
  rw [bare_describe_pointee t, h, ← bare_describe_pointee]

theorem erase_pointee (t : HostType) : u.erase t.pointee = u.erase t := by
  induction t with
  | optional t ih | sequence t ih =>
    funext v
    simp only [HostType.pointee, erase, ih]
  | boxed t ih | shared t ih => exact ih
  | _ => rfl

theorem erase_congr {t t' : HostType} (h : t.pointee = t'.pointee) : u.erase t = u.erase t' := by
  rw [← erase_pointee t, h, erase_pointee]

theorem recover_pointee (t : HostType) : u.recover t.pointee = u.recover t := by
  induction t with
  | optional t ih | sequence t ih =>
    funext output
    simp only [HostType.pointee, recover, ih]
  | boxed t ih | shared t ih => exact ih
  | _ => rfl

theorem recover_congr {t t' : HostType} (h : t.pointee = t'.pointee) :
    u.recover t = u.recover t' := by
  rw [← recover_pointee t, h, recover_pointee]

theorem hasType_boxed {t : HostType} {v : HostValue} :
    u.HasType (.boxed t) v ↔ u.HasType t v :=
  ⟨fun h => by cases h; assumption, .boxed⟩

theorem hasType_shared {t : HostType} {v : HostValue} :
    u.HasType (.shared t) v ↔ u.HasType t v :=
  ⟨fun h => by cases h; assumption, .shared⟩

theorem hasType_optional {t : HostType} {v : HostValue} :
    u.HasType (.optional t) v ↔ v = .absent ∨ ∃ w, v = .present w ∧ u.HasType t w := by
  constructor
  · intro h
    cases h with
    | absent => exact .inl rfl
    | present h => exact .inr ⟨_, rfl, h⟩
  · rintro (rfl | ⟨w, rfl, h⟩)
    · exact .absent t
    · exact .present h

theorem hasType_sequence {t : HostType} {v : HostValue} :
    u.HasType (.sequence t) v ↔ ∃ vs, v = .sequence vs ∧ ∀ w ∈ vs, u.HasType t w := by
  constructor
  · rintro ⟨⟩
    exact ⟨_, rfl, ‹_›⟩
  · rintro ⟨vs, rfl, h⟩
    exact .sequence h

theorem hasType_pointee {t : HostType} {v : HostValue} :
    u.HasType t.pointee v ↔ u.HasType t v := by
  induction t generalizing v with
  | optional t ih => simp only [HostType.pointee, hasType_optional, ih]
  | sequence t ih => simp only [HostType.pointee, hasType_sequence, ih]
  | boxed t ih => rw [hasType_boxed, ← ih]; rfl
  | shared t ih => rw [hasType_shared, ← ih]; rfl
  | _ => rfl

theorem hasType_congr {t t' : HostType} (h : t.pointee = t'.pointee) {v : HostValue} :
    u.HasType t v ↔ u.HasType t' v := by
  rw [← hasType_pointee, h, hasType_pointee]

section

variable (table : ScalarTable)

theorem decodeItems_congr {t t' : HostType}
    (h : ∀ l, u.decode table l t = u.decode table l t') (items : List Literal) :
    u.decodeItems table items t = u.decodeItems table items t' := by
  induction items with
  | nil => rw [decodeItems, decodeItems]
  | cons item items ih => rw [decodeItems, decodeItems, h, ih]

theorem decode_unboxed (l : Literal) (t : HostType) :
    u.decode table l t.unboxed = u.decode table l t := by
  induction t generalizing l with
  | optional t ih =>
    cases l <;> simp only [HostType.unboxed, decode, ih]
  | sequence t ih =>
    cases l <;> simp only [HostType.unboxed, decode, ih, decodeItems_congr table ih]
  | boxed t ih =>
    simp only [HostType.unboxed, decode, ih]
  | _ => rfl

theorem decode_congr {t t' : HostType} (h : t.unboxed = t'.unboxed) (l : Literal) :
    u.decode table l t = u.decode table l t' := by
  rw [← decode_unboxed table l t, h, decode_unboxed]

end

end Universe

/-! ### Functions -/

def Parameter.bare : Parameter → Parameter
  | .argument type decode => .argument type.bare decode
  | .context => .context

def Parameters.bare (p : Parameters) : Parameters := ⟨p.kinds.map Parameter.bare, p.names⟩

def Resolver.bare (r : Resolver) : Resolver := { r with
  parameters := r.parameters.bare
  returns := r.returns.bare }

def Transformation.bare (t : Transformation) : Transformation := { t with
  host := t.host.pointee
  valueType := t.valueType.pointee
  parameters := t.parameters.bare }

namespace Parameters

theorem argumentTypes_bare (kinds : List Parameter) :
    argumentTypes (kinds.map Parameter.bare) = (argumentTypes kinds).map TypeRef.bare := by
  rw [argumentTypes, argumentTypes, List.filterMap_map, List.map_filterMap]
  congr 1
  funext kind
  cases kind <;> rfl

theorem argumentCount_bare (p : Parameters) : p.bare.argumentCount = p.argumentCount := by
  rw [argumentCount, bare, argumentTypes_bare, List.length_map, argumentCount]

theorem name?_bare (p : Parameters) (names : List String) :
    p.bare.name? names = (p.name? names).map bare := by
  rw [name?, name?, argumentCount_bare]
  split <;> rfl

theorem argumentCount_congr {p p' : Parameters} (h : p.bare = p'.bare) :
    p.argumentCount = p'.argumentCount := by
  rw [← argumentCount_bare, h, argumentCount_bare]

theorem name?_congr {p p' : Parameters} (h : p.bare = p'.bare) (names : List String) :
    p.name? names = none ∧ p'.name? names = none ∨
      ∃ q q', p.name? names = some q ∧ p'.name? names = some q' ∧ q.bare = q'.bare := by
  have hnames := congrArg (name? · names) h
  rw [name?_bare, name?_bare] at hnames
  exact none_or_some_of_map_eq hnames

theorem arguments_bare (p : Parameters) :
    p.bare.arguments = p.arguments.map (Prod.map id TypeRef.bare) := by
  rw [arguments, bare, argumentTypes_bare, arguments, List.zip_map_right]

theorem arguments_congr {p p' : Parameters} (h : p.bare = p'.bare) :
    p.arguments.map (Prod.map id TypeRef.bare) = p'.arguments.map (Prod.map id TypeRef.bare) := by
  rw [← arguments_bare, h, arguments_bare]

theorem bind_bare (p : Parameters) : p.bare.bind = p.bind := by
  obtain ⟨kinds, names⟩ := p
  funext provided table context
  rw [bind, bind, bare]
  dsimp only
  induction kinds generalizing names with
  | nil => rfl
  | cons kind kinds ih =>
    cases kind with
    | context => simp only [List.map_cons, Parameter.bare, bindKinds, ih]
    | argument =>
      cases names with
      | nil => rfl
      | cons => simp only [List.map_cons, Parameter.bare, bindKinds, ih]

end Parameters

theorem Resolver.start_congr {r r' : Resolver} (h : r.bare = r'.bare) : r.start = r'.start := by
  have hstart (r : Resolver) : r.bare.start = r.start := by
    funext parent provided table context
    rw [start, start, bare, Parameters.bind_bare]
  rw [← hstart r, h, hstart]

theorem Resolver.mode_congr {r r' : Resolver} (h : r.bare = r'.bare) : r.mode = r'.mode := by
  change r.bare.mode = r'.bare.mode
  rw [h]

/-- Transformations that are the same without pointers do the same to what they take back. What they
do not take back they refuse under the names of their host types, which may differ. -/
theorem Transformation.transform_congr {t t' : Transformation} (h : t.bare = t'.bare)
    {output : Output} {v : HostValue} (hv : t.recover output = some v)
    (provided : List (String × Literal)) (table : ScalarTable) (context : Context) :
    t.transform output provided table context = t'.transform output provided table context := by
  simp only [bare, mk.injEq] at h
  obtain ⟨-, -, hparameters, hrecover, happly, herase⟩ := h
  have hbind : t.parameters.bind = t'.parameters.bind := by
    rw [← Parameters.bind_bare, hparameters, Parameters.bind_bare]
  rw [transform, transform, hbind, happly, herase, ← hrecover, hv]

/-- What a function asks for, without boxes. -/
def ParameterType.unboxed : ParameterType → ParameterType
  | .argument t => .argument t.unboxed
  | .context => .context

namespace Universe

variable {u : Universe}

theorem bare_parameter {p p' : ParameterType} (h : p.unboxed = p'.unboxed) :
    (u.parameter p).bare = (u.parameter p').bare := by
  cases p with
  | context =>
    cases p' <;> cases h
    rfl
  | argument t =>
    cases p' with
    | context => cases h
    | argument t' =>
      have ht : t.unboxed = t'.unboxed := ParameterType.argument.inj h
      have hdescribe := bare_describe (u := u) (HostType.pointee_eq_of_unboxed ht)
      simp only [parameter, argument, Parameter.bare, hdescribe, decode_congr _ ht]

theorem bare_parameters {types types' : List ParameterType}
    (h : types.map ParameterType.unboxed = types'.map ParameterType.unboxed) :
    (types.map u.parameter).map Parameter.bare = (types'.map u.parameter).map Parameter.bare := by
  rw [List.map_map, List.map_map, map_eq_map_iff_forall₂]
  exact (map_eq_map_iff_forall₂.mp h).imp fun _ _ => bare_parameter

/-- A function with the pointers elsewhere: what it returns points to the same, and what it asks for
is in other boxes. -/
structure Function.Respells (f f' : u.Function) : Prop where
  receiver : f.receiver = f'.receiver
  parameters : f.parameters.map ParameterType.unboxed = f'.parameters.map ParameterType.unboxed
  returns : f.returns.pointee = f'.returns.pointee
  body : f.body = f'.body

theorem Function.Respells.bare_resolver {f f' : u.Function} (h : f.Respells f') :
    f.resolver.bare = f'.resolver.bare := by
  simp only [Function.resolver, Resolver.bare, Parameters.bare, Parameters.ofKinds, h.receiver,
    h.body, bare_parameters h.parameters, bare_describe h.returns]

/-- A mapping with the pointers elsewhere. -/
structure Mapping.Respells (m m' : u.Mapping) : Prop where
  host : m.host.pointee = m'.host.pointee
  parameters : m.parameters.map ParameterType.unboxed = m'.parameters.map ParameterType.unboxed
  apply : m.apply = m'.apply

theorem Mapping.Respells.bare_transformation {m m' : u.Mapping} (h : m.Respells m') :
    m.transformation.bare = m'.transformation.bare := by
  have hhost := (TypeRef.alike_of_bare (bare_describe (u := u) h.host)).pointee_host
  simp only [Mapping.transformation, Universe.transformation, Transformation.bare, Parameters.bare,
    Parameters.ofKinds, h.host, h.apply, hhost, bare_parameters h.parameters, erase_congr h.host,
    recover_congr h.host]

def Function.returning (f : u.Function) (t : HostType) (h : f.returns.pointee = t.pointee) :
    u.Function where
  __ := f
  returns := t
  yields hv hbounds journal ending output hending hresult := by
    obtain ⟨v, htype, rfl⟩ := f.yields hv hbounds journal ending output hending hresult
    exact ⟨v, (hasType_congr h).mp htype, congrFun (erase_congr h) v⟩

theorem Function.respells_returning (f : u.Function) {t : HostType}
    (h : f.returns.pointee = t.pointee) : f.Respells (f.returning t h) := ⟨rfl, rfl, h, rfl⟩

def Mapping.mapping (m : u.Mapping) (t : HostType) (h : m.host.pointee = t.pointee) :
    u.Mapping where
  __ := m
  host := t
  keeps hv hbounds happly :=
    (hasType_congr h).mp (m.keeps ((hasType_congr h).mpr hv) hbounds happly)

theorem Mapping.respells_mapping (m : u.Mapping) {t : HostType}
    (h : m.host.pointee = t.pointee) : m.Respells (m.mapping t h) := ⟨h, rfl, rfl⟩

end Universe

end Trellis
