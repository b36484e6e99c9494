import Trellis.Host.Decoding
import Trellis.Schema.Registration

/-!
Values and their types.

A host value does not carry its type, but every type says which values are its own. What such a value
is handed out as fits what its type is described as, and it can be taken back from there: nothing
that a failed downcast would report is lost on the way.
-/

namespace Trellis

/-- Whether values of a type with some description may be handed out. -/
def TypeRef.IsOutput (ref : TypeRef) : Prop :=
  ∀ host outline, ref.innermost ≠ .inputObject host outline

namespace Universe

/-- All types are described as themselves and handed out as themselves, and the fields of input
objects have names of their own. -/
structure Genuine (u : Universe) : Prop where
  disguise : ∀ path, u.definition? path ≠ some .disguise
  mask : ∀ path shown, u.definition? path ≠ some (.mask shown)
  inputFields : ∀ path name fields, u.definition? path = some (.inputObject name fields) →
    (fields.map (·.1)).Nodup

/-- A value is of a host type. Custom scalars may have any values, and a member of a union wraps what
a value of any type is handed out as. -/
inductive HasType (u : Universe) : HostType → HostValue → Prop
  | text (s : String) : HasType u .text (.text s)
  | int (n : Int32) : HasType u .int (.int n)
  | long (n : Int64) : HasType u .long (.long n)
  | float (x : Float) : HasType u .float (.float x)
  | boolean (b : Bool) : HasType u .boolean (.boolean b)
  | id (s : String) : HasType u .id (.text s)
  | absent (t : HostType) : HasType u (.optional t) .absent
  | present {t : HostType} {v : HostValue} : HasType u t v → HasType u (.optional t) (.present v)
  | sequence {t : HostType} {vs : List HostValue} : (∀ v ∈ vs, HasType u t v) →
    HasType u (.sequence t) (.sequence vs)
  | boxed {t : HostType} {v : HostValue} : HasType u t v → HasType u (.boxed t) v
  | shared {t : HostType} {v : HostValue} : HasType u t v → HasType u (.shared t) v
  | member {t : HostType} {v : HostValue} : HasType u t v →
    HasType u .member (.member (u.erase t v))
  | scalar {path : String} (v : HostValue) : u.definition? path = some .scalar →
    HasType u (.named path) v
  | variant {path name label : String} {values : List String} :
    u.definition? path = some (.enumeration name values) → label ∈ values →
    HasType u (.named path) (.variant label)
  | object {path name : String} {fields : List (String × HostType)} {v : HostValue} :
    u.definition? path = some (.object name fields) →
    (∀ field t, (field, t) ∈ fields → HasType u t (v.field field)) → HasType u (.named path) v
  | inputObject {path name : String} {fields : List (String × HostType)} {v : HostValue} :
    u.definition? path = some (.inputObject name fields) →
    (∀ field t, (field, t) ∈ fields → HasType u t (v.field field)) → HasType u (.named path) v

/-- An output looks like the values of a type with some description. -/
inductive Presents (u : Universe) : TypeRef → Output → Prop
  | scalar {host : HostType} {v : HostValue} : u.HasType host v →
    Presents u (.scalar host) (.single host v)
  | enumeration {host : HostType} {shape : EnumShape} {v : HostValue} : u.HasType host v →
    Presents u (.enumeration host shape) (.single host v)
  | object {host outline : HostType} {v : HostValue} : u.HasType host v →
    Presents u (.object host outline) (.single host v)
  | union {host t : HostType} {v : HostValue} : u.HasType t v →
    Presents u (.union host) (u.erase t v)
  | list {host : HostType} {inner : TypeRef} {items : List Output} :
    (∀ item ∈ items, Presents u inner item) → Presents u (.list host inner) (.list items)
  | absent {host : HostType} {inner : TypeRef} : Presents u (.nullable host inner) .null
  | present {host : HostType} {inner : TypeRef} {output : Output} : Presents u inner output →
    Presents u (.nullable host inner) output

variable {u : Universe}

/-! ### Descriptions -/

/-- The descriptions that a host type may have when it is described as itself. -/
inductive DescribedAs (u : Universe) : HostType → TypeRef → Prop
  | scalar (host : HostType) : DescribedAs u host (.scalar host)
  | enumeration {path name : String} {values : List String} :
    u.definition? path = some (.enumeration name values) →
    DescribedAs u (.named path) (.enumeration (.named path) (enumShape name values))
  | object {path name : String} {fields : List (String × HostType)} :
    u.definition? path = some (.object name fields) →
    DescribedAs u (.named path) (.object (.named path) (.named path))
  | inputObject {path name : String} {fields : List (String × HostType)} :
    u.definition? path = some (.inputObject name fields) →
    DescribedAs u (.named path) (.inputObject (.named path) (.named path))
  | union : DescribedAs u .member (.union .member)
  | list (t : HostType) : DescribedAs u (.sequence t) (.list (.sequence t) (u.describe t))
  | nullable (t : HostType) : DescribedAs u (.optional t) (.nullable (.optional t) (u.describe t))
  | function (host : HostType) : DescribedAs u host (.function host)
  | generic (host : HostType) : DescribedAs u host (.generic host)

/-- A description is that of its own host type, which differs from the type described by boxes and
shared pointers only. -/
theorem Genuine.describedAs (hu : u.Genuine) (t : HostType) :
    u.DescribedAs (u.describe t).host (u.describe t) ∧
      u.describe (u.describe t).host = u.describe t := by
  induction t with
  | boxed t ih | shared t ih => exact ih
  | named path =>
    cases hpath : u.definition? path with
    | none => simp [describe, TypeRef.host, hpath, DescribedAs.generic]
    | some definition =>
      cases definition with
      | scalar => simp [describe, TypeRef.host, hpath, DescribedAs.scalar]
      | enumeration => simp [describe, TypeRef.host, hpath, DescribedAs.enumeration hpath]
      | object => simp [describe, TypeRef.host, hpath, DescribedAs.object hpath]
      | inputObject => simp [describe, TypeRef.host, hpath, DescribedAs.inputObject hpath]
      | disguise => exact absurd hpath (hu.disguise path)
      | mask shown => exact absurd hpath (hu.mask path shown)
  | generic path parameters =>
    cases parameters with
    | parameter shown rest =>
      cases hpath : u.definition? path with
      | none => simp [describe, TypeRef.host, hpath, DescribedAs.generic]
      | some definition =>
        cases definition with
        | disguise => exact absurd hpath (hu.disguise path)
        | _ => simp [describe, TypeRef.host, hpath, DescribedAs.generic]
    | _ => exact ⟨.generic _, rfl⟩
  | text | int | long | float | boolean | id => exact ⟨.scalar _, rfl⟩
  | member => exact ⟨.union, rfl⟩
  | optional t => exact ⟨.nullable t, rfl⟩
  | sequence t => exact ⟨.list t, rfl⟩
  | function | closure => exact ⟨.function _, rfl⟩
  | tuple | nothing | parameter => exact ⟨.generic _, rfl⟩

theorem Genuine.describe_host (hu : u.Genuine) (t : HostType) :
    u.describe (u.describe t).host = u.describe t := (hu.describedAs t).2

theorem Genuine.exists_inner (hu : u.Genuine) {t host : HostType} {inner : TypeRef}
    (h : u.describe t = .nullable host inner ∨ u.describe t = .list host inner) :
    ∃ t', inner = u.describe t' := by
  have hview := (hu.describedAs t).1
  rcases h with h | h <;> rw [h] at hview <;> cases hview <;> exact ⟨_, rfl⟩

theorem Genuine.object_of_describe (hu : u.Genuine) {t host outline : HostType}
    (h : u.describe t = .object host outline) : ∃ path name fields,
      u.definition? path = some (.object name fields) ∧ host = .named path ∧ outline = host := by
  have hview := (hu.describedAs t).1
  rw [h] at hview
  cases hview with
  | object hpath => exact ⟨_, _, _, hpath, rfl, rfl⟩

def objectField (u : Universe) (field : String × HostType) : ObjectField :=
  ⟨field.1, u.describe field.2, fun v => u.erase field.2 (v.field field.1)⟩

theorem lookup_filterMap {α : Type} {show? : String × Definition → Option (HostType × α)}
    (hpaths : ∀ entry shown, show? entry = some shown → shown.1 = .named entry.1) {path : String}
    {definition : Definition} (h : u.definition? path = some definition) {a : α}
    (hshown : show? (path, definition) = some (.named path, a)) :
    (u.definitions.filterMap show?).lookup (.named path) = some a := by
  rw [definition?] at h
  generalize u.definitions = definitions at h
  induction definitions with
  | nil => cases h
  | cons entry definitions ih =>
    rcases entry with ⟨other, first⟩
    by_cases hpath : path = other
    · subst hpath
      rw [List.lookup_cons_self] at h
      cases h
      rw [List.filterMap_cons, hshown]
      exact List.lookup_cons_self
    · rw [List.lookup_cons, beq_false_of_ne hpath] at h
      rw [List.filterMap_cons]
      cases hfirst : show? (other, first) with
      | none => exact ih h
      | some shown =>
        have hne : HostType.named path ≠ shown.1 := fun he =>
          hpath (HostType.named.inj (he.trans (hpaths _ _ hfirst)))
        dsimp only
        rw [List.lookup_cons, beq_false_of_ne hne]
        exact ih h

theorem object_catalogue {path name : String} {fields : List (String × HostType)}
    (h : u.definition? path = some (.object name fields)) :
    u.catalogue.object (.named path) = ⟨name, fields.map u.objectField⟩ := by
  have hlookup : u.catalogue.objects.lookup (.named path) =
      some ⟨name, fields.map u.objectField⟩ := by
    refine lookup_filterMap (fun entry shown hshown => ?_) h rfl
    rcases entry with ⟨other, definition⟩
    cases definition <;> cases hshown
    rfl
  rw [Catalogue.object, hlookup]
  rfl

theorem input_catalogue {path name : String} {fields : List (String × HostType)}
    (h : u.definition? path = some (.inputObject name fields)) :
    u.catalogue.input (.named path) =
      ⟨name, fields.map fun field => ⟨field.1, u.describe field.2⟩⟩ := by
  have hlookup : u.catalogue.inputs.lookup (.named path) =
      some ⟨name, fields.map fun field => ⟨field.1, u.describe field.2⟩⟩ := by
    refine lookup_filterMap (fun entry shown hshown => ?_) h rfl
    rcases entry with ⟨other, definition⟩
    cases definition <;> cases hshown
    rfl
  rw [Catalogue.input, hlookup]
  rfl

/-! ### Handing out and taking back -/

/-- A typed value is handed out as what its type is described as. -/
theorem HasType.presents {t : HostType} {v : HostValue} (h : u.HasType t v)
    (ht : (u.describe t).IsOutput) : u.Presents (u.describe t) (u.erase t v) := by
  induction h with
  | text s => exact .scalar (.text s)
  | int n => exact .scalar (.int n)
  | long n => exact .scalar (.long n)
  | float x => exact .scalar (.float x)
  | boolean b => exact .scalar (.boolean b)
  | id s => exact .scalar (.id s)
  | absent t => exact .absent
  | present _ ih => exact .present (ih ht)
  | sequence _ ih =>
    refine .list fun item hitem => ?_
    obtain ⟨v, hv, rfl⟩ := List.mem_map.mp hitem
    exact ih v hv ht
  | boxed _ ih => exact ih ht
  | shared _ ih => exact ih ht
  | member hv => exact .union (.member hv)
  | scalar v hpath =>
    simp only [describe, erase, hpath]
    exact .scalar (.scalar v hpath)
  | variant hpath hlabel =>
    simp only [describe, erase, hpath]
    exact .enumeration (.variant hpath hlabel)
  | object hpath hfields =>
    simp only [describe, erase, hpath]
    exact .object (.object hpath hfields)
  | @inputObject path _ _ _ hpath =>
    refine absurd ?_ (ht (.named path) (.named path))
    simp only [describe, hpath, TypeRef.innermost]

theorem erase_named {path : String} {host : HostType} {v w : HostValue}
    (h : u.erase (.named path) v = .single host w) : host = .named path ∧ w = v := by
  unfold erase at h
  split at h <;> cases h
  all_goals exact ⟨rfl, rfl⟩

theorem HasType.of_erase {t host : HostType} {v w : HostValue} (h : u.HasType t v)
    (he : u.erase t v = .single host w) : u.HasType host w := by
  induction h with
  | text s | int s | long s | float s | boolean s | id s => cases he; constructor
  | absent | sequence => cases he
  | present _ ih | boxed _ ih | shared _ ih | member _ ih => exact ih he
  | scalar v hpath =>
    obtain ⟨rfl, rfl⟩ := erase_named he
    exact .scalar w hpath
  | variant hpath hlabel =>
    obtain ⟨rfl, rfl⟩ := erase_named he
    exact .variant hpath hlabel
  | object hpath hfields =>
    obtain ⟨rfl, rfl⟩ := erase_named he
    exact .object hpath hfields
  | inputObject hpath hfields =>
    obtain ⟨rfl, rfl⟩ := erase_named he
    exact .inputObject hpath hfields

theorem exists_mapM_recover {t : HostType} {items : List Output}
    (h : ∀ item ∈ items, ∃ v, u.recover t item = some v ∧ u.HasType t v) :
    ∃ vs, items.mapM (u.recover t) = some vs ∧ ∀ v ∈ vs, u.HasType t v := by
  induction items with
  | nil => exact ⟨[], rfl, nofun⟩
  | cons item items ih =>
    rw [List.forall_mem_cons] at h
    obtain ⟨⟨v, hv, htype⟩, hrest⟩ := h
    obtain ⟨vs, hvs, htypes⟩ := ih hrest
    exact ⟨v :: vs, by simp [hv, hvs], List.forall_mem_cons.mpr ⟨htype, htypes⟩⟩

/-- What looks like the values of a type can be taken back as one of them. -/
theorem Presents.exists_recover (hu : u.Genuine) {t : HostType} {output : Output}
    (h : u.Presents (u.describe t) output) : ∃ v, u.recover t output = some v ∧ u.HasType t v := by
  induction t generalizing output with
  | text | int | long | float | boolean | id =>
    cases h with
    | scalar hv => exact ⟨_, by simp [recover], hv⟩
  | member =>
    cases h with
    | union hv => exact ⟨_, rfl, .member hv⟩
  | optional t ih =>
    cases output with
    | null => exact ⟨.absent, rfl, .absent t⟩
    | single | list =>
      cases h with
      | present h =>
        obtain ⟨v, hv, htype⟩ := ih h
        exact ⟨.present v, by simp [recover, hv], .present htype⟩
  | sequence t ih =>
    cases h with
    | @list _ _ items h =>
      obtain ⟨vs, hvs, htypes⟩ := exists_mapM_recover fun item hitem => ih (h item hitem)
      exact ⟨.sequence vs, by rw [recover, hvs]; rfl, .sequence htypes⟩
  | boxed t ih =>
    obtain ⟨v, hv, htype⟩ := ih h
    exact ⟨v, hv, .boxed htype⟩
  | shared t ih =>
    obtain ⟨v, hv, htype⟩ := ih h
    exact ⟨v, hv, .shared htype⟩
  | named path =>
    simp only [describe] at h
    split at h
    · rename_i hpath
      cases h with
      | scalar hv => exact ⟨_, by simp [recover, hpath], hv⟩
    · rename_i hpath
      cases h with
      | enumeration hv => exact ⟨_, by simp [recover, hpath], hv⟩
    · rename_i hpath
      cases h with
      | object hv => exact ⟨_, by simp [recover, hpath], hv⟩
    · cases h
    · rename_i hpath
      exact absurd hpath (hu.mask path _)
    · cases h
    · cases h
  | generic path parameters =>
    cases parameters with
    | parameter shown rest =>
      simp only [describe] at h
      split at h
      · rename_i hpath
        exact absurd hpath (hu.disguise path)
      · cases h
    | _ => cases h
  | nothing | parameter | tuple | function | closure => cases h

end Universe

end Trellis
