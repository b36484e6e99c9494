import Mathlib.Data.List.Forall2
import Trellis.Proofs.Typing.Values
import Trellis.Resolver.Basic

/-!
Arguments and their types.

Whatever literal an argument is given as, it is decoded as a value of its type or refused. So
parameters that are bound have values of the types that they ask for, and a parameter whose argument
has a name is never left without one.
-/

namespace Trellis

namespace Except

variable {ε ε' α β : Type}

theorem map_eq_ok {f : α → β} {x : Except ε α} {b : β} (h : x.map f = .ok b) :
    ∃ a, x = .ok a ∧ b = f a := by
  cases x <;> cases h
  exact ⟨_, rfl, rfl⟩

theorem bind_eq_ok {x : Except ε α} {f : α → Except ε β} {b : β} (h : x >>= f = .ok b) :
    ∃ a, x = .ok a ∧ f a = .ok b := by
  cases x with
  | error => cases h
  | ok a => exact ⟨a, rfl, h⟩

theorem mapError_eq_ok {f : ε → ε'} {x : Except ε α} {a : α} (h : x.mapError f = .ok a) :
    x = .ok a := by
  cases x <;> cases h
  rfl

end Except

namespace Universe

variable {u : Universe} {table : ScalarTable}

theorem hasType_of_decodeBuiltin {name : String} {view : Scalar → Option HostValue} {l : Literal}
    {t : HostType} {v : HostValue} (hview : ∀ s v, view s = some v → u.HasType t v)
    (h : decodeBuiltin name view l = .ok v) : u.HasType t v := by
  rw [decodeBuiltin] at h
  split at h
  · rename_i w hw
    cases h
    obtain ⟨s, -, hs⟩ := Option.bind_eq_some_iff.mp hw
    exact hview s _ hs
  · cases h

theorem hasType_of_viewId {s : Scalar} {v : HostValue} (h : viewId s = some v) :
    u.HasType .id v := by
  rw [viewId, Option.or_eq_some_iff, Option.map_eq_some_iff, Option.map_eq_some_iff] at h
  rcases h with ⟨text, -, rfl⟩ | ⟨-, n, -, rfl⟩ <;> exact .id _

theorem hasType_of_decodeVariant {path name : String} {values : List String} {l : Literal}
    {v : HostValue} (hpath : u.definition? path = some (.enumeration name values))
    (h : decodeVariant name values l = .ok v) : u.HasType (.named path) v := by
  rw [decodeVariant] at h
  split at h
  · split at h
    · rename_i hlabel
      cases h
      exact .variant hpath hlabel
    · cases h
  · cases h

/-- The values of declared fields, under the names of the fields. -/
def HasFields (u : Universe) (declared : List (String × HostType))
    (fields : List (String × HostValue)) : Prop :=
  List.Forall₂ (fun field entry => entry.1 = field.1 ∧ u.HasType field.2 entry.2) declared fields

/-- A record with the values of declared fields has them under their names. -/
theorem HasFields.field {declared : List (String × HostType)} {fields : List (String × HostValue)}
    (h : u.HasFields declared fields) (hnames : (declared.map (·.1)).Nodup) {name : String}
    {t : HostType} (hmem : (name, t) ∈ declared) :
    u.HasType t ((HostValue.record fields).field name) := by
  induction h with
  | nil => cases hmem
  | @cons field entry declared fields hentry _ ih =>
    obtain ⟨hnew, hrest⟩ := List.nodup_cons.mp hnames
    rcases entry with ⟨key, v⟩
    obtain ⟨rfl, hv⟩ := hentry
    rw [HostValue.field, List.lookup_cons]
    rcases List.mem_cons.mp hmem with rfl | hmem
    · simpa using hv
    · have hne : name ≠ field.1 := fun he => hnew (List.mem_map.mpr ⟨_, hmem, he⟩)
      rw [beq_false_of_ne hne]
      exact ih hrest hmem

/-- Elements that are decoded as a type are values of it if this holds of each of them. -/
theorem hasType_of_decodeItems {items : List Literal} {t : HostType}
    (hitems : ∀ item ∈ items, ∀ {v}, u.decode table item t = .ok v → u.HasType t v)
    {vs : List HostValue} (h : u.decodeItems table items t = .ok vs) : ∀ v ∈ vs, u.HasType t v := by
  induction items generalizing vs with
  | nil =>
    rw [decodeItems] at h
    cases h
    exact List.forall_mem_nil _
  | cons item items ih =>
    rw [List.forall_mem_cons] at hitems
    rw [decodeItems] at h
    obtain ⟨v, hv, h⟩ := Except.bind_eq_ok h
    obtain ⟨vs, hvs, h⟩ := Except.bind_eq_ok h
    cases h
    exact List.forall_mem_cons.mpr ⟨hitems.1 hv, ih hitems.2 hvs⟩

/-- Fields that are decoded have values of their types if this holds of all literals that are lighter
than those that are given. One that is not given is decoded from null, which has no weight. -/
theorem hasFields_of_decodeFields {given : List (String × Literal)}
    (hgiven : ∀ l : Literal, l.weight < Literal.weightOfFields given → ∀ {t v},
      u.decode table l t = .ok v → u.HasType t v)
    {declared : List (String × HostType)} {fields : List (String × HostValue)}
    (h : u.decodeFields table given declared = .ok fields) : u.HasFields declared fields := by
  induction declared generalizing fields with
  | nil =>
    rw [decodeFields] at h
    cases h
    exact .nil
  | cons field declared ih =>
    rw [decodeFields] at h
    obtain ⟨v, hv, h⟩ := Except.bind_eq_ok h
    obtain ⟨fields, hfields, h⟩ := Except.bind_eq_ok h
    cases h
    refine .cons ⟨rfl, ?_⟩ (ih hfields)
    split at hv
    · rename_i l hl
      exact hgiven l (Literal.weight_lt_of_last? hl) (Except.mapError_eq_ok hv)
    · exact hgiven .null (Literal.weightOfFields_pos given) (Except.mapError_eq_ok hv)

/-- What is decoded as a type is a value of the type. The induction is on the weight of the literal,
and on the type where the literal stays. -/
theorem hasType_of_decode (hu : u.Genuine) {l : Literal} {t : HostType} {v : HostValue}
    (h : u.decode table l t = .ok v) : u.HasType t v := by
  induction hw : l.weight using Nat.strongRecOn generalizing l t v with
  | ind weight ihLighter =>
  subst hw
  induction t generalizing v with
  | text | int | long | float | boolean =>
    unfold decode at h
    refine hasType_of_decodeBuiltin (fun s v hv => ?_) h
    obtain ⟨_, -, rfl⟩ := Option.map_eq_some_iff.mp hv
    constructor
  | id =>
    unfold decode at h
    exact hasType_of_decodeBuiltin (fun _ _ => hasType_of_viewId) h
  | optional t ih =>
    unfold decode at h
    split at h
    · cases h
      exact .absent t
    · obtain ⟨w, hw, rfl⟩ := Except.map_eq_ok h
      exact .present (ih hw)
  | sequence t ih =>
    unfold decode at h
    split at h
    · rename_i items
      obtain ⟨vs, hvs, rfl⟩ := Except.map_eq_ok h
      refine .sequence (hasType_of_decodeItems (fun item hitem v hv => ?_) hvs)
      have hlighter : item.weight < (Literal.list items).weight :=
        Nat.lt_add_left 1 (Literal.weight_lt_of_mem_items hitem)
      exact ihLighter _ hlighter hv rfl
    · cases h
    · obtain ⟨w, hw, rfl⟩ := Except.map_eq_ok h
      exact .sequence (List.forall_mem_singleton.mpr (ih hw))
  | boxed t ih =>
    unfold decode at h
    exact .boxed (ih h)
  | named path =>
    unfold decode at h
    split at h
    · rename_i hpath
      exact .scalar v hpath
    · rename_i hpath
      exact hasType_of_decodeVariant hpath h
    · rename_i hpath
      split at h
      · rename_i given
        obtain ⟨_, -, hfields⟩ := Except.bind_eq_ok h
        obtain ⟨fields, hvs, rfl⟩ := Except.map_eq_ok hfields
        have hlighter {l : Literal} (hl : l.weight < Literal.weightOfFields given) :
            l.weight < (Literal.object given).weight := Nat.lt_add_left 1 hl
        have hdeclared := hasFields_of_decodeFields
          (fun l hl {t v} hv => ihLighter _ (hlighter hl) hv rfl) hvs
        exact .inputObject hpath fun _ _ => hdeclared.field (hu.inputFields _ _ _ hpath)
      · cases h
    · rename_i hpath
      exact absurd hpath (hu.mask path _)
    all_goals cases h
  | shared | member | generic | nothing | parameter | tuple | function | closure =>
    unfold decode at h
    cases h

end Universe

/-- What a function asks for as a parameter: a value of a host type, or the context. -/
inductive ParameterType where
  | argument (t : HostType)
  | context

namespace Universe

def parameter (u : Universe) : ParameterType → Parameter
  | .argument t => u.argument t
  | .context => .context

/-- What a parameter is bound to is of its type. -/
inductive Binds (u : Universe) : ParameterType → Bound → Prop
  | argument {t : HostType} {v : HostValue} : u.HasType t v → Binds u (.argument t) (.value v)
  | context (c : Context) : Binds u .context (.context c)

/-- Bound arguments are those that a function asks for, in their order. -/
def Accepts (u : Universe) (types : List ParameterType) (bounds : List Bound) : Prop :=
  List.Forall₂ u.Binds types bounds

variable {u : Universe}

/-- Parameters that have names for all of their arguments are bound to what they ask for, or one of
the arguments cannot be decoded. -/
theorem bind_parameters (hu : u.Genuine) (types : List ParameterType) {names : List String}
    (hnames : names.length = (Parameters.ofKinds (types.map u.parameter)).argumentCount)
    (provided : List (String × Literal)) (table : ScalarTable) (context : Context) :
    (∃ bounds, Parameters.bind ⟨types.map u.parameter, names⟩ provided table context = .ok bounds ∧
      u.Accepts types bounds) ∨
    ∃ name e, Parameters.bind ⟨types.map u.parameter, names⟩ provided table context =
      .error (.binding name e) := by
  rw [Parameters.bind]
  dsimp only
  induction types generalizing names with
  | nil => exact .inl ⟨[], rfl, .nil⟩
  | cons type types ih =>
    cases type with
    | context =>
      rw [List.map_cons, parameter, Parameters.bindKinds]
      rcases ih hnames with ⟨bounds, hbounds, haccepts⟩ | ⟨name, e, herror⟩
      · exact .inl ⟨.context context :: bounds, by rw [hbounds]; rfl, .cons (.context context) haccepts⟩
      · exact .inr ⟨name, e, by rw [herror]; rfl⟩
    | argument t =>
      cases names with
      | nil => cases hnames
      | cons name names =>
        rw [List.map_cons, parameter, argument, Parameters.bindKinds]
        cases hdecode : u.decode table ((provided.lookup name).getD .null) t with
        | error e => exact .inr ⟨name, e, rfl⟩
        | ok v =>
          rcases ih (Nat.succ.inj hnames) with ⟨bounds, hbounds, haccepts⟩ | ⟨name, e, herror⟩
          · refine .inl ⟨.value v :: bounds, by rw [hbounds]; rfl, ?_⟩
            exact .cons (.argument (hasType_of_decode hu hdecode)) haccepts
          · exact .inr ⟨name, e, by rw [herror]; rfl⟩

end Universe

end Trellis
