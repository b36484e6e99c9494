import Trellis.Proofs.Execution.Answering
import Trellis.Proofs.Schema.Lookups

/-!
Unions dispatch on host types.

Wherever members of a union are expected, at any nesting of lists, a single value is one of the
members if its host type belongs to one, whatever the value is. It is then an object like any other:
its fields are answered from the properties of the object, and fragments apply that are conditioned
on the object or on a union with it. Everything else is refused, but for null where null may stand.
-/

namespace Trellis

open Document

/-- Values of a host type belong to a member of a union: an object that is stored under the name of
the member, for that host type. -/
structure TypeGraph.IsMember (g : TypeGraph) (u : UnionType) (host : HostType)
    (object : ObjectType) : Prop where
  listed : object.name ∈ u.members
  stored : g.type? object.name = some (.object object)
  host : object.host = some host

namespace TypeGraph.Exact

variable {g : TypeGraph} (h : g.Exact)

include h

theorem object_of_has {name : String} {host : HostType} (hhas : g.Has name (.object (some host))) :
    ∃ object, g.type? name = some (.object object) ∧ object.name = name ∧
      object.host = some host := by
  obtain ⟨node, hmem, hi⟩ := hhas
  cases node with
  | object object =>
    exact ⟨object, h.type?_iff.mpr hmem, h.named _ _ hmem, Identity.object.inj hi⟩
  | scalar | enumeration | union | inputObject => cases hi

theorem isMember_iff {name : String} {u : UnionType} (hu : g.type? name = some (.union u))
    {host : HostType} {object : ObjectType} : g.IsMember u host object ↔
      ((u.member? host).bind fun m => (g.type? m).bind TypeNode.object?) = some object := by
  have hstored := h.type?_iff.mp hu
  obtain rfl : u.name = name := h.named _ _ hstored
  have hmember (m : String) := h.member u hstored host m
  constructor
  · rintro ⟨hlisted, htype, hhost⟩
    have hhas : g.Has object.name (.object (some host)) :=
      ⟨_, h.type?_iff.mp htype, congrArg Identity.object hhost⟩
    rw [(hmember _).mpr ⟨hlisted, hhas⟩, Option.bind_some, htype]
    rfl
  · intro hfound
    obtain ⟨m, hm, hobject⟩ := Option.bind_eq_some_iff.mp hfound
    obtain ⟨hlisted, hhas⟩ := (hmember m).mp hm
    obtain ⟨other, htype, rfl, hhost⟩ := h.object_of_has hhas
    rw [htype] at hobject
    cases hobject
    exact ⟨hlisted, htype, hhost⟩

end TypeGraph.Exact

namespace Scope

variable {scope : Scope}

theorem shown_of_planObject {depth : Nat} {object : ObjectType} {parent : Option Erased}
    {selections : List Selection} {path : Path} {nullable : Bool} {t : Settled}
    (ht : (scope.planObject depth object parent selections path nullable).Settles t) {value : Value}
    (hvalue : t.result = some value) : value = .null ∧ nullable = true ∨
      ∃ fields, value = .object fields ∧ fields.map (·.1) = (scope.collect object selections).keys := by
  cases depth with
  | zero => exact ht.elim
  | succ depth =>
    obtain ⟨u, hu, rfl⟩ := Plan.exists_of_reportAll ht
    obtain ⟨each, heach, rfl⟩ := Plan.settles_together.mp hu
    rw [Settled.after] at hvalue
    rcases Settled.valued_or_failed each with ⟨valued, rfl⟩ | hfailed
    · have hlength := heach.length_eq.trans (List.length_map _)
      rw [hlength, Tray.settle_valued] at hvalue
      have hkeys : (scope.collect object selections).keys.length = (valued.map (·.1)).length := by
        rw [Collected.keys, List.length_map, List.length_map, ← hlength, List.length_map]
      have hcomposed := Assembly.compose_object (scope.tidy_collect object selections).keys hkeys
      exact .inr ⟨_, (Option.some.inj hvalue).symm.trans hcomposed, List.map_fst_zip hkeys.le⟩
    · rw [Tray.settle_failed _ _ hfailed] at hvalue
      dsimp only at hvalue
      split at hvalue
      · rename_i hnullable
        exact .inl ⟨(Option.some.inj hvalue).symm, hnullable⟩
      · cases hvalue

end Scope

namespace Opening

/-- A position where something is refused: an error is recorded there, and the nearest position that
may be null, from there up, is null, or one above it. -/
structure Refused (o : Opening) (log : List Event) (data : Value) (errors : List ExecutionError)
    (path : Path) (type : TypeLiteral) (kind : ErrorKind) : Prop where
  recorded : ∃ e ∈ errors, e.path = path ∧ e.kind = kind
  shown : ∀ value, data.follow? path = some value → value = .null ∧ type.isNonNull = false
  nulled : ∃ q, o.Governs log q path ∧ ∃ above, above <+: q ∧ data.follow? above = some .null

/-- A value is resolved as an object: its fields are those that are selected for the object, by way of
the fragments that apply to it, and they are answered from its properties. -/
structure ResolvedAs (o : Opening) (log : List Event) (data : Value) (errors : List ExecutionError)
    (path : Path) (type : TypeLiteral) (selections : List Selection) (value : Erased)
    (object : ObjectType) : Prop where
  selected : ∀ field, (o.scope.collect object selections).Has field ↔
    o.scope.Selects object selections field
  applies : ∀ condition, o.scope.applies condition object = true ↔ condition = object.name ∨
    ∃ u, o.scope.graph.union? condition = some u ∧ o.scope.graph.IsMember u value.host object
  answered : ∀ group ∈ (o.scope.collect object selections).groups,
    o.Answers log data errors object (some value) (path ++ [.field group.key]) group.first.name
      group.first.arguments group.selections
  typeName : ∀ group ∈ (o.scope.collect object selections).groups,
    group.first.name = "__typename" → ∀ shown, data.follow? (path ++ [.field group.key]) = some shown →
      shown = .string object.name
  shown : ∀ shown, data.follow? path = some shown → shown = .null ∧ type.isNonNull = false ∨
    ∃ fields, shown = .object fields ∧
      fields.map (·.1) = (o.scope.collect object selections).keys

/-- What becomes of an output where members of a union are expected. -/
def Dispatched (o : Opening) (log : List Event) (data : Value) (errors : List ExecutionError)
    (u : UnionType) (path : Path) (selections : List Selection) : TypeLiteral → Output → Prop
  | type, .null =>
    if type.isNonNull then o.Refused log data errors path type .nullViolation
    else (∀ shown, data.follow? path = some shown → shown = .null) ∧
      ∀ e ∈ errors, ¬ path <+: e.path
  | .list inner _, .list items => ∀ i item, items[i]? = some item →
    o.place? log (path ++ [.index i]) = some (.value inner (some item) selections)
  | .list inner nonNull, .single .. =>
    o.Refused log data errors path (.list inner nonNull) .coercion
  | .named name nonNull, .list _ => o.Refused log data errors path (.named name nonNull) .coercion
  | .named name nonNull, .single host value =>
    (∃ object, o.scope.graph.IsMember u host object ∧
      (∀ other, o.scope.graph.IsMember u host other → other = object) ∧
      o.ResolvedAs log data errors path (.named name nonNull) selections ⟨host, value⟩ object) ∨
    (∀ object, ¬ o.scope.graph.IsMember u host object) ∧
      o.Refused log data errors path (.named name nonNull) .coercion

/-- Whatever is handed out where members of a union are expected is dispatched on its host type, and
nulls are accounted for. -/
structure DispatchesUnions (o : Opening) (log : List Event) (data : Value)
    (errors : List ExecutionError) : Prop where
  nulls : o.NullsExact log data errors
  unions : ∀ path type output selections u,
    o.place? log path = some (.value type (some output) selections) →
      o.scope.graph.type? type.innermost = some (.union u) →
        o.Dispatched log data errors u path selections type output

variable {o : Opening} {log : List Event} {data : Value} {errors : List ExecutionError}
  {path : Path} {type : TypeLiteral} {selections : List Selection}

/-- A failure that was laid out at a position is recorded there, and null shows at the nearest one
above that may be null, or higher. -/
theorem Refused.of_fail {location : Position} {e : FieldError} {kind : ErrorKind} {t : Settled}
    (hnulls : o.NullsExact log data errors) (herrors : ∀ e ∈ Event.errors log, e ∈ errors)
    (hkind : kind ≠ .unknownField) (ht : (Plan.fail type location path e kind).Settles t)
    (hwithin : t.Within log data path) : o.Refused log data errors path type kind := by
  obtain rfl := Plan.settles_fail.mp ht
  have hrecorded : ⟨location, path, e, kind⟩ ∈ errors :=
    herrors _ (List.mem_filterMap.mpr ⟨_, hwithin.events List.mem_cons_self, rfl⟩)
  refine ⟨⟨_, hrecorded, rfl, rfl⟩, fun value hvalue => ?_, ?_⟩
  · have hnull := hwithin.shown value hvalue
    rw [nullFor] at hnull
    split at hnull
    · cases hnull
    · rename_i hnullable
      exact ⟨(Option.some.inj hnull).symm, Bool.eq_false_iff.mpr hnullable⟩
  · refine (hnulls.shown _ hrecorded ?_).2
    rintro ⟨name, heq⟩
    exact hkind (congrArg ExecutionError.kind heq)

/-- A value that belongs to a member of a union is resolved as the object of this member. -/
theorem Traced.resolvedAs {name : String} {nonNull : Bool} {host : HostType} {value : HostValue}
    {u : UnionType} {object : ObjectType} (hexact : o.scope.graph.Exact)
    (herrors : ∀ e ∈ Event.errors log, e ∈ errors)
    (h : o.Traced log data path (.value (.named name nonNull) (some (.single host value)) selections))
    (hu : o.scope.graph.type? name = some (.union u))
    (hmember : o.scope.graph.IsMember u host object) :
    o.ResolvedAs log data errors path (.named name nonNull) selections ⟨host, value⟩ object := by
  have hobject : o.scope.objectAt? (.value (.named name nonNull) (some (.single host value))
      selections) = some (object, selections) := by
    have hfor : o.scope.objectFor? name host = some object := by
      rw [Scope.objectFor?, hu]
      exact (hexact.isMember_iff hu).mp hmember
    rw [Scope.objectAt?, hfor]
    rfl
  constructor
  · exact fun field => Scope.has_collect_iff
  · intro condition
    rw [Scope.applies, Bool.or_eq_true, beq_iff_eq]
    refine or_congr_right ?_
    cases o.scope.graph.union? condition with
    | none => simp
    | some other =>
      simp only [UnionType.contains, List.contains_iff_mem, Option.some.injEq, exists_eq_left']
      exact ⟨fun hlisted => ⟨hlisted, hmember.stored, hmember.host⟩, fun hother => hother.listed⟩
  · intro group hgroup
    obtain ⟨_, t, ht, hwithin, -⟩ := h.group hobject hgroup
    exact answers_first herrors ht hwithin
  · intro group hgroup hname shown hshown
    obtain ⟨_, t, ht, hwithin, -⟩ := h.group hobject hgroup
    rw [Scope.planGroup, if_pos hname] at ht
    obtain rfl := ht
    exact (Option.some.inj (hwithin.shown shown hshown)).symm
  · intro shown hshown
    obtain ⟨_, t, ht, hwithin⟩ := h.object object selections hobject
    refine (Scope.shown_of_planObject ht (hwithin.shown shown hshown)).imp_left fun hnull => ?_
    exact ⟨hnull.1, (Bool.not_eq_true' nonNull).mp hnull.2⟩

/-- Every output at a place where members of a union are expected is dispatched. The cases are those
of completion: by the shape of the output, and then by that of the type. -/
theorem Traced.dispatched {output : Output} {u : UnionType} (hexact : o.scope.graph.Exact)
    (hnulls : o.NullsExact log data errors) (herrors : ∀ e, e ∈ Event.errors log ↔ e ∈ errors)
    (hplace : o.place? log path = some (.value type (some output) selections))
    (h : o.Traced log data path (.value type (some output) selections))
    (hu : o.scope.graph.type? type.innermost = some (.union u)) :
    o.Dispatched log data errors u path selections type output := by
  obtain ⟨depth, location, t, ht, hwithin, howned⟩ := h.value _ _ _ rfl
  have hincluded (e : ExecutionError) : e ∈ Event.errors log → e ∈ errors := (herrors e).mp
  cases output with
  | null =>
    rw [Dispatched.eq_1]
    rw [Scope.complete] at ht
    split at ht
    · rename_i hnonNull
      rw [if_pos hnonNull]
      exact .of_fail hnulls hincluded (by decide) ht hwithin
    · rename_i hnullable
      rw [if_neg hnullable]
      obtain rfl := ht
      refine ⟨fun shown hshown => (Option.some.inj (hwithin.shown shown hshown)).symm,
        fun e he hpath => ?_⟩
      exact absurd (howned e ((herrors e).mpr he) hpath) List.not_mem_nil
  | list items =>
    cases type with
    | named name nonNull =>
      rw [Scope.complete] at ht
      exact .of_fail hnulls hincluded (by decide) ht hwithin
    | list inner nonNull =>
      intro i item hitem
      rw [place?_concat, hplace, Option.bind_some, Scope.step?, hitem]
      rfl
  | single host value =>
    cases type with
    | list inner nonNull =>
      rw [Scope.complete] at ht
      exact .of_fail hnulls hincluded (by decide) ht hwithin
    | named name nonNull =>
      change o.scope.graph.type? name = some (.union u) at hu
      cases hfound : (u.member? host).bind fun m =>
          (o.scope.graph.type? m).bind TypeNode.object? with
      | some object =>
        have hmember := (hexact.isMember_iff hu).mpr hfound
        refine .inl ⟨object, hmember, fun other hother => ?_,
          h.resolvedAs hexact hincluded hu hmember⟩
        exact Option.some.inj (((hexact.isMember_iff hu).mp hother).symm.trans hfound)
      | none =>
        refine .inr ⟨fun object hmember => ?_, ?_⟩
        · cases hfound.symm.trans ((hexact.isMember_iff hu).mp hmember)
        · rw [Scope.complete, Scope.completeSingle, hu] at ht
          simp only [hfound] at ht
          exact .of_fail hnulls hincluded (by decide) ht hwithin

end Opening

theorem Schema.dispatchesUnions_of_reaches {s : Schema} (hexact : s.graph.Exact) {r : Request}
    {o : Opening} (ho : s.opening r = .ok o) {depth : Nat} {log : List Event}
    {result : Option Value} (hrun : (o.agenda depth).Reaches log (.ended result)) :
    o.DispatchesUnions log (Agenda.recorded log result).1 (Agenda.recorded log result).2 := by
  obtain ⟨-, hgraph⟩ := opening_eq ho
  have hmarks := nodup_marks ho hrun
  have hnulls := nullsExact_of_reaches ho hrun
  obtain ⟨data, rfl, hdata⟩ := exists_data_of_reaches ho hrun
  refine ⟨hnulls, fun path type output selections u hplace hu => ?_⟩
  rw [hdata] at hnulls ⊢
  exact Opening.Traced.dispatched (hgraph ▸ hexact) hnulls (fun _ => Agenda.mem_recorded.symm) hplace
    (Opening.traced_of_place? hmarks hrun hplace) hu

end Trellis
