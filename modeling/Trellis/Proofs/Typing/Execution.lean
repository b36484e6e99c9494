import Trellis.Proofs.Typing.Completion

/-!
Execution with types.

Whatever a request asks of a typed schema, objects are only ever laid out for values of their host
types, so functions are only ever called with what they ask for, and only members of unions can be of
another type than the one they are completed as. This accounts for every error of a run: it is the
fault of a member of a union, or a function of the host program failed.
-/

namespace Trellis

open Document

/-- The field at a path is a property of the object around it. -/
inductive Opening.FieldAt (o : Opening) (log : List Event) (p : Property) : Path → Prop
  | intro {around : Path} {place : Place} {object : ObjectType} {selections : List Selection}
    {group : FieldGroup} : o.place? log around = some place →
    o.scope.objectAt? place = some (object, selections) →
    group ∈ (o.scope.collect object selections).groups →
    object.property? group.first.name = some p → FieldAt o log p (around ++ [.field group.key])

namespace Universe

/-- An error is the answer that the resolver of a property gave at a path, or one of the
transformations of the property that were called there failed with it. -/
inductive FailsAt (u : Universe) (log : List Event) (p : Property) (path : Path) (e : FieldError) :
    Prop
  | resolver : Event.answered path (.error e) ∈ log → u.FailsIn p.resolver e →
    FailsAt u log p path e
  | transformation {i : Nat} {t : Transformation} : p.transformations[i]? = some t →
    Event.transformed path i ∈ log → u.FailsMapping t e → FailsAt u log p path e

/-- What an error is due to. A failed coercion and an excluded null are there only where the declared
type is a union, and the error of a resolver comes from a function behind the property at its path,
which was called with what it asks for. -/
structure Accounts (u : Universe) (o : Opening) (log : List Event) (e : ExecutionError) : Prop where
  shape : e.kind = .coercion ∨ e.kind = .nullViolation → ∃ name nonNull output selections t,
    o.place? log e.path = some (.value (.named name nonNull) output selections) ∧
      o.scope.graph.type? name = some (.union t)
  function : e.kind = .resolver → ∃ p, o.FieldAt log p e.path ∧ u.FailsAt log p e.path e.error

namespace Accounts

variable {u : Universe} {o : Opening} {log : List Event} {location : Position} {path : Path}
  {e : FieldError}

theorem of_kind {error : ExecutionError}
    (h : error.kind = .argumentBinding ∨ error.kind = .unknownField) :
    u.Accounts o log error where
  shape hkind := by rcases h with h | h <;> rw [h] at hkind <;> simp at hkind
  function hkind := by rcases h with h | h <;> rw [h] at hkind <;> cases hkind

theorem of_union {kind : ErrorKind} (hkind : kind ≠ .resolver) {name : String} {nonNull : Bool}
    {output : Option Output} {selections : List Selection} {t : UnionType}
    (hplace : o.place? log path = some (.value (.named name nonNull) output selections))
    (ht : o.scope.graph.type? name = some (.union t)) :
    u.Accounts o log ⟨location, path, e, kind⟩ where
  shape _ := ⟨name, nonNull, output, selections, t, hplace, ht⟩
  function h := absurd h hkind

theorem of_function {p : Property} (hfield : o.FieldAt log p path) (h : u.FailsAt log p path e) :
    u.Accounts o log ⟨location, path, e, .resolver⟩ where
  shape hkind := by simp at hkind
  function _ := ⟨p, hfield, h⟩

end Accounts

/-- A planner of objects that reports only errors that are accounted for, where objects are laid out
for values of their host types. -/
def Planner (u : Universe) (o : Opening) (log : List Event) (plan : ObjectPlanner) : Prop :=
  ∀ {name : String} {object : ObjectType} {parent : Option Erased} {selections : List Selection}
    {path : Path} {place : Place} (nullable : Bool),
    o.scope.graph.type? name = some (.object object) → u.Holds object.host parent →
    o.place? log path = some place → o.scope.objectAt? place = some (object, selections) →
    (plan object parent selections path nullable).Reports (u.Accounts o log) log

section

variable {u : Universe} {o : Opening} {log : List Event} {plan : ObjectPlanner}
  {selections : List Selection} {location : Position}

theorem reports_completeSingle (hg : u.Types o.scope.graph) (hplan : u.Planner o log plan)
    {name : String} {nonNull : Bool} {host : HostType} {v : HostValue} {path : Path}
    (hv : u.HasType host v) (hcompletes : Completes o.scope.graph name host)
    (hplace : o.place? log path =
      some (.value (.named name nonNull) (some (.single host v)) selections)) :
    (o.scope.completeSingle plan selections location (.named name nonNull) name ⟨host, v⟩
      path).Reports (u.Accounts o log) log := by
  have hobject {object : ObjectType} (hfor : o.scope.objectFor? name host = some object) :
      o.scope.objectAt? (.value (.named name nonNull) (some (.single host v)) selections) =
        some (object, selections) := by
    rw [Scope.objectAt?, hfor]
    rfl
  have hholds {object : ObjectType} (hhost : object.host = some host) :
      u.Holds object.host (some ⟨host, v⟩) := by
    intro other hother
    obtain rfl := Option.some.inj (hhost.symm.trans hother)
    exact ⟨v, rfl, hv⟩
  rw [Scope.completeSingle]
  cases hcompletes with
  | scalar htype hhost =>
    simp only [htype, Coercion.write, Erased.downcast?, hhost, if_true]
    exact .done _
  | enumeration htype hhost =>
    simp only [htype, EnumType.label?, Erased.downcast?, hhost, if_true, Option.map_some]
    exact .done _
  | object htype hhost =>
    simp only [htype]
    exact hplan _ htype (hholds hhost) hplace (hobject (by rw [Scope.objectFor?, htype]))
  | @union t htype =>
    simp only [htype]
    split
    · rename_i object hmember
      have hfor : o.scope.objectFor? name host = some object := by
        rw [Scope.objectFor?, htype]
        exact hmember
      obtain ⟨member, hidentity, hnode⟩ := Option.bind_eq_some_iff.mp hmember
      obtain ⟨found, hfound, hhost⟩ := hg.members htype hidentity
      rw [hfound] at hnode
      obtain rfl := Option.some.inj hnode
      exact hplan _ hfound (hholds hhost) hplace (hobject hfor)
    · exact .fail (.of_union (by decide) hplace htype)

mutual

/-- An output that fits a description is completed as its type literal. -/
theorem reports_complete (hg : u.Types o.scope.graph) (hplan : u.Planner o log plan)
    {name : String} : ∀ {output : Output} {ref : TypeRef} {path : Path},
      u.Presents ref output → o.scope.graph.ShowsAs ref.innermost name →
      o.place? log path = some (.value (ref.literal name) (some output) selections) →
      (o.scope.complete plan selections location output (ref.literal name) path).Reports
        (u.Accounts o log) log
  | .null, ref, path, houtput, hname, hplace => by
    rw [Scope.complete]
    split
    · rename_i hnonNull
      obtain ⟨nonNull, t, hliteral, ht⟩ := houtput.of_null hname hnonNull
      rw [hliteral] at hplace
      exact .fail (.of_union (by decide) hplace ht)
    · exact .done _
  | .list items, ref, path, houtput, hname, hplace => by
    rcases houtput.of_list hname with ⟨inner, nonNull, hliteral, hinner, hitems⟩ |
      ⟨nonNull, t, hliteral, ht⟩
    · rw [hliteral] at hplace ⊢
      rw [Scope.complete]
      refine .together _ (reports_completeItems hg hplan (hinner ▸ hname) hitems fun i item hitem => ?_)
      rw [Opening.place?_concat, hplace, Nat.zero_add]
      simp only [Option.bind_some, Scope.step?, hitem, Option.map_some]
    · rw [hliteral] at hplace ⊢
      rw [Scope.complete]
      exact .fail (.of_union (by decide) hplace ht)
  | .single host v, ref, path, houtput, hname, hplace => by
    obtain ⟨hv, hcompletes, nonNull, hliteral⟩ := houtput.of_single hname
    rw [hliteral] at hplace ⊢
    rw [Scope.complete]
    exact reports_completeSingle hg hplan hv hcompletes hplace

theorem reports_completeItems (hg : u.Types o.scope.graph) (hplan : u.Planner o log plan)
    {name : String} : ∀ {items : List Output} {ref : TypeRef} {path : Path} {start : Nat},
      o.scope.graph.ShowsAs ref.innermost name → (∀ item ∈ items, u.Presents ref item) →
      (∀ i item, items[i]? = some item → o.place? log (path ++ [.index (start + i)]) =
        some (.value (ref.literal name) (some item) selections)) →
      ∀ part ∈ o.scope.completeItems plan selections location items (ref.literal name) path start,
        part.Reports (u.Accounts o log) log
  | [], _, _, _, _, _, _ => by
    rw [Scope.completeItems]
    exact nofun
  | item :: items, ref, path, start, hname, hitems, hplaces => by
    rw [List.forall_mem_cons] at hitems
    rw [Scope.completeItems]
    refine List.forall_mem_cons.mpr ⟨?_, ?_⟩
    · exact reports_complete hg hplan hitems.1 hname (hplaces 0 item rfl)
    · refine reports_completeItems hg hplan hname hitems.2 fun i next hnext => ?_
      have hplace := hplaces (i + 1) next hnext
      rwa [Nat.add_comm i 1, ← Nat.add_assoc] at hplace

end

theorem isOutput_of_showsAs {g : TypeGraph} {ref : TypeRef} {name : String}
    (h : g.ShowsAs ref.innermost name) : ref.IsOutput := by
  intro host outline he
  rw [he] at h
  exact h

/-- Transformations of a property pass on what fits its description, or fail by themselves. -/
theorem reports_transformAll (hu : u.Genuine) (hg : u.Types o.scope.graph)
    (hplan : u.Planner o log plan) {owner : Option HostType} {p : Property}
    (hp : u.Serves owner p) {name : String} {path : Path} (hfield : o.FieldAt log p path)
    (htype : p.type = p.resolver.returns.literal name)
    (hname : o.scope.graph.ShowsAs p.resolver.returns.innermost name)
    {provided : List (String × Literal)} {transformations : List Transformation} {i : Nat}
    {output : Output} (hdrop : p.transformations.drop i = transformations)
    (houtput : u.Presents p.resolver.returns output)
    (hplace : o.place? log path =
      some (.value p.type (o.scope.transformed? provided transformations output) selections)) :
    (o.scope.transformAll provided path
      (fun e => Plan.fail p.type location path e.error e.kind)
      (fun output => o.scope.complete plan selections location output p.type path)
      i transformations output).Reports (u.Accounts o log) log := by
  induction transformations generalizing i output with
  | nil =>
    rw [htype] at hplace ⊢
    exact reports_complete hg hplan houtput hname hplace
  | cons t rest ih =>
    have hi : p.transformations[i]? = some t := by
      rw [← List.head?_drop, hdrop]
      rfl
    have hrest : p.transformations.drop (i + 1) = rest := by
      rw [← List.tail_drop, hdrop]
      rfl
    rw [Scope.transformAll]
    rw [Scope.transformed?] at hplace
    rcases (hp.maps t (List.mem_of_getElem? hi)).transform hu provided o.scope.graph.scalarOf?
        o.scope.context (isOutput_of_showsAs hname) houtput
      with ⟨argument, e, he⟩ | ⟨e, he, hfails⟩ | ⟨next, hnext, hpresents⟩
    · rw [he]
      exact .fail (.of_kind (.inl rfl))
    · rw [he]
      exact .transformed fun hcalled => .fail (.of_function hfield (.transformation hi hcalled hfails))
    · rw [hnext] at hplace ⊢
      exact .transformed fun _ => ih hrest hpresents hplace

theorem reports_planProperty (hu : u.Genuine) (hg : u.Types o.scope.graph)
    (hmarks : (Event.marks log).Nodup) (hplan : u.Planner o log plan) {object : ObjectType}
    {parent : Option Erased} (hparent : u.Holds object.host parent) {group : FieldGroup}
    {path : Path} {p : Property} (hp : u.Serves object.host p)
    (hshows : o.scope.graph.Shows p.resolver.returns p.type) (hfield : o.FieldAt log p path)
    (hplace : o.place? log path = some (.value p.type
      (o.scope.outputOf? log path object p group) group.selections)) :
    (o.scope.planProperty plan object parent group path p).Reports (u.Accounts o log) log := by
  obtain ⟨name, htype, hname⟩ := hshows
  obtain ⟨t, ht⟩ := hp.resolves
  have hreturns := ht.returns
  rw [Scope.planProperty]
  dsimp only
  split
  · exact .fail (.of_kind (.inr rfl))
  · rename_i arguments harguments
    rcases ht.start hu (Entries.ofPairs arguments) o.scope.graph.scalarOf? o.scope.context
      (hreturns ▸ isOutput_of_showsAs hname) hparent with ⟨argument, e, he⟩ | ⟨action, haction, hends⟩
    · rw [he]
      exact .fail (.of_kind (.inl rfl))
    · rw [haction]
      refine .invoke fun journal ending hperform hanswered => ?_
      have hanswer := Event.answer?_of_mem hmarks hanswered
      rcases hends journal ending hperform with ⟨output, houtput, hpresents⟩ | ⟨e, he, hfails⟩
      · rw [houtput] at hanswer ⊢
        rw [Scope.outputOf?, harguments, hanswer] at hplace
        exact reports_transformAll hu hg hplan hp hfield htype hname List.drop_zero
          (hreturns ▸ hpresents) hplace
      · rw [he] at hanswered ⊢
        exact .fail (.of_function hfield (.resolver hanswered hfails))

theorem reports_planGroup (hu : u.Genuine) (hg : u.Types o.scope.graph)
    (hmarks : (Event.marks log).Nodup) (hplan : u.Planner o log plan) {name : String}
    {object : ObjectType} (hobject : o.scope.graph.type? name = some (.object object))
    {parent : Option Erased} (hparent : u.Holds object.host parent)
    {selections : List Selection} {path : Path} {place : Place}
    (hplace : o.place? log path = some place)
    (hat : o.scope.objectAt? place = some (object, selections)) {group : FieldGroup}
    (hgroup : group ∈ (o.scope.collect object selections).groups) :
    (o.scope.planGroup plan object parent path group).Reports (u.Accounts o log) log := by
  have hkeys := (o.scope.tidy_collect object selections).keys
  have hnext : o.place? log (path ++ [.field group.key]) =
      some (o.scope.fieldPlace log (path ++ [.field group.key]) object group) := by
    rw [Opening.place?_concat, hplace]
    simp only [Option.bind_some, Scope.step?, hat, Collected.find?_key hkeys hgroup,
      Option.map_some]
  rw [Scope.planGroup]
  split
  · exact .done _
  · rename_i hname
    rw [Scope.fieldPlace, if_neg hname] at hnext
    split
    · rename_i p hproperty
      rw [hproperty] at hnext
      obtain ⟨hp, hshows⟩ := hg.properties hobject p (List.mem_of_find?_eq_some hproperty)
      exact reports_planProperty hu hg hmarks hplan hparent hp hshows
        (.intro hplace hat hgroup hproperty) hnext
    · exact .report (.of_kind (.inr rfl)) (.done _)

theorem planner_planObject (hu : u.Genuine) (hg : u.Types o.scope.graph)
    (hmarks : (Event.marks log).Nodup) (depth : Nat) :
    u.Planner o log (o.scope.planObject depth) := by
  induction depth with
  | zero => exact fun _ _ _ _ _ _ h => h.elim
  | succ depth ih =>
    intro name object parent selections path place nullable hobject hparent hplace hat
    refine .reportAll (fun e he => ?_) (.together _ fun part hpart => ?_)
    · obtain ⟨spread, -, rfl⟩ := List.mem_map.mp he
      exact .of_kind (.inr rfl)
    · obtain ⟨group, hgroup, rfl⟩ := List.mem_map.mp hpart
      exact reports_planGroup hu hg hmarks ih hobject hparent hplace hat hgroup

end

end Universe

theorem Universe.Types.holds_root {u : Universe} {s : Schema} (hg : u.Types s.graph)
    {kind : OperationKind} {root : ObjectType} (h : s.root? kind = some root) :
    u.Holds root.host none := by
  have hhost : root.host = none := by
    cases kind with
    | query => exact hg.query _ h
    | mutation => exact hg.mutation _ h
    | subscription => cases h
  rw [hhost]
  exact nofun

/-- Every error of a run to the end of a request to a typed schema is accounted for. -/
theorem Universe.Types.accounts {u : Universe} (hu : u.Genuine) {s : Schema} (hg : u.Types s.graph)
    {r : Request} {o : Opening} (ho : s.opening r = .ok o) {depth : Nat} {log : List Event}
    {result : Option Value} (hrun : (o.agenda depth).Reaches log (.ended result)) :
    ∀ e ∈ Event.errors log, u.Accounts o log e := by
  obtain ⟨hroot, hgraph⟩ := Schema.opening_eq ho
  obtain ⟨name, hname⟩ := Schema.root?_type? hroot
  have hparent := hg.holds_root hroot
  rw [← hgraph] at hg hname
  obtain ⟨settled, hsettles, -, hperm⟩ := hrun.settles
  have hreports := planner_planObject hu hg (Schema.nodup_marks ho hrun) (depth + 1) true hname
    hparent (o.place?_nil log) rfl settled hsettles hperm.subset
  intro e he
  exact hreports e ((hperm.filterMap _).mem_iff.mpr he)

end Trellis
