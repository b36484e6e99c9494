import Trellis.Proofs.Execution.Deepening
import Trellis.Proofs.Execution.Place

/-!
Objects inside each other.

An object is nested in another one if a resolver may hand it out for one of the selected fields. An
object comes to its end if those that are nested in it do, so what is laid out for a request comes to
its end if there is no endless chain of objects, each nested in the one before.
-/

namespace Trellis

open Document

/-- A place where an object is laid out: its type, its value unless it is a root, and what is
selected of it. -/
structure Site where
  object : ObjectType
  value : Option Erased
  selections : List Selection

namespace Scope

variable (scope : Scope)

/-- An output that is completed at a type contains a value that is laid out as an object. -/
inductive Contains : Output → TypeLiteral → ObjectType → Erased → Prop
  | single {name : String} {nonNull : Bool} {host : HostType} {value : HostValue}
    {object : ObjectType} : scope.objectFor? name host = some object →
    Contains (.single host value) (.named name nonNull) object ⟨host, value⟩
  | element {items : List Output} {item : Output} {inner : TypeLiteral} {nonNull : Bool}
    {object : ObjectType} {value : Erased} : item ∈ items → Contains item inner object value →
    Contains (.list items) (.list inner nonNull) object value

/-- One place is nested in another: called in some state of the journal, the resolver of a selected
field answers with an output that still contains the object when it is transformed. -/
inductive Nests : Site → Site → Prop
  | field {site : Site} {group : FieldGroup} {property : Property}
    {arguments : List (String × Literal)} {action : Action} {journal : List String}
    {ending : Action.Ending} {output shown : Output} {object : ObjectType} {value : Erased} :
    group ∈ (scope.collect site.object site.selections).groups →
    group.first.name ≠ "__typename" → site.object.property? group.first.name = some property →
    scope.argumentsOf site.object property group.first.arguments = .ok arguments →
    property.resolver.start site.value (Entries.ofPairs arguments) scope.graph.scalarOf?
      scope.context = .ok action →
    action.perform? journal = some ending → ending.result = .ok output →
    scope.transformed? (Entries.ofPairs arguments) property.transformations output = some shown →
    scope.Contains shown property.type object value →
    Nests ⟨object, some value, group.selections⟩ site

variable {scope} {planners : Nat → ObjectPlanner}

open Plan

/-- Planners that halt on a value with selections, wherever it is laid out. -/
def PlannersHalt (planners : Nat → ObjectPlanner) (selections : List Selection)
    (object : ObjectType) (value : Erased) : Prop :=
  ∀ path nullable, Halts fun depth => planners depth object (some value) selections path nullable

theorem halts_completeSingle (selections : List Selection) (location : Position) (name : String)
    (nonNull : Bool) (host : HostType) (value : HostValue) (path : Path)
    (h : ∀ object, scope.objectFor? name host = some object →
      PlannersHalt planners selections object ⟨host, value⟩) :
    Halts fun depth => scope.completeSingle (planners depth) selections location
      (.named name nonNull) name ⟨host, value⟩ path := by
  simp only [completeSingle]
  split
  · split
    · exact halts_done _
    · exact halts_fail ..
  · split
    · exact halts_done _
    · exact halts_fail ..
  · rename_i object htype
    exact h object (by rw [objectFor?, htype]) path _
  · rename_i union htype
    split
    · rename_i object hmember
      exact h object (by rw [objectFor?, htype]; exact hmember) path _
    · exact halts_fail ..
  · exact halts_fail ..
  · exact halts_fail ..

mutual

theorem halts_complete (selections : List Selection) (location : Position) :
    ∀ (output : Output) (type : TypeLiteral) (path : Path),
      (∀ object value, scope.Contains output type object value →
        PlannersHalt planners selections object value) →
      Halts fun depth =>
        scope.complete (planners depth) selections location output type path
  | .null, type, path, _ => by
    simp only [complete]
    split
    · exact halts_fail ..
    · exact halts_done _
  | .list items, .list inner nonNull, path, h => by
    obtain ⟨parts, hparts, hhalts⟩ := halts_completeItems selections location items inner path 0
      fun item hitem object value hcontains => h object value (.element hitem hcontains)
    simp only [complete, hparts]
    exact halts_together _ hhalts
  | .list items, .named name nonNull, path, _ => by
    simp only [complete]
    exact halts_fail ..
  | .single host value, .list inner nonNull, path, _ => by
    simp only [complete]
    exact halts_fail ..
  | .single host value, .named name nonNull, path, h => by
    simp only [complete]
    exact halts_completeSingle selections location name nonNull host value path
      fun object hfor => h object _ (.single hfor)

theorem halts_completeItems (selections : List Selection) (location : Position) :
    ∀ (items : List Output) (type : TypeLiteral) (path : Path) (i : Nat),
      (∀ item ∈ items, ∀ object value, scope.Contains item type object value →
        PlannersHalt planners selections object value) →
      ∃ parts : List (Nat → Plan),
        (∀ depth, scope.completeItems (planners depth) selections location items type path i =
          parts.map (· depth)) ∧ ∀ part ∈ parts, Halts part
  | [], _, _, _, _ => ⟨[], fun _ => by rw [completeItems, List.map_nil], nofun⟩
  | item :: items, type, path, i, h => by
    obtain ⟨parts, hparts, hhalts⟩ := halts_completeItems selections location items type path (i + 1)
      fun other hother => h other (List.mem_cons_of_mem _ hother)
    refine ⟨(fun depth => scope.complete (planners depth) selections location item type
      (path ++ [.index i])) :: parts, fun depth => ?_, List.forall_mem_cons.mpr ⟨?_, hhalts⟩⟩
    · rw [completeItems, hparts, List.map_cons]
    · exact halts_complete selections location item type _ (h item List.mem_cons_self)

end

theorem halts_transformAll {provided : List (String × Literal)} {path : Path}
    {fail : CallError → Plan} {complete : Nat → Output → Plan}
    (hfail : ∀ e, Halts fun _ => fail e) {transformations : List Transformation} {i : Nat}
    {output : Output}
    (hcomplete : ∀ shown, scope.transformed? provided transformations output = some shown →
      Halts fun depth => complete depth shown) :
    Halts fun depth =>
      scope.transformAll provided path fail (complete depth) i transformations output := by
  induction transformations generalizing i output with
  | nil => exact hcomplete output rfl
  | cons t rest ih =>
    simp only [transformAll]
    split
    · exact hfail _
    · exact (hfail _).transformed path i
    · rename_i next hnext
      refine (ih fun shown hshown => hcomplete shown ?_).transformed path i
      rw [transformed?, hnext]
      exact hshown

/-- A selected field halts if everything that is nested in its object by way of it does. -/
theorem halts_planGroup {site : Site} (hobject : site.object.Does Action.Returns) {group : FieldGroup}
    (hgroup : group ∈ (scope.collect site.object site.selections).groups)
    (h : ∀ object value, scope.Nests ⟨object, some value, group.selections⟩ site →
      PlannersHalt planners group.selections object value) (path : Path) :
    Halts fun depth => scope.planGroup (planners depth) site.object site.value path group := by
  simp only [planGroup]
  split
  · exact halts_done _
  · rename_i hname
    split
    · rename_i property hproperty
      simp only [planProperty]
      split
      · exact halts_fail ..
      · rename_i arguments harguments
        split
        · exact halts_fail ..
        · rename_i action haction
          have hreturns : action.Returns :=
            (hobject property (List.mem_of_find?_eq_some hproperty)).start haction
          refine halts_invoke hreturns _ _ fun journal ending hending => ?_
          cases hresult : ending.result with
          | error e => exact halts_fail ..
          | ok output =>
            refine halts_transformAll (fun e => halts_fail ..) fun shown hshown => ?_
            refine halts_complete _ _ shown _ _ fun object value hcontains => h object value ?_
            exact .field hgroup hname hproperty harguments haction hending hresult hshown hcontains
    · exact (halts_done _).report _

theorem Contains.exists_type? {output : Output} {type : TypeLiteral} {object : ObjectType}
    {value : Erased} (h : scope.Contains output type object value) :
    ∃ name, scope.graph.type? name = some (.object object) := by
  induction h with
  | single hfor => exact scope.exists_type?_of_objectFor? hfor
  | element _ _ ih => exact ih

theorem Nests.exists_type? {inner outer : Site} (h : scope.Nests inner outer) :
    ∃ name, scope.graph.type? name = some (.object inner.object) := by
  cases h with
  | field _ _ _ _ _ _ _ _ hcontains => exact hcontains.exists_type?

theorem Nests.does {call : Action → Prop} (hg : scope.graph.Does call) {inner outer : Site}
    (h : scope.Nests inner outer) : inner.object.Does call := by
  obtain ⟨name, hname⟩ := h.exists_type?
  exact hg name _ hname

/-- The fields of a place halt if what is nested in it does. -/
theorem exists_halting_groups {site : Site} (hobject : site.object.Does Action.Returns)
    (h : ∀ inner, scope.Nests inner site → ∀ path nullable, Halts fun depth =>
      planners depth inner.object inner.value inner.selections path nullable) (path : Path) :
    ∃ parts : List (Nat → Plan), (∀ depth, (scope.collect site.object site.selections).groups.map
        (scope.planGroup (planners depth) site.object site.value path) = parts.map (· depth)) ∧
      ∀ part ∈ parts, Halts part := by
  refine ⟨(scope.collect site.object site.selections).groups.map fun group depth =>
    scope.planGroup (planners depth) site.object site.value path group, fun depth => ?_, ?_⟩
  · rw [List.map_map]
    rfl
  · intro part hpart
    obtain ⟨group, hgroup, rfl⟩ := List.mem_map.mp hpart
    exact halts_planGroup hobject hgroup (fun object value hnests => h _ hnests) path

/-- An object without an endless chain of objects inside it halts. The induction is on what is nested
in it, as nothing bounds in advance how deep that is. -/
theorem halts_planObject (hg : scope.graph.Does Action.Returns) {site : Site}
    (h : Acc scope.Nests site) (hobject : site.object.Does Action.Returns) (path : Path)
    (nullable : Bool) :
    Halts fun depth => scope.planObject depth site.object site.value site.selections path
      nullable := by
  induction h generalizing path nullable with
  | intro site _ ih =>
    obtain ⟨parts, hparts, hhalts⟩ := exists_halting_groups hobject
      (fun inner hnests => ih inner hnests (hnests.does hg)) path
    have hdeeper := (halts_together
      ⟨.object (scope.collect site.object site.selections).keys, nullable⟩ hhalts).reportAll
      ((scope.collect site.object site.selections).missing.map (missingFragment path))
    refine .of_deeper ?_ ?_
    · simp only [planObject, hparts]
      exact hdeeper
    · exact entry?_reportAll ..

/-! ### Objects that are laid out -/

section Runs

variable {planner : ObjectPlanner} {selections : List Selection} {location : Position}

theorem completeSingle_of_objectFor? {name : String} {nonNull : Bool} {host : HostType}
    {value : HostValue} {object : ObjectType} (h : scope.objectFor? name host = some object)
    (path : Path) : scope.completeSingle planner selections location (.named name nonNull) name
      ⟨host, value⟩ path = planner object (some ⟨host, value⟩) selections path (!nonNull) := by
  rw [objectFor?] at h
  rw [completeSingle]
  split at h
  · rename_i htype
    cases h
    simp only [htype]
    rfl
  · rename_i union htype
    simp only [htype, h]
    rfl
  · cases h

theorem mem_completeItems {items : List Output} {item : Output} (h : item ∈ items)
    (type : TypeLiteral) (path : Path) (i : Nat) :
    ∃ j, scope.complete planner selections location item type (path ++ [.index j]) ∈
      scope.completeItems planner selections location items type path i := by
  induction items generalizing i with
  | nil => cases h
  | cons first items ih =>
    rw [completeItems]
    rcases List.mem_cons.mp h with rfl | hin
    · exact ⟨i, List.mem_cons_self⟩
    · obtain ⟨j, hj⟩ := ih hin (i + 1)
      exact ⟨j, List.mem_cons_of_mem _ hj⟩

/-- If what completes an output is carried out, so is every object that the output contains. -/
theorem Contains.exists_runs {output : Output} {type : TypeLiteral} {object : ObjectType}
    {value : Erased} (h : scope.Contains output type object value) {path : Path}
    (hruns : (scope.complete planner selections location output type path).Runs) :
    ∃ path nullable, (planner object (some value) selections path nullable).Runs := by
  induction h generalizing path with
  | single hfor =>
    rw [complete, completeSingle_of_objectFor? hfor] at hruns
    exact ⟨_, _, hruns⟩
  | @element _ _ inner _ _ _ hitem _ ih =>
    rw [complete] at hruns
    obtain ⟨j, hj⟩ := mem_completeItems hitem inner path 0
    exact ih (hruns.of_together _ hj)

theorem runs_of_transformAll {provided : List (String × Literal)} {path : Path}
    {fail : CallError → Plan} {complete : Output → Plan} {transformations : List Transformation}
    {i : Nat} {output shown : Output}
    (hshown : scope.transformed? provided transformations output = some shown)
    (h : (scope.transformAll provided path fail complete i transformations output).Runs) :
    (complete shown).Runs := by
  induction transformations generalizing i output with
  | nil =>
    cases hshown
    exact h
  | cons t rest ih =>
    rw [transformed?] at hshown
    rw [transformAll] at h
    split at hshown
    · rename_i next hnext
      rw [hnext] at h
      exact ih hshown h.of_transformed
    · cases hshown

/-- If the fields of a place are carried out, so is every object that is nested in it, provided that
the answers of resolvers do not depend on the journal. -/
theorem Nests.exists_runs (hreturns : scope.graph.Does Action.Returns) (hsteady : scope.graph.Steady)
    {inner outer : Site} (h : scope.Nests inner outer) {name : String}
    (hobject : scope.graph.type? name = some (.object outer.object)) {path : Path}
    (hruns : ∀ group ∈ (scope.collect outer.object outer.selections).groups,
      (scope.planGroup planner outer.object outer.value path group).Runs) :
    ∃ path nullable,
      (planner inner.object inner.value inner.selections path nullable).Runs := by
  cases h with
  | @field _ group property _ action _ ending _ _ _ _ hgroup hname hproperty harguments haction
      hending hresult hshown hcontains =>
    have hplan := hruns group hgroup
    have hmem := List.mem_of_find?_eq_some hproperty
    have hcall : (∀ call : Action → Prop, scope.graph.Does call → call action) := fun call hdoes =>
      (hdoes name _ hobject property hmem).start haction
    simp only [planGroup, if_neg hname, hproperty, planProperty, harguments, haction] at hplan
    have hnext := hplan.of_invoke (hcall _ hreturns) (hcall _ hsteady) hending
    simp only [hresult] at hnext
    exact hcontains.exists_runs (runs_of_transformAll hshown hnext)

end Runs

end Scope

/-- The place of the root of a request. -/
def Opening.site (o : Opening) : Site := ⟨o.root, none, o.operation.selections⟩

/-- Without an endless chain of objects inside each other, a request is laid out deep enough at some
depth, however its calls are ranked. -/
theorem Opening.exists_run {o : Opening} (hg : o.scope.graph.Does Action.Returns)
    (hroot : o.root.Does Action.Returns) (h : Acc o.scope.Nests o.site) (ranking : Ranking) :
    ∃ e, Call.anyEndless e.calls = false ∧
      ∃ depth, ∀ deeper ≥ depth, (o.agenda deeper).run ranking = some e := by
  obtain ⟨parts, hparts, hhalts⟩ := Scope.exists_halting_groups hroot
    (fun inner hnests => Scope.halts_planObject hg (h.inv hnests) (hnests.does hg)) []
  have hagenda (depth : Nat) : o.agenda depth =
      ⟨(o.scope.collect o.root o.operation.selections).missing.map (Scope.missingFragment []),
        (o.scope.collect o.root o.operation.selections).keys, parts.map (· depth),
        o.operation.kind = .mutation⟩ := by
    rw [← hparts]
    rfl
  exact Agenda.exists_run hagenda hhalts ranking

end Trellis
