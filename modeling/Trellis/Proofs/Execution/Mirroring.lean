import Trellis.Execution.Request
import Trellis.Proofs.Itemwise

/-!
Scopes that lay out the same.

Two scopes may hold different documents and variables, and graphs that differ in what no execution
looks at, such as the order of types or of the members of a union. If the fields they collect from
selections that correspond are alike, and their selections correspond again, the plans are the same:
equal trees of calls, with equal ways to go on after each call.
-/

namespace Trellis

open Document

/-- Executions cannot tell two unions apart: they have the same members, to which the same host types
lead. -/
structure UnionType.Indistinct (u u' : UnionType) : Prop where
  member : ∀ host, u.member? host = u'.member? host
  contains : ∀ name, u.contains name = u'.contains name

/-- Executions cannot tell two graphs apart: under each name they hold the same type, or unions that
cannot be told apart, and they have the same roots. -/
structure TypeGraph.Indistinct (g g' : TypeGraph) : Prop where
  types : ∀ name, g.type? name = g'.type? name ∨ ∃ u u', g.type? name = some (.union u) ∧
    g'.type? name = some (.union u') ∧ u.Indistinct u'
  scalars : g.scalarOf? = g'.scalarOf?
  query : g.query = g'.query
  mutation : g.mutation = g'.mutation

namespace TypeGraph

theorem Indistinct.refl (g : TypeGraph) : g.Indistinct g := ⟨fun _ => .inl rfl, rfl, rfl, rfl⟩

variable {g g' : TypeGraph}

theorem Indistinct.bind_type? (h : g.Indistinct g') {α : Type} {f : TypeNode → Option α}
    (hf : ∀ u, f (.union u) = none) (name : String) :
    (g.type? name).bind f = (g'.type? name).bind f := by
  rcases h.types name with he | ⟨u, u', hu, hu', -⟩
  · rw [he]
  · rw [hu, hu', Option.bind_some, Option.bind_some, hf, hf]

end TypeGraph

namespace Scope

/-- Two groups of fields that are planned alike, given which selections correspond. -/
structure Alike (scope scope' : Scope) (R : List Selection → List Selection → Prop)
    (object : ObjectType) (g g' : FieldGroup) : Prop where
  key : g.key = g'.key
  start : g.first.start = g'.first.start
  name : g.first.name = g'.first.name
  arguments : ∀ property, scope.argumentsOf object property g.first.arguments =
    scope'.argumentsOf object property g'.first.arguments
  selections : R g.selections g'.selections

/-- Selections that correspond collect alike. -/
structure Mirrors (scope scope' : Scope) (R : List Selection → List Selection → Prop) : Prop where
  graph : scope.graph.Indistinct scope'.graph
  context : scope.context = scope'.context
  missing : ∀ object {L L' : List Selection}, R L L' →
    (scope.collect object L).missing = (scope'.collect object L').missing
  groups : ∀ object {L L' : List Selection}, R L L' →
    List.Forall₂ (scope.Alike scope' R object) (scope.collect object L).groups
      (scope'.collect object L').groups

def withDocument (scope : Scope) (d : Document) : Scope := { scope with document := d }

def withGraph (scope : Scope) (g : TypeGraph) : Scope := { scope with graph := g }

variable {scope scope' : Scope}

theorem isExcluded_congr (hvalues : scope.values = scope'.values) :
    scope.isExcluded = scope'.isExcluded := by
  funext directives
  simp only [isExcluded, holds, hvalues]

theorem applies_congr (hgraph : scope.graph.Indistinct scope'.graph) :
    scope.applies = scope'.applies := by
  funext condition object
  rcases hgraph.types condition with he | ⟨u, u', hu, hu', halike⟩
  · simp only [applies, TypeGraph.union?, he]
  · simp only [applies, TypeGraph.union?, hu, hu']
    exact congrArg (_ || ·) (halike.contains object.name)

theorem argumentsOf_congr (hvalues : scope.values = scope'.values) (object : ObjectType)
    (property : Property) (arguments : List (String × Literal)) :
    scope.argumentsOf object property arguments = scope'.argumentsOf object property arguments := by
  induction arguments with
  | nil => rfl
  | cons a rest ih => rw [argumentsOf, argumentsOf, ih, hvalues]

mutual

/-- What is collected depends on what conditions apply to the object. -/
theorem collectSelection_congr (hfragments : scope.document.fragments = scope'.document.fragments)
    (hvalues : scope.values = scope'.values) {object object' : ObjectType}
    (happlies : ∀ condition, scope.applies condition object = scope'.applies condition object')
    (enter : Fragment → Collected → Collected) :
    ∀ (s : Selection) (c : Collected),
      scope.collectSelection object enter s c = scope'.collectSelection object' enter s c
  | .field f, c => by
    rw [collectSelection, collectSelection, isExcluded_congr hvalues]
  | .spread start name directives, c => by
    simp only [collectSelection, isExcluded_congr hvalues, fragment?, hfragments, happlies]
  | .inlineFragment _ condition directives selections, c => by
    simp only [collectSelection, isExcluded_congr hvalues, happlies,
      collectSelections_congr hfragments hvalues happlies enter selections]

theorem collectSelections_congr (hfragments : scope.document.fragments = scope'.document.fragments)
    (hvalues : scope.values = scope'.values) {object object' : ObjectType}
    (happlies : ∀ condition, scope.applies condition object = scope'.applies condition object')
    (enter : Fragment → Collected → Collected) :
    ∀ (L : List Selection) (c : Collected),
      scope.collectSelections object enter L c = scope'.collectSelections object' enter L c
  | [], c => by rw [collectSelections, collectSelections]
  | s :: rest, c => by
    rw [collectSelections, collectSelections,
      collectSelection_congr hfragments hvalues happlies enter s,
      collectSelections_congr hfragments hvalues happlies enter rest]

end

theorem collect_congr (hfragments : scope.document.fragments = scope'.document.fragments)
    (hvalues : scope.values = scope'.values) {object object' : ObjectType}
    (happlies : ∀ condition, scope.applies condition object = scope'.applies condition object')
    (L : List Selection) : scope.collect object L = scope'.collect object' L := by
  have hwithin (depth : Nat) (L : List Selection) (c : Collected) :
      scope.collectWithin object depth L c = scope'.collectWithin object' depth L c := by
    induction depth generalizing L c with
    | zero => exact collectSelections_congr hfragments hvalues happlies _ L c
    | succ depth ih =>
      simp only [collectWithin, ih]
      exact collectSelections_congr hfragments hvalues happlies _ L c
  rw [collect, collect, hfragments, hwithin]

section Completing

variable {plan plan' : ObjectPlanner} {L L' : List Selection}

theorem completeSingle_congr (hgraph : scope.graph.Indistinct scope'.graph)
    (hplan : ∀ object parent path nullable,
      plan object parent L path nullable = plan' object parent L' path nullable)
    (location : Position) (type : TypeLiteral) (name : String) (value : Erased) (path : Path) :
    scope.completeSingle plan L location type name value path =
      scope'.completeSingle plan' L' location type name value path := by
  have hobject (m : String) : (scope.graph.type? m).bind TypeNode.object? =
      (scope'.graph.type? m).bind TypeNode.object? := hgraph.bind_type? (fun _ => rfl) m
  rcases hgraph.types name with he | ⟨u, u', hu, hu', halike⟩
  · simp only [completeSingle, he, hobject, hplan]
  · simp only [completeSingle, hu, hu', halike.member, hobject, hplan]

mutual

theorem complete_congr (hgraph : scope.graph.Indistinct scope'.graph)
    (hplan : ∀ object parent path nullable,
      plan object parent L path nullable = plan' object parent L' path nullable)
    (location : Position) :
    ∀ (output : Output) (type : TypeLiteral) (path : Path),
      scope.complete plan L location output type path =
        scope'.complete plan' L' location output type path
  | .null, _, _ => by rw [complete, complete]
  | .list items, .list inner _, path => by
    rw [complete, complete, completeItems_congr hgraph hplan location items inner path 0]
  | .list _, .named .., _ => by rw [complete, complete]
  | .single .., .list .., _ => by rw [complete, complete]
  | .single host value, .named name _, path => by
    rw [complete, complete]
    exact completeSingle_congr hgraph hplan location _ name ⟨host, value⟩ path

theorem completeItems_congr (hgraph : scope.graph.Indistinct scope'.graph)
    (hplan : ∀ object parent path nullable,
      plan object parent L path nullable = plan' object parent L' path nullable)
    (location : Position) :
    ∀ (items : List Output) (type : TypeLiteral) (path : Path) (i : Nat),
      scope.completeItems plan L location items type path i =
        scope'.completeItems plan' L' location items type path i
  | [], _, _, _ => by rw [completeItems, completeItems]
  | item :: items, type, path, i => by
    rw [completeItems, completeItems, complete_congr hgraph hplan location item type _,
      completeItems_congr hgraph hplan location items type path (i + 1)]

end

end Completing

theorem transformAll_congr (hgraph : scope.graph.Indistinct scope'.graph)
    (hcontext : scope.context = scope'.context) (provided : List (String × Literal)) (path : Path)
    (fail : CallError → Plan) {complete complete' : Output → Plan}
    (hcomplete : ∀ output, complete output = complete' output) (transformations : List Transformation)
    (i : Nat) (output : Output) :
    scope.transformAll provided path fail complete i transformations output =
      scope'.transformAll provided path fail complete' i transformations output := by
  induction transformations generalizing i output with
  | nil => exact hcomplete output
  | cons t rest ih => simp only [transformAll, hgraph.scalars, hcontext, ih]

theorem planProperty_congr (hgraph : scope.graph.Indistinct scope'.graph)
    (hcontext : scope.context = scope'.context) {plan plan' : ObjectPlanner}
    {R : List Selection → List Selection → Prop} {object : ObjectType} {g g' : FieldGroup}
    (hg : scope.Alike scope' R object g g')
    (hplan : ∀ object parent path nullable, plan object parent g.selections path nullable =
      plan' object parent g'.selections path nullable)
    (parent : Option Erased) (path : Path) (property : Property) :
    scope.planProperty plan object parent g path property =
      scope'.planProperty plan' object parent g' path property := by
  simp only [planProperty, hg.arguments property, hg.start, hgraph.scalars, hcontext,
    transformAll_congr hgraph hcontext _ _ _
      (fun output => complete_congr hgraph hplan g'.first.start output property.type path)]

theorem planGroup_congr (hgraph : scope.graph.Indistinct scope'.graph)
    (hcontext : scope.context = scope'.context) {plan plan' : ObjectPlanner}
    {R : List Selection → List Selection → Prop} {object : ObjectType} {g g' : FieldGroup}
    (hg : scope.Alike scope' R object g g')
    (hplan : ∀ object parent path nullable, plan object parent g.selections path nullable =
      plan' object parent g'.selections path nullable)
    (parent : Option Erased) (path : Path) :
    scope.planGroup plan object parent path g = scope'.planGroup plan' object parent path g' := by
  simp only [planGroup, hg.name, hg.key, hg.start, planProperty_congr hgraph hcontext hg hplan]

namespace Mirrors

variable {R : List Selection → List Selection → Prop}

theorem keys (h : scope.Mirrors scope' R) (object : ObjectType) {L L' : List Selection}
    (hL : R L L') : (scope.collect object L).keys = (scope'.collect object L').keys :=
  map_eq_map_iff_forall₂.mpr ((h.groups object hL).imp fun _ _ hg => hg.key)

theorem plans (h : scope.Mirrors scope' R) {plan plan' : ObjectPlanner}
    (hplan : ∀ object parent {L L'} path nullable, R L L' →
      plan object parent L path nullable = plan' object parent L' path nullable)
    (object : ObjectType) (parent : Option Erased) {L L' : List Selection} (hL : R L L')
    (path : Path) :
    (scope.collect object L).groups.map (scope.planGroup plan object parent path) =
      (scope'.collect object L').groups.map (scope'.planGroup plan' object parent path) := by
  refine map_eq_map_iff_forall₂.mpr ((h.groups object hL).imp fun g g' hg => ?_)
  exact planGroup_congr h.graph h.context hg
    (fun object parent path nullable => hplan object parent path nullable hg.selections) parent path

theorem planObject (h : scope.Mirrors scope' R) (depth : Nat) (object : ObjectType)
    (parent : Option Erased) {L L' : List Selection} (path : Path) (nullable : Bool)
    (hL : R L L') :
    scope.planObject depth object parent L path nullable =
      scope'.planObject depth object parent L' path nullable := by
  induction depth generalizing object parent L L' path nullable with
  | zero => rfl
  | succ depth ih =>
    simp only [Scope.planObject, h.missing object hL, h.keys object hL,
      h.plans (fun object parent _ _ path nullable => ih object parent path nullable)
        object parent hL path]

theorem agenda (h : scope.Mirrors scope' R) (depth : Nat) (root : ObjectType)
    {L L' : List Selection} (serial : Bool) (hL : R L L') :
    scope.agenda depth root L serial = scope'.agenda depth root L' serial := by
  simp only [Scope.agenda, h.missing root hL, h.keys root hL,
    h.plans (fun object parent _ _ path nullable => h.planObject depth object parent path nullable)
      root none hL []]

end Mirrors

/-- The same selections are collected alike with the same fragments and values of variables, in graphs
that cannot be told apart. -/
theorem mirrors_of_indistinct (hgraph : scope.graph.Indistinct scope'.graph)
    (hfragments : scope.document.fragments = scope'.document.fragments)
    (hvalues : scope.values = scope'.values) (hcontext : scope.context = scope'.context) :
    scope.Mirrors scope' (· = ·) := by
  have happlies : scope.applies = scope'.applies := applies_congr hgraph
  have hcollect (object : ObjectType) (L : List Selection) :
      scope.collect object L = scope'.collect object L :=
    collect_congr hfragments hvalues (fun _ => by rw [happlies]) L
  refine ⟨hgraph, hcontext, fun object L L' hL => ?_, fun object L L' hL => ?_⟩
  · rw [hL, hcollect]
  · rw [hL, hcollect]
    exact List.forall₂_same.mpr fun group _ =>
      ⟨rfl, rfl, rfl, fun property => argumentsOf_congr hvalues object property _, rfl⟩

end Scope

/-- Which variables are accepted depends on which types of a graph are input types. -/
theorem coerceVariables_congr {g g' : TypeGraph}
    (h : ∀ name, (g.type? name).map TypeNode.isInput = (g'.type? name).map TypeNode.isInput)
    (definitions : List VariableDefinition) (values : Variables) :
    coerceVariables g definitions values = coerceVariables g' definitions values := by
  induction definitions generalizing values with
  | nil => rfl
  | cons definition rest ih => simp only [coerceVariables, h, ih]

namespace Document

/-- The document with its operations and fragments rewritten one by one. -/
def rewrite (onOperation : Operation → Operation) (onFragment : Fragment → Fragment)
    (d : Document) : Document :=
  d.map fun
    | .operation o => .operation (onOperation o)
    | .fragment f => .fragment (onFragment f)

variable (onOperation : Operation → Operation) (onFragment : Fragment → Fragment) (d : Document)

theorem operations_rewrite :
    (d.rewrite onOperation onFragment).operations = d.operations.map onOperation := by
  rw [operations, rewrite, List.filterMap_map, operations, List.map_filterMap]
  congr 1
  funext definition
  cases definition <;> rfl

theorem fragments_rewrite :
    (d.rewrite onOperation onFragment).fragments = d.fragments.map onFragment := by
  rw [fragments, rewrite, List.filterMap_map, fragments, List.map_filterMap]
  congr 1
  funext definition
  cases definition <;> rfl

theorem fragment?_rewrite (hname : ∀ f, (onFragment f).name = f.name) (name : String) :
    (d.rewrite onOperation onFragment).fragment? name = (d.fragment? name).map onFragment := by
  rw [fragment?, fragments_rewrite, ← List.map_reverse, List.find?_map]
  simp only [Function.comp_def, hname]
  rfl

theorem selectOperation_rewrite (hname : ∀ o, (onOperation o).name = o.name)
    (name : Option String) : selectOperation (d.rewrite onOperation onFragment) name =
      (selectOperation d name).map onOperation := by
  simp only [selectOperation, operations_rewrite]
  cases name with
  | none => rcases d.operations with _ | ⟨o, _ | ⟨o', rest⟩⟩ <;> rfl
  | some name =>
    dsimp only
    rw [← List.map_reverse, List.find?_map]
    simp only [Function.comp_def, hname]
    cases d.operations.reverse.find? fun o : Operation => o.name = some name <;> rfl

end Document

namespace Schema

variable {s : Schema} {r r' : Request}

/-- What a request is opened with, part by part. -/
theorem opening_ok {o : Opening} : s.opening r = .ok o ↔
    selectOperation r.document r.operation = .ok o.operation ∧
    s.root? o.operation.kind = some o.root ∧
    ∃ values, coerceVariables s.graph o.operation.variableDefinitions r.values = .ok values ∧
      o.scope = ⟨s.graph, r.document, values, r.context⟩ := by
  constructor
  · intro h
    rw [opening] at h
    cases hselect : selectOperation r.document r.operation with
    | error e => simp [hselect, bind, Except.bind] at h
    | ok operation =>
      simp only [hselect, bind, Except.bind] at h
      split at h
      · cases h
      · rename_i root hroot
        split at h
        · cases h
        · rename_i values hvalues
          cases h
          exact ⟨rfl, hroot, values, hvalues, rfl⟩
  · obtain ⟨scope, root, operation⟩ := o
    rintro ⟨hselect, hroot, values, hvalues, rfl⟩
    simp only [opening, hselect, bind, Except.bind, hroot, hvalues]
    rfl

/-- A request whose document was rewritten is opened as before, with the rewritten operation. -/
theorem opening_rewrite (onOperation : Operation → Operation) (onFragment : Fragment → Fragment)
    (hname : ∀ o, (onOperation o).name = o.name) (hkind : ∀ o, (onOperation o).kind = o.kind)
    (hvariables : ∀ o, (onOperation o).variableDefinitions = o.variableDefinitions) (r : Request) :
    s.opening { r with document := r.document.rewrite onOperation onFragment } =
      (s.opening r).map fun o => ⟨o.scope.withDocument (r.document.rewrite onOperation onFragment),
        o.root, onOperation o.operation⟩ := by
  rw [opening, opening]
  dsimp only
  rw [selectOperation_rewrite _ _ _ hname]
  cases selectOperation r.document r.operation with
  | error e => rfl
  | ok operation =>
    simp only [Except.map, bind, Except.bind, hkind, hvariables]
    cases s.root? operation.kind with
    | none => rfl
    | some root =>
      dsimp only
      cases coerceVariables s.graph operation.variableDefinitions r.values <;> rfl

/-- Requests that are refused alike or opened as the same agendas are executed alike. -/
theorem executeOn_congr {s' : Schema} (hconfiguration : s.configuration = s'.configuration)
    {f : Opening → Opening} (h : s'.opening r' = (s.opening r).map f)
    (hagenda : ∀ o, s.opening r = .ok o → ∀ depth, o.agenda depth = (f o).agenda depth)
    (workers : Workers) (depth : Nat) :
    s.executeOn? workers depth r = s'.executeOn? workers depth r' := by
  obtain ⟨graph, configuration⟩ := s
  obtain ⟨graph', _⟩ := s'
  subst hconfiguration
  rw [executeOn?, executeOn?, h]
  cases ho : (Schema.mk graph configuration).opening r with
  | error e => rfl
  | ok o =>
    simp only [Except.map, hagenda o ho depth]
    rfl

section Indistinct

variable {g g' : TypeGraph} (h : g.Indistinct g') (configuration : Configuration)

include h

theorem root?_of_indistinct (kind : OperationKind) :
    (Schema.mk g configuration).root? kind = (Schema.mk g' configuration).root? kind := by
  cases kind with
  | query =>
    change (g.type? g.query).bind TypeNode.object? = (g'.type? g'.query).bind TypeNode.object?
    rw [← h.query, h.bind_type? fun _ => rfl]
  | mutation =>
    change (g.mutation.bind fun name => (g.type? name).bind TypeNode.object?) =
      g'.mutation.bind fun name => (g'.type? name).bind TypeNode.object?
    rw [← h.mutation]
    exact congrArg g.mutation.bind (funext (h.bind_type? fun _ => rfl))
  | subscription => rfl

/-- A request is refused alike, or opened on the same root. -/
theorem opening_of_indistinct (r : Request) :
    (Schema.mk g' configuration).opening r = ((Schema.mk g configuration).opening r).map fun o =>
      ⟨o.scope.withGraph g', o.root, o.operation⟩ := by
  have hinput (name : String) :
      (g.type? name).map TypeNode.isInput = (g'.type? name).map TypeNode.isInput := by
    rcases h.types name with he | ⟨u, u', hu, hu', -⟩
    · rw [he]
    · rw [hu, hu']
      rfl
  rw [opening, opening]
  cases selectOperation r.document r.operation with
  | error e => rfl
  | ok operation =>
    simp only [bind, Except.bind, root?_of_indistinct h, coerceVariables_congr hinput]
    cases (Schema.mk g' configuration).root? operation.kind with
    | none => rfl
    | some root =>
      dsimp only
      cases coerceVariables g' operation.variableDefinitions r.values <;> rfl

/-- Schemas whose graphs executions cannot tell apart execute every request in the same way. -/
theorem executeOn?_of_indistinct (workers : Workers) (depth : Nat) (r : Request) :
    (Schema.mk g configuration).executeOn? workers depth r =
      (Schema.mk g' configuration).executeOn? workers depth r := by
  have hconfiguration : (Schema.mk g configuration).configuration =
    (Schema.mk g' configuration).configuration := rfl
  refine executeOn_congr hconfiguration (opening_of_indistinct h configuration r)
    (fun o ho depth => ?_) workers depth
  obtain ⟨-, -, values, -, hscope⟩ := opening_ok.mp ho
  have hgraph : o.scope.graph.Indistinct g' := by
    rw [hscope]
    exact h
  have hmirrors : o.scope.Mirrors (o.scope.withGraph g') (· = ·) :=
    Scope.mirrors_of_indistinct hgraph rfl rfl rfl
  exact hmirrors.agenda depth o.root _ rfl

end Indistinct

end Schema

end Trellis
