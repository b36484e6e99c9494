import Trellis.Proofs.Execution.Carrying
import Trellis.Proofs.Execution.Mirroring
import Trellis.Proofs.Pointers.Agreement
import Trellis.Proofs.Typing.Execution

/-!
Execution with the pointers elsewhere.

The schemas of two programs that are alike differ in nothing that an execution asks for, apart from
the names under which transformations refuse what they cannot take back. With types there is nothing
that they cannot take back, so whatever is requested, the two are executed in the same way.
-/

namespace Trellis

open Document

/-! ### Plans that are carried out alike -/

namespace Plan

/-- Two plans start with the same call and are carried out in the same way. -/
structure Alike (plan plan' : Plan) : Prop where
  entry : plan.entry? = plan'.entry?
  run : ∀ ranking, plan.run ranking = plan'.run ranking

namespace Alike

theorem refl (plan : Plan) : plan.Alike plan := ⟨rfl, fun _ => rfl⟩

theorem report (e : ExecutionError) {plan plan' : Plan} (h : plan.Alike plan') :
    (Plan.report e plan).Alike (.report e plan') where
  entry := h.entry
  run ranking := by
    funext progress
    rw [Plan.run, Plan.run, h.run]

theorem transformed (path : Path) (index : Nat) {plan plan' : Plan} (h : plan.Alike plan') :
    (Plan.transformed path index plan).Alike (.transformed path index plan') where
  entry := h.entry
  run ranking := by rw [Plan.run, Plan.run, h.run]

/-- What comes after a call counts for what the call ends with. -/
theorem invoke (path : Path) (mode : ResolverMode) {action : Action}
    {next next' : Except FieldError Output → Plan}
    (h : ∀ journal ending, action.perform? journal = some ending →
      (next ending.result).Alike (next' ending.result)) :
    (Plan.invoke path mode action next).Alike (.invoke path mode action next') where
  entry := rfl
  run ranking := by
    funext progress
    rw [Plan.run, Plan.run]
    dsimp only
    cases hperform : action.perform? progress.journal with
    | none => rfl
    | some ending => simp only [(h _ _ hperform).run]

theorem map_rank {parts parts' : List Plan} (h : List.Forall₂ Alike parts parts')
    (ranking : Ranking) : parts.map (rank ranking) = parts'.map (rank ranking) :=
  map_eq_map_iff_forall₂.mpr (h.imp fun _ _ hpart => by rw [rank, rank, hpart.entry])

theorem runAll {parts parts' : List Plan} (h : List.Forall₂ Alike parts parts')
    (ranking : Ranking) : Plan.runAll ranking parts = Plan.runAll ranking parts' := by
  rw [runAll_eq_map, runAll_eq_map, map_eq_map_iff_forall₂]
  exact h.imp fun _ _ hpart => hpart.run ranking

theorem together (frame : Frame) {parts parts' : List Plan} (h : List.Forall₂ Alike parts parts') :
    (Plan.together frame parts).Alike (.together frame parts') where
  entry := rfl
  run ranking := by rw [Plan.run, Plan.run, map_rank h, runAll h]

end Alike

/-- Two plans are carried out in the same way, both as they are and with calls that never end in the
place of what is not laid out. -/
structure Same (plan plan' : Plan) : Prop where
  whole : plan.Alike plan'
  begun : plan.begun.Alike plan'.begun

theorem begunAll_eq_map (parts : List Plan) : begunAll parts = parts.map begun := by
  induction parts with
  | nil => rfl
  | cons part parts ih => rw [begunAll, ih, List.map_cons]

namespace Same

theorem refl (plan : Plan) : plan.Same plan := ⟨.refl _, .refl _⟩

theorem report (e : ExecutionError) {plan plan' : Plan} (h : plan.Same plan') :
    (Plan.report e plan).Same (.report e plan') := ⟨h.whole.report e, h.begun.report e⟩

theorem reportAll (errors : List ExecutionError) {plan plan' : Plan} (h : plan.Same plan') :
    (Plan.reportAll errors plan).Same (.reportAll errors plan') := by
  induction errors with
  | nil => exact h
  | cons e errors ih => exact ih.report e

theorem transformed (path : Path) (index : Nat) {plan plan' : Plan} (h : plan.Same plan') :
    (Plan.transformed path index plan).Same (.transformed path index plan') :=
  ⟨h.whole.transformed path index, h.begun.transformed path index⟩

theorem invoke (path : Path) (mode : ResolverMode) {action : Action}
    {next next' : Except FieldError Output → Plan}
    (h : ∀ journal ending, action.perform? journal = some ending →
      (next ending.result).Same (next' ending.result)) :
    (Plan.invoke path mode action next).Same (.invoke path mode action next') :=
  ⟨.invoke path mode fun journal ending hperform => (h journal ending hperform).whole,
    .invoke path mode fun journal ending hperform => (h journal ending hperform).begun⟩

theorem begunAll {parts parts' : List Plan} (h : List.Forall₂ Same parts parts') :
    List.Forall₂ Alike (Plan.begunAll parts) (Plan.begunAll parts') := by
  rw [begunAll_eq_map, begunAll_eq_map, List.forall₂_map_left_iff, List.forall₂_map_right_iff]
  exact h.imp fun _ _ => Same.begun

theorem together (frame : Frame) {parts parts' : List Plan} (h : List.Forall₂ Same parts parts') :
    (Plan.together frame parts).Same (.together frame parts') where
  whole := .together frame (h.imp fun _ _ => Same.whole)
  begun := by
    rw [Plan.begun, Plan.begun]
    exact .together frame (begunAll h)

end Same

end Plan

/-! ### Graphs that are the same without pointers -/

namespace TypeNode

/-- Two nodes that are the same without pointers are equal, or they are objects. -/
theorem eq_or_object_of_bare {node node' : TypeNode} (h : node.bare = node'.bare) :
    node = node' ∨ ∃ o o', node = .object o ∧ node' = .object o' ∧ o.bare = o'.bare := by
  cases node with
  | object o =>
    cases node' with
    | object o' => exact .inr ⟨o, o', rfl, rfl, TypeNode.object.inj h⟩
    | scalar | enumeration | union | inputObject => cases h
  | scalar | enumeration | union | inputObject =>
    cases node' <;> cases h
    exact .inl rfl

end TypeNode

namespace TypeGraph

variable {g g' : TypeGraph}

theorem map_type?_congr (h : g.bare = g'.bare) (name : String) :
    (g.type? name).map TypeNode.bare = (g'.type? name).map TypeNode.bare := by
  rw [type?, type?, ← Entries.lookup_map, ← Entries.lookup_map, (TypeGraph.mk.inj h).1]

/-- Under a name are equal types, if any, or objects that are the same without pointers. -/
theorem type?_cases (h : g.bare = g'.bare) (name : String) : g.type? name = g'.type? name ∨
    ∃ o o', g.type? name = some (.object o) ∧ g'.type? name = some (.object o') ∧
      o.bare = o'.bare := by
  rcases none_or_some_of_map_eq (map_type?_congr h name) with
    ⟨hnone, hnone'⟩ | ⟨node, node', hnode, hnode', hbare⟩
  · exact .inl (hnone.trans hnone'.symm)
  · rcases TypeNode.eq_or_object_of_bare hbare with rfl | ⟨o, o', rfl, rfl, ho⟩
    · exact .inl (hnode.trans hnode'.symm)
    · exact .inr ⟨o, o', hnode, hnode', ho⟩

theorem map_object?_congr (h : g.bare = g'.bare) (name : String) :
    ((g.type? name).bind TypeNode.object?).map ObjectType.bare =
      ((g'.type? name).bind TypeNode.object?).map ObjectType.bare := by
  rcases type?_cases h name with he | ⟨o, o', ho, ho', hbare⟩
  · rw [he]
  · rw [ho, ho']
    exact congrArg some hbare

theorem union?_congr (h : g.bare = g'.bare) (name : String) : g.union? name = g'.union? name := by
  rcases type?_cases h name with he | ⟨o, o', ho, ho', -⟩
  · rw [union?, union?, he]
  · rw [union?, union?, ho, ho']
    rfl

theorem map_isInput_congr (h : g.bare = g'.bare) (name : String) :
    (g.type? name).map TypeNode.isInput = (g'.type? name).map TypeNode.isInput := by
  rcases type?_cases h name with he | ⟨o, o', ho, ho', -⟩
  · rw [he]
  · rw [ho, ho']
    rfl

theorem scalarOf?_congr (h : g.bare = g'.bare) : g.scalarOf? = g'.scalarOf? := by
  have hscalar (name : String) : g.scalar? name = g'.scalar? name := by
    rcases type?_cases h name with he | ⟨o, o', ho, ho', -⟩
    · rw [scalar?, scalar?, he]
    · rw [scalar?, scalar?, ho, ho']
      rfl
  funext host
  simp only [scalarOf?, (TypeGraph.mk.inj h).2.2.2.1, hscalar]

theorem type?_eq (h : g.bare = g'.bare) {name : String} {node : TypeNode}
    (hnode : g.type? name = some node) (hobject : node.object? = none) :
    g'.type? name = some node := by
  rcases type?_cases h name with he | ⟨o, o', ho, -, -⟩
  · rw [← he, hnode]
  · cases hnode.symm.trans ho
    cases hobject

theorem exists_object (h : g.bare = g'.bare) {name : String} {o : ObjectType}
    (ho : g.type? name = some (.object o)) :
    ∃ o', g'.type? name = some (.object o') ∧ o.bare = o'.bare := by
  rcases type?_cases h name with he | ⟨other, o', hother, ho', hbare⟩
  · exact ⟨o, he ▸ ho, rfl⟩
  · cases ho.symm.trans hother
    exact ⟨o', ho', hbare⟩

end TypeGraph

theorem ObjectType.map_property?_congr {o o' : ObjectType} (h : o.bare = o'.bare) (name : String) :
    (o.property? name).map Property.bare = (o'.property? name).map Property.bare := by
  have hfind (o : ObjectType) : (o.property? name).map Property.bare = o.bare.property? name := by
    rw [property?, property?, bare, List.find?_map]
    rfl
  rw [hfind, h, hfind]

/-- Two scopes that differ in the pointers of their graphs at most. -/
structure Scope.SameBare (scope scope' : Scope) : Prop where
  graph : scope.graph.bare = scope'.graph.bare
  document : scope.document = scope'.document
  values : scope.values = scope'.values
  context : scope.context = scope'.context

namespace Scope

variable {scope scope' : Scope}

namespace SameBare

variable (h : scope.SameBare scope')

include h

theorem collect {object object' : ObjectType} (hobject : object.bare = object'.bare)
    (L : List Selection) : scope.collect object L = scope'.collect object' L := by
  have happlies (condition : String) :
      scope.applies condition object = scope'.applies condition object' := by
    rw [applies, applies, TypeGraph.union?_congr h.graph, (ObjectType.mk.inj hobject).1]
  exact collect_congr (congrArg Document.fragments h.document) h.values happlies L

theorem argumentsOf {object object' : ObjectType} (hobject : object.bare = object'.bare)
    {p p' : Property} (hp : p.bare = p'.bare) (arguments : List (String × Literal)) :
    scope.argumentsOf object p arguments = scope'.argumentsOf object' p' arguments := by
  have hargument (name : String) : p.argument? name = p'.argument? name := by
    rw [Property.argument?, Property.argument?, (Property.mk.inj hp).2.2.2.2.1]
  induction arguments with
  | nil => rfl
  | cons a rest ih =>
    obtain ⟨name, value⟩ := a
    rw [Scope.argumentsOf, Scope.argumentsOf, hargument, ih, h.values, (Property.mk.inj hp).1,
      (ObjectType.mk.inj hobject).1]

end SameBare

end Scope

/-! ### Plans of typed values -/

namespace Universe

/-- Two planners lay out in the same way what is typed in the graph of a scope. -/
def PlansAlike (u : Universe) (scope : Scope) (plan plan' : ObjectPlanner) : Prop :=
  ∀ {name : String} {object object' : ObjectType} {parent : Option Erased}
    (selections : List Selection) (path : Path) (nullable : Bool),
    scope.graph.type? name = some (.object object) → object.bare = object'.bare →
    u.Holds object.host parent →
    (plan object parent selections path nullable).Same
      (plan' object' parent selections path nullable)

section

variable {u : Universe} {scope scope' : Scope} {plan plan' : ObjectPlanner}
  {selections : List Selection} {location : Position}

theorem same_completeSingle (hg : u.Types scope.graph) (h : scope.SameBare scope')
    (hplan : u.PlansAlike scope plan plan') {name : String} {nonNull : Bool} {host : HostType}
    {v : HostValue} (hv : u.HasType host v) (hcompletes : Completes scope.graph name host)
    (path : Path) :
    (scope.completeSingle plan selections location (.named name nonNull) name ⟨host, v⟩ path).Same
      (scope'.completeSingle plan' selections location (.named name nonNull) name ⟨host, v⟩
        path) := by
  have hholds {object : ObjectType} (hhost : object.host = some host) :
      u.Holds object.host (some ⟨host, v⟩) := by
    intro other hother
    obtain rfl := Option.some.inj (hhost.symm.trans hother)
    exact ⟨v, rfl, hv⟩
  rw [Scope.completeSingle, Scope.completeSingle]
  cases hcompletes with
  | scalar htype | enumeration htype =>
    rw [htype, TypeGraph.type?_eq h.graph htype rfl]
    exact .refl _
  | object htype hhost =>
    obtain ⟨object', htype', hbare⟩ := TypeGraph.exists_object h.graph htype
    rw [htype, htype']
    exact hplan _ _ _ htype hbare (hholds hhost)
  | @union t htype =>
    rw [htype, TypeGraph.type?_eq h.graph htype rfl]
    dsimp only
    cases hmember : t.member? host with
    | none => exact .refl _
    | some member =>
      obtain ⟨object, hobject, hhost⟩ := hg.members htype hmember
      obtain ⟨object', hobject', hbare⟩ := TypeGraph.exists_object h.graph hobject
      simp only [Option.bind_some, hobject, hobject', TypeNode.object?]
      exact hplan _ _ _ hobject hbare (hholds hhost)

mutual

/-- An output that fits a description is completed in the same way. -/
theorem same_complete (hg : u.Types scope.graph) (h : scope.SameBare scope')
    (hplan : u.PlansAlike scope plan plan') {name : String} :
    ∀ {output : Output} {ref : TypeRef}, u.Presents ref output →
      scope.graph.ShowsAs ref.innermost name → ∀ path,
      (scope.complete plan selections location output (ref.literal name) path).Same
        (scope'.complete plan' selections location output (ref.literal name) path)
  | .null, _, _, _, _ => by
    rw [Scope.complete, Scope.complete]
    exact .refl _
  | .list items, ref, houtput, hname, path => by
    rcases houtput.of_list hname with ⟨inner, nonNull, hliteral, hinner, hitems⟩ |
      ⟨nonNull, t, hliteral, -⟩
    · rw [hliteral, Scope.complete, Scope.complete]
      exact .together _ (same_completeItems hg h hplan hitems (hinner ▸ hname) path 0)
    · rw [hliteral, Scope.complete, Scope.complete]
      exact .refl _
  | .single host v, ref, houtput, hname, path => by
    obtain ⟨hv, hcompletes, nonNull, hliteral⟩ := houtput.of_single hname
    rw [hliteral, Scope.complete, Scope.complete]
    exact same_completeSingle hg h hplan hv hcompletes path

theorem same_completeItems (hg : u.Types scope.graph) (h : scope.SameBare scope')
    (hplan : u.PlansAlike scope plan plan') {name : String} :
    ∀ {items : List Output} {ref : TypeRef}, (∀ item ∈ items, u.Presents ref item) →
      scope.graph.ShowsAs ref.innermost name → ∀ path i,
      List.Forall₂ Plan.Same
        (scope.completeItems plan selections location items (ref.literal name) path i)
        (scope'.completeItems plan' selections location items (ref.literal name) path i)
  | [], _, _, _, _, _ => by
    rw [Scope.completeItems, Scope.completeItems]
    exact .nil
  | item :: items, ref, hitems, hname, path, i => by
    rw [List.forall_mem_cons] at hitems
    rw [Scope.completeItems, Scope.completeItems]
    exact .cons (same_complete hg h hplan hitems.1 hname _)
      (same_completeItems hg h hplan hitems.2 hname path (i + 1))

end

theorem Maps.exists_recover (hu : u.Genuine) {ref : TypeRef} {t : Transformation}
    (ht : u.Maps ref t) {output : Output} (houtput : u.Presents ref output) :
    ∃ v, t.recover output = some v := by
  cases ht with
  | mapping m href =>
    subst href
    obtain ⟨v, hv, -⟩ := houtput.exists_recover hu
    exact ⟨v, hv⟩

/-- Transformations do the same to what fits the description that they map. -/
theorem same_transformAll (hu : u.Genuine) (hg : u.Types scope.graph) (h : scope.SameBare scope')
    (hplan : u.PlansAlike scope plan plan') {ref : TypeRef} {name : String}
    (hname : scope.graph.ShowsAs ref.innermost name) (provided : List (String × Literal))
    (path : Path) (fail : CallError → Plan) {transformations transformations' : List Transformation}
    (hbare : transformations.map Transformation.bare = transformations'.map Transformation.bare)
    (hmaps : ∀ t ∈ transformations, u.Maps ref t) {output : Output}
    (houtput : u.Presents ref output) (i : Nat) :
    (scope.transformAll provided path fail
      (fun output => scope.complete plan selections location output (ref.literal name) path)
      i transformations output).Same
    (scope'.transformAll provided path fail
      (fun output => scope'.complete plan' selections location output (ref.literal name) path)
      i transformations' output) := by
  rw [map_eq_map_iff_forall₂] at hbare
  induction hbare generalizing i output with
  | nil => exact same_complete hg h hplan houtput hname path
  | @cons t t' rest rest' ht _ ih =>
    rw [List.forall_mem_cons] at hmaps
    obtain ⟨v, hv⟩ := hmaps.1.exists_recover hu houtput
    rw [Scope.transformAll, Scope.transformAll, ← h.context, ← TypeGraph.scalarOf?_congr h.graph,
      ← Transformation.transform_congr ht hv]
    rcases hmaps.1.transform hu provided scope.graph.scalarOf? scope.context
      (isOutput_of_showsAs hname) houtput with
      ⟨argument, e, he⟩ | ⟨e, he, -⟩ | ⟨next, hnext, hpresents⟩
    · rw [he]
      exact .refl _
    · rw [he]
      exact .refl _
    · rw [hnext]
      exact (ih hmaps.2 hpresents (i + 1)).transformed path i

/-- The field of a property is planned in the same way. -/
theorem same_planProperty (hu : u.Genuine) (hg : u.Types scope.graph) (h : scope.SameBare scope')
    (hplan : u.PlansAlike scope plan plan') {object object' : ObjectType}
    (hobject : object.bare = object'.bare) {parent : Option Erased}
    (hparent : u.Holds object.host parent) (group : FieldGroup) (path : Path) {p p' : Property}
    (hbare : p.bare = p'.bare) (hp : u.Serves object.host p)
    (hshows : scope.graph.Shows p.resolver.returns p.type) :
    (scope.planProperty plan object parent group path p).Same
      (scope'.planProperty plan' object' parent group path p') := by
  obtain ⟨-, -, -, htype, -, -, hresolver, htransformations⟩ := Property.mk.inj hbare
  obtain ⟨name, hliteral, hname⟩ := hshows
  obtain ⟨t, ht⟩ := hp.resolves
  have hreturns := ht.returns
  rw [Scope.planProperty, Scope.planProperty, ← h.argumentsOf hobject hbare, ← htype,
    ← Resolver.start_congr hresolver, ← Resolver.mode_congr hresolver, ← h.context,
    ← TypeGraph.scalarOf?_congr h.graph]
  dsimp only
  split
  · exact .refl _
  · rename_i arguments harguments
    rcases ht.start hu (Entries.ofPairs arguments) scope.graph.scalarOf? scope.context
      (hreturns ▸ isOutput_of_showsAs hname) hparent with
      ⟨argument, e, he⟩ | ⟨action, haction, hends⟩
    · rw [he]
      exact .refl _
    · rw [haction]
      refine .invoke path _ fun journal ending hperform => ?_
      rcases hends journal ending hperform with ⟨output, houtput, hpresents⟩ | ⟨e, he, -⟩
      · rw [houtput, hliteral]
        exact same_transformAll hu hg h hplan hname _ path _ htransformations hp.maps
          (hreturns ▸ hpresents) 0
      · rw [he]
        exact .refl _

theorem same_planGroup (hu : u.Genuine) (hg : u.Types scope.graph) (h : scope.SameBare scope')
    (hplan : u.PlansAlike scope plan plan') {name : String} {object object' : ObjectType}
    (hnode : scope.graph.type? name = some (.object object)) (hobject : object.bare = object'.bare)
    {parent : Option Erased} (hparent : u.Holds object.host parent) (path : Path)
    (group : FieldGroup) :
    (scope.planGroup plan object parent path group).Same
      (scope'.planGroup plan' object' parent path group) := by
  rw [Scope.planGroup, Scope.planGroup, (ObjectType.mk.inj hobject).1]
  split
  · exact .refl _
  · rcases none_or_some_of_map_eq (object.map_property?_congr hobject group.first.name) with
      ⟨hnone, hnone'⟩ | ⟨p, p', hproperty, hproperty', hbare⟩
    · rw [hnone, hnone']
      exact .refl _
    · obtain ⟨hserves, hshows⟩ := hg.properties hnode p (List.mem_of_find?_eq_some hproperty)
      rw [hproperty, hproperty']
      exact same_planProperty hu hg h hplan hobject hparent group _ hbare hserves hshows

/-- Objects are laid out in the same way for values of their host types, however deep inside each
other. -/
theorem plansAlike_planObject (hu : u.Genuine) (hg : u.Types scope.graph)
    (h : scope.SameBare scope') (depth : Nat) :
    u.PlansAlike scope (scope.planObject depth) (scope'.planObject depth) := by
  induction depth with
  | zero => exact fun _ _ _ _ _ _ => .refl _
  | succ depth ih =>
    intro name object object' parent selections path nullable hnode hobject hparent
    rw [Scope.planObject, Scope.planObject, ← h.collect hobject]
    refine .reportAll _ (.together _ ?_)
    rw [List.forall₂_map_left_iff, List.forall₂_map_right_iff]
    exact List.forall₂_same.mpr fun group _ =>
      same_planGroup hu hg h ih hnode hobject hparent path group

end

end Universe

end Trellis
