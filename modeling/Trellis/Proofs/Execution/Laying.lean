import Mathlib.Data.List.Nodup
import Trellis.Execution.Request
import Trellis.Proofs.Execution.Collecting
import Trellis.Proofs.Execution.Steadiness
import Trellis.Proofs.Execution.Territory

/-!
The plans of a request keep to their paths.

A field has the path of its response key, and an element the path of its index. As response keys are
collected once each, no two parts of a response share a path, so the plan of an object fits to its
path. Its calls are calls of resolvers of the schema.
-/

namespace Trellis

open Document

/-- Whatever a resolver is called with, what it does is of some kind. -/
def Resolver.Does (r : Resolver) (call : Action → Prop) : Prop :=
  ∀ parent bounds, call (Resolver.call r.behaviour parent bounds)

/-- All resolvers of an object do what is of some kind. -/
def ObjectType.Does (o : ObjectType) (call : Action → Prop) : Prop :=
  ∀ p ∈ o.properties, p.resolver.Does call

/-- All resolvers of a schema do what is of some kind. -/
def TypeGraph.Does (g : TypeGraph) (call : Action → Prop) : Prop :=
  ∀ name object, g.type? name = some (.object object) → object.Does call

/-- All resolvers of a schema are functions of what they are called with. -/
def TypeGraph.Steady (g : TypeGraph) : Prop := g.Does Action.Steady

theorem ObjectType.does_anything (o : ObjectType) : o.Does fun _ => True :=
  fun _ _ _ _ => trivial

theorem TypeGraph.does_anything (g : TypeGraph) : g.Does fun _ => True :=
  fun _ object _ => object.does_anything

theorem Resolver.Does.start {r : Resolver} {call : Action → Prop} (h : r.Does call)
    {parent : Option Erased} {provided : List (String × Literal)} {table : ScalarTable}
    {context : Context} {action : Action} (hs : r.start parent provided table context = .ok action) :
    call action := by
  rw [Resolver.start] at hs
  cases hb : r.parameters.bind provided table context with
  | error e => simp [hb, bind, Except.bind] at hs
  | ok bounds =>
    simp only [hb, bind, Except.bind, pure, Except.pure, Except.ok.injEq] at hs
    exact hs ▸ h parent bounds

namespace Plan

variable {call : Action → Prop}

mutual

/-- A plan that fits somewhere with steady calls is steady. -/
theorem Fits.steady : ∀ {plan : Plan} {p : Path} {taken : List Mark},
    plan.Fits Action.Steady p taken → plan.Steady
  | .done _, _, _, _ | .unfinished, _, _, _ => trivial
  | .report _ _, _, _, h => h.2.2.steady
  | .invoke _ _ _ _, _, _, h => ⟨h.2.2.1, fun answer => (h.2.2.2 answer).steady⟩
  | .transformed _ _ _, _, _, h => h.2.2.steady
  | .together _ _, _, _, ⟨_, _, h⟩ => h.steady

theorem AllFit.steady : ∀ {parts : List Plan} {p : Path} {steps : List PathSegment},
    AllFit Action.Steady parts p steps → AllSteady parts
  | [], _, _, _ => trivial
  | _ :: _, _, _, ⟨_, _, _, hpart, hparts⟩ => ⟨hpart.steady, hparts.steady⟩

end

/-- No error was reported among the events that took place. -/
def Silent (taken : List Mark) : Prop := ∀ message, Mark.reported message ∉ taken

theorem silent_nil : Silent [] := fun _ => List.not_mem_nil

theorem Silent.answered {taken : List Mark} (h : Silent taken) : Silent (.answered :: taken) := by
  intro message hmem
  rcases List.mem_cons.mp hmem with he | hin
  · cases he
  · exact h message hin

theorem Silent.transformed {taken : List Mark} (h : Silent taken) (index : Nat) :
    Silent (.transformed index :: taken) := by
  intro message hmem
  rcases List.mem_cons.mp hmem with he | hin
  · cases he
  · exact h message hin

theorem fits_fail {taken : List Mark} (h : Silent taken) (type : TypeLiteral)
    (location : Position) (path : Path) (error : FieldError) (kind : ErrorKind) :
    (Plan.fail type location path error kind).Fits call path taken :=
  ⟨rfl, h _, trivial⟩

/-- Errors with different messages may be reported at one path before a gathering. -/
theorem fits_reportAll {errors : List ExecutionError} {rest : Plan} {p : Path} {taken : List Mark}
    (hpath : ∀ e ∈ errors, e.path = p) (hnodup : (errors.map (·.error.message)).Nodup)
    (hnew : ∀ e ∈ errors, Mark.reported e.error.message ∉ taken)
    (hrest : ∀ taken, rest.Fits call p taken) : (reportAll errors rest).Fits call p taken := by
  induction errors generalizing taken with
  | nil => exact hrest taken
  | cons e errors ih =>
    rw [List.map_cons, List.nodup_cons] at hnodup
    refine ⟨hpath e List.mem_cons_self, hnew e List.mem_cons_self, ?_⟩
    apply ih (fun other hother => hpath other (List.mem_cons_of_mem _ hother)) hnodup.2
    intro other hother hmem
    rcases List.mem_cons.mp hmem with he | hin
    · apply hnodup.1
      rw [← Mark.reported.inj he]
      exact List.mem_map_of_mem hother
    · exact hnew other (List.mem_cons_of_mem _ hother) hin

theorem allFit_map {α : Type} {parts : List α} {plan : α → Plan} {step : α → PathSegment} {p : Path}
    (h : ∀ part ∈ parts, (plan part).Fits call (p ++ [step part]) []) :
    AllFit call (parts.map plan) p (parts.map step) := by
  induction parts with
  | nil => rfl
  | cons part parts ih =>
    exact ⟨step part, parts.map step, rfl, h part List.mem_cons_self,
      ih fun other hother => h other (List.mem_cons_of_mem _ hother)⟩

end Plan

namespace Scope

open Plan

variable {scope : Scope} {call : Action → Prop}

/-- A planner of objects whose plans fit to their paths. -/
def FittingPlanner (call : Action → Prop) (plan : ObjectPlanner) : Prop :=
  ∀ object parent selections path nullable taken, object.Does call → Silent taken →
    (plan object parent selections path nullable).Fits call path taken

variable {plan : ObjectPlanner}

theorem fits_completeSingle (hg : scope.graph.Does call) (hplan : FittingPlanner call plan)
    {taken : List Mark} (ht : Silent taken) (selections : List Selection) (location : Position)
    (type : TypeLiteral) (name : String) (value : Erased) (path : Path) :
    (scope.completeSingle plan selections location type name value path).Fits call path taken := by
  rw [completeSingle]
  split
  · split
    · trivial
    · exact fits_fail ht ..
  · split
    · trivial
    · exact fits_fail ht ..
  · rename_i object hobject
    exact hplan _ _ _ _ _ _ (hg name object hobject) ht
  · dsimp only
    split
    · rename_i object hmember
      obtain ⟨member, -, htype⟩ := Option.bind_eq_some_iff.mp hmember
      obtain ⟨node, hnode, hobject⟩ := Option.bind_eq_some_iff.mp htype
      cases node <;> cases hobject
      exact hplan _ _ _ _ _ _ (hg member object hnode) ht
    · exact fits_fail ht ..
  · exact fits_fail ht ..
  · exact fits_fail ht ..

mutual

theorem fits_complete (hg : scope.graph.Does call) (hplan : FittingPlanner call plan)
    (selections : List Selection) (location : Position) :
    ∀ (output : Output) (type : TypeLiteral) (path : Path) {taken : List Mark}, Silent taken →
      (scope.complete plan selections location output type path).Fits call path taken
  | .null, type, path, taken, ht => by
    rw [complete]
    split
    · exact fits_fail ht ..
    · trivial
  | .list items, .list inner nonNull, path, taken, _ => by
    rw [complete]
    refine ⟨(List.range' 0 items.length).map .index, ?_, fits_completeItems hg hplan _ _ _ _ _ 0⟩
    exact List.Nodup.map (fun i j hij => PathSegment.index.inj hij) List.nodup_range'
  | .list items, .named name nonNull, path, taken, ht => by
    rw [complete]
    exact fits_fail ht ..
  | .single host value, .list inner nonNull, path, taken, ht => by
    rw [complete]
    exact fits_fail ht ..
  | .single host value, .named name nonNull, path, taken, ht => by
    rw [complete]
    exact fits_completeSingle hg hplan ht ..

theorem fits_completeItems (hg : scope.graph.Does call) (hplan : FittingPlanner call plan)
    (selections : List Selection) (location : Position) :
    ∀ (items : List Output) (type : TypeLiteral) (path : Path) (i : Nat),
      AllFit call (scope.completeItems plan selections location items type path i) path
        ((List.range' i items.length).map .index)
  | [], _, _, _ => by rw [completeItems]; rfl
  | item :: items, type, path, i => by
    rw [completeItems]
    exact ⟨.index i, (List.range' (i + 1) items.length).map .index, rfl,
      fits_complete hg hplan selections location item type _ silent_nil,
      fits_completeItems hg hplan selections location items type path (i + 1)⟩

end

/-- Transformations of a field are counted from an index on, so none is marked twice. -/
theorem fits_transformAll {provided : List (String × Literal)} {path : Path}
    {fail : CallError → Plan} {complete : Output → Plan}
    (hfail : ∀ e taken, Silent taken → (fail e).Fits call path taken)
    (hcomplete : ∀ output taken, Silent taken → (complete output).Fits call path taken)
    (transformations : List Transformation) {i : Nat} (output : Output) {taken : List Mark}
    (hfresh : ∀ j, i ≤ j → Mark.transformed j ∉ taken) (ht : Silent taken) :
    (scope.transformAll provided path fail complete i transformations output).Fits call path
      taken := by
  induction transformations generalizing i output taken with
  | nil => exact hcomplete output taken ht
  | cons t rest ih =>
    have hnew : Mark.transformed i ∉ taken := hfresh i (Nat.le_refl i)
    rw [transformAll]
    split
    · exact hfail _ _ ht
    · exact ⟨rfl, hnew, hfail _ _ (ht.transformed i)⟩
    · refine ⟨rfl, hnew, ih _ (fun j hj hmem => ?_) (ht.transformed i)⟩
      rcases List.mem_cons.mp hmem with he | hin
      · have hji : j = i := Mark.transformed.inj he
        omega
      · exact hfresh j (by omega) hin

theorem fits_planProperty (hg : scope.graph.Does call) (hplan : FittingPlanner call plan)
    {object : ObjectType} {property : Property} (hproperty : property.resolver.Does call)
    (parent : Option Erased) (group : FieldGroup) (path : Path) :
    (scope.planProperty plan object parent group path property).Fits call path [] := by
  rw [planProperty]
  dsimp only
  split
  · exact fits_fail silent_nil ..
  · split
    · exact fits_fail silent_nil ..
    · rename_i action haction
      refine ⟨rfl, List.not_mem_nil, hproperty.start haction, fun answer => ?_⟩
      have hsilent := silent_nil.answered
      cases answer with
      | error e => exact fits_fail hsilent ..
      | ok output =>
        apply fits_transformAll
        · exact fun e taken ht => fits_fail ht ..
        · exact fun output taken ht => fits_complete hg hplan _ _ output _ path ht
        · simp
        · exact hsilent

theorem fits_planGroup (hg : scope.graph.Does call) (hplan : FittingPlanner call plan)
    {object : ObjectType} (hobject : object.Does call) (parent : Option Erased) (path : Path)
    (group : FieldGroup) :
    (scope.planGroup plan object parent path group).Fits call (path ++ [.field group.key]) [] := by
  rw [planGroup]
  split
  · trivial
  · split
    · rename_i property hproperty
      exact fits_planProperty hg hplan (hobject property (List.mem_of_find?_eq_some hproperty)) ..
    · exact ⟨rfl, List.not_mem_nil, trivial⟩

theorem nodup_missingFragment {c : Collected} (h : c.Tidy) (path : Path) :
    ((c.missing.map (missingFragment path)).map (·.error.message)).Nodup := by
  rw [List.map_map]
  have hmap : c.missing.map ((·.error.message) ∘ missingFragment path) =
      (c.missing.map (·.2)).map fun name => s!"Unknown fragment \"{name}\"" := by
    rw [List.map_map]
    rfl
  rw [hmap]
  apply List.Nodup.map _ h.missing
  intro a b hab
  have htext : "Unknown fragment \"" ++ a ++ "\"" = "Unknown fragment \"" ++ b ++ "\"" := hab
  simpa using htext

theorem nodup_steps {c : Collected} (h : c.Tidy) :
    (c.groups.map fun group => PathSegment.field group.key).Nodup := by
  have hkeys := List.Nodup.map (fun a b hab => PathSegment.field.inj hab) h.keys
  rwa [Collected.keys, List.map_map] at hkeys

theorem allFit_groups (hg : scope.graph.Does call) (hplan : FittingPlanner call plan)
    {object : ObjectType} (hobject : object.Does call) (parent : Option Erased)
    (groups : List FieldGroup) (path : Path) :
    AllFit call (groups.map (scope.planGroup plan object parent path)) path
      (groups.map fun group => .field group.key) :=
  allFit_map fun group _ => fits_planGroup hg hplan hobject parent path group

/-- What is laid out for collected fields fits to the path of their object. -/
theorem fits_groups (hg : scope.graph.Does call) (hplan : FittingPlanner call plan)
    {object : ObjectType} (hobject : object.Does call) (parent : Option Erased)
    {c : Collected} (hc : c.Tidy) (path : Path) (frame : Frame) {taken : List Mark}
    (ht : Silent taken) :
    (reportAll (c.missing.map (missingFragment path)) (.together frame
      (c.groups.map (scope.planGroup plan object parent path)))).Fits call path taken := by
  apply fits_reportAll
  · intro e he
    obtain ⟨spread, -, rfl⟩ := List.mem_map.mp he
    rfl
  · exact nodup_missingFragment hc path
  · exact fun e _ => ht _
  · exact fun taken => ⟨_, nodup_steps hc, allFit_groups hg hplan hobject parent c.groups path⟩

theorem fits_planObject (hg : scope.graph.Does call) (depth : Nat) :
    FittingPlanner call (scope.planObject depth) := by
  induction depth with
  | zero => exact fun _ _ _ _ _ _ _ _ => trivial
  | succ depth ih =>
    intro object parent selections path nullable taken hobject ht
    exact fits_groups hg ih hobject parent (scope.tidy_collect object selections) path _ ht

end Scope

namespace Agenda

def plan (a : Agenda) : Plan :=
  Plan.reportAll a.errors (.together ⟨.object a.keys, true⟩ a.parts)

theorem settles_reportAll {errors : List ExecutionError} {rest : Plan} {s : Settled}
    (h : rest.Settles s) : (Plan.reportAll errors rest).Settles (s.after (errors.map .reported)) := by
  induction errors with
  | nil => exact h
  | cons e errors ih => exact ⟨_, ih, rfl⟩

theorem Reaches.settles {a : Agenda} {log : List Event} {result : Option Value}
    (h : a.Reaches log (.ended result)) :
    ∃ s, a.plan.Settles s ∧ s.result = result ∧ s.events.Perm log := by
  obtain ⟨rest, hrun, rfl⟩ := h
  obtain ⟨s, hs, hresult, hevents⟩ := Job.settles_of_ended hrun a.orderly_start
  exact ⟨_, settles_reportAll (settles_start.mp hs), hresult, hevents.append_left _⟩

end Agenda

end Trellis
