import Trellis.Proofs.Execution.Laying

/-!
Laying out deeper keeps what was settled.

What a plan settles to does not depend on how deep objects are laid out inside each other, once they
are laid out deep enough: of a plan that is laid out deeper, whatever its calls answer, at least as
much comes to an end, and it comes to the same.
-/

namespace Trellis

open Document

namespace Plan

/-- Whatever a plan settles to, another one settles to as well. -/
def Below (plan plan' : Plan) : Prop := ∀ s, plan.Settles s → plan'.Settles s

variable {plan plan' : Plan}

theorem Below.refl (plan : Plan) : plan.Below plan := fun _ h => h

theorem Below.report (h : plan.Below plan') (error : ExecutionError) :
    (Plan.report error plan).Below (.report error plan') := by
  rintro _ ⟨t, ht, rfl⟩
  exact ⟨t, h t ht, rfl⟩

theorem Below.reportAll (h : plan.Below plan') (errors : List ExecutionError) :
    (Plan.reportAll errors plan).Below (.reportAll errors plan') := by
  induction errors with
  | nil => exact h
  | cons e errors ih => exact ih.report e

theorem Below.transformed (h : plan.Below plan') (path : Path) (index : Nat) :
    (Plan.transformed path index plan).Below (.transformed path index plan') := by
  rintro _ ⟨t, ht, rfl⟩
  exact ⟨t, h t ht, rfl⟩

theorem below_invoke {next next' : Except FieldError Output → Plan}
    (h : ∀ answer, (next answer).Below (next' answer)) (path : Path) (mode : ResolverMode)
    (action : Action) : (Plan.invoke path mode action next).Below (.invoke path mode action next') := by
  rintro _ ⟨journal, ending, t, hp, ht, rfl⟩
  exact ⟨journal, ending, t, hp, h _ t ht, rfl⟩

theorem below_together {parts parts' : List Plan} (h : List.Forall₂ Below parts parts')
    (frame : Frame) : (Plan.together frame parts).Below (.together frame parts') := by
  intro s hs
  obtain ⟨each, heach, rfl⟩ := settles_together.mp hs
  refine settles_together.mpr ⟨each, ?_, by rw [h.length_eq]⟩
  clear hs
  induction h generalizing each with
  | nil => exact heach
  | cons hpart _ ih =>
    cases heach with
    | cons hs hrest => exact .cons (hpart _ hs) (ih _ hrest)

end Plan

namespace Scope

open Plan

/-- Every object that some planner lays out settles as well as another one lays it out. -/
def Deepens (plan plan' : ObjectPlanner) : Prop :=
  ∀ object parent selections path nullable,
    (plan object parent selections path nullable).Below (plan' object parent selections path nullable)

variable {scope : Scope} {plan plan' : ObjectPlanner}

theorem Deepens.completeSingle (h : Deepens plan plan') (selections : List Selection)
    (location : Position) (type : TypeLiteral) (name : String) (value : Erased) (path : Path) :
    (scope.completeSingle plan selections location type name value path).Below
      (scope.completeSingle plan' selections location type name value path) := by
  rw [Scope.completeSingle, Scope.completeSingle]
  cases scope.graph.type? name with
  | none => exact .refl _
  | some node =>
    cases node with
    | scalar | enumeration | inputObject => exact .refl _
    | object object => exact h object _ selections path _
    | union u =>
      dsimp only
      cases (u.member? value.host).bind fun m => (scope.graph.type? m).bind TypeNode.object? with
      | none => exact .refl _
      | some object => exact h object _ selections path _

mutual

theorem Deepens.complete (h : Deepens plan plan') (selections : List Selection)
    (location : Position) : ∀ (output : Output) (type : TypeLiteral) (path : Path),
      (scope.complete plan selections location output type path).Below
        (scope.complete plan' selections location output type path)
  | .null, _, _ => by
    rw [Scope.complete, Scope.complete]
    exact .refl _
  | .list items, .list inner _, path => by
    rw [Scope.complete, Scope.complete]
    exact below_together (h.completeItems selections location items inner path 0) _
  | .list _, .named .., _ | .single .., .list .., _ => by
    rw [Scope.complete, Scope.complete]
    exact .refl _
  | .single .., .named .., _ => by
    rw [Scope.complete, Scope.complete]
    exact h.completeSingle _ _ _ _ _ _

theorem Deepens.completeItems (h : Deepens plan plan') (selections : List Selection)
    (location : Position) : ∀ (items : List Output) (type : TypeLiteral) (path : Path) (i : Nat),
      List.Forall₂ Below (scope.completeItems plan selections location items type path i)
        (scope.completeItems plan' selections location items type path i)
  | [], _, _, _ => by
    rw [Scope.completeItems, Scope.completeItems]
    exact .nil
  | item :: items, type, path, i => by
    rw [Scope.completeItems, Scope.completeItems]
    exact .cons (h.complete selections location item type _)
      (h.completeItems selections location items type path (i + 1))

end

theorem below_transformAll {provided : List (String × Literal)} {path : Path}
    {fail : CallError → Plan} {complete complete' : Output → Plan}
    (h : ∀ output, (complete output).Below (complete' output))
    (transformations : List Transformation) (i : Nat) (output : Output) :
    (scope.transformAll provided path fail complete i transformations output).Below
      (scope.transformAll provided path fail complete' i transformations output) := by
  induction transformations generalizing i output with
  | nil => exact h output
  | cons t rest ih =>
    rw [transformAll, transformAll]
    split
    · exact .refl _
    · exact .refl _
    · exact (ih (i + 1) _).transformed path i

theorem Deepens.planGroup (h : Deepens plan plan') (object : ObjectType) (parent : Option Erased)
    (path : Path) (group : FieldGroup) : (scope.planGroup plan object parent path group).Below
      (scope.planGroup plan' object parent path group) := by
  rw [Scope.planGroup, Scope.planGroup]
  split
  · exact .refl _
  · split
    · rw [planProperty, planProperty]
      dsimp only
      split
      · exact .refl _
      · split
        · exact .refl _
        · refine below_invoke (fun answer => ?_) _ _ _
          cases answer with
          | error e => exact .refl _
          | ok output => exact below_transformAll (fun output => h.complete _ _ output _ _) _ 0 output
    · exact .refl _

theorem deepens_succ (depth : Nat) :
    Deepens (scope.planObject depth) (scope.planObject (depth + 1)) := by
  induction depth with
  | zero => exact fun _ _ _ _ _ _ hs => hs.elim
  | succ depth ih =>
    intro object parent selections path nullable
    rw [planObject, planObject]
    refine Below.reportAll (below_together ?_ _) _
    rw [List.forall₂_map_left_iff, List.forall₂_map_right_iff, List.forall₂_same]
    exact fun group _ => ih.planGroup object parent path group

theorem deepens_of_le {depth deeper : Nat} (h : depth ≤ deeper) :
    Deepens (scope.planObject depth) (scope.planObject deeper) := by
  induction h with
  | refl => exact fun _ _ _ _ _ => .refl _
  | @step deeper _ ih =>
    exact fun object parent selections path nullable s hs =>
      deepens_succ deeper object parent selections path nullable s
        (ih object parent selections path nullable s hs)

end Scope

end Trellis
