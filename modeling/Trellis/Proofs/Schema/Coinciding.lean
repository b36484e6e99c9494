import Trellis.Proofs.Schema.Exploration

/-!
Registrations that coincide.

Two catalogues may differ in what no walk looks at: in the fields that an object ignores. A step over
the one and the same step over the other come to the same result or to the same error, whatever was
met before, as long as host types that were not met still have the declarations that customize them.
-/

namespace Trellis

namespace Declarations

variable (d : Declarations)

/-- Host types that are not entered still have the declarations that customize them, and no other
declarations are left. -/
structure Intact (r : Registry) : Prop extends d.Unspent r where
  typeDeclarations : r.typeDeclarations ⊆ d.types
  enumDeclarations : r.enumDeclarations ⊆ d.enums

/-- Two catalogues look alike: in all that an object that can be reached does not ignore, and in all
input objects. -/
structure LooksAlike (c c' : Catalogue) : Prop where
  names : ∀ outline, (c'.object outline).name = (c.object outline).name
  fields : ∀ outline,
    (c'.object outline).fields.map (·.name) = (c.object outline).fields.map (·.name)
  shown : ∀ host outline, d.Reaches c (fun _ => True) (.object host outline) →
    (c'.object outline).fields.filter (·.name ∉ (d.customization host outline).ignored) =
      (c.object outline).fields.filter (·.name ∉ (d.customization host outline).ignored)
  inputs : ∀ outline, c'.input outline = c.input outline

end Declarations

namespace Registering

open Declarations

variable {d : Declarations} {α β : Type} {r s : Registry}

/-- Two steps come to the same from a registry, and leave declarations intact. -/
structure CoincideAt (d : Declarations) (r : Registry) (op op' : Registering α) : Prop where
  same : op.run r = op'.run r
  keeps : ∀ a s, Runs op r a s → d.Intact s

/-- Two steps come to the same wherever declarations are intact. -/
def Coincide (d : Declarations) (op op' : Registering α) : Prop :=
  ∀ r, d.Intact r → CoincideAt d r op op'

theorem CoincideAt.bind {op op' : Registering α} {next next' : α → Registering β}
    (h : CoincideAt d r op op') (hnext : ∀ a s, Runs op r a s → d.Intact s →
      CoincideAt d s (next a) (next' a)) : CoincideAt d r (op >>= next) (op' >>= next') := by
  constructor
  · rw [StateT.run_bind, StateT.run_bind, ← h.same]
    cases hop : op.run r with
    | error stop => rfl
    | ok done => exact (hnext done.1 done.2 hop (h.keeps done.1 done.2 hop)).same
  · intro b s hruns
    obtain ⟨a, t, hop, hrest⟩ := runs_bind.mp hruns
    exact (hnext a t hop (h.keeps a t hop)).keeps b s hrest

namespace Coincide

variable {op op' : Registering α}

theorem self (h : ∀ r a s, d.Intact r → Runs op r a s → d.Intact s) : Coincide d op op :=
  fun r hr => ⟨rfl, fun a s => h r a s hr⟩

theorem pure (a : α) : Coincide d (Pure.pure a) (Pure.pure a) := by
  refine self fun r b s hr hruns => ?_
  obtain ⟨-, rfl⟩ := runs_pure.mp hruns
  exact hr

theorem refuse (e : SchemaError) : Coincide d (Registering.refuse e : Registering α)
    (Registering.refuse e) :=
  self fun _ _ _ _ hruns => absurd hruns not_runs_refuse

theorem change {f : Registry → Registry} (h : ∀ r, d.Intact r → d.Intact (f r)) :
    Coincide d (modify f) (modify f) := by
  refine self fun r u s hr hruns => ?_
  obtain rfl := runs_modify.mp hruns
  exact h r hr

theorem bind {next next' : α → Registering β} (h : Coincide d op op')
    (hnext : ∀ a, Coincide d (next a) (next' a)) : Coincide d (op >>= next) (op' >>= next') :=
  fun r hr => (h r hr).bind fun a s _ hs => hnext a s hs

theorem get_bind {next next' : Registry → Registering α}
    (h : ∀ r, d.Intact r → CoincideAt d r (next r) (next' r)) :
    Coincide d (get >>= next) (get >>= next') := by
  intro r hr
  obtain ⟨hsame, hkeeps⟩ := h r hr
  exact ⟨hsame, fun a s hruns => hkeeps a s (runs_get_bind.mp hruns)⟩

theorem map (f : α → β) (h : Coincide d op op') : Coincide d (f <$> op) (f <$> op') := by
  rw [map_eq_pure_bind, map_eq_pure_bind]
  exact h.bind fun a => .pure (f a)

theorem optional {c : Prop} [Decidable c] {first first' : Registering Unit}
    (h : Coincide d first first') (hop : Coincide d op op') :
    Coincide d (if c then first >>= fun _ => op else op)
      (if c then first' >>= fun _ => op' else op') := by
  split
  · exact h.bind fun _ => hop
  · exact hop

theorem foldlM {f f' : β → α → Registering β} {items : List α}
    (h : ∀ item ∈ items, ∀ b, Coincide d (f b item) (f' b item)) (b : β) :
    Coincide d (items.foldlM f b) (items.foldlM f' b) := by
  induction items generalizing b with
  | nil => exact .pure b
  | cons item items ih =>
    rw [List.foldlM_cons, List.foldlM_cons]
    exact (h item List.mem_cons_self b).bind
      (ih fun other hmem => h other (List.mem_cons_of_mem _ hmem))

theorem mapM {f f' : α → Registering β} {items : List α}
    (h : ∀ item ∈ items, Coincide d (f item) (f' item)) :
    Coincide d (items.mapM f) (items.mapM f') := by
  induction items with
  | nil => exact .pure []
  | cons item items ih =>
    rw [List.mapM_cons, List.mapM_cons]
    exact (h item List.mem_cons_self).bind fun b =>
      (ih fun other hmem => h other (List.mem_cons_of_mem _ hmem)).bind fun _ => .pure _

theorem forM {f f' : α → Registering Unit} {items : List α}
    (h : ∀ item ∈ items, Coincide d (f item) (f' item)) :
    Coincide d (items.forM f) (items.forM f') := by
  induction items with
  | nil => exact .pure ()
  | cons item items ih =>
    exact (h item List.mem_cons_self).bind fun _ =>
      ih fun other hmem => h other (List.mem_cons_of_mem _ hmem)

end Coincide

/-! ### Names, scalars and enums -/

theorem coincide_reserve (name : String) : Coincide d (reserve name) (reserve name) := by
  refine .self fun r u s hr hruns => ?_
  obtain ⟨-, rfl⟩ := runs_reserve hruns
  exact ⟨⟨hr.types, hr.enums⟩, hr.typeDeclarations, hr.enumDeclarations⟩

theorem coincide_fill (node : TypeNode) : Coincide d (fill node) (fill node) :=
  .change fun _ hr => ⟨⟨hr.types, hr.enums⟩, hr.typeDeclarations, hr.enumDeclarations⟩

theorem coincide_scalarName (host : HostType) :
    Coincide d (scalarName host) (scalarName host) := by
  refine .get_bind fun r hr => ?_
  split
  · exact Coincide.pure _ r hr
  · exact Coincide.refuse _ r hr

theorem coincide_addScalar (scalar : ScalarType) :
    Coincide d (addScalar scalar) (addScalar scalar) := by
  refine .get_bind fun r hr => ?_
  split
  · exact Coincide.refuse _ r hr
  · refine (coincide_reserve scalar.name).bind (fun _ => Coincide.bind (.change fun s hs => ?_)
      fun _ => coincide_fill _) r hr
    exact ⟨⟨hs.types, hs.enums⟩, hs.typeDeclarations, hs.enumDeclarations⟩

theorem coincide_registerEnum (host : HostType) (shape : EnumShape) :
    Coincide d (registerEnum host shape) (registerEnum host shape) := by
  refine .self fun r name s hr hruns => ?_
  cases hmet : r.outputs.lookup host with
  | some found =>
    obtain ⟨-, rfl⟩ := (runs_registerEnum_met hmet).mp hruns
    exact hr
  | none =>
    obtain ⟨-, -, rfl⟩ := (runs_registerEnum hmet hr.toUnspent).mp hruns
    exact ⟨unspent_withEnum hr.toUnspent _, hr.typeDeclarations,
      List.Subset.trans (List.filter_subset_self _) hr.enumDeclarations⟩

/-! ### Arguments -/

variable {c c' : Catalogue} {depth : Nat}

theorem coincide_inputType {walk walk' : HostType → HostType → Registering String}
    (hwalk : ∀ host outline, Coincide d (walk host outline) (walk' host outline)) (ref : TypeRef) :
    Coincide d (inputType walk ref) (inputType walk' ref) := by
  induction ref with
  | nullable _ inner ih => exact .map _ ih
  | list _ inner ih => exact .map _ ih
  | scalar host => exact .map _ (coincide_scalarName host)
  | enumeration host shape => exact .map _ (coincide_registerEnum host shape)
  | inputObject host outline => exact .map _ (hwalk host outline)
  | object | union | function | generic => exact .refuse _

section

variable (h : d.LooksAlike c c')

include h

theorem coincide_registerInput (depth : Nat) (host outline : HostType) :
    Coincide d (registerInput c depth host outline) (registerInput c' depth host outline) := by
  induction depth generalizing host outline with
  | zero => exact .self fun _ _ _ _ hruns => absurd hruns not_runs_throw
  | succ depth ih =>
    refine .get_bind fun r hr => ?_
    rw [h.inputs outline]
    split
    · exact Coincide.pure _ r hr
    · refine (coincide_reserve _).bind (fun _ => Coincide.bind (.change fun s hs => ?_) fun _ =>
        Coincide.bind (.mapM fun field _ => ?_) fun _ => (coincide_fill _).bind fun _ => .pure _) r hr
      · exact ⟨⟨hs.types, hs.enums⟩, hs.typeDeclarations, hs.enumDeclarations⟩
      · exact (coincide_inputType ih field.type).bind fun _ => .pure _

theorem coincide_mergeArguments (owner property : String) (arguments : List Argument)
    (declared : List (String × TypeRef)) :
    Coincide d (mergeArguments c depth owner property arguments declared)
      (mergeArguments c' depth owner property arguments declared) := by
  induction declared generalizing arguments with
  | nil => exact .pure arguments
  | cons argument declared ih =>
    refine (coincide_inputType (coincide_registerInput h depth) argument.2).bind fun type => ?_
    split
    · exact ih _
    · split
      · exact ih _
      · exact .refuse _

theorem coincide_attach (owner : String) (declaration : TransformationDeclaration) (p : Property) :
    Coincide d (attach c depth owner declaration p) (attach c' depth owner declaration p) := by
  rw [attach, attach]
  split
  · exact .refuse _
  · split
    · exact .refuse _
    · dsimp only
      split
      · exact .refuse _
      · exact (coincide_mergeArguments h owner _ _ _).bind fun _ => .pure _

end

theorem coincide_checkUnion (owner : String) (declaration : PropertyDeclaration) (returns : TypeRef) :
    Coincide d (checkUnion owner declaration returns) (checkUnion owner declaration returns) := by
  rw [checkUnion]
  split
  · exact .refuse _
  · refine .get_bind fun r hr => ?_
    split
    · exact Coincide.refuse _ r hr
    · split
      · exact Coincide.pure _ r hr
      · exact Coincide.refuse _ r hr

end Registering

end Trellis
