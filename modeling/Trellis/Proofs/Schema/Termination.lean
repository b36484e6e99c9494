import Trellis.Proofs.Schema.DeclarationOrder
import Trellis.Proofs.Schema.Exploration
import Trellis.Proofs.Schema.Noting

/-!
Registration ends.

A walk describes an object or an input object only if its host type is not entered yet, and enters it
before it looks at any fields. So nested walks describe ever fewer types, whatever circles the types
refer to each other in, and no type is described twice, not even if something is refused in the end.
-/

namespace Trellis

namespace Registry

/-- The host type of an object or of an input object is entered. -/
def Knows (r : Registry) : Identity → Prop
  | .object (some host) => r.outputs.lookup host ≠ none
  | .inputObject host => r.inputs.lookup host ≠ none
  | _ => True

/-- A later registry knows more, and has fewer declarations left. -/
structure Grows (r s : Registry) : Prop where
  outputs : ∀ host, s.outputs.lookup host = none → r.outputs.lookup host = none
  inputs : ∀ host, s.inputs.lookup host = none → r.inputs.lookup host = none
  typeDeclarations : s.typeDeclarations ⊆ r.typeDeclarations
  enumDeclarations : s.enumDeclarations ⊆ r.enumDeclarations

namespace Grows

variable {r s t : Registry}

theorem refl (r : Registry) : r.Grows r :=
  ⟨fun _ => id, fun _ => id, List.Subset.refl _, List.Subset.refl _⟩

theorem trans (h : r.Grows s) (hs : s.Grows t) : r.Grows t where
  outputs host hnone := h.outputs host (hs.outputs host hnone)
  inputs host hnone := h.inputs host (hs.inputs host hnone)
  typeDeclarations := List.Subset.trans hs.typeDeclarations h.typeDeclarations
  enumDeclarations := List.Subset.trans hs.enumDeclarations h.enumDeclarations

theorem knows (h : r.Grows s) {i : Identity} (hi : r.Knows i) : s.Knows i := by
  rcases i with host | host | (_ | host) | _ | host
  · trivial
  · trivial
  · trivial
  · exact fun hnone => hi (h.outputs host hnone)
  · trivial
  · exact fun hnone => hi (h.inputs host hnone)

end Grows

end Registry

namespace Registering

variable {α β : Type}

/-- A step that starts no walk: it is never nested too deeply. -/
structure Modest (op : Registering α) : Prop where
  ends : ∀ r, op.run r ≠ .error .tooDeep
  grows : ∀ {r a s}, Runs op r a s → r.Grows s

namespace Modest

variable {op : Registering α}

theorem pure (a : α) : Modest (Pure.pure a) where
  ends _ h := nomatch h
  grows h := by
    obtain ⟨-, rfl⟩ := runs_pure.mp h
    exact .refl _

theorem refuse (e : SchemaError) : Modest (Registering.refuse e : Registering α) where
  ends _ h := nomatch h
  grows h := absurd h not_runs_refuse

theorem change {f : Registry → Registry} (h : ∀ r : Registry, r.Grows (f r)) :
    Modest (modify f) where
  ends _ h := nomatch h
  grows hruns := by
    obtain rfl := runs_modify.mp hruns
    exact h _

theorem get_bind {next : Registry → Registering α} (h : ∀ r, Modest (next r)) :
    Modest (get >>= next) where
  ends r := (h r).ends r
  grows {r _ _} hruns := (h r).grows (runs_get_bind.mp hruns)

theorem bind {next : α → Registering β} (h : Modest op) (hnext : ∀ a, Modest (next a)) :
    Modest (op >>= next) where
  ends r hdeep := by
    change (op.run r).bind (fun done => (next done.1).run done.2) = _ at hdeep
    cases hop : op.run r with
    | error stop =>
      rw [hop] at hdeep
      cases hdeep
      exact h.ends r hop
    | ok done =>
      rw [hop] at hdeep
      exact (hnext done.1).ends done.2 hdeep
  grows hruns := by
    obtain ⟨a, t, hop, hrest⟩ := runs_bind.mp hruns
    exact (h.grows hop).trans ((hnext a).grows hrest)

theorem forM {f : α → Registering Unit} {items : List α} (h : ∀ item ∈ items, Modest (f item)) :
    Modest (items.forM f) := by
  induction items with
  | nil => exact pure ()
  | cons item items ih =>
    exact (h item List.mem_cons_self).bind fun _ => ih fun other hmem =>
      h other (List.mem_cons_of_mem _ hmem)

end Modest

theorem modest_reserve (name : String) : Modest (reserve name) := by
  refine .get_bind fun r => ?_
  split
  · exact .refuse _
  · exact .change fun r => { Registry.Grows.refl r with }

theorem modest_fill (node : TypeNode) : Modest (fill node) :=
  .change fun r => { Registry.Grows.refl r with }

theorem modest_addScalar (scalar : ScalarType) : Modest (addScalar scalar) := by
  refine .get_bind fun r => ?_
  split
  · exact .refuse _
  · exact (modest_reserve _).bind fun _ =>
      Modest.bind (.change fun r => { Registry.Grows.refl r with }) fun _ => modest_fill _

theorem modest_scalarName (host : HostType) : Modest (scalarName host) := by
  refine .get_bind fun r => ?_
  split
  · exact .pure _
  · exact .refuse _

theorem grows_output (r : Registry) (entry : HostType × String) :
    r.Grows { r with outputs := r.outputs ++ [entry] } :=
  { Registry.Grows.refl r with
    outputs := fun _ hnone => (Entries.lookup_concat_eq_none.mp hnone).1 }

theorem grows_input (r : Registry) (entry : HostType × String) :
    r.Grows { r with inputs := r.inputs ++ [entry] } :=
  { Registry.Grows.refl r with
    inputs := fun _ hnone => (Entries.lookup_concat_eq_none.mp hnone).1 }

theorem modest_registerEnum (host : HostType) (shape : EnumShape) :
    Modest (registerEnum host shape) := by
  refine .get_bind fun r => ?_
  split
  · exact .pure _
  · refine .get_bind fun r => Modest.bind (.change fun r => ?_) fun _ =>
      (modest_reserve _).bind fun _ => Modest.bind (.change fun r => ?_) fun _ =>
        (modest_fill _).bind fun _ => .pure _
    · exact { Registry.Grows.refl r with enumDeclarations := List.filter_subset_self _ }
    · refine (grows_output r _).trans { Registry.Grows.refl _ with inputs := fun other hnone => ?_ }
      rw [Entries.lookup_put] at hnone
      split at hnone
      · cases hnone
      · exact hnone

theorem modest_insertProperty (owner : String) (properties : List Property) (p : Property) :
    Modest (insertProperty owner properties p) := by
  rw [insertProperty]
  split
  · exact .refuse _
  · exact .pure _

theorem modest_checkUnion (owner : String) (declaration : PropertyDeclaration)
    (returns : TypeRef) : Modest (checkUnion owner declaration returns) := by
  rw [checkUnion]
  split
  · exact .refuse _
  · refine .get_bind fun r => ?_
    split
    · exact .refuse _
    · split
      · exact .pure _
      · exact .refuse _

end Registering

namespace Declarations

variable (d : Declarations) (catalogue : Catalogue)

/-- The objects, input objects and enums that declarations and fields mention. -/
def mentioned : List Identity :=
  (catalogue.mentions ++ d.mentions).filterMap (·.innermost.identity?)

/-- Fewer objects and input objects are left than walks may be nested. -/
structure Roomy (objectDepth inputDepth : Nat) (r : Registry) : Prop where
  objectsLeft : unentered r.outputs (d.objectHosts catalogue) < objectDepth
  inputsLeft : unentered r.inputs (d.inputHosts catalogue) < inputDepth
  typeDeclarations : r.typeDeclarations ⊆ d.types
  enumDeclarations : r.enumDeclarations ⊆ d.enums

variable {d catalogue} {objectDepth inputDepth : Nat} {r s : Registry}

theorem Roomy.grows (h : d.Roomy catalogue objectDepth inputDepth r) (hs : r.Grows s) :
    d.Roomy catalogue objectDepth inputDepth s where
  objectsLeft := Nat.lt_of_le_of_lt (unentered_le _ hs.outputs) h.objectsLeft
  inputsLeft := Nat.lt_of_le_of_lt (unentered_le _ hs.inputs) h.inputsLeft
  typeDeclarations := List.Subset.trans hs.typeDeclarations h.typeDeclarations
  enumDeclarations := List.Subset.trans hs.enumDeclarations h.enumDeclarations

theorem Describes.mem_mentioned (hp : d.Proper) {ref : TypeRef} {i : Identity}
    (h : d.Describes catalogue ref) (hi : ref.innermost.identity? = some i)
    (henum : ∀ host shape, ref ≠ .enumeration host shape) : i ∈ d.mentioned catalogue := by
  rcases h.mentioned hp with ⟨host, shape, he⟩ | ⟨mention, hmem, hinner⟩
  · exact absurd he (henum host shape)
  · exact List.mem_filterMap.mpr ⟨mention, hmem, hinner ▸ hi⟩

end Declarations

namespace Noted

variable (d : Declarations) (catalogue : Catalogue)

/-- A step accounts for what it describes. It is not nested too deeply, nor does it make a difference
if it may be nested deeper, and what it describes was not known before, is described once and is known
then. -/
structure Accounts {α : Type} (op : Noted α) (deeper : Registering α) (r : Registry) : Prop where
  agrees : op.step.run r = deeper.run r
  ends : op.step.run r ≠ .error .tooDeep
  once : (op.notes r).Nodup
  fresh : ∀ i ∈ op.notes r, ¬ r.Knows i ∧ i ∈ d.mentioned catalogue
  grows : ∀ {a s}, Registering.Runs op.step r a s → r.Grows s ∧ ∀ i ∈ op.notes r, s.Knows i

/-- A step accounts for what it describes wherever there is room for it. -/
structure Orderly (objectDepth inputDepth : Nat) {α : Type} (op : Noted α) (deeper : Registering α) :
    Prop where
  accounts : ∀ {r : Registry}, d.Roomy catalogue objectDepth inputDepth r →
    op.Accounts d catalogue deeper r

variable {d catalogue} {objectDepth inputDepth : Nat} {α β : Type} {op : Noted α}
  {deeper : Registering α} {r : Registry}

theorem Accounts.congr {deeper' : Registering α} (h : op.Accounts d catalogue deeper r)
    (he : deeper = deeper') : op.Accounts d catalogue deeper' r := he ▸ h

theorem Accounts.silent {op : Registering α} (h : Registering.Modest op) :
    (silent op).Accounts d catalogue op r where
  agrees := rfl
  ends := h.ends r
  once := List.nodup_nil
  fresh _ hmem := absurd hmem List.not_mem_nil
  grows hruns := ⟨h.grows hruns, fun _ hmem => absurd hmem List.not_mem_nil⟩

theorem notes_bind_ok {next : α → Noted β} {a : α} {s : Registry}
    (h : Registering.Runs op.step r a s) :
    (op >>= next).notes r = op.notes r ++ (next a).notes s := by
  rw [Registering.Runs] at h
  change (op.bind next).notes r = _
  simp only [Noted.bind, h]

theorem notes_bind_error {next : α → Noted β} {stop : Stop} (h : op.step.run r = .error stop) :
    (op >>= next).notes r = op.notes r := by
  change (op.bind next).notes r = _
  simp only [Noted.bind, h, List.append_nil]

theorem Accounts.bind {next : α → Noted β} {deeperNext : α → Registering β}
    (h : op.Accounts d catalogue deeper r)
    (hnext : ∀ {a s}, Registering.Runs op.step r a s → r.Grows s →
      (next a).Accounts d catalogue (deeperNext a) s) :
    (op >>= next).Accounts d catalogue (deeper >>= deeperNext) r := by
  have hstep : (op >>= next).step.run r =
      (op.step.run r).bind fun done => (next done.1).step.run done.2 := rfl
  have hdeeper : (deeper >>= deeperNext).run r =
      (deeper.run r).bind fun done => (deeperNext done.1).run done.2 := rfl
  cases hop : op.step.run r with
  | error stop =>
    have hnotes : (op >>= next).notes r = op.notes r := notes_bind_error hop
    have hstop : (op >>= next).step.run r = .error stop := by
      rw [hstep, hop]
      rfl
    refine ⟨?_, ?_, hnotes ▸ h.once, hnotes ▸ h.fresh, fun hruns => ?_⟩
    · rw [hstop, hdeeper, ← h.agrees, hop]
      rfl
    · rw [hstop]
      rintro ⟨⟩
      exact h.ends hop
    · cases hstop.symm.trans hruns
  | ok done =>
    obtain ⟨a, s⟩ := done
    obtain ⟨hgrown, hknown⟩ := h.grows hop
    have hrest := hnext hop hgrown
    have hrun : (op >>= next).step.run r = (next a).step.run s := by
      rw [hstep, hop]
      rfl
    constructor
    · rw [hrun, hdeeper, ← h.agrees, hop]
      exact hrest.agrees
    · rw [hrun]
      exact hrest.ends
    · rw [notes_bind_ok hop, List.nodup_append]
      refine ⟨h.once, hrest.once, fun i hi j hj he => ?_⟩
      exact (hrest.fresh j hj).1 (he ▸ hknown i hi)
    · rw [notes_bind_ok hop, List.forall_mem_append]
      refine ⟨h.fresh, fun i hi => ⟨fun hknows => ?_, (hrest.fresh i hi).2⟩⟩
      exact (hrest.fresh i hi).1 (hgrown.knows hknows)
    · intro b t hruns
      obtain ⟨hgrown', hknown'⟩ := hrest.grows (hrun.symm.trans hruns)
      rw [notes_bind_ok hop, List.forall_mem_append]
      exact ⟨hgrown.trans hgrown', fun i hi => hgrown'.knows (hknown i hi), hknown'⟩

/-- What is described was not known, and is entered before anything else is described. -/
theorem Accounts.describe {i : Identity} (hnew : ¬ r.Knows i) (hmem : i ∈ d.mentioned catalogue)
    {enter : Registering β} {rest : β → Noted α} {deeperRest : β → Registering α}
    (henter : Registering.Modest enter)
    (hrest : ∀ {b s}, Registering.Runs enter r b s → s.Knows i ∧
      (rest b).Accounts d catalogue (deeperRest b) s) :
    (note i >>= fun _ => Noted.silent enter >>= rest).Accounts d catalogue (enter >>= deeperRest)
      r := by
  have hwhole : (Noted.silent enter >>= rest).Accounts d catalogue (enter >>= deeperRest) r :=
    (Accounts.silent henter).bind fun hruns _ => (hrest hruns).2
  have hnotes : (note i >>= fun _ => Noted.silent enter >>= rest).notes r =
      i :: (Noted.silent enter >>= rest).notes r := rfl
  -- Nothing is described unless the host type is entered, so whatever is described is another one.
  have hother : i ∉ (Noted.silent enter >>= rest).notes r := fun hagain => by
    cases hrun : enter.run r with
    | error stop =>
      have hnotes : (Noted.silent enter >>= rest).notes r = [] := notes_bind_error hrun
      rw [hnotes] at hagain
      exact List.not_mem_nil hagain
    | ok done =>
      have hnotes : (Noted.silent enter >>= rest).notes r = [] ++ (rest done.1).notes done.2 :=
        notes_bind_ok hrun
      rw [hnotes] at hagain
      obtain ⟨hknows, haccounts⟩ := hrest hrun
      exact (haccounts.fresh i hagain).1 hknows
  refine ⟨hwhole.agrees, hwhole.ends, hnotes ▸ List.nodup_cons.mpr ⟨hother, hwhole.once⟩,
    hnotes ▸ List.forall_mem_cons.mpr ⟨⟨hnew, hmem⟩, hwhole.fresh⟩, fun {a t} hruns => ?_⟩
  have hruns : Registering.Runs (Noted.silent enter >>= rest).step r a t := hruns
  obtain ⟨hgrown, hknown⟩ := hwhole.grows hruns
  refine ⟨hgrown, hnotes ▸ List.forall_mem_cons.mpr ⟨?_, hknown⟩⟩
  obtain ⟨b, s, henters, hrests⟩ := Registering.runs_bind.mp hruns
  obtain ⟨hknows, haccounts⟩ := hrest henters
  exact (haccounts.grows hrests).1.knows hknows

namespace Orderly

variable {items : List α}

theorem silent {op : Registering α} (h : Registering.Modest op) :
    Orderly d catalogue objectDepth inputDepth (Noted.silent op) op := ⟨fun _ => .silent h⟩

theorem pure (a : α) :
    Orderly d catalogue objectDepth inputDepth (Pure.pure a) (Pure.pure a) := silent (.pure a)

theorem refuse (e : SchemaError) : Orderly d catalogue objectDepth inputDepth
    (Noted.silent (Registering.refuse e) : Noted α) (Registering.refuse e) := silent (.refuse e)

theorem bind {next : α → Noted β} {deeperNext : α → Registering β}
    (h : Orderly d catalogue objectDepth inputDepth op deeper)
    (hnext : ∀ a, Orderly d catalogue objectDepth inputDepth (next a) (deeperNext a)) :
    Orderly d catalogue objectDepth inputDepth (op >>= next) (deeper >>= deeperNext) :=
  ⟨fun hr => (h.accounts hr).bind fun _ hgrown => (hnext _).accounts (hr.grows hgrown)⟩

theorem map (f : α → β) (h : Orderly d catalogue objectDepth inputDepth op deeper) :
    Orderly d catalogue objectDepth inputDepth (f <$> op) (f <$> deeper) := by
  rw [map_eq_pure_bind, map_eq_pure_bind]
  exact h.bind fun a => pure (f a)

theorem discard (h : Orderly d catalogue objectDepth inputDepth op deeper) :
    Orderly d catalogue objectDepth inputDepth (Functor.discard op) (Functor.discard deeper) :=
  h.map fun _ => ()

/-- A step that is taken only at times. -/
theorem optional {c : Prop} [Decidable c] {op : Noted Unit} {deeper : Registering Unit}
    {next : Noted β} {deeperNext : Registering β}
    (h : Orderly d catalogue objectDepth inputDepth op deeper)
    (hnext : Orderly d catalogue objectDepth inputDepth next deeperNext) :
    Orderly d catalogue objectDepth inputDepth (if c then op >>= fun _ => next else next)
      (if c then deeper >>= fun _ => deeperNext else deeperNext) := by
  by_cases hc : c
  · rw [if_pos hc, if_pos hc]
    exact h.bind fun _ => hnext
  · rw [if_neg hc, if_neg hc]
    exact hnext

theorem get_bind {next : Registry → Noted α} {deeperNext : Registry → Registering α}
    (h : ∀ {r}, d.Roomy catalogue objectDepth inputDepth r →
      (next r).Accounts d catalogue (deeperNext r) r) :
    Orderly d catalogue objectDepth inputDepth (Noted.silent get >>= next) (get >>= deeperNext) :=
  ⟨fun hr => by
    obtain ⟨hagrees, hends, honce, hfresh, hgrows⟩ := h hr
    exact ⟨hagrees, hends, honce, hfresh, hgrows⟩⟩

theorem foldlM {f : β → α → Noted β} {deeperf : β → α → Registering β}
    (h : ∀ item ∈ items, ∀ b, Orderly d catalogue objectDepth inputDepth (f b item)
      (deeperf b item)) (b : β) :
    Orderly d catalogue objectDepth inputDepth (items.foldlM f b) (items.foldlM deeperf b) := by
  induction items generalizing b with
  | nil => exact pure b
  | cons item items ih =>
    rw [List.foldlM_cons, List.foldlM_cons]
    exact (h item List.mem_cons_self b).bind
      (ih fun other hmem => h other (List.mem_cons_of_mem _ hmem))

theorem mapM {f : α → Noted β} {deeperf : α → Registering β}
    (h : ∀ item ∈ items, Orderly d catalogue objectDepth inputDepth (f item) (deeperf item)) :
    Orderly d catalogue objectDepth inputDepth (items.mapM f) (items.mapM deeperf) := by
  induction items with
  | nil => exact pure []
  | cons item items ih =>
    rw [List.mapM_cons, List.mapM_cons]
    exact (h item List.mem_cons_self).bind fun b =>
      (ih fun other hmem => h other (List.mem_cons_of_mem _ hmem)).bind fun rest => pure (b :: rest)

theorem forM {f : α → Noted Unit} {deeperf : α → Registering Unit}
    (h : ∀ item ∈ items, Orderly d catalogue objectDepth inputDepth (f item) (deeperf item)) :
    Orderly d catalogue objectDepth inputDepth (items.forM f) (items.forM deeperf) := by
  induction items with
  | nil => exact pure ()
  | cons item items ih =>
    exact (h item List.mem_cons_self).bind fun _ =>
      ih fun other hmem => h other (List.mem_cons_of_mem _ hmem)

end Orderly

/-! ### Arguments -/

/-- Walks through the input objects that are described account for what they describe. -/
def OrderlyInputs (d : Declarations) (catalogue : Catalogue) (objectDepth inputDepth : Nat)
    (walk : HostType → HostType → Noted String)
    (deeper : HostType → HostType → Registering String) : Prop :=
  ∀ {host outline : HostType}, d.Describes catalogue (.inputObject host outline) →
    Orderly d catalogue objectDepth inputDepth (walk host outline) (deeper host outline)

variable {walk : HostType → HostType → Noted String}
  {deeperWalk : HostType → HostType → Registering String}

theorem orderly_inputType
    (hwalk : OrderlyInputs d catalogue objectDepth inputDepth walk deeperWalk) {ref : TypeRef}
    (href : d.Describes catalogue ref) :
    Orderly d catalogue objectDepth inputDepth (inputType walk ref)
      (Registering.inputType deeperWalk ref) := by
  induction ref with
  | nullable host inner ih => exact (ih href.nullable).map _
  | list host inner ih => exact (ih href.list).map _
  | scalar host => exact (Orderly.silent (Registering.modest_scalarName host)).map _
  | enumeration host shape =>
    exact (Orderly.silent (Registering.modest_registerEnum host shape)).map _
  | inputObject host outline => exact (hwalk href).map _
  | object | union | function | generic => exact .refuse _

/-- Once an input object is entered there is one less to be walked. -/
theorem enterInput_known {depth : Nat} (hp : d.Proper) {host outline : HostType}
    (hdescribes : d.Describes catalogue (.inputObject host outline)) {name : String} {u : Unit}
    {s : Registry} (hnew : r.inputs.lookup host = none)
    (hr : d.Roomy catalogue objectDepth (depth + 1) r)
    (h : Registering.Runs (enterInput host name) r u s) :
    s.Knows (.inputObject host) ∧ d.Roomy catalogue objectDepth depth s := by
  obtain ⟨_, t, hreserve, hmodify⟩ := Registering.runs_bind.mp h
  obtain ⟨-, rfl⟩ := Registering.runs_reserve hreserve
  obtain rfl := Registering.runs_modify.mp hmodify
  have hgrown := Registering.grows_input r (host, name)
  have hentered : (r.inputs ++ [(host, name)]).lookup host ≠ none :=
    fun hnone => (Entries.lookup_concat_eq_none.mp hnone).2 rfl
  have hless : unentered (r.inputs ++ [(host, name)]) (d.inputHosts catalogue) < depth :=
    Nat.lt_of_lt_of_le (unentered_lt hgrown.inputs (hdescribes.mem_inputHosts hp) hnew hentered)
      (Nat.le_of_lt_succ hr.inputsLeft)
  exact ⟨hentered, (hr.grows hgrown).objectsLeft, hless, hr.typeDeclarations, hr.enumDeclarations⟩

theorem modest_enterInput (host : HostType) (name : String) :
    Registering.Modest (enterInput host name) :=
  (Registering.modest_reserve name).bind fun _ => .change fun r => Registering.grows_input r _

theorem orderly_inputFields
    (hwalk : OrderlyInputs d catalogue objectDepth inputDepth walk deeperWalk)
    {fields : List InputField} (hfields : ∀ f ∈ fields, d.Describes catalogue f.type) :
    Orderly d catalogue objectDepth inputDepth (inputFields walk fields)
      (fields.mapM fun field => do
        let type ← Registering.inputType deeperWalk field.type
        pure (field.name, type)) :=
  .mapM fun field hmem => (orderly_inputType hwalk (hfields field hmem)).bind fun _ => .pure _

theorem orderly_registerInput (hp : d.Proper) {depth deeper : Nat} (hdepth : depth ≤ deeper) :
    OrderlyInputs d catalogue objectDepth depth (registerInput catalogue depth)
      (Registering.registerInput catalogue deeper) := by
  induction depth generalizing deeper with
  | zero => exact fun _ => ⟨fun hr => absurd hr.inputsLeft (Nat.not_lt_zero _)⟩
  | succ depth ih =>
    obtain ⟨deeper, rfl⟩ : ∃ n, deeper = n + 1 := ⟨deeper - 1, by omega⟩
    refine fun {host outline} hdescribes => .get_bind fun {r} hr => ?_
    cases hlookup : r.inputs.lookup host with
    | some name => exact .silent (.pure name)
    | none =>
      have hmem : Identity.inputObject host ∈ d.mentioned catalogue :=
        hdescribes.mem_mentioned hp rfl nofun
      have hfields : ∀ f ∈ (catalogue.input outline).fields, d.Describes catalogue f.type :=
        fun _ hf => hdescribes.inputField hf
      have hnew : ¬ r.Knows (.inputObject host) := fun hknows => hknows hlookup
      have hrest := (orderly_inputFields (ih (Nat.le_of_succ_le_succ hdepth)) hfields).bind
        fun fields => (Orderly.silent (Registering.modest_fill (.inputObject
          ⟨(catalogue.input outline).name, none, host, Entries.ofPairs fields⟩))).bind
            fun _ => .pure (catalogue.input outline).name
      have haccounts := Accounts.describe hnew hmem
        (modest_enterInput host (catalogue.input outline).name) fun henter =>
          (enterInput_known hp hdescribes hlookup hr henter).imp_right hrest.accounts
      exact haccounts.congr (by simp only [enterInput, bind_assoc])

/-! ### Objects -/

/-- Walks through the objects that are described account for what they describe. -/
def OrderlyObjects (d : Declarations) (catalogue : Catalogue) (objectDepth inputDepth : Nat)
    (walk : HostType → HostType → Noted String)
    (deeper : HostType → HostType → Registering String) : Prop :=
  ∀ {host outline : HostType}, d.Describes catalogue (.object host outline) →
    Orderly d catalogue objectDepth inputDepth (walk host outline) (deeper host outline)

theorem orderly_outputType
    (hwalk : OrderlyObjects d catalogue objectDepth inputDepth walk deeperWalk)
    (site : Registering.Site) {ref : TypeRef} (href : d.Describes catalogue ref) :
    Orderly d catalogue objectDepth inputDepth (outputType walk site ref)
      (Registering.outputType deeperWalk site ref) := by
  induction ref with
  | nullable host inner ih => exact (ih href.nullable).map _
  | list host inner ih => exact (ih href.list).map _
  | scalar host => exact (Orderly.silent (Registering.modest_scalarName host)).map _
  | enumeration host shape =>
    exact (Orderly.silent (Registering.modest_registerEnum host shape)).map _
  | object host outline => exact (hwalk href).map _
  | union host =>
    rw [outputType, Registering.outputType]
    cases site.union with
    | none => exact .refuse _
    | some name => exact .pure _
  | inputObject | function | generic => exact .refuse _

variable {deeper : Nat}

theorem orderly_mergeArguments (hp : d.Proper) (hdepth : inputDepth ≤ deeper)
    (owner property : String) {declared : List (String × TypeRef)}
    (hdeclared : ∀ argument ∈ declared, d.Describes catalogue argument.2)
    (arguments : List Argument) :
    Orderly d catalogue objectDepth inputDepth
      (mergeArguments catalogue inputDepth owner property arguments declared)
      (Registering.mergeArguments catalogue deeper owner property arguments declared) := by
  induction declared generalizing arguments with
  | nil => exact .pure _
  | cons argument declared ih =>
    rw [List.forall_mem_cons] at hdeclared
    refine (orderly_inputType (orderly_registerInput hp hdepth) hdeclared.1).bind fun type => ?_
    cases arguments.find? (·.name == argument.1) with
    | none => exact ih hdeclared.2 _
    | some existing =>
      by_cases hsame : existing.type = type
      · simpa only [if_pos hsame] using ih hdeclared.2 arguments
      · simpa only [if_neg hsame] using .refuse _

/-- The types of the arguments that a function is named with are those that it declares. -/
theorem describes_arguments {kinds parameters : Parameters} {names : List String}
    (hnamed : kinds.name? names = some parameters)
    (h : ∀ ref ∈ Parameters.argumentTypes kinds.kinds, d.Describes catalogue ref) :
    ∀ argument ∈ parameters.arguments, d.Describes catalogue argument.2 := by
  rw [← Parameters.map_snd_arguments hnamed] at h
  exact fun argument hmem => h _ (List.mem_map_of_mem hmem)

theorem orderly_property (hp : d.Proper) (hdepth : inputDepth ≤ deeper)
    (hwalk : OrderlyObjects d catalogue objectDepth inputDepth walk deeperWalk) (owner : String)
    {declaration : PropertyDeclaration}
    (hdescribes : ∀ ref ∈ declaration.mentions, d.Describes catalogue ref) :
    Orderly d catalogue objectDepth inputDepth
      (property catalogue inputDepth walk owner declaration)
      (Registering.property catalogue deeper deeperWalk owner declaration) := by
  simp only [property, Registering.property]
  rw [PropertyDeclaration.mentions] at hdescribes
  cases hresolver : declaration.resolver with
  | none => exact .refuse _
  | some resolver =>
    rw [hresolver, List.forall_mem_cons] at hdescribes
    dsimp only
    cases hparameters : resolver.parameters.name? declaration.arguments with
    | none => exact .refuse _
    | some parameters =>
      dsimp only
      have hchecked : Orderly d catalogue objectDepth inputDepth
          (silent (Registering.checkUnion owner declaration resolver.returns)) _ :=
        .silent (Registering.modest_checkUnion owner declaration resolver.returns)
      refine hchecked.optional ((orderly_outputType hwalk _ hdescribes.1).bind fun type => ?_)
      exact (orderly_mergeArguments hp hdepth owner declaration.name
        (describes_arguments hparameters hdescribes.2) []).bind fun arguments => .pure _

theorem orderly_insertProperty (owner : String) (properties : List Property) (p : Property) :
    Orderly d catalogue objectDepth inputDepth
      (silent (Registering.insertProperty owner properties p))
      (Registering.insertProperty owner properties p) :=
  .silent (Registering.modest_insertProperty owner properties p)

theorem orderly_insertDeclared (hp : d.Proper) (hdepth : inputDepth ≤ deeper)
    (hwalk : OrderlyObjects d catalogue objectDepth inputDepth walk deeperWalk) (owner : String)
    {declarations : List PropertyDeclaration}
    (hdescribes : ∀ declaration ∈ declarations, ∀ ref ∈ declaration.mentions,
      d.Describes catalogue ref) (properties : List Property) :
    Orderly d catalogue objectDepth inputDepth
      (insertDeclared catalogue inputDepth walk owner properties declarations)
      (Registering.insertDeclared catalogue deeper deeperWalk owner properties declarations) :=
  .foldlM (fun declaration hmem properties =>
    (orderly_property hp hdepth hwalk owner (hdescribes declaration hmem)).bind
      (orderly_insertProperty owner properties)) properties

theorem orderly_insertFields
    (hwalk : OrderlyObjects d catalogue objectDepth inputDepth walk deeperWalk) (owner : String)
    (host : HostType) (ignored : List String) {fields : List ObjectField}
    (hfields : ∀ f ∈ fields, d.Describes catalogue f.type) :
    Orderly d catalogue objectDepth inputDepth (insertFields walk owner host ignored fields)
      (Registering.insertFields deeperWalk owner host ignored fields) :=
  .foldlM (fun field hmem properties =>
    (orderly_outputType hwalk _ (hfields field (List.mem_filter.mp hmem).1)).bind
      fun _ => orderly_insertProperty owner properties _) []

theorem orderly_adjustProperty {change : Property → Noted Property}
    {deeperChange : Property → Registering Property}
    (hchange : ∀ p, Orderly d catalogue objectDepth inputDepth (change p) (deeperChange p))
    (owner name : String) (properties : List Property) :
    Orderly d catalogue objectDepth inputDepth (adjustProperty owner name change properties)
      (Registering.adjustProperty owner name deeperChange properties) := by
  induction properties with
  | nil => exact .refuse _
  | cons p rest ih =>
    rw [adjustProperty, Registering.adjustProperty]
    split
    · exact (hchange p).bind fun changed => .pure (changed :: rest)
    · exact ih.bind fun others => .pure (p :: others)

theorem orderly_attach (hp : d.Proper) (hdepth : inputDepth ≤ deeper) (owner : String)
    {declaration : TransformationDeclaration}
    (hdescribes : ∀ ref ∈ declaration.mentions, d.Describes catalogue ref) (p : Property) :
    Orderly d catalogue objectDepth inputDepth (attach catalogue inputDepth owner declaration p)
      (Registering.attach catalogue deeper owner declaration p) := by
  rw [attach, Registering.attach]
  rw [TransformationDeclaration.mentions] at hdescribes
  cases htransformation : declaration.transformation with
  | none => exact .refuse _
  | some transformation =>
    rw [htransformation] at hdescribes
    dsimp only
    cases hparameters : transformation.parameters.name? declaration.arguments with
    | none => exact .refuse _
    | some parameters =>
      dsimp only
      split
      · exact .refuse _
      · exact (orderly_mergeArguments hp hdepth owner p.name
          (describes_arguments hparameters hdescribes) p.arguments).bind fun arguments => .pure _

/-- Walking the properties of an object accounts for all that its description leads on to. -/
theorem orderly_walkProperties (hp : d.Proper) (hdepth : inputDepth ≤ deeper)
    (hwalk : OrderlyObjects d catalogue objectDepth inputDepth walk deeperWalk) (name : String)
    {shown : ObjectOutline} (hfields : ∀ f ∈ shown.fields, d.Describes catalogue f.type)
    (host : HostType) {declaration : TypeDeclaration}
    (hdescribed : Registering.Described d catalogue declaration) :
    Orderly d catalogue objectDepth inputDepth
      (walkProperties catalogue inputDepth walk name shown host declaration)
      (Registering.walkProperties catalogue deeper deeperWalk name shown host declaration) := by
  rw [walkProperties, Registering.walkProperties]
  cases declaration.ignored.find? fun field => !(shown.fields.any (·.name == field)) with
  | some unknown => exact .refuse _
  | none =>
    refine (orderly_insertFields hwalk name host declaration.ignored hfields).bind fun native =>
      (orderly_insertDeclared hp hdepth hwalk name hdescribed.properties native).bind
        fun declared => Orderly.bind (.foldlM (fun change _ properties =>
          orderly_adjustProperty (fun p => .pure _) name change.1 properties) declared)
            fun changed => .foldlM (fun t ht properties =>
              orderly_adjustProperty (orderly_attach hp hdepth name ?_) name t.property properties)
                changed
    intro ref hmem
    rw [TransformationDeclaration.mentions] at hmem
    split at hmem
    · exact hdescribed.transformations t ht _ ‹_› ref hmem
    · exact absurd hmem List.not_mem_nil

/-- Once an object is entered there is one less to be walked. -/
theorem enterObject_known {depth : Nat} (hp : d.Proper) {host outline : HostType}
    (hdescribes : d.Describes catalogue (.object host outline)) {declaration : TypeDeclaration}
    {s : Registry} (hnew : r.outputs.lookup host = none)
    (hr : d.Roomy catalogue (depth + 1) inputDepth r)
    (h : Registering.Runs (enterObject catalogue host outline) r declaration s) :
    s.Knows (.object (some host)) ∧ d.Roomy catalogue depth inputDepth s ∧
      Registering.Described d catalogue declaration := by
  obtain ⟨declaration, t, htake, hrest⟩ := Registering.runs_bind.mp h
  rw [Registering.takeDeclaration, Registering.runs_get_bind] at htake
  dsimp only at htake
  rw [Registering.runs_modify_bind] at htake
  obtain ⟨rfl, rfl⟩ := Registering.runs_pure.mp htake
  obtain ⟨_, t, hreserve, hrest⟩ := Registering.runs_bind.mp hrest
  obtain ⟨-, rfl⟩ := Registering.runs_reserve hreserve
  rw [Registering.runs_modify_bind] at hrest
  obtain ⟨rfl, rfl⟩ := Registering.runs_pure.mp hrest
  refine ⟨?_, ⟨?_, hr.inputsLeft, ?_, hr.enumDeclarations⟩, ?_⟩
  · exact fun hnone => (Entries.lookup_concat_eq_none.mp hnone).2 rfl
  · exact Nat.lt_of_lt_of_le (unentered_lt (Registering.grows_output r (host, _)).outputs
      (hdescribes.mem_objectHosts hp) hnew
        fun hnone => (Entries.lookup_concat_eq_none.mp hnone).2 rfl)
      (Nat.le_of_lt_succ hr.objectsLeft)
  · exact List.Subset.trans (List.filter_subset_self _) hr.typeDeclarations
  · cases hlookup : r.typeDeclarations.lookup host with
    | none =>
      exact ⟨fun _ hmem => absurd hmem List.not_mem_nil, fun _ hmem => absurd hmem List.not_mem_nil⟩
    | some declaration =>
      exact Registering.described_of_mem (hr.typeDeclarations (Entries.mem_of_lookup hlookup))

theorem modest_enterObject (host outline : HostType) :
    Registering.Modest (enterObject catalogue host outline) := by
  have htake : Registering.Modest (Registering.takeDeclaration host outline) :=
    .get_bind fun r => Registering.Modest.bind (.change fun r =>
      { Registry.Grows.refl r with typeDeclarations := List.filter_subset_self _ }) fun _ => .pure _
  exact htake.bind fun declaration => (Registering.modest_reserve _).bind fun _ =>
    Registering.Modest.bind (.change fun r => Registering.grows_output r _) fun _ => .pure _

theorem orderly_registerObject (hp : d.Proper) {depth deeper inputDeeper : Nat}
    (hdepth : depth ≤ deeper) (hinputDepth : inputDepth ≤ inputDeeper) :
    OrderlyObjects d catalogue depth inputDepth (registerObject catalogue inputDepth depth)
      (Registering.registerObject catalogue inputDeeper deeper) := by
  induction depth generalizing deeper with
  | zero => exact fun _ => ⟨fun hr => absurd hr.objectsLeft (Nat.not_lt_zero _)⟩
  | succ depth ih =>
    obtain ⟨deeper, rfl⟩ : ∃ n, deeper = n + 1 := ⟨deeper - 1, by omega⟩
    intro host outline hdescribes
    rw [registerObject_eq]
    refine .get_bind fun {r} hr => ?_
    cases hlookup : r.outputs.lookup host with
    | some name => exact .silent (.pure name)
    | none =>
      have hmem : Identity.object (some host) ∈ d.mentioned catalogue :=
        hdescribes.mem_mentioned hp rfl nofun
      have hnew : ¬ r.Knows (.object (some host)) := fun hknows => hknows hlookup
      refine Accounts.describe hnew hmem (modest_enterObject host outline) fun henter => ?_
      obtain ⟨hknows, hroomy, hdescribed⟩ := enterObject_known hp hdescribes hlookup hr henter
      have hwalk (name : String) := orderly_walkProperties hp hinputDepth
        (ih (Nat.le_of_succ_le_succ hdepth)) name (fun _ hf => hdescribes.field hf) host hdescribed
      exact ⟨hknows, Orderly.accounts ((hwalk _).bind fun properties =>
        (Orderly.silent (Registering.modest_fill _)).bind fun _ => .pure _) hroomy⟩

/-! ### Everything that is declared -/

theorem orderly_addRoot (hp : d.Proper) {depth deeper : Nat} (hdepth : depth ≤ deeper)
    {root : String × List PropertyDeclaration} (hroot : root ∈ d.roots) :
    Orderly d catalogue depth depth (addRoot catalogue depth root.1 root.2)
      (Registering.addRoot catalogue deeper root.1 root.2) :=
  (Orderly.silent (Registering.modest_reserve _)).bind fun _ =>
    (orderly_insertDeclared hp hdepth (orderly_registerObject hp hdepth hdepth) root.1
      (Registering.describes_of_root catalogue hroot) []).bind fun _ =>
        .silent (Registering.modest_fill _)

theorem orderly_addDeclared (hp : d.Proper) {depth deeper : Nat} (hdepth : depth ≤ deeper)
    {ref : TypeRef} (href : d.Describes catalogue ref) :
    Orderly d catalogue depth depth (addDeclared catalogue depth ref)
      (Registering.addDeclared catalogue deeper ref) := by
  cases ref with
  | object host outline => exact (orderly_registerObject hp hdepth hdepth href).discard
  | enumeration host shape =>
    exact (Orderly.silent (Registering.modest_registerEnum host shape)).discard
  | scalar | inputObject | list | nullable | union | function | generic => exact .pure ()

theorem orderly_unionMember (hp : d.Proper) {depth deeper : Nat} (hdepth : depth ≤ deeper)
    (union : String) {ref : TypeRef} (href : d.Describes catalogue ref) :
    Orderly d catalogue depth depth (unionMember catalogue depth union ref)
      (Registering.unionMember catalogue deeper union ref) := by
  cases ref with
  | object host outline =>
    exact (orderly_registerObject hp hdepth hdepth href).bind fun name => .pure (host, name)
  | scalar | enumeration | inputObject | list | nullable | union | function | generic =>
    exact .refuse _

theorem orderly_addUnion (hp : d.Proper) {depth deeper : Nat} (hdepth : depth ≤ deeper)
    {union : String × UnionDeclaration} (hunion : union ∈ d.unions) :
    Orderly d catalogue depth depth (addUnion catalogue depth union.1 union.2)
      (Registering.addUnion catalogue deeper union.1 union.2) := by
  rw [addUnion, Registering.addUnion]
  split
  · exact .refuse _
  · exact (Orderly.silent (Registering.modest_reserve _)).bind fun _ =>
      (Orderly.mapM fun ref hmem => orderly_unionMember hp hdepth _
        (Registering.describes_of_union catalogue hunion ref hmem)).bind fun _ =>
          .silent (Registering.modest_fill _)

theorem orderly_addAll (hp : d.Proper) {depth deeper : Nat} (hdepth : depth ≤ deeper) :
    Orderly d catalogue depth depth (addAll catalogue depth d)
      (Registering.addAll catalogue deeper d) := by
  rw [addAll, Registering.addAll_eq]
  refine (Orderly.silent (.forM fun scalar _ => Registering.modest_addScalar scalar)).bind fun _ =>
    (Orderly.forM fun root hroot => orderly_addRoot hp hdepth hroot).bind fun _ =>
      .get_bind fun hr => ?_
  have hremaining {ref : TypeRef} (hmem : ref ∈ _) : d.Describes catalogue ref :=
    Registering.describes_of_remaining hr.typeDeclarations hr.enumDeclarations hmem
  have hdeclared := Orderly.forM fun ref hmem => orderly_addDeclared hp hdepth (hremaining hmem)
  exact (hdeclared.bind fun _ => (Orderly.forM fun ref hmem => (orderly_inputType
    (orderly_registerInput hp hdepth) (Registering.describes_of_input hmem)).discard).bind fun _ =>
      .forM fun union hunion => orderly_addUnion hp hdepth hunion).accounts hr

end Noted

namespace Declarations

variable {d : Declarations} {catalogue : Catalogue}

theorem roomy_start (d : Declarations) (catalogue : Catalogue) :
    d.Roomy catalogue (d.depth catalogue) (d.depth catalogue) (.start d) where
  objectsLeft :=
    Nat.lt_succ_of_le (Nat.le_trans List.countP_le_length (List.length_filterMap_le _ _))
  inputsLeft :=
    Nat.lt_succ_of_le (Nat.le_trans List.countP_le_length (List.length_filterMap_le _ _))
  typeDeclarations := List.Subset.refl _
  enumDeclarations := List.Subset.refl _

theorem register_ne_tooDeep (hp : d.Proper) : d.register catalogue ≠ .error .tooDeep := by
  have haccounts := (Noted.orderly_addAll hp (Nat.le_refl (d.depth catalogue))).accounts
    (roomy_start d catalogue)
  have hends := haccounts.agrees ▸ haccounts.ends
  rw [register]
  intro hdeep
  cases hrun : (Registering.addAll catalogue (d.depth catalogue) d).run (.start d) with
  | error stop =>
    rw [hrun] at hdeep
    cases hdeep
    exact hends hrun
  | ok done =>
    rw [hrun] at hdeep
    cases hdeep

end Declarations

namespace SchemaBuilder

/-- A build comes to an end on all declarations, whatever circles types refer to each other in: it makes
a schema, or something is refused. The walks need no more depth than the build allows them. While they
last, and even if something is refused in the end, the fields of an object or an input object are looked
at once at most, so no more types are described than declarations and fields mention. -/
theorem build_ends {catalogue : Catalogue} {b : SchemaBuilder} (hb : b.Arises catalogue) :
    ((∃ s, (b.build catalogue).1 = .ok s) ∨ ∃ e, (b.build catalogue).1 = .error (.refused e)) ∧
    (∀ depth, b.declarations.depth catalogue ≤ depth →
      (Registering.addAll catalogue depth b.declarations).run (.start b.declarations) =
        (Registering.addAll catalogue (b.declarations.depth catalogue) b.declarations).run
          (.start b.declarations)) ∧
    ∀ depth, (Noted.addAll catalogue depth b.declarations).step =
        Registering.addAll catalogue depth b.declarations ∧
      (b.declarations.depth catalogue ≤ depth →
        ((Noted.addAll catalogue depth b.declarations).notes (.start b.declarations)).Nodup ∧
        ((Noted.addAll catalogue depth b.declarations).notes (.start b.declarations)).length ≤
          (catalogue.mentions ++ b.declarations.mentions).length) := by
  have hp := hb.proper
  have hroom := Declarations.roomy_start b.declarations catalogue
  have haccounts {depth deeper : Nat} (hdepth : b.declarations.depth catalogue ≤ depth)
      (hdeeper : depth ≤ deeper) :
      (Noted.addAll catalogue depth b.declarations).Accounts b.declarations catalogue
        (Registering.addAll catalogue deeper b.declarations) (.start b.declarations) :=
    (Noted.orderly_addAll hp hdeeper).accounts
      { hroom with
        objectsLeft := Nat.lt_of_lt_of_le hroom.objectsLeft hdepth
        inputsLeft := Nat.lt_of_lt_of_le hroom.inputsLeft hdepth }
  refine ⟨?_, fun depth hdepth => ?_, fun depth => ⟨Noted.step_addAll _ _ _, fun hdepth => ?_⟩⟩
  · rw [build]
    cases b.errors with
    | cons e errors => exact .inr ⟨e, rfl⟩
    | nil =>
      have hends : b.declarations.register catalogue ≠ .error .tooDeep :=
        Declarations.register_ne_tooDeep hp
      cases hregister : b.declarations.register catalogue with
      | ok graph => exact .inl ⟨_, rfl⟩
      | error stop =>
        cases stop with
        | refused e => exact .inr ⟨e, rfl⟩
        | tooDeep => exact absurd hregister hends
  · rw [← (haccounts (Nat.le_refl _) hdepth).agrees, Noted.step_addAll]
  · have haccount := haccounts hdepth (Nat.le_refl _)
    have hmentioned := List.subperm_of_subset haccount.once fun i hi => (haccount.fresh i hi).2
    exact ⟨haccount.once, Nat.le_trans hmentioned.length_le (List.length_filterMap_le _ _)⟩

open Declarations.Sample in
/-- Films, whose sequels are films, and filters, which may be negated, are described once each. -/
theorem build_ends_sample : Arises catalogue (ofCalls Sample.calls) ∧
    (Noted.addAll catalogue 8 (ofCalls Sample.calls).declarations).notes
      (.start (ofCalls Sample.calls).declarations) = [.object (some film), .inputObject filter] ∧
    ((∃ s, ((ofCalls Sample.calls).build catalogue).1 = .ok s) ∨
      ∃ e, ((ofCalls Sample.calls).build catalogue).1 = .error (.refused e)) :=
  ⟨arises_ofCalls _ _, rfl, (build_ends (arises_ofCalls catalogue Sample.calls)).1⟩

end SchemaBuilder

end Trellis
