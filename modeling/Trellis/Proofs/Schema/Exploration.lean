import Trellis.Proofs.Schema.Reachability

/-!
Walks explore what can be reached.

Every step of a walk meets the descriptions that it is about, and takes no others but those that they
lead on to. This passes through all ways of putting steps together, and through walks that come back
to an object or an input object whose fields are still walked.
-/

namespace Trellis

theorem Entries.mem_map_put {κ α : Type} [DecidableEq κ] {entries : List (κ × α)} {key k : κ}
    {value : α} :
    k ∈ (put key value entries).map (·.1) ↔ key = k ∨ k ∈ entries.map (·.1) := by
  have hkeys := keys_put key value entries
  rw [keys, keys] at hkeys
  rw [hkeys]
  by_cases hmem : key ∈ entries.map (·.1)
  · rw [if_pos hmem]
    exact ⟨.inr, fun h => h.elim (fun he => he ▸ hmem) id⟩
  · rw [if_neg hmem, List.mem_append, List.mem_singleton, or_comm, eq_comm]

theorem Parameters.map_snd_arguments {kinds named : Parameters} {names : List String}
    (h : kinds.name? names = some named) :
    named.arguments.map (·.2) = argumentTypes kinds.kinds := by
  rw [name?] at h
  split at h
  · rename_i hlength
    cases h
    rw [arguments, ← List.unzip_snd, List.unzip_zip hlength]
  · cases h

namespace Registering

/-- A step meets some descriptions: taken where they can be reached, it leaves none of them out, and
takes nothing that cannot be reached. -/
structure Meets (d : Declarations) (catalogue : Catalogue) {α : Type} (op : Registering α)
    (refs : List TypeRef) : Prop where
  explores : ∀ {opened : List (String × Identity)} {pending taken : List TypeRef}
    {r s : Registry} {a : α}, Runs op r a s → d.Explored catalogue opened pending taken r →
    (∀ ref ∈ refs, d.Reaches catalogue (· ∈ taken) ref) →
      ∃ taken', taken ⊆ taken' ∧ d.Explored catalogue opened pending taken' s ∧
        ∀ ref ∈ refs, ref.Met taken'

variable {d : Declarations} {catalogue : Catalogue}

namespace Meets

variable {α β : Type} {op : Registering α} {refs refs' : List TypeRef}

/-- Descriptions may be replaced by others that are reached and met with them. -/
theorem imp (h : Meets d catalogue op refs)
    (hreaches : ∀ {through : TypeRef → Prop}, (∀ ref ∈ refs', d.Reaches catalogue through ref) →
      ∀ ref ∈ refs, d.Reaches catalogue through ref)
    (hmet : ∀ {taken : List TypeRef}, (∀ ref ∈ refs, ref.Met taken) →
      ∀ ref ∈ refs', ref.Met taken) : Meets d catalogue op refs' where
  explores hruns hr hrefs := by
    obtain ⟨taken', hgrown, hs, hall⟩ := h.explores hruns hr (hreaches hrefs)
    exact ⟨taken', hgrown, hs, hmet hall⟩

theorem congr (h : Meets d catalogue op refs) (hmem : ∀ ref, ref ∈ refs ↔ ref ∈ refs') :
    Meets d catalogue op refs' :=
  h.imp (fun hall ref href => hall ref ((hmem ref).mp href))
    fun hall ref href => hall ref ((hmem ref).mpr href)

theorem idle (hop : ∀ {r s : Registry} {a : α}, Runs op r a s → s = r)
    (hmet : ∀ {taken : List TypeRef}, ∀ ref ∈ refs, ref.Met taken) : Meets d catalogue op refs where
  explores hruns hr _ := by
    obtain rfl := hop hruns
    exact ⟨_, List.Subset.refl _, hr, hmet⟩

theorem pure (a : α) : Meets d catalogue (Pure.pure a) [] :=
  idle (fun h => (runs_pure.mp h).2) fun _ hmem => absurd hmem List.not_mem_nil

theorem refuse (e : SchemaError) (refs : List TypeRef) :
    Meets d catalogue (Registering.refuse e : Registering α) refs where
  explores h := absurd h not_runs_refuse

theorem bind {next : α → Registering β} (h : Meets d catalogue op refs)
    (hnext : ∀ a, Meets d catalogue (next a) refs') :
    Meets d catalogue (op >>= next) (refs ++ refs') where
  explores hruns hr hrefs := by
    obtain ⟨a, t, hop, hrest⟩ := runs_bind.mp hruns
    rw [List.forall_mem_append] at hrefs
    obtain ⟨taken', hgrown, ht, hmet⟩ := h.explores hop hr hrefs.1
    obtain ⟨taken'', hgrown', hs, hmet'⟩ := (hnext a).explores hrest ht fun ref hmem =>
      (hrefs.2 ref hmem).mono fun _ => @hgrown _
    refine ⟨taken'', List.Subset.trans hgrown hgrown', hs,
      List.forall_mem_append.mpr ⟨fun ref hmem => ?_, hmet'⟩⟩
    exact (hmet ref hmem).mono hgrown'

theorem bindIdle {next : α → Registering β} (h : Meets d catalogue op refs)
    (hnext : ∀ a, Meets d catalogue (next a) []) : Meets d catalogue (op >>= next) refs := by
  rw [← List.append_nil refs]
  exact h.bind hnext

theorem map (f : α → β) (h : Meets d catalogue op refs) : Meets d catalogue (f <$> op) refs := by
  rw [map_eq_pure_bind]
  exact h.bindIdle fun a => pure (f a)

theorem nullable {host : HostType} {inner : TypeRef} (h : Meets d catalogue op [inner]) :
    Meets d catalogue op [.nullable host inner] := by
  refine h.imp (fun hall => ?_) fun {taken} hall => ?_
  · exact List.forall_mem_singleton.mpr (List.forall_mem_singleton.mp hall).nullable
  · have hmet : inner.Met taken := List.forall_mem_singleton.mp hall
    exact List.forall_mem_singleton.mpr hmet

theorem list {host : HostType} {inner : TypeRef} (h : Meets d catalogue op [inner]) :
    Meets d catalogue op [.list host inner] := by
  refine h.imp (fun hall => ?_) fun {taken} hall => ?_
  · exact List.forall_mem_singleton.mpr (List.forall_mem_singleton.mp hall).list
  · have hmet : inner.Met taken := List.forall_mem_singleton.mp hall
    exact List.forall_mem_singleton.mpr hmet

theorem discard (h : Meets d catalogue op refs) :
    Meets d catalogue (Functor.discard op) refs :=
  h.map fun _ => ()

theorem optional {c : Prop} [Decidable c] {op : Registering Unit} {next : Registering β}
    (h : Meets d catalogue op []) (hnext : Meets d catalogue next refs) :
    Meets d catalogue (if c then op >>= fun _ => next else next) refs := by
  by_cases hc : c
  · rw [if_pos hc, ← List.nil_append refs]
    exact h.bind fun _ => hnext
  · rw [if_neg hc]
    exact hnext

theorem foldlM {f : β → α → Registering β} {refs : α → List TypeRef} {items : List α}
    (h : ∀ item ∈ items, ∀ b, Meets d catalogue (f b item) (refs item)) (b : β) :
    Meets d catalogue (items.foldlM f b) (items.flatMap refs) := by
  induction items generalizing b with
  | nil => exact pure b
  | cons item items ih =>
    rw [List.foldlM_cons, List.flatMap_cons]
    exact (h item List.mem_cons_self b).bind
      (ih fun other hmem => h other (List.mem_cons_of_mem _ hmem))

theorem mapM {f : α → Registering β} {refs : α → List TypeRef} {items : List α}
    (h : ∀ item ∈ items, Meets d catalogue (f item) (refs item)) :
    Meets d catalogue (items.mapM f) (items.flatMap refs) := by
  induction items with
  | nil =>
    rw [List.mapM_nil]
    exact pure []
  | cons item items ih =>
    rw [List.mapM_cons, List.flatMap_cons]
    exact (h item List.mem_cons_self).bind fun b =>
      (ih fun other hmem => h other (List.mem_cons_of_mem _ hmem)).bindIdle
        fun rest => pure (b :: rest)

theorem forM {f : α → Registering Unit} {refs : α → List TypeRef} {items : List α}
    (h : ∀ item ∈ items, Meets d catalogue (f item) (refs item)) :
    Meets d catalogue (items.forM f) (items.flatMap refs) := by
  induction items with
  | nil => exact pure ()
  | cons item items ih =>
    rw [List.flatMap_cons]
    exact (h item List.mem_cons_self).bind fun _ =>
      ih fun other hmem => h other (List.mem_cons_of_mem _ hmem)

theorem each {f : TypeRef → Registering Unit} (h : ∀ ref ∈ refs, Meets d catalogue (f ref) [ref]) :
    Meets d catalogue (refs.forM f) refs :=
  (forM h).congr fun ref => by rw [List.flatMap_singleton']

end Meets

/-! ### Arguments -/

theorem meets_scalarName (host : HostType) :
    Meets d catalogue (scalarName host) [.scalar host] :=
  .idle (fun h => (runs_scalarName h).2) fun ref hmem => by
    obtain rfl := List.mem_singleton.mp hmem
    trivial

/-- An enum is taken unless its host type is entered already. -/
theorem meets_registerEnum (host : HostType) (shape : EnumShape) :
    Meets d catalogue (registerEnum host shape) [.enumeration host shape] where
  explores {opened pending taken r s name} h hr hreaches := by
    rw [List.forall_mem_singleton] at hreaches
    cases hlookup : r.outputs.lookup host with
    | some found =>
      obtain ⟨-, rfl⟩ := (runs_registerEnum_met hlookup).mp h
      refine ⟨taken, List.Subset.refl _, hr, List.forall_mem_singleton.mpr ?_⟩
      exact (hr.outputs host).mp (List.mem_map_of_mem (Entries.mem_of_lookup hlookup))
    | none =>
      obtain ⟨rfl, hname, rfl⟩ := (runs_registerEnum hlookup hr.unspent).mp h
      have hnew := Entries.notMem_of_lookup hlookup
      have hunspent := unspent_withEnum hr.unspent (d.enumeration host shape)
      have htaken := hr.take (.enumeration host shape) rfl (fun other hmem hi => ?_) hreaches hname
        (s := { r with
          enumDeclarations := r.enumDeclarations.filter (·.1 ≠ host)
          types := r.types ++ [((d.enumeration host shape).name, none)]
          outputs := r.outputs ++ [(host, (d.enumeration host shape).name)]
          inputs := Entries.put host (d.enumeration host shape).name r.inputs }) rfl
        (fun other => ?_) (fun other => ?_) ⟨hunspent.types, hunspent.enums⟩ (List.Subset.refl _)
        (List.filter_subset_self _)
      · have hdone := (htaken.fill (.enumeration (d.enumeration host shape))).finish
          fun next hmem => absurd hmem List.not_mem_nil
        exact ⟨_, List.subset_cons_self _ _, hdone,
          List.forall_mem_singleton.mpr ⟨_, List.mem_cons_self, rfl⟩⟩
      · refine hnew ((hr.outputs host).mpr ⟨other, hmem, ?_⟩)
        cases other <;> cases hi
        rfl
      · rw [List.map_append, List.mem_append, or_comm]
        simp [TypeRef.output?, eq_comm]
      · rw [Entries.mem_map_put]
        simp [TypeRef.input?]

/-- A walk through input objects that meets each of them. -/
def MeetsInputs (d : Declarations) (catalogue : Catalogue)
    (walk : HostType → HostType → Registering String) : Prop :=
  ∀ host outline, Meets d catalogue (walk host outline) [.inputObject host outline]

theorem meets_inputType {walk : HostType → HostType → Registering String}
    (hwalk : MeetsInputs d catalogue walk) (ref : TypeRef) :
    Meets d catalogue (inputType walk ref) [ref] := by
  induction ref with
  | nullable host inner ih => exact (ih.map _).nullable
  | list host inner ih => exact (ih.map _).list
  | scalar host => exact (meets_scalarName host).map _
  | enumeration host shape => exact (meets_registerEnum host shape).map _
  | inputObject host outline => exact (hwalk host outline).map _
  | object | union | function | generic => exact .refuse _ _

theorem meets_inputFields {walk : HostType → HostType → Registering String}
    (hwalk : MeetsInputs d catalogue walk) (fields : List InputField) :
    Meets d catalogue
      (fields.mapM fun field => do pure (field.name, ← inputType walk field.type))
      (fields.map (·.type)) := by
  rw [List.map_eq_flatMap]
  exact .mapM fun field _ =>
    (meets_inputType hwalk field.type).bindIdle fun type => .pure (field.name, type)

/-- Input objects are taken before their fields are walked, so a walk may come back to them. -/
theorem meets_registerInput (depth : Nat) :
    MeetsInputs d catalogue (registerInput catalogue depth) := by
  induction depth with
  | zero => exact fun host outline => ⟨fun h => absurd h not_runs_throw⟩
  | succ depth ih =>
    refine fun host outline => ⟨fun {opened pending taken r s name} h hr hreaches => ?_⟩
    rw [List.forall_mem_singleton] at hreaches
    cases hlookup : r.inputs.lookup host with
    | some found =>
      obtain ⟨-, rfl⟩ := (runs_registerInput_met hlookup).mp h
      refine ⟨taken, List.Subset.refl _, hr, List.forall_mem_singleton.mpr ?_⟩
      exact (hr.inputs host).mp (List.mem_map_of_mem (Entries.mem_of_lookup hlookup))
    | none =>
      obtain ⟨rfl, hname, fields, t, hfields, rfl⟩ := (runs_registerInput hlookup).mp h
      have hnew := Entries.notMem_of_lookup hlookup
      have htaken := hr.take (.inputObject host outline)
        (s := withInput r host (catalogue.input outline).name) rfl (fun other hmem hi => ?_)
        hreaches hname rfl (fun other => ?_) (fun other => ?_) (unspent_withInput hr.unspent _ _)
        (List.Subset.refl _) (List.Subset.refl _)
      · obtain ⟨taken', hgrown, ht, hmet⟩ := (meets_inputFields ih _).explores hfields htaken
          fun ref hmem => .link (hreaches.mono fun _ => List.mem_cons_of_mem _) List.mem_cons_self hmem
        have hkept := List.Subset.trans (List.subset_cons_self _ _) hgrown
        refine ⟨taken', hkept, (ht.finish hmet).fill _, ?_⟩
        exact List.forall_mem_singleton.mpr ⟨_, hgrown List.mem_cons_self, rfl⟩
      · refine hnew ((hr.inputs host).mpr ⟨other, hmem, ?_⟩)
        cases other <;> cases hi
        rfl
      · simp [withInput, TypeRef.output?]
      · rw [withInput, List.map_append, List.mem_append, or_comm]
        simp [TypeRef.input?, eq_comm]

/-! ### Objects -/

/-- A walk through objects that meets each of them. -/
def MeetsObjects (d : Declarations) (catalogue : Catalogue)
    (walk : HostType → HostType → Registering String) : Prop :=
  ∀ host outline, Meets d catalogue (walk host outline) [.object host outline]

variable {walk : HostType → HostType → Registering String} {inputDepth : Nat}

theorem meets_outputType (hwalk : MeetsObjects d catalogue walk) (site : Site) (ref : TypeRef) :
    Meets d catalogue (outputType walk site ref) [ref] := by
  induction ref with
  | nullable host inner ih => exact (ih.map _).nullable
  | list host inner ih => exact (ih.map _).list
  | scalar host => exact (meets_scalarName host).map _
  | enumeration host shape => exact (meets_registerEnum host shape).map _
  | object host outline => exact (hwalk host outline).map _
  | union host =>
    rw [outputType]
    cases site.union with
    | none => exact .refuse _ _
    | some name =>
      exact (Meets.pure _).imp (fun _ _ hmem => absurd hmem List.not_mem_nil) fun _ ref hmem => by
        obtain rfl := List.mem_singleton.mp hmem
        trivial
  | inputObject | function | generic => exact .refuse _ _

theorem meets_mergeArguments (owner property : String) (declared : List (String × TypeRef))
    (arguments : List Argument) :
    Meets d catalogue (mergeArguments catalogue inputDepth owner property arguments declared)
      (declared.map (·.2)) := by
  induction declared generalizing arguments with
  | nil => exact .pure _
  | cons argument declared ih =>
    refine (meets_inputType (meets_registerInput inputDepth) argument.2).bind fun type => ?_
    cases arguments.find? (·.name == argument.1) with
    | none => exact ih _
    | some existing =>
      by_cases hsame : existing.type = type
      · simpa only [if_pos hsame] using ih arguments
      · simpa only [if_neg hsame] using .refuse _ _

/-- The return type of a declared property is met, and the types of its arguments. -/
theorem meets_property (hwalk : MeetsObjects d catalogue walk) (owner : String)
    (declaration : PropertyDeclaration) :
    Meets d catalogue (property catalogue inputDepth walk owner declaration)
      declaration.mentions := by
  simp only [property]
  cases hresolver : declaration.resolver with
  | none => exact .refuse _ _
  | some resolver =>
    dsimp only
    rw [PropertyDeclaration.mentions, hresolver]
    cases hparameters : resolver.parameters.name? declaration.arguments with
    | none => exact .refuse _ _
    | some parameters =>
      dsimp only
      rw [← Parameters.map_snd_arguments hparameters]
      refine .optional (.idle (fun h => (runs_checkUnion h).1)
        fun _ hmem => absurd hmem List.not_mem_nil) ?_
      exact (meets_outputType hwalk ⟨owner, declaration.name, declaration.union⟩
        resolver.returns).bind fun type =>
          (meets_mergeArguments owner declaration.name parameters.arguments []).bindIdle
            fun arguments => .pure _

theorem meets_insertProperty (owner : String) (properties : List Property) (p : Property) :
    Meets d catalogue (insertProperty owner properties p) [] :=
  .idle (fun h => (runs_insertProperty h).2) fun _ hmem => absurd hmem List.not_mem_nil

theorem meets_insertDeclared (hwalk : MeetsObjects d catalogue walk) (owner : String)
    (declarations : List PropertyDeclaration) (properties : List Property) :
    Meets d catalogue (insertDeclared catalogue inputDepth walk owner properties declarations)
      (declarations.flatMap (·.mentions)) :=
  .foldlM (fun declaration _ properties =>
    (meets_property hwalk owner declaration).bindIdle (meets_insertProperty owner properties))
      properties

theorem meets_insertFields (hwalk : MeetsObjects d catalogue walk) (owner : String)
    (host : HostType) (ignored : List String) (fields : List ObjectField) :
    Meets d catalogue (insertFields walk owner host ignored fields)
      ((fields.filter (·.name ∉ ignored)).map (·.type)) := by
  rw [List.map_eq_flatMap]
  exact .foldlM (fun field _ properties => (meets_outputType hwalk ⟨owner, field.name, none⟩
    field.type).bindIdle fun type => meets_insertProperty owner properties _) []

theorem meets_adjustProperty {change : Property → Registering Property} {refs : List TypeRef}
    (hchange : ∀ p, Meets d catalogue (change p) refs) (owner name : String)
    (properties : List Property) :
    Meets d catalogue (adjustProperty owner name change properties) refs := by
  induction properties with
  | nil => exact .refuse _ _
  | cons p rest ih =>
    rw [adjustProperty]
    split
    · exact (hchange p).bindIdle fun changed => .pure (changed :: rest)
    · exact ih.bindIdle fun others => .pure (p :: others)

theorem meets_attach (owner : String) (declaration : TransformationDeclaration) (p : Property) :
    Meets d catalogue (attach catalogue inputDepth owner declaration p) declaration.mentions := by
  rw [attach, TransformationDeclaration.mentions]
  cases declaration.transformation with
  | none => exact .refuse _ _
  | some transformation =>
    dsimp only
    cases hparameters : transformation.parameters.name? declaration.arguments with
    | none => exact .refuse _ _
    | some parameters =>
      dsimp only
      rw [← Parameters.map_snd_arguments hparameters]
      split
      · exact .refuse _ _
      · exact (meets_mergeArguments owner p.name parameters.arguments p.arguments).bindIdle
          fun arguments => .pure _

/-- The properties of an object meet all that its description leads on to. -/
theorem meets_walkProperties (hwalk : MeetsObjects d catalogue walk) (name : String)
    (host outline : HostType) :
    Meets d catalogue (walkProperties catalogue inputDepth walk name (catalogue.object outline) host
      (d.customization host outline)) (d.links catalogue (.object host outline)) := by
  rw [walkProperties, Declarations.links]
  generalize d.customization host outline = declaration
  cases declaration.ignored.find?
      fun field => !((catalogue.object outline).fields.any (·.name == field)) with
  | some unknown => exact .refuse _ _
  | none =>
    have hchanges (properties : List Property) : Meets d catalogue
        (declaration.changes.foldlM (fun properties change => adjustProperty name change.1
          (fun p => pure (configure change.2 p)) properties) properties)
        (declaration.changes.flatMap fun _ => []) :=
      .foldlM (fun change _ => meets_adjustProperty (fun p => .pure (configure change.2 p)) name
        change.1) properties
    have htransformations (properties : List Property) : Meets d catalogue
        (declaration.transformations.foldlM (fun properties t => adjustProperty name t.property
          (attach catalogue inputDepth name t) properties) properties)
        (declaration.transformations.flatMap (·.mentions)) :=
      .foldlM (fun t _ => meets_adjustProperty (meets_attach name t) name t.property) properties
    refine Meets.congr ((meets_insertFields hwalk name host declaration.ignored
      (catalogue.object outline).fields).bind fun native =>
        (meets_insertDeclared hwalk name declaration.properties native).bind fun declared =>
          (hchanges declared).bind htransformations) fun ref => by simp

/-- Objects are taken before their properties are walked, so a walk may come back to them. -/
theorem meets_registerObject (depth : Nat) :
    MeetsObjects d catalogue (registerObject catalogue inputDepth depth) := by
  induction depth with
  | zero => exact fun host outline => ⟨fun h => absurd h not_runs_throw⟩
  | succ depth ih =>
    refine fun host outline => ⟨fun {opened pending taken r s name} h hr hreaches => ?_⟩
    rw [List.forall_mem_singleton] at hreaches
    cases hlookup : r.outputs.lookup host with
    | some found =>
      obtain ⟨-, rfl⟩ := (runs_registerObject_met hlookup).mp h
      refine ⟨taken, List.Subset.refl _, hr, List.forall_mem_singleton.mpr ?_⟩
      exact (hr.outputs host).mp (List.mem_map_of_mem (Entries.mem_of_lookup hlookup))
    | none =>
      obtain ⟨properties, t, rfl, hname, hproperties, rfl⟩ :=
        (runs_registerObject hlookup hr.unspent).mp h
      have hnew := Entries.notMem_of_lookup hlookup
      have htaken := hr.take (.object host outline)
        (s := withObject r host (d.objectWith catalogue host outline properties).name) rfl
        (fun other hmem hi => ?_) hreaches hname rfl (fun other => ?_) (fun other => ?_)
        (unspent_withObject hr.unspent _ _) (List.filter_subset_self _) (List.Subset.refl _)
      · obtain ⟨taken', hgrown, ht, hmet⟩ :=
          (meets_walkProperties ih _ host outline).explores hproperties htaken
            fun ref hmem => .link (hreaches.mono fun _ => List.mem_cons_of_mem _) List.mem_cons_self
              hmem
        have hkept := List.Subset.trans (List.subset_cons_self _ _) hgrown
        refine ⟨taken', hkept, (ht.finish hmet).fill _, ?_⟩
        exact List.forall_mem_singleton.mpr ⟨_, hgrown List.mem_cons_self, rfl⟩
      · refine hnew ((hr.outputs host).mpr ⟨other, hmem, ?_⟩)
        cases other <;> cases hi
        rfl
      · rw [withObject, List.map_append, List.mem_append, or_comm]
        simp [TypeRef.output?, eq_comm]
      · simp [withObject, TypeRef.input?]

end Registering

end Trellis
