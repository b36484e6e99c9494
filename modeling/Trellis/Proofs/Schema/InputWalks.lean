import Trellis.Proofs.Schema.Soundness

/-!
Walks through the types of arguments.

Scalars, enums and input objects keep a registry in good order, and every name that is handed out
for a description is the one its host type is entered under.
-/

namespace Trellis

namespace Registering

variable {d : Declarations} {catalogue : Catalogue} {opened : List (String × Identity)}
  {r s : Registry}

theorem runs_reserve {name : String} {u : Unit} (h : Runs (reserve name) r u s) :
    name ∉ r.types.map (·.1) ∧ s = { r with types := r.types ++ [(name, none)] } := by
  rw [reserve, runs_get_bind] at h
  split at h
  · exact absurd h not_runs_refuse
  · rename_i hnone
    have hlookup := Option.not_isSome_iff_eq_none.mp hnone
    exact ⟨Entries.notMem_of_lookup hlookup, runs_modify.mp h⟩

theorem runs_fill {node : TypeNode} {u : Unit} (h : Runs (fill node) r u s) :
    s = { r with types := r.types.map fun (name, slot) =>
      if name = node.name then (name, some node) else (name, slot) } :=
  runs_modify.mp h

theorem fill_advances (node : TypeNode) {u : Unit} (h : Runs (fill node) r u s)
    (hr : d.Sound catalogue ((node.name, node.identity) :: opened) r)
    (hnode : d.NodeHolds catalogue r node) : d.Advances catalogue opened r s := by
  obtain rfl := runs_fill h
  exact ⟨hr.fill hnode, .fill hr.tidy⟩

theorem addScalar_advances {scalar : ScalarType} {u : Unit} (h : Runs (addScalar scalar) r u s)
    (hr : d.Sound catalogue opened r) : d.Advances catalogue opened r s := by
  rw [addScalar, runs_get_bind] at h
  split at h
  · exact absurd h not_runs_refuse
  · rename_i hnew
    obtain ⟨_, _, hreserve, hfill⟩ := runs_bind.mp h
    obtain ⟨hname, rfl⟩ := runs_reserve hreserve
    rw [runs_modify_bind] at hfill
    have hopened := hr.reserve hname (.scalar scalar.coercion.host)
    have hentered := hopened.enterScalar (Entries.notMem_of_lookup hnew) List.mem_cons_self
    obtain ⟨hsound, hextends⟩ := fill_advances (.scalar scalar) hfill hentered trivial
    exact ⟨hsound, ((Registry.Extends.reserve _ _).trans (.enterScalar _ _)).trans hextends⟩

theorem runs_scalarName {host : HostType} {name : String} (h : Runs (scalarName host) r name s) :
    (host, name) ∈ r.scalarNames ∧ s = r := by
  rw [scalarName, runs_get_bind] at h
  split at h
  · rename_i found hfound
    obtain ⟨rfl, rfl⟩ := runs_pure.mp h
    exact ⟨Entries.mem_of_lookup hfound, rfl⟩
  · exact absurd h not_runs_refuse

/-- An enum that is met gets one name, for values and for arguments. -/
theorem registerEnum_advances (hd : d.Unambiguous catalogue) {host : HostType} {shape : EnumShape}
    {name : String} (h : Runs (registerEnum host shape) r name s) (hr : d.Sound catalogue opened r)
    (hdescribes : d.Describes catalogue (.enumeration host shape)) :
    d.Advances catalogue opened r s ∧ (host, name) ∈ s.outputs ∧ (host, name) ∈ s.inputs := by
  rw [registerEnum, runs_get_bind] at h
  split at h
  · rename_i found hfound
    obtain ⟨rfl, rfl⟩ := runs_pure.mp h
    have hmem := Entries.mem_of_lookup hfound
    refine ⟨⟨hr, .refl _⟩, hmem, ?_⟩
    rcases hr.outputs host name hmem with ⟨-, outline, hobject⟩ | ⟨hinput, -⟩
    · exact absurd hobject (hd.object host shape outline hdescribes)
    · exact hinput
  · rename_i hnew
    have hout := Entries.notMem_of_lookup hnew
    -- An enum is known for both uses or for none, so its entry replaces no other one.
    have hin : host ∉ r.inputs.map (·.1) := by
      intro hmem
      obtain ⟨⟨_, other⟩, hentry, rfl⟩ := List.mem_map.mp hmem
      rcases hr.inputs _ other hentry with ⟨-, outline, hinput⟩ | ⟨houtput, -⟩
      · exact hd.inputObject _ shape outline hdescribes hinput
      · exact hout (List.mem_map_of_mem houtput)
    rw [runs_get_bind] at h
    dsimp only at h
    rw [runs_modify_bind] at h
    obtain ⟨_, _, hreserve, hrest⟩ := runs_bind.mp h
    obtain ⟨hname, rfl⟩ := runs_reserve hreserve
    rw [runs_modify_bind, Entries.put_of_notMem hin] at hrest
    obtain ⟨_, _, hfill, hpure⟩ := runs_bind.mp hrest
    obtain ⟨rfl, rfl⟩ := runs_pure.mp hpure
    have hused : r.enumDeclarations.filter (·.1 ≠ host) ⊆ r.enumDeclarations :=
      List.filter_subset_self _
    have hdropped := hr.drop (List.Subset.refl _) hused
    have hopened := hdropped.reserve hname (.enumeration host)
    have hentered := hopened.enterEnumeration hout hin List.mem_cons_self hdescribes
    obtain ⟨hsound, hextends⟩ := fill_advances (.enumeration _) hfill hentered trivial
    refine ⟨⟨hsound, .trans ?_ hextends⟩, hextends.outputs (by simp), hextends.inputs (by simp)⟩
    exact (Registry.Extends.drop _ _ _).trans ((Registry.Extends.reserve _ _).trans
      ((Registry.Extends.enterOutput _ _).trans (.enterInput _ _)))

/-- A walk through input objects that enters every one of them. -/
def InputWalk (d : Declarations) (catalogue : Catalogue)
    (walk : HostType → HostType → Registering String) : Prop :=
  ∀ {opened : List (String × Identity)} {host outline : HostType} {name : String}
    {r s : Registry}, Runs (walk host outline) r name s → d.Sound catalogue opened r →
    d.Describes catalogue (.inputObject host outline) →
    d.Advances catalogue opened r s ∧ (host, name) ∈ s.inputs

/-- The type of an argument is the translation of its description. -/
theorem inputType_advances (hd : d.Unambiguous catalogue)
    {walk : HostType → HostType → Registering String} (hwalk : InputWalk d catalogue walk)
    {ref : TypeRef} {type : TypeLiteral} (h : Runs (inputType walk ref) r type s)
    (hr : d.Sound catalogue opened r) (hdescribes : d.Describes catalogue ref) :
    d.Advances catalogue opened r s ∧ d.Takes catalogue s ref type := by
  induction ref generalizing type with
  | nullable _ inner ih =>
    obtain ⟨under, hinner, rfl⟩ := runs_map.mp h
    obtain ⟨hadvances, hdescribed, name, rfl, hname⟩ := ih hinner hdescribes.nullable
    exact ⟨hadvances, hdescribed, name, rfl, hname⟩
  | list _ inner ih =>
    obtain ⟨under, hinner, rfl⟩ := runs_map.mp h
    obtain ⟨hadvances, hdescribed, name, rfl, hname⟩ := ih hinner hdescribes.list
    exact ⟨hadvances, hdescribed, name, rfl, hname⟩
  | scalar host =>
    obtain ⟨name, hscalar, rfl⟩ := runs_map.mp h
    obtain ⟨hmem, rfl⟩ := runs_scalarName hscalar
    exact ⟨⟨hr, .refl _⟩, hdescribes, name, rfl, hmem⟩
  | enumeration host shape =>
    obtain ⟨name, henum, rfl⟩ := runs_map.mp h
    obtain ⟨hadvances, -, hmem⟩ := registerEnum_advances hd henum hr hdescribes
    exact ⟨hadvances, hdescribes, name, rfl, hmem⟩
  | inputObject host outline =>
    obtain ⟨name, hobject, rfl⟩ := runs_map.mp h
    obtain ⟨hadvances, hmem⟩ := hwalk hobject hr hdescribes
    exact ⟨hadvances, hdescribes, name, rfl, hmem⟩
  | object | union | function | generic => exact absurd h not_runs_refuse

/-- If every step advances to a result that has a property, and growth keeps the property, then all
results have it. -/
theorem mapM_advances {α β : Type} {f : α → Registering β} {Q : Registry → β → Prop}
    {items : List α} (hgrows : ∀ {t t' : Registry} {b : β}, t.Extends t' → Q t b → Q t' b)
    (hstep : ∀ item ∈ items, ∀ {b : β} {t t' : Registry}, Runs (f item) t b t' →
      d.Sound catalogue opened t → d.Advances catalogue opened t t' ∧ Q t' b)
    {bs : List β} (h : Runs (items.mapM f) r bs s) (hr : d.Sound catalogue opened r) :
    d.Advances catalogue opened r s ∧ ∀ b ∈ bs, Q s b := by
  refine mapM_invariant (P := fun t done => d.Advances catalogue opened r t ∧ ∀ b ∈ done, Q t b)
    (fun item hitem {done b t t'} hrun ⟨hgrown, hdone⟩ => ?_) h ⟨⟨hr, .refl r⟩, by simp⟩
  obtain ⟨hadvances, hb⟩ := hstep item hitem hrun hgrown.1
  refine ⟨hgrown.trans hadvances, List.forall_mem_append.mpr ⟨fun other hother => ?_, ?_⟩⟩
  · exact hgrows hadvances.2 (hdone other hother)
  · exact List.forall_mem_singleton.mpr hb

/-- The types of the fields of an input object, each next to its name. -/
theorem inputFields_advances (hd : d.Unambiguous catalogue)
    {walk : HostType → HostType → Registering String} (hwalk : InputWalk d catalogue walk)
    {fields : List InputField} (hdescribes : ∀ f ∈ fields, d.Describes catalogue f.type)
    {typed : List (String × TypeLiteral)}
    (h : Runs (fields.mapM fun field => do pure (field.name, ← inputType walk field.type)) r typed s)
    (hr : d.Sound catalogue opened r) : d.Advances catalogue opened r s ∧
      ∀ f ∈ typed, ∃ field ∈ fields, field.name = f.1 ∧ d.Takes catalogue s field.type f.2 := by
  refine mapM_advances (Q := fun t f => ∃ field ∈ fields, field.name = f.1 ∧
    d.Takes catalogue t field.type f.2) ?_ ?_ h hr
  · rintro t t' f hgrown ⟨field, hfield, hname, htakes⟩
    exact ⟨field, hfield, hname, htakes.extends hgrown⟩
  · intro field hfield f t t' hrun ht
    obtain ⟨type, t'', htype, hpure⟩ := runs_bind.mp hrun
    obtain ⟨rfl, rfl⟩ := runs_pure.mp hpure
    obtain ⟨hadvances, htakes⟩ := inputType_advances hd hwalk htype ht (hdescribes field hfield)
    exact ⟨hadvances, field, hfield, rfl, htakes⟩

/-- An input object that is met is entered under its name, with the types of all its fields. -/
theorem registerInput_advances (hd : d.Unambiguous catalogue) (depth : Nat) :
    InputWalk d catalogue (registerInput catalogue depth) := by
  induction depth with
  | zero => exact fun h => absurd h not_runs_throw
  | succ depth ih =>
    intro opened host outline name r s h hr hdescribes
    rw [registerInput, runs_get_bind] at h
    split at h
    · rename_i found hfound
      obtain ⟨rfl, rfl⟩ := runs_pure.mp h
      exact ⟨⟨hr, .refl _⟩, Entries.mem_of_lookup hfound⟩
    · rename_i hnew
      dsimp only at h
      obtain ⟨_, _, hreserve, hrest⟩ := runs_bind.mp h
      obtain ⟨hname, rfl⟩ := runs_reserve hreserve
      rw [runs_modify_bind] at hrest
      obtain ⟨fields, t, hfields, hrest⟩ := runs_bind.mp hrest
      obtain ⟨_, _, hfill, hpure⟩ := runs_bind.mp hrest
      obtain ⟨rfl, rfl⟩ := runs_pure.mp hpure
      have hopened := hr.reserve hname (.inputObject host)
      have hentered := hopened.enterInputObject (Entries.notMem_of_lookup hnew) List.mem_cons_self
        hdescribes
      obtain ⟨⟨hsound, hextends⟩, htyped⟩ :=
        inputFields_advances hd ih (fun f hf => hdescribes.inputField hf) hfields hentered
      have hnode : d.NodeHolds catalogue t (.inputObject
          ⟨(catalogue.input outline).name, none, host, Entries.ofPairs fields⟩) :=
        ⟨outline, hdescribes, fun f hf => htyped f (Entries.mem_of_mem_ofPairs hf)⟩
      obtain ⟨hsound', hextends'⟩ := fill_advances _ hfill hsound hnode
      refine ⟨⟨hsound', .trans ?_ hextends'⟩, hextends'.inputs (hextends.inputs (by simp))⟩
      exact ((Registry.Extends.reserve _ _).trans (.enterInput _ _)).trans hextends

end Registering

end Trellis
