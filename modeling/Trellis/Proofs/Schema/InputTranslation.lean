import Trellis.Proofs.Schema.Translation

/-!
Translation of the types of arguments.

Scalars, enums and input objects have the names that they are given, wherever they are met first.
When a type is met, its name is still free: a name that was taken would be that of another type.
-/

namespace Trellis

namespace Entries

variable {κ α : Type} [DecidableEq κ]

theorem lookup_filter_ne {entries : List (κ × α)} {key other : κ} (h : other ≠ key) :
    (entries.filter (·.1 ≠ key)).lookup other = entries.lookup other := by
  induction entries with
  | nil => rfl
  | cons entry entries ih =>
    rcases entry with ⟨k, v⟩
    by_cases hk : k = key
    · have hne : other ≠ k := fun he => h (he.trans hk)
      rw [List.filter_cons_of_neg (by simpa using hk), ih, List.lookup_cons, beq_false_of_ne hne]
    · rw [List.filter_cons_of_pos (by simpa using hk), List.lookup_cons, List.lookup_cons, ih]

theorem lookup_concat_eq_none {entries : List (κ × α)} {key other : κ} {value : α} :
    (entries ++ [(key, value)]).lookup other = none ↔ entries.lookup other = none ∧ other ≠ key := by
  rw [List.lookup_append, Option.or_eq_none_iff, List.lookup_eq_none_iff (l := [(key, value)])]
  simp

theorem lookup_concat_eq_some {entries : List (κ × α)} {key other : κ} {value found : α}
    (h : (entries ++ [(key, value)]).lookup other = some found) :
    entries.lookup other = some found ∨ other = key ∧ value = found := by
  rw [List.lookup_append, Option.or_eq_some_iff] at h
  refine h.imp id fun ⟨_, hlast⟩ => ?_
  obtain he := List.mem_singleton.mp (mem_of_lookup hlast)
  exact ⟨(Prod.mk.inj he).1, (Prod.mk.inj he).2.symm⟩

end Entries

namespace Registry

def filled (r : Registry) (node : TypeNode) : Registry :=
  { r with types := r.types.map fun (name, slot) =>
      if name = node.name then (name, some node) else (name, slot) }

/-- What is entered in a registry is entered in a later one. -/
structure Retained (r s : Registry) : Prop where
  outputs : ∀ host, s.outputs.lookup host = none → r.outputs.lookup host = none
  inputs : ∀ host, s.inputs.lookup host = none → r.inputs.lookup host = none
  scalarNames : s.scalarNames = r.scalarNames

end Registry

namespace Declarations

variable {d : Declarations} {catalogue : Catalogue} {opened opened' : List (String × Identity)}
  {r s : Registry} {N : Names} {done : List String} {objectDepth inputDepth : Nat}

theorem Entered.retained {done' : List String} (h : r.Retained s) (hdone : done ⊆ done')
    {i : Identity} {name : String} (hi : Entered r done i name) : Entered s done' i name := by
  rcases i with host | host | (_ | host) | _ | host
  · rw [Entered, h.scalarNames]
    exact hi
  · exact fun hnone => hi (h.outputs host hnone)
  · exact hdone hi
  · exact fun hnone => hi (h.outputs host hnone)
  · exact hdone hi
  · exact fun hnone => hi (h.inputs host hnone)

/-- A registry stays faithful as long as every type that it gets is what declarations come to. -/
theorem Faithful.step (h : d.Faithful catalogue opened r) (hs : d.Sound catalogue opened' s)
    (hgrown : r.Extends s) (hunspent : d.Unspent s)
    (hnodes : ∀ {name node}, (name, some node) ∈ s.types → (name, some node) ∈ r.types ∨
      ∀ {N}, s.Under N → d.Makes catalogue N node) : d.Faithful catalogue opened' s where
  sound := hs
  unspent := hunspent
  makes hmem _ hN := by
    rcases hnodes hmem with hold | hnew
    · exact h.makes hold (hgrown.under hs hN)
    · exact hnew hN

theorem mem_filled {node other : TypeNode} {name : String}
    (h : (name, some other) ∈ (r.filled node).types) :
    (name, some other) ∈ r.types ∨ other = node := by
  rcases Tidy.mem_fill.mp h with ⟨-, hslot, -⟩ | ⟨-, hmem⟩
  · exact .inr (Option.some.inj hslot)
  · exact .inl hmem

theorem mem_reserved {node : TypeNode} {name other : String}
    (h : (other, some node) ∈ r.types ++ [(name, none)]) : (other, some node) ∈ r.types := by
  rcases List.mem_append.mp h with hmem | hmem
  · exact hmem
  · cases List.mem_singleton.mp hmem

namespace Describes

variable {host outline : HostType} {ref : TypeRef}

/-- All that is described is mentioned, apart from enums that are only customized. -/
theorem mentioned (hp : d.Proper) (h : d.Describes catalogue ref) :
    (∃ host shape, ref = .enumeration host shape) ∨
      ∃ mention ∈ catalogue.mentions ++ d.mentions, mention.innermost = ref.innermost := by
  induction h with
  | mention hmem => exact .inr ⟨_, List.mem_append_right _ hmem, rfl⟩
  | customized hmem =>
    obtain ⟨shape, htype⟩ := hp.enums _ _ hmem
    exact .inl ⟨_, shape, htype⟩
  | nullable _ ih | list _ ih =>
    rcases ih with ⟨_, _, he⟩ | hmention
    · cases he
    · exact .inr hmention
  | @field host outline f _ hf =>
    refine .inr ⟨f.type, List.mem_append_left _ (List.mem_append_left _ ?_), rfl⟩
    rw [Catalogue.object] at hf
    cases hlookup : catalogue.objects.lookup outline with
    | none =>
      rw [hlookup] at hf
      exact absurd hf List.not_mem_nil
    | some shown =>
      rw [hlookup] at hf
      exact List.mem_flatMap.mpr ⟨_, Entries.mem_of_lookup hlookup, List.mem_map_of_mem hf⟩
  | @inputField host outline f _ hf =>
    refine .inr ⟨f.type, List.mem_append_left _ (List.mem_append_right _ ?_), rfl⟩
    rw [Catalogue.input] at hf
    cases hlookup : catalogue.inputs.lookup outline with
    | none =>
      rw [hlookup] at hf
      exact absurd hf List.not_mem_nil
    | some shown =>
      rw [hlookup] at hf
      exact List.mem_flatMap.mpr ⟨_, Entries.mem_of_lookup hlookup, List.mem_map_of_mem hf⟩

theorem mem_objectHosts (hp : d.Proper) (h : d.Describes catalogue (.object host outline)) :
    host ∈ d.objectHosts catalogue := by
  obtain ⟨mention, hmem, hinner⟩ := (h.mentioned hp).resolve_left (by simp)
  refine List.mem_filterMap.mpr ⟨mention, hmem, ?_⟩
  rw [hinner]
  rfl

theorem mem_inputHosts (hp : d.Proper) (h : d.Describes catalogue (.inputObject host outline)) :
    host ∈ d.inputHosts catalogue := by
  obtain ⟨mention, hmem, hinner⟩ := (h.mentioned hp).resolve_left (by simp)
  refine List.mem_filterMap.mpr ⟨mention, hmem, ?_⟩
  rw [hinner]
  rfl

end Describes

theorem Faithful.reserve (h : d.Faithful catalogue opened r) {name : String}
    (hnew : name ∉ r.types.map (·.1)) (identity : Identity) :
    d.Faithful catalogue ((name, identity) :: opened)
      { r with types := r.types ++ [(name, none)] } :=
  h.step (h.sound.reserve hnew identity) (.reserve _ _) ⟨h.unspent.types, h.unspent.enums⟩
    fun hnode => .inl (mem_reserved hnode)

theorem Faithful.fill {node : TypeNode}
    (h : d.Faithful catalogue ((node.name, node.identity) :: opened) r)
    (hs : d.Sound catalogue opened (r.filled node))
    (hnode : ∀ {N}, r.Under N → (r.filled node).Under N → d.Makes catalogue N node) :
    d.Faithful catalogue opened (r.filled node) := by
  have hfilled : r.Extends (r.filled node) := .fill h.sound.tidy
  refine h.step hs hfilled ⟨h.unspent.types, h.unspent.enums⟩ fun hmem => ?_
  refine (mem_filled hmem).imp id ?_
  rintro rfl N hN
  exact hnode (hfilled.under hs hN) hN

namespace Unspent

theorem start (d : Declarations) : d.Unspent (.start d) := ⟨fun _ _ => rfl, fun _ _ => rfl⟩

/-- Declarations may be dropped for host types that are entered. -/
theorem spend (h : d.Unspent r) (hout : ∀ host, s.outputs.lookup host = none →
    r.outputs.lookup host = none)
    (htypes : ∀ host, s.outputs.lookup host = none →
      s.typeDeclarations.lookup host = r.typeDeclarations.lookup host)
    (henums : ∀ host, s.outputs.lookup host = none →
      s.enumDeclarations.lookup host = r.enumDeclarations.lookup host) : d.Unspent s where
  types host hnone := (htypes host hnone).trans (h.types host (hout host hnone))
  enums host hnone := (henums host hnone).trans (h.enums host (hout host hnone))

end Unspent

namespace Within

theorem fresh (h : d.Within catalogue N done objectDepth inputDepth r) (hN : d.Fits catalogue N)
    {i : Identity} {name : String} (howns : d.Owns catalogue N i name)
    (hnew : ¬ Entered r done i name) : name ∉ r.types.map (·.1) := by
  intro hmem
  obtain ⟨other, hother, hentered⟩ := h.names name hmem
  obtain rfl := hN.owner hother howns
  exact hnew hentered

/-- A type may be entered under a name of its own. -/
theorem enter (h : d.Within catalogue N done objectDepth inputDepth r) {done' : List String}
    {objectDepth' inputDepth' : Nat} (hretained : r.Retained s) (hdone : done ⊆ done')
    {i : Identity} {name : String} (howns : d.Owns catalogue N i name)
    (hentered : Entered s done' i name) (hnames : s.types.map (·.1) = r.types.map (·.1) ++ [name])
    (hunder : s.Under N) (hunspent : d.Unspent s) (htypes : s.typeDeclarations ⊆ r.typeDeclarations)
    (henums : s.enumDeclarations ⊆ r.enumDeclarations)
    (hobjects : unentered s.outputs (d.objectHosts catalogue) < objectDepth')
    (hinputs : unentered s.inputs (d.inputHosts catalogue) < inputDepth') :
    d.Within catalogue N done' objectDepth' inputDepth' s where
  under := hunder
  scalars host := by rw [hretained.scalarNames, h.scalars]
  unspent := hunspent
  typeDeclarations := List.Subset.trans htypes h.typeDeclarations
  enumDeclarations := List.Subset.trans henums h.enumDeclarations
  names other hmem := by
    rw [hnames, List.mem_append, List.mem_singleton] at hmem
    rcases hmem with hmem | rfl
    · obtain ⟨j, hj, hold⟩ := h.names other hmem
      exact ⟨j, hj, hold.retained hretained hdone⟩
    · exact ⟨i, howns, hentered⟩
  objectsLeft := hobjects
  inputsLeft := hinputs

theorem fill (h : d.Within catalogue N done objectDepth inputDepth r) (node : TypeNode) :
    d.Within catalogue N done objectDepth inputDepth (r.filled node) :=
  { h with
    under := ⟨h.under.outputs, h.under.inputs, h.under.scalars, h.under.unions⟩
    unspent := ⟨h.unspent.types, h.unspent.enums⟩
    names := by
      rw [Registry.filled, Tidy.map_fst_fill]
      intro name hmem
      obtain ⟨i, howns, hentered⟩ := h.names name hmem
      exact ⟨i, howns, hentered.retained ⟨fun _ => id, fun _ => id, rfl⟩ (List.Subset.refl _)⟩ }

theorem mono (h : d.Within catalogue N done objectDepth inputDepth r) {objectDepth' inputDepth' : Nat}
    (hobjects : objectDepth ≤ objectDepth') (hinputs : inputDepth ≤ inputDepth') :
    d.Within catalogue N done objectDepth' inputDepth' r :=
  { h with
    objectsLeft := Nat.lt_of_lt_of_le h.objectsLeft hobjects
    inputsLeft := Nat.lt_of_lt_of_le h.inputsLeft hinputs }

end Within

end Declarations

namespace Registering

variable {d : Declarations} {catalogue : Catalogue} {opened : List (String × Identity)}
  {r s : Registry} {objectDepth inputDepth : Nat}

theorem reserve_runs {name : String} (h : name ∉ r.types.map (·.1)) :
    Runs (reserve name) r () { r with types := r.types ++ [(name, none)] } := by
  rw [reserve, runs_get_bind, Entries.lookup_of_notMem h]
  exact runs_modify.mpr rfl

theorem fill_runs (node : TypeNode) (r : Registry) : Runs (fill node) r () (r.filled node) :=
  runs_modify.mpr rfl

theorem translates_scalarName (host : HostType) :
    Translates d catalogue objectDepth inputDepth (scalarName host) fun N => N.scalars host where
  rises h hr := by
    obtain ⟨hmem, rfl⟩ := runs_scalarName h
    exact ⟨⟨hr, .refl _⟩, fun hN => hN.scalars (Entries.lookup_of_mem hr.sound.scalarHosts hmem)⟩
  falls _ hr h := by
    rw [← hr.scalars] at h
    refine ⟨_, ?_, hr⟩
    rw [scalarName, runs_get_bind, h]
    exact runs_pure.mpr ⟨rfl, rfl⟩

def withEnum (r : Registry) (t : EnumType) : Registry :=
  Registry.filled
    { r with
      enumDeclarations := r.enumDeclarations.filter (·.1 ≠ t.host)
      types := r.types ++ [(t.name, none)]
      outputs := r.outputs ++ [(t.host, t.name)]
      inputs := Entries.put t.host t.name r.inputs }
    (.enumeration t)

theorem runs_registerEnum_met {host : HostType} {shape : EnumShape} {name found : String}
    (hmet : r.outputs.lookup host = some found) :
    Runs (registerEnum host shape) r name s ↔ name = found ∧ s = r := by
  rw [registerEnum, runs_get_bind, hmet]
  exact runs_pure

/-- An enum that is met first is entered as its declarations say. -/
theorem runs_registerEnum {host : HostType} {shape : EnumShape} {name : String}
    (hnew : r.outputs.lookup host = none) (hr : d.Unspent r) :
    Runs (registerEnum host shape) r name s ↔ name = (d.enumeration host shape).name ∧
      name ∉ r.types.map (·.1) ∧ s = withEnum r (d.enumeration host shape) := by
  have hdeclaration := hr.enums host hnew
  rw [registerEnum, runs_get_bind, hnew, runs_get_bind]
  dsimp only
  rw [runs_modify_bind, hdeclaration]
  constructor
  · intro h
    obtain ⟨_, _, hreserve, hrest⟩ := runs_bind.mp h
    obtain ⟨hname, rfl⟩ := runs_reserve hreserve
    rw [runs_modify_bind] at hrest
    obtain ⟨_, _, hfill, hpure⟩ := runs_bind.mp hrest
    obtain rfl := runs_fill hfill
    obtain ⟨rfl, rfl⟩ := runs_pure.mp hpure
    exact ⟨rfl, hname, rfl⟩
  · rintro ⟨rfl, hname, rfl⟩
    refine runs_bind.mpr ⟨(), _, reserve_runs hname, ?_⟩
    rw [runs_modify_bind]
    exact runs_bind.mpr ⟨(), _, fill_runs _ _, runs_pure.mpr ⟨rfl, rfl⟩⟩

theorem unspent_withEnum (hr : d.Unspent r) (t : EnumType) :
    d.Unspent (withEnum r t) := by
  refine hr.spend (fun host hnone => (Entries.lookup_concat_eq_none.mp hnone).1)
    (fun _ _ => rfl) (fun host hnone => ?_)
  exact Entries.lookup_filter_ne (Entries.lookup_concat_eq_none.mp hnone).2

theorem within_withEnum {N : Names} {done : List String}
    (hr : d.Within catalogue N done objectDepth inputDepth r) (hN : d.Fits catalogue N)
    {host : HostType} {shape : EnumShape}
    (hdescribes : d.Describes catalogue (.enumeration host shape))
    (h : N.outputs host = some (d.enumeration host shape).name) :
    d.Within catalogue N done objectDepth inputDepth (withEnum r (d.enumeration host shape)) := by
  have hretained : r.Retained (withEnum r (d.enumeration host shape)) := by
    refine ⟨fun other hnone => (Entries.lookup_concat_eq_none.mp hnone).1,
      fun other hnone => ?_, rfl⟩
    rw [withEnum, Registry.filled, Entries.lookup_put] at hnone
    split at hnone
    · cases hnone
    · exact hnone
  refine hr.enter hretained (List.Subset.refl _)
    (Declarations.Owns.enumeration (d := d) hdescribes h) ?_ ?_ ?_ (unspent_withEnum hr.unspent _)
    (List.Subset.refl _) (List.filter_subset_self _)
    (Nat.lt_of_le_of_lt (unentered_le _ hretained.outputs) hr.objectsLeft)
    (Nat.lt_of_le_of_lt (unentered_le _ hretained.inputs) hr.inputsLeft)
  · exact fun hnone => (Entries.lookup_concat_eq_none.mp hnone).2 rfl
  · rw [withEnum, Registry.filled, Declarations.Tidy.map_fst_fill, List.map_append,
      List.map_singleton]
  · refine ⟨fun hfound => ?_, fun hfound => ?_, hr.under.scalars, hr.under.unions⟩
    · rcases Entries.lookup_concat_eq_some hfound with hold | ⟨rfl, rfl⟩
      · exact hr.under.outputs hold
      · exact h
    · rw [withEnum, Registry.filled, Entries.lookup_put] at hfound
      split at hfound
      · rename_i hhost
        cases hfound
        rw [hhost]
        exact (hN.enumeration hdescribes h).2
      · exact hr.under.inputs hfound

theorem translates_registerEnum (hd : d.Coherent catalogue) {host : HostType} {shape : EnumShape}
    (hdescribes : d.Describes catalogue (.enumeration host shape)) :
    Translates d catalogue objectDepth inputDepth (registerEnum host shape)
      fun N => N.outputs host where
  rises {opened r s name} h hr := by
    obtain ⟨⟨hsound, hgrown⟩, hmem, -⟩ :=
      registerEnum_advances hd.toUnambiguous h hr.sound hdescribes
    have hnamed {N : Names} (hN : s.Under N) : N.outputs host = some name :=
      hN.outputs (Entries.lookup_of_mem hsound.outputHosts hmem)
    refine ⟨⟨?_, hgrown⟩, hnamed⟩
    cases hlookup : r.outputs.lookup host with
    | some found =>
      obtain ⟨-, rfl⟩ := (runs_registerEnum_met hlookup).mp h
      exact hr
    | none =>
      obtain ⟨rfl, -, rfl⟩ := (runs_registerEnum hlookup hr.unspent).mp h
      refine hr.step hsound hgrown (unspent_withEnum hr.unspent _) fun hnode => ?_
      rcases Declarations.mem_filled hnode with hold | rfl
      · exact .inl (Declarations.mem_reserved hold)
      · exact .inr fun hN => .enumeration hdescribes (hnamed hN)
  falls {N done r name} hN hr h := by
    cases hlookup : r.outputs.lookup host with
    | some found =>
      obtain rfl := Option.some.inj (h.symm.trans (hr.under.outputs hlookup))
      exact ⟨r, (runs_registerEnum_met hlookup).mpr ⟨rfl, rfl⟩, hr⟩
    | none =>
      obtain ⟨rfl, -⟩ := hN.enumeration hdescribes h
      have hfresh := hr.fresh hN (Declarations.Owns.enumeration (d := d) hdescribes h)
        fun hentered => hentered hlookup
      exact ⟨_, (runs_registerEnum hlookup hr.unspent).mpr ⟨rfl, hfresh, rfl⟩,
        within_withEnum hr hN hdescribes h⟩

variable (d catalogue) in
/-- A walk through input objects gives each of them its name. -/
def TranslatesInputs (objectDepth inputDepth : Nat) (walk : HostType → HostType → Registering String) :
    Prop :=
  ∀ {host outline : HostType}, d.Describes catalogue (.inputObject host outline) →
    Translates d catalogue objectDepth inputDepth (walk host outline) fun N => N.inputs host

theorem translates_inputType (hd : d.Coherent catalogue)
    {walk : HostType → HostType → Registering String}
    (hwalk : TranslatesInputs d catalogue objectDepth inputDepth walk) {ref : TypeRef}
    (hdescribes : d.Describes catalogue ref) :
    Translates d catalogue objectDepth inputDepth (inputType walk ref) fun N => N.inputType ref := by
  induction ref with
  | nullable _ inner ih => exact (ih hdescribes.nullable).map _
  | list _ inner ih => exact (ih hdescribes.list).map _
  | scalar host => exact (translates_scalarName host).map _
  | enumeration host shape => exact (translates_registerEnum hd hdescribes).map _
  | inputObject host outline => exact (hwalk hdescribes).map _
  | object | union | function | generic => exact .refuse _

theorem translates_inputFields (hd : d.Coherent catalogue)
    {walk : HostType → HostType → Registering String}
    (hwalk : TranslatesInputs d catalogue objectDepth inputDepth walk) {fields : List InputField}
    (hdescribes : ∀ f ∈ fields, d.Describes catalogue f.type) :
    Translates d catalogue objectDepth inputDepth
      (fields.mapM fun field => do pure (field.name, ← inputType walk field.type))
      fun N => N.inputFields fields :=
  .mapM fun field hmem =>
    (translates_inputType hd hwalk (hdescribes field hmem)).bind fun type => .pure (field.name, type)

def withInput (r : Registry) (host : HostType) (name : String) : Registry :=
  { r with types := r.types ++ [(name, none)], inputs := r.inputs ++ [(host, name)] }

theorem unspent_withInput (hr : d.Unspent r) (host : HostType) (name : String) :
    d.Unspent (withInput r host name) :=
  hr.spend (fun _ => id) (fun _ _ => rfl) (fun _ _ => rfl)

theorem runs_registerInput_met {depth : Nat} {host outline : HostType} {name found : String}
    (hmet : r.inputs.lookup host = some found) :
    Runs (registerInput catalogue (depth + 1) host outline) r name s ↔ name = found ∧ s = r := by
  rw [registerInput, runs_get_bind, hmet]
  exact runs_pure

/-- An input object that is met first is entered before its fields are walked. -/
theorem runs_registerInput {depth : Nat} {host outline : HostType} {name : String}
    (hnew : r.inputs.lookup host = none) :
    Runs (registerInput catalogue (depth + 1) host outline) r name s ↔
      name = (catalogue.input outline).name ∧ name ∉ r.types.map (·.1) ∧ ∃ fields t,
        Runs ((catalogue.input outline).fields.mapM fun field => do
          pure (field.name, ← inputType (registerInput catalogue depth) field.type))
          (withInput r host name) fields t ∧
        s = t.filled (.inputObject ⟨name, none, host, Entries.ofPairs fields⟩) := by
  rw [registerInput, runs_get_bind, hnew]
  dsimp only
  constructor
  · intro h
    obtain ⟨_, _, hreserve, hrest⟩ := runs_bind.mp h
    obtain ⟨hname, rfl⟩ := runs_reserve hreserve
    rw [runs_modify_bind] at hrest
    obtain ⟨fields, t, hfields, hrest⟩ := runs_bind.mp hrest
    obtain ⟨_, _, hfill, hpure⟩ := runs_bind.mp hrest
    obtain rfl := runs_fill hfill
    obtain ⟨rfl, rfl⟩ := runs_pure.mp hpure
    exact ⟨rfl, hname, fields, t, hfields, rfl⟩
  · rintro ⟨rfl, hname, fields, t, hfields, rfl⟩
    refine runs_bind.mpr ⟨(), _, reserve_runs hname, ?_⟩
    rw [runs_modify_bind]
    refine runs_bind.mpr ⟨fields, t, hfields, ?_⟩
    exact runs_bind.mpr ⟨(), _, fill_runs _ _, runs_pure.mpr ⟨rfl, rfl⟩⟩

theorem within_withInput {N : Names} {done : List String} {depth : Nat}
    (hr : d.Within catalogue N done objectDepth (depth + 1) r) (hp : d.Proper)
    {host outline : HostType} {name : String}
    (hdescribes : d.Describes catalogue (.inputObject host outline))
    (h : N.inputs host = some name) (hnew : r.inputs.lookup host = none) :
    d.Within catalogue N done objectDepth depth (withInput r host name) := by
  have hretained : r.Retained (withInput r host name) :=
    ⟨fun _ => id, fun other hnone => (Entries.lookup_concat_eq_none.mp hnone).1, rfl⟩
  have hentered : (withInput r host name).inputs.lookup host ≠ none :=
    fun hnone => (Entries.lookup_concat_eq_none.mp hnone).2 rfl
  refine hr.enter hretained (List.Subset.refl _)
    (Declarations.Owns.inputObject (d := d) hdescribes h) hentered List.map_append ?_
    (unspent_withInput hr.unspent _ _) (List.Subset.refl _) (List.Subset.refl _)
    (Nat.lt_of_le_of_lt (unentered_le _ hretained.outputs) hr.objectsLeft) ?_
  · refine ⟨hr.under.outputs, fun hfound => ?_, hr.under.scalars, hr.under.unions⟩
    rcases Entries.lookup_concat_eq_some hfound with hold | ⟨rfl, rfl⟩
    · exact hr.under.inputs hold
    · exact h
  · exact Nat.lt_of_lt_of_le (unentered_lt hretained.inputs (hdescribes.mem_inputHosts hp) hnew
      hentered) (Nat.le_of_lt_succ hr.inputsLeft)

/-- Input objects have their names, however they refer to each other. -/
theorem translates_registerInput (hd : d.Coherent catalogue) (hp : d.Proper)
    (objectDepth inputDepth : Nat) :
    TranslatesInputs d catalogue objectDepth inputDepth (registerInput catalogue inputDepth) := by
  induction inputDepth with
  | zero =>
    intro host outline _
    exact ⟨fun h => absurd h not_runs_throw, fun _ hr => absurd hr.inputsLeft (Nat.not_lt_zero _)⟩
  | succ depth ih =>
    intro host outline hdescribes
    have hfieldwise := translates_inputFields hd ih fun f hf => hdescribes.inputField hf
    constructor
    · intro opened r s name h hr
      obtain ⟨⟨hsound, hgrown⟩, hmem⟩ :=
        registerInput_advances hd.toUnambiguous _ h hr.sound hdescribes
      have hnamed {N : Names} (hN : s.Under N) : N.inputs host = some name :=
        hN.inputs (Entries.lookup_of_mem hsound.inputHosts hmem)
      refine ⟨⟨?_, hgrown⟩, hnamed⟩
      cases hlookup : r.inputs.lookup host with
      | some found =>
        obtain ⟨-, rfl⟩ := (runs_registerInput_met hlookup).mp h
        exact hr
      | none =>
        obtain ⟨rfl, hname, fields, t, hfields, rfl⟩ := (runs_registerInput hlookup).mp h
        have hopened := hr.sound.reserve hname (.inputObject host)
        have hentered := hopened.enterInputObject (Entries.notMem_of_lookup hlookup)
          List.mem_cons_self hdescribes
        have hstart := hr.step hentered ((Registry.Extends.reserve _ _).trans (.enterInput _ _))
          (unspent_withInput hr.unspent _ _)
          fun hnode => .inl (Declarations.mem_reserved hnode)
        obtain ⟨⟨ht, -⟩, hspec⟩ := hfieldwise.rises hfields hstart
        refine ht.fill hsound fun ht hs => .inputObject hdescribes ?_ (hnamed hs)
        rw [Names.inputObject, hspec ht]
        rfl
    · intro N done r name hN hr h
      cases hlookup : r.inputs.lookup host with
      | some found =>
        obtain rfl := Option.some.inj (h.symm.trans (hr.under.inputs hlookup))
        exact ⟨r, (runs_registerInput_met hlookup).mpr ⟨rfl, rfl⟩, hr⟩
      | none =>
        obtain ⟨t, ht, hname⟩ := hN.inputObject hdescribes h
        obtain ⟨fields, hfields, hpure⟩ := Option.bind_eq_some_iff.mp ht
        cases hpure
        dsimp only at hname
        have hfresh := hr.fresh hN (Declarations.Owns.inputObject (d := d) hdescribes h)
          fun hentered => hentered hlookup
        have hstart := within_withInput hr hp hdescribes h hlookup
        obtain ⟨t, hrun, ht⟩ := hfieldwise.falls hN hstart hfields
        refine ⟨_, (runs_registerInput hlookup).mpr ⟨hname.symm, hfresh, fields, t, hrun, rfl⟩, ?_⟩
        exact (ht.fill (.inputObject ⟨name, none, host, Entries.ofPairs fields⟩)).mono (Nat.le_refl _)
          (Nat.le_succ depth)

end Registering

end Trellis
