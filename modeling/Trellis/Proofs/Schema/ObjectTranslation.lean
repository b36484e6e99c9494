import Trellis.Proofs.Schema.InputTranslation

/-!
Translation of objects and their properties.

The properties of an object are what its outline and its customization come to, whatever objects
were met before it. An object is entered before its properties are walked, so a walk that comes back
to it finds its name, and fewer objects are left for every walk inside of it.
-/

namespace Trellis

namespace Registering

variable {d : Declarations} {catalogue : Catalogue} {opened : List (String × Identity)}
  {r s : Registry} {objectDepth inputDepth : Nat}

variable (d catalogue) in
/-- A walk through objects gives each of them its name. -/
def TranslatesObjects (objectDepth inputDepth : Nat)
    (walk : HostType → HostType → Registering String) : Prop :=
  ∀ {host outline : HostType}, d.Describes catalogue (.object host outline) →
    Translates d catalogue objectDepth inputDepth (walk host outline) fun N => N.outputs host

theorem translates_outputType (hd : d.Coherent catalogue)
    {walk : HostType → HostType → Registering String}
    (hwalk : TranslatesObjects d catalogue objectDepth inputDepth walk) (site : Site) {ref : TypeRef}
    (hdescribes : d.Describes catalogue ref) :
    Translates d catalogue objectDepth inputDepth (outputType walk site ref)
      fun N => N.outputType site.union ref := by
  induction ref with
  | nullable _ inner ih => exact (ih hdescribes.nullable).map _
  | list _ inner ih => exact (ih hdescribes.list).map _
  | scalar host => exact (translates_scalarName host).map _
  | enumeration host shape => exact (translates_registerEnum hd hdescribes).map _
  | object host outline => exact (hwalk hdescribes).map _
  | union host =>
    simp only [outputType, Names.outputType]
    cases site.union with
    | none => exact .refuse _
    | some name => exact .pure _
  | inputObject | function | generic => exact .refuse _

theorem translates_mergeArguments (hd : d.Coherent catalogue) (hp : d.Proper)
    (owner property : String) {declared : List (String × TypeRef)}
    (hdescribes : ∀ argument ∈ declared, d.Describes catalogue argument.2)
    (arguments : List Argument) :
    Translates d catalogue objectDepth inputDepth
      (mergeArguments catalogue inputDepth owner property arguments declared)
      fun N => N.mergeArguments arguments declared := by
  induction declared generalizing arguments with
  | nil => exact .pure _
  | cons argument declared ih =>
    rcases argument with ⟨name, ref⟩
    have hrest := ih fun argument hmem => hdescribes argument (List.mem_cons_of_mem _ hmem)
    refine (translates_inputType hd (translates_registerInput hd hp objectDepth inputDepth)
      (hdescribes _ List.mem_cons_self)).bind fun type => ?_
    cases arguments.find? (·.name == name) with
    | none => exact hrest _
    | some existing =>
      by_cases hsame : existing.type = type
      · simpa only [if_pos hsame] using hrest arguments
      · simpa only [if_neg hsame] using Translates.refuse _

theorem runs_checkUnion_iff {owner : String} {declaration : PropertyDeclaration} {returns : TypeRef}
    {u : Unit} : Runs (checkUnion owner declaration returns) r u s ↔
      s = r ∧ ∃ union ∈ r.unionNames, declaration.union = some union ∧ returns.isUnion = true := by
  rw [checkUnion]
  cases declaration.union with
  | none => simpa using not_runs_refuse
  | some union =>
    dsimp only
    rw [runs_get_bind]
    by_cases hmem : union ∈ r.unionNames
    · cases hreturns : returns.isUnion with
      | true =>
        have hpure : Runs (pure ()) r u s ↔ s = r :=
          ⟨fun h => (runs_pure.mp h).2, fun h => runs_pure.mpr ⟨rfl, h⟩⟩
        simpa [hmem] using hpure
      | false => simpa [hmem] using not_runs_refuse
    · simpa [hmem] using not_runs_refuse

theorem translates_checkUnion (owner : String) (declaration : PropertyDeclaration)
    (returns : TypeRef) :
    Translates d catalogue objectDepth inputDepth (checkUnion owner declaration returns)
      fun N => N.checkUnion declaration returns where
  rises h hr := by
    obtain ⟨rfl, union, hmem, hunion, hreturns⟩ := runs_checkUnion_iff.mp h
    refine ⟨⟨hr, .refl _⟩, fun {N} hN => ?_⟩
    have hknown : N.isUnion union = true := (hN.unions union).mpr hmem
    simp [Names.checkUnion, hunion, hreturns, hknown]
  falls {N done r u} _ hr h := by
    refine ⟨r, runs_checkUnion_iff.mpr ⟨rfl, ?_⟩, hr⟩
    obtain ⟨union, hunion, hcheck⟩ := Option.bind_eq_some_iff.mp h
    split at hcheck
    · rename_i hboth
      rw [Bool.and_eq_true] at hboth
      exact ⟨union, (hr.under.unions union).mp hboth.1, hunion, hboth.2⟩
    · cases hcheck

/-- A property is what its declaration comes to. -/
theorem translates_property (hd : d.Coherent catalogue) (hp : d.Proper)
    {walk : HostType → HostType → Registering String}
    (hwalk : TranslatesObjects d catalogue objectDepth inputDepth walk) (owner : String)
    {declaration : PropertyDeclaration}
    (hdescribes : ∀ ref ∈ declaration.mentions, d.Describes catalogue ref) :
    Translates d catalogue objectDepth inputDepth
      (property catalogue inputDepth walk owner declaration) fun N => N.property declaration := by
  simp only [property, Names.property]
  cases hresolver : declaration.resolver with
  | none => exact .refuse _
  | some resolver =>
    rw [PropertyDeclaration.mentions, hresolver] at hdescribes
    simp only [Option.bind_eq_bind, Option.bind_some]
    cases hparameters : resolver.parameters.name? declaration.arguments with
    | none => exact .refuse _
    | some parameters =>
      have hrefs (argument) (hmem : argument ∈ parameters.arguments) :=
        hdescribes _ (List.mem_cons_of_mem _ (mem_argumentTypes hparameters hmem))
      refine .optional (translates_checkUnion owner declaration resolver.returns) ?_
      refine (translates_outputType hd hwalk ⟨owner, declaration.name, declaration.union⟩
        (hdescribes _ List.mem_cons_self)).bind fun type => ?_
      exact (translates_mergeArguments hd hp owner declaration.name hrefs []).bind
        fun arguments => .pure _

theorem translates_insertProperty (owner : String) (properties : List Property) (p : Property) :
    Translates d catalogue objectDepth inputDepth (insertProperty owner properties p)
      fun _ => Names.insertProperty properties p := by
  rw [insertProperty, Names.insertProperty]
  split
  · exact .refuse _
  · exact .pure _

theorem translates_insertDeclared (hd : d.Coherent catalogue) (hp : d.Proper)
    {walk : HostType → HostType → Registering String}
    (hwalk : TranslatesObjects d catalogue objectDepth inputDepth walk) (owner : String)
    {declarations : List PropertyDeclaration}
    (hdescribes : ∀ declaration ∈ declarations, ∀ ref ∈ declaration.mentions,
      d.Describes catalogue ref) (properties : List Property) :
    Translates d catalogue objectDepth inputDepth
      (insertDeclared catalogue inputDepth walk owner properties declarations)
      fun N => N.insertDeclared properties declarations :=
  .foldlM (fun declaration hmem properties =>
    (translates_property hd hp hwalk owner (hdescribes declaration hmem)).bind
      (translates_insertProperty owner properties)) properties

theorem translates_insertFields (hd : d.Coherent catalogue)
    {walk : HostType → HostType → Registering String}
    (hwalk : TranslatesObjects d catalogue objectDepth inputDepth walk) (owner : String)
    (host : HostType) (ignored : List String) {fields : List ObjectField}
    (hdescribes : ∀ f ∈ fields, d.Describes catalogue f.type) :
    Translates d catalogue objectDepth inputDepth (insertFields walk owner host ignored fields)
      fun N => N.insertFields host ignored fields := by
  refine .foldlM (fun field hmem properties => ?_) []
  simp only [Names.fieldProperty, bind_assoc, pure_bind]
  exact (translates_outputType hd hwalk ⟨owner, field.name, none⟩
    (hdescribes field (List.mem_filter.mp hmem).1)).bind
      fun type => translates_insertProperty owner properties _

/-- A property with a name is changed as a property is. -/
theorem translates_adjustProperty {change : Property → Registering Property}
    {specChange : Property → Names → Option Property}
    (hchange : ∀ p, Translates d catalogue objectDepth inputDepth (change p) (specChange p))
    (owner name : String) (properties : List Property) :
    Translates d catalogue objectDepth inputDepth (adjustProperty owner name change properties)
      fun N => Names.adjustProperty name (fun p => specChange p N) properties := by
  induction properties with
  | nil => exact .refuse _
  | cons p rest ih =>
    simp only [adjustProperty, Names.adjustProperty]
    split
    · exact (hchange p).bind fun changed => .pure _
    · exact ih.bind fun others => .pure _

theorem translates_attach (hd : d.Coherent catalogue) (hp : d.Proper) (owner : String)
    {declaration : TransformationDeclaration}
    (hdescribes : ∀ transformation, declaration.transformation = some transformation →
      ∀ ref ∈ Parameters.argumentTypes transformation.parameters.kinds, d.Describes catalogue ref)
    (p : Property) :
    Translates d catalogue objectDepth inputDepth (attach catalogue inputDepth owner declaration p)
      fun N => N.attach declaration p := by
  simp only [attach, Names.attach]
  cases htransformation : declaration.transformation with
  | none => exact .refuse _
  | some transformation =>
    simp only [Option.bind_eq_bind, Option.bind_some]
    cases hparameters : transformation.parameters.name? declaration.arguments with
    | none => exact .refuse _
    | some parameters =>
      have hrefs (argument) (hmem : argument ∈ parameters.arguments) :=
        hdescribes transformation htransformation _ (mem_argumentTypes hparameters hmem)
      simp only [Option.bind_some]
      split
      · exact .refuse _
      · exact (translates_mergeArguments hd hp owner p.name hrefs p.arguments).bind
          fun arguments => .pure _

/-- The properties of an object, walked one after the other. -/
def walkProperties (catalogue : Catalogue) (inputDepth : Nat)
    (walk : HostType → HostType → Registering String) (name : String) (shown : ObjectOutline)
    (host : HostType) (declaration : TypeDeclaration) : Registering (List Property) :=
  match declaration.ignored.find? fun field => !(shown.fields.any (·.name == field)) with
  | some unknown => refuse (.unknownProperty name unknown)
  | none => do
    let properties ← insertFields walk name host declaration.ignored shown.fields
    let properties ← insertDeclared catalogue inputDepth walk name properties declaration.properties
    let properties ← declaration.changes.foldlM (fun properties (field, change) =>
      adjustProperty name field (fun p => pure (configure change p)) properties) properties
    declaration.transformations.foldlM (fun properties t =>
      adjustProperty name t.property (attach catalogue inputDepth name t) properties) properties

theorem translates_walkProperties (hd : d.Coherent catalogue) (hp : d.Proper)
    {walk : HostType → HostType → Registering String}
    (hwalk : TranslatesObjects d catalogue objectDepth inputDepth walk) (name : String)
    {shown : ObjectOutline} (host : HostType) {declaration : TypeDeclaration}
    (hfields : ∀ f ∈ shown.fields, d.Describes catalogue f.type)
    (hdescribed : Described d catalogue declaration) :
    Translates d catalogue objectDepth inputDepth
      (walkProperties catalogue inputDepth walk name shown host declaration)
      fun N => N.properties shown host declaration := by
  simp only [walkProperties, Names.properties]
  cases hignored : declaration.ignored.find? fun field => !(shown.fields.any (·.name == field)) with
  | some unknown =>
    have hmissing : ¬ (declaration.ignored.all fun field =>
        shown.fields.any (·.name == field)) = true := by
      intro hall
      have hknown := List.all_eq_true.mp hall unknown (List.mem_of_find?_eq_some hignored)
      simpa [hknown] using List.find?_some hignored
    simp only [if_neg hmissing]
    exact .refuse _
  | none =>
    have hall : (declaration.ignored.all fun field =>
        shown.fields.any (·.name == field)) = true := by
      refine List.all_eq_true.mpr fun field hmem => ?_
      simpa using List.find?_eq_none.mp hignored field hmem
    simp only [if_pos hall]
    refine (translates_insertFields hd hwalk name host declaration.ignored hfields).bind
      fun native => ?_
    refine (translates_insertDeclared hd hp hwalk name hdescribed.properties native).bind
      fun declared => ?_
    refine (Translates.foldlM (fun change _ properties => translates_adjustProperty
      (fun p => .pure (configure change.2 p)) name change.1 properties) declared).bind
        fun configured => ?_
    exact .foldlM (fun t hmem properties => translates_adjustProperty
      (translates_attach hd hp name (hdescribed.transformations t hmem)) name t.property properties)
        configured

/-- A registry with a name for an object, whose declaration is used. -/
def withObject (r : Registry) (host : HostType) (name : String) : Registry :=
  { r with
    typeDeclarations := r.typeDeclarations.filter (·.1 ≠ host)
    types := r.types ++ [(name, none)]
    outputs := r.outputs ++ [(host, name)] }

theorem unspent_withObject (hr : d.Unspent r) (host : HostType) (name : String) :
    d.Unspent (withObject r host name) := by
  refine hr.spend (fun other hnone => (Entries.lookup_concat_eq_none.mp hnone).1)
    (fun other hnone => ?_) (fun _ _ => rfl)
  exact Entries.lookup_filter_ne (Entries.lookup_concat_eq_none.mp hnone).2

theorem runs_registerObject_met {depth : Nat} {host outline : HostType} {name found : String}
    (hmet : r.outputs.lookup host = some found) :
    Runs (registerObject catalogue inputDepth (depth + 1) host outline) r name s ↔
      name = found ∧ s = r := by
  rw [registerObject, runs_get_bind, hmet]
  exact runs_pure

/-- An object that is met first is entered before its properties are walked. -/
theorem runs_registerObject {depth : Nat} {host outline : HostType} {name : String}
    (hnew : r.outputs.lookup host = none) (hr : d.Unspent r) :
    Runs (registerObject catalogue inputDepth (depth + 1) host outline) r name s ↔
      ∃ properties t, name = (d.objectWith catalogue host outline properties).name ∧
        name ∉ r.types.map (·.1) ∧
        Runs (walkProperties catalogue inputDepth (registerObject catalogue inputDepth depth) name
          (catalogue.object outline) host (d.customization host outline)) (withObject r host name)
          properties t ∧
        s = t.filled (.object (d.objectWith catalogue host outline properties)) := by
  have hdeclaration := hr.types host hnew
  rw [registerObject, runs_get_bind, hnew]
  dsimp only
  have htake : Runs (takeDeclaration host outline) r (d.customization host outline)
      { r with typeDeclarations := r.typeDeclarations.filter (·.1 ≠ host) } := by
    rw [takeDeclaration, runs_get_bind]
    dsimp only
    rw [runs_modify_bind, hdeclaration]
    exact runs_pure.mpr ⟨rfl, rfl⟩
  constructor
  · intro h
    obtain ⟨declaration, t₀, htaken, hrest⟩ := runs_bind.mp h
    cases htake.symm.trans htaken
    obtain ⟨_, _, hreserve, hrest⟩ := runs_bind.mp hrest
    obtain ⟨hname, rfl⟩ := runs_reserve hreserve
    rw [runs_modify_bind] at hrest
    split at hrest
    · exact absurd hrest not_runs_refuse
    · rename_i hignored
      obtain ⟨fields, t₁, hfields, hrest⟩ := runs_bind.mp hrest
      obtain ⟨declared, t₂, hdeclared, hrest⟩ := runs_bind.mp hrest
      obtain ⟨configured, t₃, hconfigured, hrest⟩ := runs_bind.mp hrest
      obtain ⟨attached, t₄, hattached, hrest⟩ := runs_bind.mp hrest
      obtain ⟨_, _, hfill, hpure⟩ := runs_bind.mp hrest
      obtain rfl := runs_fill hfill
      obtain ⟨rfl, rfl⟩ := runs_pure.mp hpure
      refine ⟨attached, t₄, rfl, hname, ?_, rfl⟩
      rw [walkProperties, hignored]
      exact runs_bind.mpr ⟨fields, t₁, hfields, runs_bind.mpr ⟨declared, t₂, hdeclared,
        runs_bind.mpr ⟨configured, t₃, hconfigured, hattached⟩⟩⟩
  · rintro ⟨properties, t, rfl, hname, hwalk, rfl⟩
    refine runs_bind.mpr ⟨_, _, htake, runs_bind.mpr ⟨(), _, reserve_runs hname, ?_⟩⟩
    rw [runs_modify_bind]
    have hignored : (d.customization host outline).ignored.find? (fun field =>
        !((catalogue.object outline).fields.any (·.name == field))) = none := by
      cases hunknown : (d.customization host outline).ignored.find? (fun field =>
        !((catalogue.object outline).fields.any (·.name == field))) with
      | none => rfl
      | some unknown =>
        rw [walkProperties, hunknown] at hwalk
        exact absurd hwalk not_runs_refuse
    rw [walkProperties, hignored] at hwalk
    rw [hignored]
    obtain ⟨fields, t₁, hfields, hwalk⟩ := runs_bind.mp hwalk
    obtain ⟨declared, t₂, hdeclared, hwalk⟩ := runs_bind.mp hwalk
    obtain ⟨configured, t₃, hconfigured, hattached⟩ := runs_bind.mp hwalk
    refine runs_bind.mpr ⟨fields, t₁, hfields, runs_bind.mpr ⟨declared, t₂, hdeclared,
      runs_bind.mpr ⟨configured, t₃, hconfigured, runs_bind.mpr ⟨properties, t, hattached, ?_⟩⟩⟩⟩
    exact runs_bind.mpr ⟨(), _, fill_runs _ _, runs_pure.mpr ⟨rfl, rfl⟩⟩

theorem described_customization (d : Declarations) (catalogue : Catalogue)
    (host outline : HostType) : Described d catalogue (d.customization host outline) := by
  rw [Declarations.customization]
  cases hlookup : d.types.lookup host with
  | none =>
    exact ⟨fun _ hmem => absurd hmem List.not_mem_nil, fun _ hmem => absurd hmem List.not_mem_nil⟩
  | some declaration => exact described_of_mem (Entries.mem_of_lookup hlookup)

theorem within_withObject {N : Names} {done : List String} {depth : Nat}
    (hr : d.Within catalogue N done (depth + 1) inputDepth r) (hp : d.Proper)
    {host outline : HostType} {name : String}
    (hdescribes : d.Describes catalogue (.object host outline))
    (h : N.outputs host = some name) (hnew : r.outputs.lookup host = none) :
    d.Within catalogue N done depth inputDepth (withObject r host name) := by
  have hretained : r.Retained (withObject r host name) :=
    ⟨fun other hnone => (Entries.lookup_concat_eq_none.mp hnone).1, fun _ => id, rfl⟩
  have hentered : (withObject r host name).outputs.lookup host ≠ none :=
    fun hnone => (Entries.lookup_concat_eq_none.mp hnone).2 rfl
  refine hr.enter hretained (List.Subset.refl _)
    (Declarations.Owns.object (d := d) hdescribes h) hentered List.map_append ?_
    (unspent_withObject hr.unspent _ _) (List.filter_subset_self _) (List.Subset.refl _) ?_
    (Nat.lt_of_le_of_lt (unentered_le _ hretained.inputs) hr.inputsLeft)
  · refine ⟨fun hfound => ?_, hr.under.inputs, hr.under.scalars, hr.under.unions⟩
    rcases Entries.lookup_concat_eq_some hfound with hold | ⟨rfl, rfl⟩
    · exact hr.under.outputs hold
    · exact h
  · exact Nat.lt_of_lt_of_le (unentered_lt hretained.outputs (hdescribes.mem_objectHosts hp) hnew
      hentered) (Nat.le_of_lt_succ hr.objectsLeft)

/-- Objects have their names, however they refer to each other. -/
theorem translates_registerObject (hd : d.Coherent catalogue) (hp : d.Proper)
    (objectDepth inputDepth : Nat) :
    TranslatesObjects d catalogue objectDepth inputDepth
      (registerObject catalogue inputDepth objectDepth) := by
  induction objectDepth with
  | zero =>
    intro host outline _
    exact ⟨fun h => absurd h not_runs_throw, fun _ hr => absurd hr.objectsLeft (Nat.not_lt_zero _)⟩
  | succ depth ih =>
    intro host outline hdescribes
    have hwalk (name : String) := translates_walkProperties hd hp ih name host
      (fun f hf => hdescribes.field hf) (described_customization d catalogue host outline)
    constructor
    · intro opened r s name h hr
      obtain ⟨⟨hsound, hgrown⟩, hmem⟩ :=
        registerObject_advances hd.toUnambiguous _ _ h hr.sound hdescribes
      have hnamed {N : Names} (hN : s.Under N) : N.outputs host = some name :=
        hN.outputs (Entries.lookup_of_mem hsound.outputHosts hmem)
      refine ⟨⟨?_, hgrown⟩, hnamed⟩
      cases hlookup : r.outputs.lookup host with
      | some found =>
        obtain ⟨-, rfl⟩ := (runs_registerObject_met hlookup).mp h
        exact hr
      | none =>
        obtain ⟨properties, t, rfl, hname, hproperties, rfl⟩ :=
          (runs_registerObject hlookup hr.unspent).mp h
        have hused : r.typeDeclarations.filter (·.1 ≠ host) ⊆ r.typeDeclarations :=
          List.filter_subset_self _
        have hdropped := hr.sound.drop hused (List.Subset.refl _)
        have hopened := hdropped.reserve hname (.object (some host))
        have hentered := hopened.enterObject (Entries.notMem_of_lookup hlookup) List.mem_cons_self
          hdescribes
        have hstart := hr.step hentered ((Registry.Extends.drop _ _ _).trans
          ((Registry.Extends.reserve _ _).trans (.enterOutput _ _)))
          (unspent_withObject hr.unspent _ _) fun hnode => .inl (Declarations.mem_reserved hnode)
        obtain ⟨⟨ht, -⟩, hspec⟩ := (hwalk _).rises hproperties hstart
        refine ht.fill hsound fun ht hs => .object hdescribes ?_ (hnamed hs)
        rw [Declarations.object, hspec ht]
        rfl
    · intro N done r name hN hr h
      cases hlookup : r.outputs.lookup host with
      | some found =>
        obtain rfl := Option.some.inj (h.symm.trans (hr.under.outputs hlookup))
        exact ⟨r, (runs_registerObject_met hlookup).mpr ⟨rfl, rfl⟩, hr⟩
      | none =>
        obtain ⟨o, ho, hname⟩ := hN.object hdescribes h
        obtain ⟨properties, hproperties, rfl⟩ := Option.map_eq_some_iff.mp ho
        have hfresh := hr.fresh hN (Declarations.Owns.object (d := d) hdescribes h)
          fun hentered => hentered hlookup
        have hstart := within_withObject hr hp hdescribes h hlookup
        obtain ⟨t, hrun, ht⟩ := (hwalk name).falls hN hstart hproperties
        refine ⟨_, (runs_registerObject hlookup hr.unspent).mpr
          ⟨properties, t, hname.symm, hfresh, hrun, rfl⟩, ?_⟩
        exact (ht.fill _).mono (Nat.le_succ depth) (Nat.le_refl _)

end Registering

end Trellis
