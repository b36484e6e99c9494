import Trellis.Proofs.Schema.Ledgers

/-!
Walks that lay out tables of properties.

The properties of an object are laid out in five loops, with walks through other objects in between.
Each loop is told from the part of its items that is done: a field or a declaration adds a row to the
table, changes and transformations adjust one. A row that stands is right by every later ledger.
-/

namespace Trellis

namespace Registering

open Declarations

variable {d : Declarations} {catalogue : Catalogue} {L : Ledger} {r s : Registry} {depth : Nat}

/-- A walk through objects that finds a name for every one of them. -/
def LeadsObjects (d : Declarations) (catalogue : Catalogue)
    (walk : HostType → HostType → Registering String) : Prop :=
  ∀ L host outline, d.Describes catalogue (.object host outline) →
    Leads d catalogue L (walk host outline) fun L' name => L'.Knows name (.object host outline)

/-- The type of a value stands for its description. Where members of a union are described, it is the
union that is declared at the site. -/
theorem leads_outputType {walk : HostType → HostType → Registering String}
    (hwalk : LeadsObjects d catalogue walk) {site : Site} {ref : TypeRef}
    (hdescribes : d.Describes catalogue ref) :
    Leads d catalogue L (outputType walk site ref) fun L' type =>
      (ref.isUnion = true ∧ ∃ union, site.union = some union ∧ type = ref.literal union) ∨
        (ref.isUnion = false ∧ L'.Stands ref type) := by
  -- A layer around a type changes the literal and the description alike.
  have hlayer {inner ref : TypeRef} {layer : TypeLiteral → TypeLiteral}
      (hunion : ref.isUnion = inner.isUnion) (hinnermost : ref.innermost = inner.innermost)
      (hliteral : ∀ name, ref.literal name = layer (inner.literal name)) (L' : Ledger)
      (type : TypeLiteral) :
      ((inner.isUnion = true ∧ ∃ union, site.union = some union ∧ type = inner.literal union) ∨
        (inner.isUnion = false ∧ L'.Stands inner type)) →
      (ref.isUnion = true ∧ ∃ union, site.union = some union ∧ layer type = ref.literal union) ∨
        (ref.isUnion = false ∧ L'.Stands ref (layer type)) := by
    rintro (⟨hinner, union, hsite, rfl⟩ | ⟨hinner, name, rfl, hknows⟩)
    · exact .inl ⟨hunion.trans hinner, union, hsite, (hliteral union).symm⟩
    · exact .inr ⟨hunion.trans hinner, name, (hliteral name).symm, hinnermost ▸ hknows⟩
  induction ref with
  | nullable _ inner ih => exact .map _ (ih hdescribes.nullable) (hlayer rfl rfl fun _ => rfl)
  | list _ inner ih => exact .map _ (ih hdescribes.list) (hlayer rfl rfl fun _ => rfl)
  | scalar host => exact .map _ (leads_scalarName host) fun _ name h => .inr ⟨rfl, name, rfl, h⟩
  | enumeration host shape =>
    exact .map _ (leads_registerEnum hdescribes) fun _ name h => .inr ⟨rfl, name, rfl, h⟩
  | object host outline =>
    exact .map _ (hwalk L host outline hdescribes) fun _ name h => .inr ⟨rfl, name, rfl, h⟩
  | union host =>
    rw [outputType]
    split
    · rename_i union hunion
      exact .pure (.inl ⟨rfl, union, hunion, rfl⟩)
    · exact .refuse _
  | inputObject | function | generic => exact .refuse _

theorem leads_checkUnion (owner : String) (declaration : PropertyDeclaration) (returns : TypeRef) :
    Leads d catalogue L (checkUnion owner declaration returns) fun _ _ =>
      ∃ union ∈ d.unions.map (·.1), declaration.union = some union ∧ returns.isUnion = true := by
  intro r u s hruns hr
  obtain ⟨rfl, union, hmem, hunion⟩ := runs_checkUnion_iff.mp hruns
  rw [hr.unionNames] at hmem
  exact ⟨L, .refl hr, union, hmem, hunion⟩

/-- A declaration is presented by the property that it stands for. -/
theorem leads_property {walk : HostType → HostType → Registering String}
    (hwalk : LeadsObjects d catalogue walk) (owner : String) {declaration : PropertyDeclaration}
    (hdescribes : ∀ ref ∈ declaration.mentions, d.Describes catalogue ref) :
    Leads d catalogue L (property catalogue depth walk owner declaration) fun L' p =>
      L'.Presents d (.declared declaration) p ∧ L'.Shares p.arguments p.declaredArguments ∧
        p.transformations = [] := by
  rw [property]
  dsimp only
  split
  · exact .refuse _
  rename_i resolver hresolver
  rw [PropertyDeclaration.mentions, hresolver] at hdescribes
  split
  · exact .refuse _
  rename_i parameters hparameters
  obtain ⟨hcount, rfl⟩ := Parameters.name?_eq_some hparameters
  have hrefs (argument) (hmem : argument ∈
      Parameters.arguments ⟨resolver.parameters.kinds, declaration.arguments⟩) :=
    hdescribes _ (List.mem_cons_of_mem _ (mem_argumentTypes hparameters hmem))
  refine .optional (leads_checkUnion owner declaration resolver.returns) fun hchecked => ?_
  refine (leads_outputType hwalk (hdescribes _ List.mem_cons_self)).bind fun L₁ type _ htype => ?_
  refine (leads_mergeArguments hrefs .empty).bind fun L₂ arguments hgrows harguments =>
    .pure ⟨⟨rfl, rfl, .declared hresolver hcount, ?_, ?_⟩, ?_, rfl⟩
  · intro union hunion
    change declaration.union = some union at hunion
    obtain ⟨other, hmem, hother, hreturns⟩ := hchecked (by rw [hunion]; rfl)
    cases hunion.symm.trans hother
    rcases htype with ⟨-, other, hother, htype⟩ | ⟨hplain, -⟩
    · cases hunion.symm.trans hother
      exact ⟨hmem, htype⟩
    · cases hreturns.symm.trans hplain
  · intro hnone
    change declaration.union = none at hnone
    rcases htype with ⟨-, other, hother, -⟩ | ⟨-, hstands⟩
    · cases hnone.symm.trans hother
    · refine ⟨fun horigin => ?_, hstands.mono hgrows⟩
      obtain ⟨other, -, hother, -⟩ := hchecked horigin
      cases hnone.symm.trans hother
  · simpa [Property.declaredArguments] using harguments

/-- A property with a name of its own is the next row of a table. -/
theorem leads_insertProperty {sources : List PropertySource} {properties : List Property}
    (htable : L.Tabulates d sources [] properties) (owner : String) {source : PropertySource}
    {p : Property} (hp : L.Presents d source p)
    (harguments : L.Shares p.arguments p.declaredArguments) (hplain : p.transformations = []) :
    Leads d catalogue L (insertProperty owner properties p) fun L' properties =>
      L'.Tabulates d (sources ++ [source]) [] properties := by
  rw [insertProperty]
  split
  · exact .refuse _
  · rename_i hfree
    refine .pure (htable.insert hp harguments hplain fun q hq hname => hfree ?_)
    exact List.any_eq_true.mpr ⟨q, hq, beq_iff_eq.mpr hname⟩

theorem leads_insertFields {walk : HostType → HostType → Registering String}
    (hwalk : LeadsObjects d catalogue walk) (owner : String) (host : HostType)
    (ignored : List String) {fields : List ObjectField}
    (hdescribes : ∀ f ∈ fields, d.Describes catalogue f.type) :
    Leads d catalogue L (insertFields walk owner host ignored fields) fun L' properties =>
      L'.Tabulates d ((fields.filter (·.name ∉ ignored)).map (.field host)) [] properties := by
  refine .foldlM
    (R := fun L' done properties => L'.Tabulates d (done.map (.field host)) [] properties)
    .empty fun L₁ done field properties _ hmem htable => ?_
  refine (leads_outputType hwalk (hdescribes field (List.mem_filter.mp hmem).1)).bind
    fun L₂ type hgrows htype => ?_
  rw [List.map_append, List.map_singleton]
  refine leads_insertProperty (htable.mono hgrows) owner
    ⟨rfl, rfl, .field, nofun, fun _ => ⟨nofun, ?_⟩⟩ .empty rfl
  rcases htype with ⟨-, union, hsite, -⟩ | ⟨-, hstands⟩
  · cases hsite
  · exact hstands

theorem leads_insertDeclared {walk : HostType → HostType → Registering String}
    (hwalk : LeadsObjects d catalogue walk) (owner : String) {sources : List PropertySource}
    {properties : List Property} (htable : L.Tabulates d sources [] properties)
    {declarations : List PropertyDeclaration}
    (hdescribes : ∀ declaration ∈ declarations, ∀ ref ∈ declaration.mentions,
      d.Describes catalogue ref) :
    Leads d catalogue L (insertDeclared catalogue depth walk owner properties declarations)
      fun L' properties => L'.Tabulates d (sources ++ declarations.map .declared) [] properties := by
  refine .foldlM (R := fun L' done properties =>
      L'.Tabulates d (sources ++ done.map .declared) [] properties)
    (by rwa [List.map_nil, List.append_nil]) fun L₁ done declaration properties _ hmem htable => ?_
  refine (leads_property hwalk owner (hdescribes declaration hmem)).bind fun L₂ p hgrows hp => ?_
  rw [List.map_append, List.map_singleton, ← List.append_assoc]
  exact leads_insertProperty (htable.mono hgrows) owner hp.1 hp.2.1 hp.2.2

/-- One property is changed, and it has the name that is looked for. -/
theorem leads_adjustProperty (owner name : String) {change : Property → Registering Property}
    {Q : Ledger → Property → Property → Prop} {properties : List Property}
    (hchange : ∀ p ∈ properties, p.name = name →
      Leads d catalogue L (change p) fun L' changed => Q L' p changed) :
    Leads d catalogue L (adjustProperty owner name change properties) fun L' adjusted =>
      ∃ before p changed after, properties = before ++ p :: after ∧
        adjusted = before ++ changed :: after ∧ p.name = name ∧ Q L' p changed := by
  induction properties with
  | nil => exact .refuse _
  | cons p rest ih =>
    rw [adjustProperty]
    split
    · rename_i hname
      exact (hchange p List.mem_cons_self hname).bind fun L' changed _ hchanged =>
        .pure ⟨[], p, changed, rest, rfl, rfl, hname, hchanged⟩
    · refine (ih fun q hq => hchange q (List.mem_cons_of_mem _ hq)).bind
        fun L' adjusted _ h => .pure ?_
      obtain ⟨before, q, changed, after, rfl, rfl, hname, hchanged⟩ := h
      exact ⟨p :: before, q, changed, after, rfl, rfl, hname, hchanged⟩

/-- A transformation that is attached shares the arguments of those before it. -/
theorem leads_attach (depth : Nat) (owner : String) {declaration : TransformationDeclaration}
    {p : Property}
    (hdescribes : ∀ transformation, declaration.transformation = some transformation →
      ∀ ref ∈ Parameters.argumentTypes transformation.parameters.kinds, d.Describes catalogue ref)
    (hp : L.Shares p.arguments p.declaredArguments) :
    Leads d catalogue L (attach catalogue depth owner declaration p) fun L' changed =>
      ∃ arguments t, changed = { p with arguments, transformations := p.transformations ++ [t] } ∧
        L'.Shares arguments (p.declaredArguments ++ t.parameters.arguments) ∧
        declaration.Attaches p.resolver t := by
  rw [attach]
  split
  · exact .refuse _
  rename_i transformation htransformation
  split
  · exact .refuse _
  rename_i parameters hparameters
  obtain ⟨hcount, rfl⟩ := Parameters.name?_eq_some hparameters
  dsimp only
  split
  · exact .refuse _
  rename_i htype
  have hrefs (argument) (hmem : argument ∈
      Parameters.arguments ⟨transformation.parameters.kinds, declaration.arguments⟩) :=
    hdescribes transformation htransformation _ (mem_argumentTypes hparameters hmem)
  exact (leads_mergeArguments hrefs hp).bind fun L' arguments _ harguments =>
    .pure ⟨arguments, _, rfl, harguments, .declared htransformation hcount (not_not.mp htype)⟩

theorem leads_configureAll (owner : String) {sources : List PropertySource}
    {properties : List Property} (htable : L.Tabulates d sources [] properties)
    (changes : List (String × PropertyChange)) :
    Leads d catalogue L (changes.foldlM (fun properties (field, change) => adjustProperty owner field
        (fun p => pure (configure change p)) properties) properties) fun L' properties =>
      L'.Tabulates d sources [] properties ∧ ∀ change ∈ changes, change.1 ∈ sources.map (·.name) := by
  refine .foldlM (R := fun L' (done : List (String × PropertyChange)) properties =>
      L'.Tabulates d sources [] properties ∧ ∀ change ∈ done, change.1 ∈ sources.map (·.name))
    ⟨htable, nofun⟩ fun L₁ done change properties _ _ ⟨htable, hdone⟩ => ?_
  have hchange (p : Property) : Leads d catalogue L₁ (pure (configure change.2 p))
      fun _ changed => changed = configure change.2 p := .pure rfl
  have hadjusted := leads_adjustProperty owner change.1 fun p (_ : p ∈ properties) _ => hchange p
  intro r result s hruns hr
  obtain ⟨L₂, hproceeds, before, p, changed, after, rfl, rfl, hname, rfl⟩ :=
    hadjusted r result s hruns hr
  have htable₂ := htable.mono hproceeds.grows
  have hp : p ∈ before ++ p :: after := List.mem_append_right _ List.mem_cons_self
  refine ⟨L₂, hproceeds, ?_, List.forall_mem_append.mpr ⟨hdone, List.forall_mem_singleton.mpr ?_⟩⟩
  · refine htable₂.adjust [] nofun rfl rfl rfl rfl (htable₂.arguments p hp) ?_
    rw [List.append_nil]
    exact htable₂.transformations p hp
  · rw [← htable.names_eq, ← hname]
    exact List.mem_map_of_mem hp

theorem leads_attachAll (owner : String) {sources : List PropertySource}
    {properties : List Property} (htable : L.Tabulates d sources [] properties)
    {transformations : List TransformationDeclaration}
    (hdescribes : ∀ t ∈ transformations, ∀ transformation, t.transformation = some transformation →
      ∀ ref ∈ Parameters.argumentTypes transformation.parameters.kinds, d.Describes catalogue ref) :
    Leads d catalogue L (transformations.foldlM (fun properties t => adjustProperty owner t.property
        (attach catalogue depth owner t) properties) properties) fun L' properties =>
      L'.Tabulates d sources transformations properties ∧
        ∀ t ∈ transformations, t.property ∈ sources.map (·.name) := by
  refine .foldlM (R := fun L' done properties => L'.Tabulates d sources done properties ∧
      ∀ t ∈ done, t.property ∈ sources.map (·.name)) ⟨htable, nofun⟩
    fun L₁ done t properties _ hmem ⟨htable, hdone⟩ => ?_
  have hadjusted := leads_adjustProperty owner t.property fun p hp _ =>
    leads_attach depth owner (hdescribes t hmem) (htable.arguments p hp)
  intro r result s hruns hr
  obtain ⟨L₂, hproceeds, before, p, changed, after, rfl, rfl, hname, arguments, attached, rfl,
    hshares, hattached⟩ := hadjusted r result s hruns hr
  have hp : p ∈ before ++ p :: after := List.mem_append_right _ List.mem_cons_self
  refine ⟨L₂, hproceeds, ?_, List.forall_mem_append.mpr ⟨hdone, List.forall_mem_singleton.mpr ?_⟩⟩
  · refine (htable.mono hproceeds.grows).adjust [t] (List.forall_mem_singleton.mpr hname.symm)
      rfl rfl rfl rfl ?_ (List.rel_append (htable.transformations p hp) (.cons hattached .nil))
    simpa [Property.declaredArguments] using hshares
  · rw [← htable.names_eq, ← hname]
    exact List.mem_map_of_mem hp

/-- The five loops over the fields and the customization of an object lay out its table, and the
customization suits the object if they end well. -/
theorem leads_walkProperties {walk : HostType → HostType → Registering String}
    (hwalk : LeadsObjects d catalogue walk) (name : String) (host : HostType) {shown : ObjectOutline}
    (hfields : ∀ f ∈ shown.fields, d.Describes catalogue f.type) {declaration : TypeDeclaration}
    (hdescribed : Described d catalogue declaration) :
    Leads d catalogue L (walkProperties catalogue depth walk name shown host declaration)
      fun L' properties => declaration.Suits host shown.fields ∧ L'.Tabulates d
        (declaration.sources host shown.fields) declaration.transformations properties := by
  rw [walkProperties]
  cases hignored : declaration.ignored.find? fun f => !(shown.fields.any (·.name == f)) with
  | some unknown => exact .refuse _
  | none =>
    refine (leads_insertFields hwalk name host declaration.ignored hfields).bind
      fun L₁ native _ hnative => ?_
    refine (leads_insertDeclared hwalk name hnative hdescribed.properties).bind
      fun L₂ declared _ hdeclared => ?_
    refine (leads_configureAll name hdeclared declaration.changes).bind
      fun L₃ configured _ hresult => ?_
    obtain ⟨hconfigured, hchanges⟩ := hresult
    intro r properties s hruns hr
    obtain ⟨L₄, hproceeds, htable, htransformations⟩ :=
      leads_attachAll name hconfigured hdescribed.transformations r properties s hruns hr
    refine ⟨L₄, hproceeds, ⟨fun field hmem => ?_, ?_, hchanges, htransformations⟩, htable⟩
    · have hknown := List.find?_eq_none.mp hignored field hmem
      simpa using hknown
    · have hnames := htable.names
      rwa [htable.names_eq] at hnames

theorem records_withObject (hr : d.Records catalogue L r) {host : HostType} {name : String}
    (hnew : r.outputs.lookup host = none) (hfree : name ∉ r.types.map (·.1)) :
    d.Records catalogue (L ++ [(name, .object (some host))]) (withObject r host name) := by
  refine hr.enter hfree rfl ?_ ?_ ?_ nofun (unspent_withObject hr.unspent host name)
    (List.filter_subset_self _) (List.Subset.refl _) rfl
  · intro other found
    rw [withObject, Entries.lookup_enter_iff hnew, hr.outputs]
    simp
    grind
  · intro other found
    rw [withObject, hr.inputs]
    simp
  · intro other found
    rw [withObject, hr.scalarNames]
    simp

/-- An object that is met stands for what it is described as, and its table is laid out. -/
theorem leads_registerObject (inputDepth depth : Nat) :
    LeadsObjects d catalogue (registerObject catalogue inputDepth depth) := by
  induction depth with
  | zero => exact fun _ _ _ _ _ _ _ hruns => absurd hruns not_runs_throw
  | succ depth ih =>
    intro L host outline hdescribes r name s hruns hr
    cases hmet : r.outputs.lookup host with
    | some found =>
      obtain ⟨rfl, rfl⟩ := (runs_registerObject_met hmet).mp hruns
      exact ⟨L, .refl hr, (knows_output hr hmet).1 outline⟩
    | none =>
      obtain ⟨properties, t, hname, hfree, hwalk, rfl⟩ :=
        (runs_registerObject hmet hr.unspent).mp hruns
      have hentered := records_withObject hr hmet hfree
      obtain ⟨L', hproceeds, hsuits, htable⟩ := leads_walkProperties ih name host
        (fun f hf => hdescribes.field hf) (described_customization d catalogue host outline)
        _ _ _ hwalk hentered
      refine ⟨L', .close _ hentered rfl hproceeds hname.symm rfl fun o ho => ?_, .object (some host), ?_,
        rfl⟩
      · cases ho
        exact .object hdescribes hsuits htable
      · exact hproceeds.grows (List.mem_append_right _ List.mem_cons_self)

/-! ### Roots, unions and all that is declared -/

/-- A name may be reserved for a type without a host type. -/
theorem records_withName (hr : d.Records catalogue L r) {name : String}
    (hfree : name ∉ r.types.map (·.1)) {i : Identity} (hi : i = .object none ∨ i = .union) :
    d.Records catalogue (L ++ [(name, i)]) (withName r name) := by
  refine hr.enter hfree rfl ?_ ?_ ?_ ?_ ⟨hr.unspent.types, hr.unspent.enums⟩ (List.Subset.refl _)
    (List.Subset.refl _) rfl
  · intro other found
    rw [withName, hr.outputs]
    rcases hi with rfl | rfl <;> simp
  · intro other found
    rw [withName, hr.inputs]
    rcases hi with rfl | rfl <;> simp
  · intro other found
    rw [withName, hr.scalarNames]
    rcases hi with rfl | rfl <;> simp
  · rintro host rfl
    rcases hi with hi | hi <;> cases hi

theorem leads_addScalar (scalar : ScalarType) :
    Leads d catalogue L (addScalar scalar) fun _ _ => True := by
  intro r u s hruns hr
  rw [addScalar, runs_get_bind] at hruns
  cases hnew : r.scalarNames.lookup scalar.coercion.host with
  | some existing =>
    rw [hnew] at hruns
    exact absurd hruns not_runs_refuse
  | none =>
    rw [hnew] at hruns
    obtain ⟨_, _, hreserve, hfill⟩ := runs_bind.mp hruns
    obtain ⟨hfree, rfl⟩ := runs_reserve hreserve
    rw [runs_modify_bind] at hfill
    obtain rfl := runs_fill hfill
    have hentered : d.Records catalogue (L ++ [(scalar.name, .scalar scalar.coercion.host)])
        { r with
          types := r.types ++ [(scalar.name, none)]
          scalarNames := r.scalarNames ++ [(scalar.coercion.host, scalar.name)] } := by
      refine hr.enter hfree rfl ?_ ?_ ?_ (fun he => by cases he)
        ⟨hr.unspent.types, hr.unspent.enums⟩ (List.Subset.refl _) (List.Subset.refl _) rfl
      · intro other found
        rw [hr.outputs]
        simp
      · intro other found
        rw [hr.inputs]
        simp
      · intro other found
        rw [Entries.lookup_enter_iff hnew, hr.scalarNames]
        simp
        grind
    have hclosed := Proceeds.close (.scalar scalar) hentered rfl (.refl hentered) rfl rfl
      fun o ho => by cases ho
    exact ⟨_, hclosed, trivial⟩

theorem leads_addRoot {root : String × List PropertyDeclaration} (hroot : root ∈ d.roots) :
    Leads d catalogue L (addRoot catalogue depth root.1 root.2) fun L' _ =>
      (root.1, .object none) ∈ L' := by
  intro r u s hruns hr
  obtain ⟨hfree, properties, t, hdeclared, rfl⟩ := runs_addRoot.mp hruns
  have hentered := records_withName hr hfree (.inl rfl)
  obtain ⟨L', hproceeds, htable⟩ := leads_insertDeclared (leads_registerObject depth depth) root.1
    .empty (describes_of_root catalogue hroot) _ _ _ hdeclared hentered
  refine ⟨L', .close _ hentered rfl hproceeds rfl rfl fun o ho => ?_, ?_⟩
  · cases ho
    exact .root hroot htable
  · exact hproceeds.grows (List.mem_append_right _ List.mem_cons_self)

theorem leads_addRoots :
    Leads d catalogue L (d.roots.forM fun root => addRoot catalogue depth root.1 root.2)
      fun L' _ => ∀ root ∈ d.roots, (root.1, .object none) ∈ L' :=
  .forM (fun _ _ _ hgrows hmem => hgrows hmem) fun _ _ _ hroot => leads_addRoot hroot

theorem leads_addUnion {union : String × UnionDeclaration} (hunion : union ∈ d.unions) :
    Leads d catalogue L (addUnion catalogue depth union.1 union.2) fun L' _ =>
      (union.1, .union) ∈ L' := by
  intro r u s hruns hr
  obtain ⟨-, hfree, members, t, hmembers, rfl⟩ := runs_addUnion.mp hruns
  have hentered := records_withName hr hfree (.inr rfl)
  have hwalk : Leads d catalogue (L ++ [(union.1, .union)])
      (union.2.members.mapM (unionMember catalogue depth union.1)) fun _ _ => True := by
    refine .mapM fun L' _ ref href => ?_
    have hdescribes := describes_of_union catalogue hunion ref href
    cases ref with
    | object host outline =>
      exact (leads_registerObject depth depth L' host outline hdescribes).bind fun _ _ _ _ =>
        .pure trivial
    | scalar | enumeration | inputObject | list | nullable | union | function | generic =>
      exact .refuse _
  obtain ⟨L', hproceeds, -⟩ := hwalk _ _ _ hmembers hentered
  refine ⟨L', .close _ hentered rfl hproceeds rfl rfl nofun, ?_⟩
  exact hproceeds.grows (List.mem_append_right _ List.mem_cons_self)

theorem leads_addUnions :
    Leads d catalogue L (d.unions.forM fun union => addUnion catalogue depth union.1 union.2)
      fun L' _ => ∀ union ∈ d.unions, (union.1, .union) ∈ L' :=
  .forM (fun _ _ _ hgrows hmem => hgrows hmem) fun _ _ _ hunion => leads_addUnion hunion

theorem leads_addDeclared {ref : TypeRef} (hdescribes : d.Describes catalogue ref) :
    Leads d catalogue L (addDeclared catalogue depth ref) fun L' _ =>
      ∀ host outline, ref = .object host outline → ∃ name, L'.Knows name ref := by
  cases ref with
  | object host outline =>
    exact .map _ (leads_registerObject depth depth L host outline hdescribes)
      fun _ name hknows _ _ _ => ⟨name, hknows⟩
  | enumeration host shape => exact .map _ (leads_registerEnum hdescribes) fun _ _ _ _ _ => nofun
  | scalar | inputObject | list | nullable | union | function | generic => exact .pure nofun

theorem leads_addAllDeclared {refs : List TypeRef}
    (hdescribes : ∀ ref ∈ refs, d.Describes catalogue ref) :
    Leads d catalogue L (refs.forM (addDeclared catalogue depth)) fun L' _ =>
      ∀ ref ∈ refs, ∀ host outline, ref = .object host outline → ∃ name, L'.Knows name ref := by
  refine .forM (fun _ _ _ hgrows hmet host outline he => ?_) fun _ _ ref href =>
    leads_addDeclared (hdescribes ref href)
  obtain ⟨name, hknows⟩ := hmet host outline he
  exact ⟨name, hknows.mono hgrows⟩

end Registering

namespace Declarations

open Registering

variable (d : Declarations) (catalogue : Catalogue)

/-- At the end every name has a type. Roots and unions are there, and every host type whose object is
customized is met. -/
structure Completes (L : Ledger) (r : Registry) : Prop extends d.Records catalogue L r where
  filled : ∀ {name i}, (name, i) ∈ L → r.Filled name
  roots : ∀ root ∈ d.roots, (root.1, .object none) ∈ L
  unions : ∀ union ∈ d.unions, (union.1, .union) ∈ L
  customized : ∀ host outline declaration, d.types.lookup host = some declaration →
    declaration.type = .object host outline → ∃ name, L.Knows name (.object host outline)

variable {d catalogue}

theorem completes_of_runs {depth : Nat} {u : Unit} {s : Registry}
    (h : Runs (addAll catalogue depth d) (.start d) u s) : ∃ L, d.Completes catalogue L s := by
  obtain ⟨r₁, r₂, r₃, r₄, hscalars, hroots, hdeclared, hinputs, hunions⟩ := runs_addAll.mp h
  obtain ⟨L₁, h₁, -⟩ := (Leads.forM (Q := fun _ _ => True) (fun _ _ _ _ => id)
    fun L' _ scalar _ => leads_addScalar scalar) _ _ _ hscalars (.start d catalogue)
  obtain ⟨L₂, h₂, hrooted⟩ := leads_addRoots _ _ _ hroots h₁.records
  obtain ⟨L₃, h₃, hmet⟩ := leads_addAllDeclared (fun ref href => describes_of_remaining
    h₂.records.typeDeclarations h₂.records.enumDeclarations href) _ _ _ hdeclared h₂.records
  obtain ⟨L₄, h₄, -⟩ := (Leads.forM (Q := fun _ _ => True) (fun _ _ _ _ => id) fun L' _ ref href =>
    Leads.map _ (leads_inputType (leads_registerInput depth) (describes_of_input href))
      fun _ _ _ => trivial) _ _ _ hinputs h₃.records
  obtain ⟨L₅, h₅, hunioned⟩ := leads_addUnions _ _ _ hunions h₄.records
  have hlater := (h₃.trans h₄).trans h₅
  have hall := ((h₁.trans h₂).trans hlater)
  refine ⟨L₅, { hall.records with
    filled := fun hmem => (hall.fills hmem).resolve_left List.not_mem_nil
    roots := fun root hroot => hlater.grows (hrooted root hroot)
    unions := hunioned
    customized := fun host outline declaration hlookup htype => ?_ }⟩
  cases hmet₂ : r₂.outputs.lookup host with
  | some name => exact ⟨name, ((knows_output h₂.records hmet₂).1 outline).mono hlater.grows⟩
  | none =>
    -- What was not met from the roots was left in the declarations, and so it was met then.
    have hleft := Entries.mem_of_lookup ((h₂.records.unspent.types host hmet₂).trans hlookup)
    have href : declaration.type ∈ r₂.typeDeclarations.map (·.2.type) ++
        r₂.enumDeclarations.map (·.2.type) := List.mem_append_left _ (List.mem_map_of_mem hleft)
    obtain ⟨name, hknows⟩ := hmet _ href host outline htype
    exact ⟨name, htype ▸ hknows.mono (h₄.trans h₅).grows⟩

namespace Completes

variable {L : Ledger} {r : Registry} (h : d.Completes catalogue L r) (mutation : Option String)

include h

/-- A type graph has a type under every name that is written down, of the identity it is written down
for. -/
theorem exists_type? {name : String} {i : Identity} (hmem : (name, i) ∈ L) :
    ∃ node, (r.graph mutation).type? name = some node ∧ (name, node) ∈ (r.graph mutation).types ∧
      node.name = name ∧ node.identity = i := by
  obtain ⟨node, hnode⟩ := h.filled hmem
  obtain ⟨hname, hidentity⟩ := h.nodes hnode
  have hstored : (name, node) ∈ (r.graph mutation).types := Sound.mem_graph_types.mpr hnode
  have hnames : (r.types.map (·.1)).Nodup := h.names ▸ h.nodup
  exact ⟨node, Entries.lookup_of_mem (nodup_graph_names hnames mutation) hstored, hstored, hname,
    h.identity_unique hidentity hmem⟩

theorem mem_of_type? {name : String} {node : TypeNode}
    (hnode : (r.graph mutation).type? name = some node) : (name, node.identity) ∈ L :=
  (h.nodes (Sound.mem_graph_types.mp (Entries.mem_of_lookup hnode))).2

/-- Exactly the names of unions lead to unions. -/
theorem union?_isSome_iff {name : String} :
    ((r.graph mutation).union? name).isSome ↔ (name, .union) ∈ L := by
  constructor
  · intro hsome
    obtain ⟨u, hu⟩ := Option.isSome_iff_exists.mp hsome
    obtain ⟨node, hnode, hunion⟩ := Option.bind_eq_some_iff.mp hu
    have hmem := h.mem_of_type? mutation hnode
    cases node <;> cases hunion
    exact hmem
  · intro hmem
    obtain ⟨node, hnode, -, -, hidentity⟩ := h.exists_type? mutation hmem
    cases node <;> cases hidentity
    rw [TypeGraph.union?, hnode]
    rfl

end Completes

end Declarations

end Trellis
