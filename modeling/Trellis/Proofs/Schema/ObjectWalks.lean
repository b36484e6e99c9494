import Trellis.Proofs.Schema.InputWalks

/-!
Walks through objects and their properties.

A property holds once its type and its arguments are the translations of what its functions declare.
It keeps holding while others are added, customized or met inside of each other.
-/

namespace Trellis

/-- Named parameters are the declared ones, with as many names as they have arguments. -/
theorem Parameters.name?_eq_some {p named : Parameters} {names : List String}
    (h : p.name? names = some named) : names.length = p.argumentCount ∧ named = ⟨p.kinds, names⟩ := by
  rw [name?] at h
  split at h
  · rename_i hcount
    exact ⟨hcount, (Option.some.inj h).symm⟩
  · cases h

namespace Declarations.ArgumentsHold

variable {d : Declarations} {catalogue : Catalogue} {r : Registry} {arguments : List Argument}
  {declared : List (String × TypeRef)} {name : String} {ref : TypeRef} {type : TypeLiteral}

theorem empty : d.ArgumentsHold catalogue r [] [] :=
  ⟨fun _ _ hmem => absurd hmem List.not_mem_nil, fun _ ha => absurd ha List.not_mem_nil⟩

/-- A function may declare an argument that is new. -/
theorem add (h : d.ArgumentsHold catalogue r arguments declared)
    (htakes : d.Takes catalogue r ref type) :
    d.ArgumentsHold catalogue r (arguments ++ [⟨name, type⟩]) (declared ++ [(name, ref)]) where
  taken other key hmem := by
    rcases List.mem_append.mp hmem with hmem | hmem
    · obtain ⟨a, ha, hname, htype⟩ := h.taken other key hmem
      exact ⟨a, List.mem_append_left _ ha, hname, htype⟩
    · cases List.mem_singleton.mp hmem
      exact ⟨⟨name, type⟩, List.mem_append_right _ List.mem_cons_self, rfl, htakes⟩
  declared a ha := by
    rcases List.mem_append.mp ha with ha | ha
    · obtain ⟨key, hmem, htype⟩ := h.declared a ha
      exact ⟨key, List.mem_append_left _ hmem, htype⟩
    · obtain rfl := List.mem_singleton.mp ha
      exact ⟨ref, List.mem_append_right _ List.mem_cons_self, htakes⟩

/-- A function may declare an argument that another one has declared with the same type. -/
theorem share (h : d.ArgumentsHold catalogue r arguments declared) {existing : Argument}
    (hexisting : existing ∈ arguments) (htakes : d.Takes catalogue r ref existing.type) :
    d.ArgumentsHold catalogue r arguments (declared ++ [(existing.name, ref)]) where
  taken other key hmem := by
    rcases List.mem_append.mp hmem with hmem | hmem
    · exact h.taken other key hmem
    · cases List.mem_singleton.mp hmem
      exact ⟨existing, hexisting, rfl, htakes⟩
  declared a ha := by
    obtain ⟨key, hmem, htype⟩ := h.declared a ha
    exact ⟨key, List.mem_append_left _ hmem, htype⟩

end Declarations.ArgumentsHold

namespace Registering

variable {d : Declarations} {catalogue : Catalogue} {opened : List (String × Identity)}
  {r s : Registry}

/-- A walk through objects that enters every one of them. -/
def ObjectWalk (d : Declarations) (catalogue : Catalogue)
    (walk : HostType → HostType → Registering String) : Prop :=
  ∀ {opened : List (String × Identity)} {host outline : HostType} {name : String}
    {r s : Registry}, Runs (walk host outline) r name s → d.Sound catalogue opened r →
    d.Describes catalogue (.object host outline) →
    d.Advances catalogue opened r s ∧ (host, name) ∈ s.outputs

/-- The type of a value is the translation of its description. -/
theorem outputType_advances (hd : d.Unambiguous catalogue)
    {walk : HostType → HostType → Registering String} (hwalk : ObjectWalk d catalogue walk)
    {site : Site} (hsite : ∀ union, site.union = some union → union ∈ d.unions.map (·.1))
    {ref : TypeRef} {type : TypeLiteral} (h : Runs (outputType walk site ref) r type s)
    (hr : d.Sound catalogue opened r) (hdescribes : d.Describes catalogue ref) :
    d.Advances catalogue opened r s ∧ d.Shows catalogue s ref type := by
  induction ref generalizing type with
  | nullable _ inner ih =>
    obtain ⟨under, hinner, rfl⟩ := runs_map.mp h
    obtain ⟨hadvances, hdescribed, name, rfl, hname⟩ := ih hinner hdescribes.nullable
    exact ⟨hadvances, hdescribed, name, rfl, hname⟩
  | list _ inner ih =>
    obtain ⟨under, hinner, rfl⟩ := runs_map.mp h
    obtain ⟨hadvances, hdescribed, name, rfl, hname⟩ := ih hinner hdescribes.list
    exact ⟨hadvances, hdescribed, name, rfl, hname⟩
  | scalar host =>
    obtain ⟨name, hscalar, rfl⟩ := runs_map.mp h
    obtain ⟨hmem, rfl⟩ := runs_scalarName hscalar
    exact ⟨⟨hr, .refl _⟩, hdescribes, name, rfl, hmem⟩
  | enumeration host shape =>
    obtain ⟨name, henum, rfl⟩ := runs_map.mp h
    obtain ⟨hadvances, hmem, -⟩ := registerEnum_advances hd henum hr hdescribes
    exact ⟨hadvances, hdescribes, name, rfl, hmem⟩
  | object host outline =>
    obtain ⟨name, hobject, rfl⟩ := runs_map.mp h
    obtain ⟨hadvances, hmem⟩ := hwalk hobject hr hdescribes
    exact ⟨hadvances, hdescribes, name, rfl, hmem⟩
  | union host =>
    rw [outputType] at h
    split at h
    · rename_i union hunion
      obtain ⟨rfl, rfl⟩ := runs_pure.mp h
      refine ⟨⟨hr, .refl _⟩, hdescribes, union, rfl, ?_⟩
      have hmem := hsite union hunion
      rwa [← hr.unionNames] at hmem
    · exact absurd h not_runs_refuse
  | inputObject | function | generic => exact absurd h not_runs_refuse

/-- Arguments that several functions share have one type, the translation for each of them. -/
theorem mergeArguments_advances (hd : d.Unambiguous catalogue) {depth : Nat}
    {owner property : String} {declared before : List (String × TypeRef)}
    {arguments merged : List Argument}
    (h : Runs (mergeArguments catalogue depth owner property arguments declared) r merged s)
    (hr : d.Sound catalogue opened r)
    (hdescribes : ∀ argument ∈ declared, d.Describes catalogue argument.2)
    (hbefore : d.ArgumentsHold catalogue r arguments before) :
    d.Advances catalogue opened r s ∧ d.ArgumentsHold catalogue s merged (before ++ declared) := by
  induction declared generalizing before arguments r with
  | nil =>
    obtain ⟨rfl, rfl⟩ := runs_pure.mp h
    rw [List.append_nil]
    exact ⟨⟨hr, .refl _⟩, hbefore⟩
  | cons argument declared ih =>
    rcases argument with ⟨name, ref⟩
    rw [mergeArguments] at h
    obtain ⟨type, t, htype, hrest⟩ := runs_bind.mp h
    obtain ⟨hadvances, htakes⟩ := inputType_advances hd (registerInput_advances hd depth) htype hr
      (hdescribes _ List.mem_cons_self)
    have hkept := hbefore.extends hadvances.2
    have hrefs := fun argument hmem => hdescribes argument (List.mem_cons_of_mem _ hmem)
    have hsplit : before ++ (name, ref) :: declared = before ++ [(name, ref)] ++ declared := by simp
    rw [hsplit]
    split at hrest
    · obtain ⟨hlast, hholds⟩ := ih hrest hadvances.1 hrefs (hkept.add htakes)
      exact ⟨hadvances.trans hlast, hholds⟩
    · rename_i existing hexisting
      split at hrest
      · rename_i hsame
        obtain rfl : existing.name = name := by simpa using List.find?_some hexisting
        rw [← hsame] at htakes
        obtain ⟨hlast, hholds⟩ := ih hrest hadvances.1 hrefs
          (hkept.share (List.mem_of_find?_eq_some hexisting) htakes)
        exact ⟨hadvances.trans hlast, hholds⟩
      · exact absurd hrest not_runs_refuse

theorem runs_checkUnion {owner : String} {declaration : PropertyDeclaration} {returns : TypeRef}
    {u : Unit} (h : Runs (checkUnion owner declaration returns) r u s) :
    s = r ∧ ∃ union ∈ r.unionNames, declaration.union = some union := by
  rw [checkUnion] at h
  split at h
  · exact absurd h not_runs_refuse
  · rename_i union hunion
    rw [runs_get_bind] at h
    split at h
    · exact absurd h not_runs_refuse
    · rename_i hmem
      split at h
      · exact ⟨(runs_pure.mp h).2, union, not_not.mp hmem, hunion⟩
      · exact absurd h not_runs_refuse

theorem mem_argumentTypes {kinds named : Parameters} {names : List String}
    (h : kinds.name? names = some named) {argument : String × TypeRef}
    (hmem : argument ∈ named.arguments) :
    argument.2 ∈ Parameters.argumentTypes kinds.kinds := by
  obtain ⟨-, rfl⟩ := Parameters.name?_eq_some h
  exact (List.of_mem_zip hmem).2

/-- A property with a resolver holds once it is declared. -/
theorem property_advances (hd : d.Unambiguous catalogue) {depth : Nat}
    {walk : HostType → HostType → Registering String} (hwalk : ObjectWalk d catalogue walk)
    {owner : String} {declaration : PropertyDeclaration} {p : Property}
    (h : Runs (property catalogue depth walk owner declaration) r p s)
    (hr : d.Sound catalogue opened r)
    (hdescribes : ∀ ref ∈ declaration.mentions, d.Describes catalogue ref) :
    d.Advances catalogue opened r s ∧ d.PropertyHolds catalogue s p := by
  rw [property] at h
  dsimp only at h
  split at h
  · exact absurd h not_runs_refuse
  · rename_i resolver hresolver
    rw [PropertyDeclaration.mentions, hresolver] at hdescribes
    split at h
    · exact absurd h not_runs_refuse
    · rename_i parameters hparameters
      obtain ⟨_, t, hcheck, hrest⟩ := runs_optional h
      have hchecked : t = r ∧ ∀ union, declaration.union = some union →
          union ∈ d.unions.map (·.1) := by
        by_cases horigin :
            (if declaration.union.isSome then Origin.union else declaration.origin) = .union
        · rw [if_pos horigin] at hcheck
          obtain ⟨rfl, union, hmem, hunion⟩ := runs_checkUnion hcheck
          refine ⟨rfl, fun other hother => ?_⟩
          cases hunion.symm.trans hother
          rwa [hr.unionNames] at hmem
        · rw [if_neg horigin] at hcheck
          refine ⟨(runs_pure.mp hcheck).2, fun union hunion => ?_⟩
          rw [hunion] at horigin
          exact absurd rfl horigin
      obtain ⟨rfl, hsite⟩ := hchecked
      obtain ⟨type, t', htype, hrest⟩ := runs_bind.mp hrest
      obtain ⟨arguments, t'', harguments, hpure⟩ := runs_bind.mp hrest
      obtain ⟨rfl, rfl⟩ := runs_pure.mp hpure
      obtain ⟨hadvances, hshows⟩ :=
        outputType_advances hd hwalk hsite htype hr (hdescribes _ List.mem_cons_self)
      have hrefs (argument) (hmem : argument ∈ parameters.arguments) :=
        hdescribes _ (List.mem_cons_of_mem _ (mem_argumentTypes hparameters hmem))
      obtain ⟨hlast, hholds⟩ := mergeArguments_advances hd harguments hadvances.1 hrefs .empty
      refine ⟨hadvances.trans hlast, hshows.extends hlast.2, ?_⟩
      simpa [Property.declaredArguments] using hholds

theorem runs_insertProperty {owner : String} {properties result : List Property} {p : Property}
    (h : Runs (insertProperty owner properties p) r result s) :
    result = properties ++ [p] ∧ s = r := by
  rw [insertProperty] at h
  split at h
  · exact absurd h not_runs_refuse
  · exact runs_pure.mp h

/-- A registry that has grown from another one, with properties that hold in it. -/
def Holding (d : Declarations) (catalogue : Catalogue) (opened : List (String × Identity))
    (r s : Registry) (properties : List Property) : Prop :=
  d.Advances catalogue opened r s ∧ ∀ p ∈ properties, d.PropertyHolds catalogue s p

theorem Holding.nil (hr : d.Sound catalogue opened r) : Holding d catalogue opened r r [] :=
  ⟨⟨hr, .refl r⟩, fun _ hp => absurd hp List.not_mem_nil⟩

theorem Holding.advance {t : Registry} {properties : List Property}
    (h : Holding d catalogue opened r s properties) (hadvances : d.Advances catalogue opened s t) :
    Holding d catalogue opened r t properties :=
  ⟨h.1.trans hadvances, fun p hp => (h.2 p hp).extends hadvances.2⟩

theorem Holding.insert {owner : String} {properties result : List Property} {p : Property}
    {t : Registry} (h : Holding d catalogue opened r s properties)
    (hp : d.PropertyHolds catalogue s p)
    (hinsert : Runs (insertProperty owner properties p) s result t) :
    Holding d catalogue opened r t result := by
  obtain ⟨rfl, rfl⟩ := runs_insertProperty hinsert
  refine ⟨h.1, fun q hq => ?_⟩
  rcases List.mem_append.mp hq with hq | hq
  · exact h.2 q hq
  · rwa [List.mem_singleton.mp hq]

theorem insertDeclared_holding (hd : d.Unambiguous catalogue) {depth : Nat}
    {walk : HostType → HostType → Registering String} (hwalk : ObjectWalk d catalogue walk)
    {owner : String} {properties result : List Property} {declarations : List PropertyDeclaration}
    {t : Registry}
    (h : Runs (insertDeclared catalogue depth walk owner properties declarations) s result t)
    (hdescribes : ∀ declaration ∈ declarations, ∀ ref ∈ declaration.mentions,
      d.Describes catalogue ref)
    (hholding : Holding d catalogue opened r s properties) :
    Holding d catalogue opened r t result := by
  refine foldlM_invariant (P := Holding d catalogue opened r)
    (fun declaration hmem {before after s s'} hrun hbefore => ?_) h hholding
  obtain ⟨p, t', hproperty, hinsert⟩ := runs_bind.mp hrun
  obtain ⟨hadvances, hp⟩ :=
    property_advances hd hwalk hproperty hbefore.1.1 (hdescribes declaration hmem)
  exact (hbefore.advance hadvances).insert hp hinsert

/-- The fields of an object are shown as they are described. -/
theorem insertFields_holding (hd : d.Unambiguous catalogue)
    {walk : HostType → HostType → Registering String} (hwalk : ObjectWalk d catalogue walk)
    {owner : String} {host : HostType} {ignored : List String} {fields : List ObjectField}
    {result : List Property} (h : Runs (insertFields walk owner host ignored fields) r result s)
    (hdescribes : ∀ f ∈ fields, d.Describes catalogue f.type) (hr : d.Sound catalogue opened r) :
    Holding d catalogue opened r s result := by
  refine foldlM_invariant (P := Holding d catalogue opened r)
    (fun field hmem {before after t t'} hrun hbefore => ?_) h (.nil hr)
  obtain ⟨type, t'', htype, hinsert⟩ := runs_bind.mp hrun
  have hsite (union : String) (hunion : none = some union) : union ∈ d.unions.map (·.1) :=
    nomatch hunion
  obtain ⟨hadvances, hshows⟩ := outputType_advances hd hwalk hsite htype hbefore.1.1
    (hdescribes field (List.mem_filter.mp hmem).1)
  exact (hbefore.advance hadvances).insert ⟨hshows, .empty⟩ hinsert

/-- Changing one property well leaves all of them well. -/
theorem adjustProperty_holding {owner name : String} {change : Property → Registering Property}
    (hchange : ∀ {p changed : Property} {t t' : Registry}, Runs (change p) t changed t' →
      d.Sound catalogue opened t → d.PropertyHolds catalogue t p →
      d.Advances catalogue opened t t' ∧ d.PropertyHolds catalogue t' changed)
    {properties result : List Property} {t : Registry}
    (h : Runs (adjustProperty owner name change properties) s result t)
    (hholding : Holding d catalogue opened r s properties) :
    Holding d catalogue opened r t result := by
  suffices hsuffices : d.Advances catalogue opened s t ∧ ∀ p ∈ result, d.PropertyHolds catalogue t p
    from ⟨hholding.1.trans hsuffices.1, hsuffices.2⟩
  obtain ⟨⟨hs, -⟩, hproperties⟩ := hholding
  induction properties generalizing result with
  | nil => exact absurd h not_runs_refuse
  | cons p rest ih =>
    rw [adjustProperty] at h
    have hp := hproperties p List.mem_cons_self
    have hrest := fun q hq => hproperties q (List.mem_cons_of_mem _ hq)
    split at h
    · obtain ⟨changed, _, hrun, hpure⟩ := runs_bind.mp h
      obtain ⟨rfl, rfl⟩ := runs_pure.mp hpure
      obtain ⟨hadvances, hchanged⟩ := hchange hrun hs hp
      refine ⟨hadvances, List.forall_mem_cons.mpr ⟨hchanged, fun q hq => ?_⟩⟩
      exact (hrest q hq).extends hadvances.2
    · obtain ⟨others, _, hrun, hpure⟩ := runs_bind.mp h
      obtain ⟨rfl, rfl⟩ := runs_pure.mp hpure
      obtain ⟨hadvances, hothers⟩ := ih hrun hrest
      exact ⟨hadvances, List.forall_mem_cons.mpr ⟨hp.extends hadvances.2, hothers⟩⟩

/-- A transformation adds its arguments to those of its property. -/
theorem attach_advances (hd : d.Unambiguous catalogue) {depth : Nat} {owner : String}
    {declaration : TransformationDeclaration} {p changed : Property}
    (h : Runs (attach catalogue depth owner declaration p) r changed s)
    (hdescribes : ∀ transformation, declaration.transformation = some transformation →
      ∀ ref ∈ Parameters.argumentTypes transformation.parameters.kinds, d.Describes catalogue ref)
    (hr : d.Sound catalogue opened r) (hp : d.PropertyHolds catalogue r p) :
    d.Advances catalogue opened r s ∧ d.PropertyHolds catalogue s changed := by
  rw [attach] at h
  split at h
  · exact absurd h not_runs_refuse
  · rename_i transformation htransformation
    split at h
    · exact absurd h not_runs_refuse
    · rename_i parameters hparameters
      dsimp only at h
      split at h
      · exact absurd h not_runs_refuse
      · obtain ⟨arguments, _, harguments, hpure⟩ := runs_bind.mp h
        obtain ⟨rfl, rfl⟩ := runs_pure.mp hpure
        have hrefs (argument) (hmem : argument ∈ parameters.arguments) :=
          hdescribes transformation htransformation _ (mem_argumentTypes hparameters hmem)
        obtain ⟨hadvances, hholds⟩ := mergeArguments_advances hd harguments hr hrefs hp.arguments
        refine ⟨hadvances, hp.type.extends hadvances.2, ?_⟩
        simpa [Property.declaredArguments] using hholds

theorem configure_advances {change : PropertyChange} {p changed : Property}
    (h : Runs (pure (configure change p)) r changed s) (hr : d.Sound catalogue opened r)
    (hp : d.PropertyHolds catalogue r p) :
    d.Advances catalogue opened r s ∧ d.PropertyHolds catalogue s changed := by
  obtain ⟨rfl, rfl⟩ := runs_pure.mp h
  exact ⟨⟨hr, .refl _⟩, hp.type, hp.arguments⟩

theorem configureAll_holding {owner : String} {changes : List (String × PropertyChange)}
    {properties result : List Property} {t : Registry}
    (h : Runs (changes.foldlM (fun properties change => adjustProperty owner change.1
      (fun p => pure (configure change.2 p)) properties) properties) s result t)
    (hholding : Holding d catalogue opened r s properties) :
    Holding d catalogue opened r t result :=
  foldlM_invariant (P := Holding d catalogue opened r)
    (fun _ _ {_ _ _ _} hrun => adjustProperty_holding configure_advances hrun) h hholding

theorem attachAll_holding (hd : d.Unambiguous catalogue) {depth : Nat} {owner : String}
    {declarations : List TransformationDeclaration} {properties result : List Property}
    {t : Registry}
    (h : Runs (declarations.foldlM (fun properties declaration => adjustProperty owner
      declaration.property (attach catalogue depth owner declaration) properties) properties)
      s result t)
    (hdescribes : ∀ declaration ∈ declarations, ∀ transformation,
      declaration.transformation = some transformation →
        ∀ ref ∈ Parameters.argumentTypes transformation.parameters.kinds, d.Describes catalogue ref)
    (hholding : Holding d catalogue opened r s properties) :
    Holding d catalogue opened r t result :=
  foldlM_invariant (P := Holding d catalogue opened r)
    (fun declaration hmem {_ _ _ _} hrun => adjustProperty_holding (fun hattach ht hp =>
      attach_advances hd hattach (hdescribes declaration hmem) ht hp) hrun) h hholding

/-- All that the functions of a customization mention is described. -/
structure Described (d : Declarations) (catalogue : Catalogue) (declaration : TypeDeclaration) :
    Prop where
  properties : ∀ property ∈ declaration.properties, ∀ ref ∈ property.mentions,
    d.Describes catalogue ref
  transformations : ∀ t ∈ declaration.transformations, ∀ transformation,
    t.transformation = some transformation →
      ∀ ref ∈ Parameters.argumentTypes transformation.parameters.kinds, d.Describes catalogue ref

theorem described_of_mem {host : HostType} {declaration : TypeDeclaration}
    (h : (host, declaration) ∈ d.types) : Described d catalogue declaration := by
  have hmention {ref : TypeRef} (hmem : ref ∈ declaration.mentions) : d.Describes catalogue ref := by
    refine .mention ?_
    simp only [Declarations.mentions, List.mem_append, List.mem_flatMap]
    exact .inl (.inl (.inr ⟨_, h, hmem⟩))
  constructor
  · intro property hproperty ref hmem
    refine hmention (List.mem_append_left _ (List.mem_cons_of_mem _ ?_))
    exact List.mem_flatMap_of_mem hproperty hmem
  · intro t ht transformation htransformation ref hmem
    refine hmention (List.mem_append_right _ (List.mem_flatMap.mpr ⟨t, ht, ?_⟩))
    rwa [htransformation]

theorem takeDeclaration_advances {host outline : HostType} {declaration : TypeDeclaration}
    (h : Runs (takeDeclaration host outline) r declaration s) (hr : d.Sound catalogue opened r) :
    d.Advances catalogue opened r s ∧ s.outputs = r.outputs ∧
      Described d catalogue declaration := by
  rw [takeDeclaration, runs_get_bind] at h
  dsimp only at h
  rw [runs_modify_bind] at h
  obtain ⟨rfl, rfl⟩ := runs_pure.mp h
  have hused : r.typeDeclarations.filter (·.1 ≠ host) ⊆ r.typeDeclarations :=
    List.filter_subset_self _
  refine ⟨⟨hr.drop hused (List.Subset.refl _), .drop _ _ _⟩, rfl, ?_⟩
  cases hlookup : r.typeDeclarations.lookup host with
  | none =>
    exact ⟨fun _ hmem => absurd hmem List.not_mem_nil, fun _ hmem => absurd hmem List.not_mem_nil⟩
  | some declaration =>
    exact described_of_mem (hr.typeDeclarations (Entries.mem_of_lookup hlookup))

/-- An object that is met is entered under its name, and all its properties hold. -/
theorem registerObject_advances (hd : d.Unambiguous catalogue) (inputDepth depth : Nat) :
    ObjectWalk d catalogue (registerObject catalogue inputDepth depth) := by
  induction depth with
  | zero => exact fun h => absurd h not_runs_throw
  | succ depth ih =>
    intro opened host outline name r s h hr hdescribes
    rw [registerObject, runs_get_bind] at h
    split at h
    · rename_i found hfound
      obtain ⟨rfl, rfl⟩ := runs_pure.mp h
      exact ⟨⟨hr, .refl _⟩, Entries.mem_of_lookup hfound⟩
    · rename_i hnew
      dsimp only at h
      obtain ⟨declaration, t, htake, hrest⟩ := runs_bind.mp h
      obtain ⟨⟨htaken, hextends⟩, houtputs, hdescribed⟩ := takeDeclaration_advances htake hr
      rw [← houtputs] at hnew
      obtain ⟨_, _, hreserve, hrest⟩ := runs_bind.mp hrest
      obtain ⟨hname, rfl⟩ := runs_reserve hreserve
      rw [runs_modify_bind] at hrest
      -- The name stays opened while the properties are walked, also for walks that come back here.
      have hopened := htaken.reserve hname (.object (some host))
      have hentered := hopened.enterObject (Entries.notMem_of_lookup hnew) List.mem_cons_self
        hdescribes
      split at hrest
      · exact absurd hrest not_runs_refuse
      · obtain ⟨fields, t₁, hfields, hrest⟩ := runs_bind.mp hrest
        obtain ⟨declared, t₂, hdeclared, hrest⟩ := runs_bind.mp hrest
        obtain ⟨configured, t₃, hconfigured, hrest⟩ := runs_bind.mp hrest
        obtain ⟨attached, t₄, hattached, hrest⟩ := runs_bind.mp hrest
        obtain ⟨_, _, hfill, hpure⟩ := runs_bind.mp hrest
        obtain ⟨rfl, rfl⟩ := runs_pure.mp hpure
        have h₁ := insertFields_holding hd ih hfields (fun f hf => hdescribes.field hf) hentered
        have h₂ := insertDeclared_holding hd ih hdeclared hdescribed.properties h₁
        have h₃ := configureAll_holding hconfigured h₂
        have h₄ := attachAll_holding hd hattached hdescribed.transformations h₃
        obtain ⟨⟨hsound, hgrown⟩, hproperties⟩ := h₄
        obtain ⟨hlast, hfilled⟩ := fill_advances (.object _) hfill hsound hproperties
        refine ⟨⟨hlast, ?_⟩, hfilled.outputs (hgrown.outputs (by simp))⟩
        exact hextends.trans (((Registry.Extends.reserve _ _).trans (.enterOutput _ _)).trans
          (hgrown.trans hfilled))

end Registering

end Trellis
