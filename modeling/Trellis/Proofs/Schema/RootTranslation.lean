import Trellis.Proofs.Schema.ObjectTranslation

/-!
Translation of everything that is declared.

A registration that ends well leads into a registry whose names fit: all that is declared comes to
something under them, and no two types share a name. Conversely, a registration ends well whenever
any names fit, and gives no others.
-/

namespace Trellis

/-- A type under a name that was just reserved stands at the end. -/
theorem Declarations.Tidy.fill_reserved {types : List (String × Option TypeNode)} (node : TypeNode)
    (h : node.name ∉ types.map (·.1)) :
    ((types ++ [(node.name, none)]).map fun (name, slot) =>
      if name = node.name then (name, some node) else (name, slot)) =
      types ++ [(node.name, some node)] := by
  rw [List.map_append, List.map_singleton]
  dsimp only
  rw [if_pos rfl]
  congr 1
  refine (List.map_congr_left fun entry hmem => ?_).trans (List.map_id _)
  rcases entry with ⟨name, slot⟩
  have hne : name ≠ node.name := fun he => h (he ▸ List.mem_map_of_mem hmem)
  exact if_neg hne

namespace Registering

variable {d : Declarations} {catalogue : Catalogue} {opened : List (String × Identity)}
  {r s : Registry} {N : Names} {done : List String} {objectDepth inputDepth depth : Nat}

/-! ### Loops -/

theorem Translates.forM {α : Type} {f : α → Registering Unit} {spec : α → Names → Option Unit}
    {items : List α}
    (h : ∀ item ∈ items, Translates d catalogue objectDepth inputDepth (f item) (spec item)) :
    Translates d catalogue objectDepth inputDepth (items.forM f)
      fun N => items.forM fun item => spec item N := by
  induction items with
  | nil => exact .pure ()
  | cons item items ih =>
    exact (h item List.mem_cons_self).bind fun _ =>
      ih fun other hmem => h other (List.mem_cons_of_mem _ hmem)

theorem Translates.discard {α : Type} {op : Registering α} {spec : Names → Option α}
    (h : Translates d catalogue objectDepth inputDepth op spec) :
    Translates d catalogue objectDepth inputDepth (discard op) fun N => discard (spec N) :=
  h.map fun _ => ()

theorem discard_eq_some {α : Type} {found : Option α} :
    discard found = some () ↔ found.isSome = true := by
  cases found with
  | none => simp [discard, Functor.mapConst]
  | some _ => exact iff_of_true rfl rfl

theorem forM_eq_some {α : Type} {f : α → Option Unit} {items : List α} :
    items.forM f = some () ↔ ∀ item ∈ items, f item = some () := by
  induction items with
  | nil => simp [List.forM]
  | cons item items ih =>
    have hcons : (item :: items).forM f = (f item).bind fun _ => items.forM f := rfl
    rw [hcons, Option.bind_eq_some_iff, List.forall_mem_cons, ← ih]
    exact ⟨fun ⟨(), hitem, hrest⟩ => ⟨hitem, hrest⟩, fun ⟨hitem, hrest⟩ => ⟨(), hitem, hrest⟩⟩

/-! ### Scalars -/

theorem runs_addScalar {scalar : ScalarType} {u : Unit} : Runs (addScalar scalar) r u s ↔
    scalar.coercion.host ∉ r.scalarNames.map (·.1) ∧ scalar.name ∉ r.types.map (·.1) ∧
      s = { r with
        types := r.types ++ [(scalar.name, some (.scalar scalar))]
        scalarNames := r.scalarNames ++ [(scalar.coercion.host, scalar.name)] } := by
  have hfilled (hname : scalar.name ∉ r.types.map (·.1)) :=
    congrArg (fun types => { r with
      types := types
      scalarNames := r.scalarNames ++ [(scalar.coercion.host, scalar.name)] })
      (Declarations.Tidy.fill_reserved (.scalar scalar) hname)
  rw [addScalar, runs_get_bind]
  constructor
  · intro h
    split at h
    · exact absurd h not_runs_refuse
    · rename_i hnew
      obtain ⟨_, _, hreserve, hrest⟩ := runs_bind.mp h
      obtain ⟨hname, rfl⟩ := runs_reserve hreserve
      rw [runs_modify_bind] at hrest
      exact ⟨Entries.notMem_of_lookup hnew, hname, (runs_fill hrest).trans (hfilled hname)⟩
  · rintro ⟨hhost, hname, rfl⟩
    rw [Entries.lookup_of_notMem hhost]
    refine runs_bind.mpr ⟨(), _, reserve_runs hname, ?_⟩
    rw [runs_modify_bind]
    exact runs_modify.mpr (hfilled hname).symm

def withScalars (d : Declarations) (scalars : List ScalarType) : Registry :=
  { Registry.start d with
    types := scalars.map fun t => (t.name, some (.scalar t))
    scalarNames := scalars.map fun t => (t.coercion.host, t.name) }

/-- Scalars can be added if their host types and their names are distinct. -/
theorem runs_addScalars (before : List ScalarType) {scalars : List ScalarType} {u : Unit}
    (hhosts : (before.map (·.coercion.host)).Nodup) (hnames : (before.map (·.name)).Nodup) :
    Runs (scalars.forM addScalar) (withScalars d before) u s ↔
      ((before ++ scalars).map (·.coercion.host)).Nodup ∧
        ((before ++ scalars).map (·.name)).Nodup ∧ s = withScalars d (before ++ scalars) := by
  induction scalars generalizing before with
  | nil =>
    rw [List.append_nil]
    exact ⟨fun h => ⟨hhosts, hnames, (runs_pure.mp h).2⟩, fun h => runs_pure.mpr ⟨rfl, h.2.2⟩⟩
  | cons scalar scalars ih =>
    have hkeys : (withScalars d before).scalarNames.map (·.1) = before.map (·.coercion.host) := by
      simp [withScalars]
    have htypes : (withScalars d before).types.map (·.1) = before.map (·.name) := by
      simp [withScalars]
    have hnext : { withScalars d before with
        types := (withScalars d before).types ++ [(scalar.name, some (.scalar scalar))]
        scalarNames := (withScalars d before).scalarNames ++
          [(scalar.coercion.host, scalar.name)] } = withScalars d (before ++ [scalar]) := by
      simp [withScalars]
    have hsplit : before ++ scalar :: scalars = before ++ [scalar] ++ scalars := by simp
    have hconcat {β : Type} (key : ScalarType → β) :
        ((before ++ [scalar]).map key).Nodup ↔ (before.map key).Nodup ∧
          key scalar ∉ before.map key := by
      rw [List.map_append, List.map_singleton, ← List.concat_eq_append, List.nodup_concat]
      exact and_comm
    have hcons : Runs ((scalar :: scalars).forM addScalar) (withScalars d before) u s ↔
        ∃ a t, Runs (addScalar scalar) (withScalars d before) a t ∧
          Runs (scalars.forM addScalar) t u s := runs_bind
    rw [hcons, hsplit]
    simp only [runs_addScalar, hkeys, htypes, hnext]
    constructor
    · rintro ⟨_, _, ⟨hhost, hname, rfl⟩, hrest⟩
      exact (ih _ ((hconcat _).mpr ⟨hhosts, hhost⟩) ((hconcat _).mpr ⟨hnames, hname⟩)).mp hrest
    · rintro ⟨hallHosts, hallNames, rfl⟩
      have hfirst : (before ++ [scalar]).Sublist (before ++ [scalar] ++ scalars) :=
        List.sublist_append_left _ _
      have hhost := hallHosts.sublist (hfirst.map (·.coercion.host))
      have hname := hallNames.sublist (hfirst.map (·.name))
      refine ⟨(), _, ⟨((hconcat _).mp hhost).2, ((hconcat _).mp hname).2, rfl⟩, ?_⟩
      exact (ih _ hhost hname).mpr ⟨hallHosts, hallNames, rfl⟩

/-- The registry after all scalars are added. -/
theorem addScalars_faithful (catalogue : Catalogue) {u : Unit}
    (h : Runs (d.allScalars.forM addScalar) (.start d) u s) :
    d.Faithful catalogue [] s ∧ (d.allScalars.map (·.coercion.host)).Nodup ∧
      s = withScalars d d.allScalars := by
  have hstart : Runs (d.allScalars.forM addScalar) (withScalars d []) u s := h
  obtain ⟨hhosts, -, rfl⟩ := (runs_addScalars [] List.nodup_nil List.nodup_nil).mp hstart
  have hsound : d.Sound catalogue [] (withScalars d d.allScalars) :=
    forM_invariant (P := fun _ t => d.Sound catalogue [] t)
      (fun _ hrun ht => (addScalar_advances hrun ht).1) h (.start d catalogue)
  refine ⟨⟨hsound, ⟨fun _ _ => rfl, fun _ _ => rfl⟩, fun {_ _} hmem {N} hN => ?_⟩, hhosts, rfl⟩
  obtain ⟨t, ht, he⟩ := List.mem_map.mp hmem
  cases he
  have hentry : (t.coercion.host, t.name) ∈ (withScalars d d.allScalars).scalarNames :=
    List.mem_map_of_mem ht
  exact .scalar ht (hN.scalars (Entries.lookup_of_mem hsound.scalarHosts hentry))

/-- Where names fit, all scalars can be added to start with. -/
theorem addScalars_runs (hN : d.Fits catalogue N) :
    ∃ s, Runs (d.allScalars.forM addScalar) (.start d) () s ∧
      d.Within catalogue N [] (d.depth catalogue) (d.depth catalogue) s := by
  have hnames : (d.allScalars.map (·.name)).Nodup := by
    refine List.Nodup.map_on (fun t ht t' ht' hname => ?_) hN.scalarHosts.of_map
    have howns : d.Owns catalogue N (.scalar t'.coercion.host) t.name := hname ▸ .scalar ht'
    exact List.inj_on_of_nodup_map hN.scalarHosts ht ht'
      (Identity.scalar.inj (hN.owner (.scalar ht) howns))
  have hruns : Runs (d.allScalars.forM addScalar) (withScalars d []) () (withScalars d d.allScalars) :=
    (runs_addScalars [] List.nodup_nil List.nodup_nil).mpr ⟨hN.scalarHosts, hnames, rfl⟩
  refine ⟨_, hruns, ?_⟩
  have hhosts : ((withScalars d d.allScalars).scalarNames.map (·.1)).Nodup := by
    simpa [withScalars, Function.comp_def] using hN.scalarHosts
  have hscalars (host : HostType) :
      (withScalars d d.allScalars).scalarNames.lookup host = N.scalars host := by
    refine Option.ext fun name => ?_
    rw [hN.scalars]
    constructor
    · intro hlookup
      obtain ⟨t, ht, he⟩ := List.mem_map.mp (Entries.mem_of_lookup hlookup)
      exact ⟨t, ht, congrArg (·.1) he, congrArg (·.2) he⟩
    · rintro ⟨t, ht, rfl, rfl⟩
      exact Entries.lookup_of_mem hhosts (List.mem_map_of_mem ht)
  have hleft (entry : TypeRef → Option HostType) :
      unentered [] ((catalogue.mentions ++ d.mentions).filterMap entry) < d.depth catalogue :=
    Nat.lt_succ_of_le (Nat.le_trans List.countP_le_length (List.length_filterMap_le _ _))
  exact {
    under := {
      outputs := nofun
      inputs := nofun
      scalars := fun hlookup => by rw [← hscalars, hlookup]
      unions := hN.isUnion }
    scalars := hscalars
    unspent := ⟨fun _ _ => rfl, fun _ _ => rfl⟩
    typeDeclarations := List.Subset.refl _
    enumDeclarations := List.Subset.refl _
    names := fun name hmem => by
      obtain ⟨_, hentry, rfl⟩ := List.mem_map.mp hmem
      obtain ⟨t, ht, rfl⟩ := List.mem_map.mp hentry
      refine ⟨_, .scalar ht, ?_⟩
      rw [Declarations.Entered, hscalars, hN.scalars.mpr ⟨t, ht, rfl, rfl⟩]
      exact Option.some_ne_none _
    objectsLeft := hleft _
    inputsLeft := hleft _ }

/-! ### Roots and unions -/

def withName (r : Registry) (name : String) : Registry :=
  { r with types := r.types ++ [(name, none)] }

theorem within_withName (hr : d.Within catalogue N done objectDepth inputDepth r) {i : Identity}
    {name : String} (howns : d.Owns catalogue N i name)
    (hi : Declarations.Entered (withName r name) (name :: done) i name) :
    d.Within catalogue N (name :: done) objectDepth inputDepth (withName r name) :=
  hr.enter ⟨fun _ => id, fun _ => id, rfl⟩ (List.subset_cons_self _ _) howns hi List.map_append
    ⟨hr.under.outputs, hr.under.inputs, hr.under.scalars, hr.under.unions⟩
    ⟨hr.unspent.types, hr.unspent.enums⟩ (List.Subset.refl _) (List.Subset.refl _) hr.objectsLeft
    hr.inputsLeft

theorem provides_filled {node : TypeNode} {opened' : List (String × Identity)}
    (h : d.Sound catalogue ((node.name, node.identity) :: opened) r) :
    (r.filled node).Provides opened' node.name node.identity := by
  refine .inr ⟨node, rfl, Declarations.Tidy.mem_fill.mpr (.inl ⟨rfl, rfl, ?_⟩)⟩
  exact List.mem_map_of_mem ((h.tidy.reserved node.name).mpr List.mem_cons_self)

theorem runs_addRoot {name : String} {declarations : List PropertyDeclaration} {u : Unit} :
    Runs (addRoot catalogue depth name declarations) r u s ↔ name ∉ r.types.map (·.1) ∧
      ∃ properties t, Runs (insertDeclared catalogue depth (registerObject catalogue depth depth)
        name [] declarations) (withName r name) properties t ∧
        s = t.filled (.object ⟨name, none, none, properties⟩) := by
  constructor
  · intro h
    obtain ⟨_, _, hreserve, hrest⟩ := runs_bind.mp h
    obtain ⟨hname, rfl⟩ := runs_reserve hreserve
    obtain ⟨properties, t, hdeclared, hfill⟩ := runs_bind.mp hrest
    exact ⟨hname, properties, t, hdeclared, runs_fill hfill⟩
  · rintro ⟨hname, properties, t, hdeclared, rfl⟩
    exact runs_bind.mpr ⟨(), _, reserve_runs hname,
      runs_bind.mpr ⟨properties, t, hdeclared, fill_runs _ _⟩⟩

theorem describes_of_root (catalogue : Catalogue) {root : String × List PropertyDeclaration}
    (h : root ∈ d.roots) :
    ∀ declaration ∈ root.2, ∀ ref ∈ declaration.mentions, d.Describes catalogue ref := by
  intro declaration hdeclaration ref hmem
  refine .mention ?_
  simp only [Declarations.mentions, List.mem_append, List.mem_flatMap]
  rcases List.mem_cons.mp h with rfl | h
  · exact .inl (.inl (.inl (.inl ⟨declaration, hdeclaration, hmem⟩)))
  · split at h
    · exact absurd h List.not_mem_nil
    · obtain rfl := List.mem_singleton.mp h
      exact .inl (.inl (.inl (.inr ⟨declaration, hdeclaration, hmem⟩)))

/-- A root is what its declarations come to. -/
theorem addRoot_faithful (hd : d.Coherent catalogue) (hp : d.Proper)
    {root : String × List PropertyDeclaration} (hroot : root ∈ d.roots) {u : Unit}
    (h : Runs (addRoot catalogue depth root.1 root.2) r u s) (hr : d.Faithful catalogue opened r) :
    (d.Faithful catalogue opened s ∧ r.Extends s) ∧ s.Provides opened root.1 (.object none) := by
  have hdescribes := describes_of_root catalogue hroot
  obtain ⟨hsound, hgrown⟩ := addRoot_advances hd.toUnambiguous h hdescribes hr.sound
  obtain ⟨hname, properties, t, hdeclared, rfl⟩ := runs_addRoot.mp h
  obtain ⟨⟨ht, -⟩, hspec⟩ := (translates_insertDeclared hd hp
    (translates_registerObject hd hp depth depth) root.1 hdescribes []).rises hdeclared
      (hr.reserve hname (.object none))
  refine ⟨⟨ht.fill hsound fun ht _ => .root hroot ?_, hgrown⟩, provides_filled ht.sound⟩
  rw [Names.root, hspec ht]
  rfl

theorem addRoot_runs (hd : d.Coherent catalogue) (hp : d.Proper) (hN : d.Fits catalogue N)
    {root : String × List PropertyDeclaration} (hroot : root ∈ d.roots) (hnew : root.1 ∉ done)
    (hr : d.Within catalogue N done depth depth r) :
    ∃ s, Runs (addRoot catalogue depth root.1 root.2) r () s ∧
      d.Within catalogue N (root.1 :: done) depth depth s := by
  have howns : d.Owns catalogue N (.object none) root.1 := .root hroot
  obtain ⟨o, ho⟩ := Option.isSome_iff_exists.mp (hN.roots root hroot)
  obtain ⟨properties, hproperties, -⟩ := Option.bind_eq_some_iff.mp ho
  obtain ⟨t, hdeclared, ht⟩ := (translates_insertDeclared hd hp
    (translates_registerObject hd hp depth depth) root.1
      (describes_of_root catalogue hroot) []).falls hN
      (within_withName hr howns List.mem_cons_self) hproperties
  exact ⟨_, runs_addRoot.mpr ⟨hr.fresh hN howns hnew, properties, t, hdeclared, rfl⟩, ht.fill _⟩

theorem translates_unionMember (hd : d.Coherent catalogue) (hp : d.Proper) (union : String)
    {ref : TypeRef} (hdescribes : d.Describes catalogue ref) :
    Translates d catalogue depth depth (unionMember catalogue depth union ref)
      fun N => N.unionMember ref := by
  cases ref with
  | object host outline =>
    exact (translates_registerObject hd hp depth depth hdescribes).bind fun name => .pure _
  | scalar | enumeration | inputObject | list | nullable | union | function | generic =>
    exact .refuse _

theorem runs_addUnion {name : String} {declaration : UnionDeclaration} {u : Unit} :
    Runs (addUnion catalogue depth name declaration) r u s ↔ declaration.members.isEmpty = false ∧
      name ∉ r.types.map (·.1) ∧ ∃ members t,
        Runs (declaration.members.mapM (unionMember catalogue depth name)) (withName r name) members
          t ∧
        s = t.filled (.union
          ⟨name, declaration.description, members.map (·.2), Entries.ofPairs members⟩) := by
  rw [addUnion]
  cases declaration.members.isEmpty with
  | true => simpa using not_runs_refuse
  | false =>
    rw [if_neg (by simp)]
    constructor
    · intro h
      obtain ⟨_, _, hreserve, hrest⟩ := runs_bind.mp h
      obtain ⟨hname, rfl⟩ := runs_reserve hreserve
      obtain ⟨members, t, hmembers, hfill⟩ := runs_bind.mp hrest
      exact ⟨rfl, hname, members, t, hmembers, runs_fill hfill⟩
    · rintro ⟨-, hname, members, t, hmembers, rfl⟩
      exact runs_bind.mpr ⟨(), _, reserve_runs hname,
        runs_bind.mpr ⟨members, t, hmembers, fill_runs _ _⟩⟩

theorem describes_of_union (catalogue : Catalogue) {union : String × UnionDeclaration}
    (h : union ∈ d.unions) :
    ∀ ref ∈ union.2.members, d.Describes catalogue ref := by
  intro ref hmem
  refine .mention ?_
  simp only [Declarations.mentions, List.mem_append, List.mem_flatMap]
  exact .inl (.inr ⟨union, h, hmem⟩)

/-- A union is what its declaration comes to. -/
theorem addUnion_faithful (hd : d.Coherent catalogue) (hp : d.Proper)
    {union : String × UnionDeclaration} (hunion : union ∈ d.unions) {u : Unit}
    (h : Runs (addUnion catalogue depth union.1 union.2) r u s) (hr : d.Faithful catalogue [] r) :
    (d.Faithful catalogue [] s ∧ r.Extends s) ∧ s.Provides [] union.1 .union := by
  have hdescribes := describes_of_union catalogue hunion
  obtain ⟨⟨hsound, hgrown⟩, hprovides⟩ :=
    addUnion_advances hd.toUnambiguous h hdescribes hr.sound
  obtain ⟨hmembers, hname, members, t, hwalk, rfl⟩ := runs_addUnion.mp h
  obtain ⟨⟨ht, -⟩, hspec⟩ := (Translates.mapM fun ref hmem =>
    translates_unionMember hd hp union.1 (hdescribes ref hmem)).rises hwalk (hr.reserve hname .union)
  refine ⟨⟨ht.fill hsound fun ht _ => .union hunion ?_, hgrown⟩, hprovides⟩
  rw [Names.union, hmembers, if_neg (by simp), hspec ht]
  rfl

theorem addUnion_runs (hd : d.Coherent catalogue) (hp : d.Proper) (hN : d.Fits catalogue N)
    {union : String × UnionDeclaration} (hunion : union ∈ d.unions) (hnew : union.1 ∉ done)
    (hr : d.Within catalogue N done depth depth r) :
    ∃ s, Runs (addUnion catalogue depth union.1 union.2) r () s ∧
      d.Within catalogue N (union.1 :: done) depth depth s := by
  have howns : d.Owns catalogue N .union union.1 := .union hunion
  obtain ⟨o, ho⟩ := Option.isSome_iff_exists.mp (hN.unions union hunion)
  rw [Names.union] at ho
  split at ho
  · cases ho
  · rename_i hmembers
    obtain ⟨members, hspec, -⟩ := Option.bind_eq_some_iff.mp ho
    obtain ⟨t, hwalk, ht⟩ := (Translates.mapM fun ref hmem => translates_unionMember hd hp union.1
      (describes_of_union catalogue hunion ref hmem)).falls hN
        (within_withName hr howns List.mem_cons_self) hspec
    refine ⟨_, runs_addUnion.mpr ⟨by simpa using hmembers, hr.fresh hN howns hnew, members, t, hwalk,
      rfl⟩, ht.fill _⟩

end Registering

end Trellis
