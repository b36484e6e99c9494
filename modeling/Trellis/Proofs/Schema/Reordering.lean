import Mathlib.Data.List.Forall2
import Trellis.Proofs.Schema.Transferring

/-!
Declarations in another order.

What is described, what declarations come to under given names and which names fit do not depend on
the order of the declarations. So the names that one order leads to fit for the other one as well,
and both orders lead to the same names and the same types.
-/

namespace Trellis

namespace Entries

variable {κ α : Type} [DecidableEq κ]

theorem lookup_perm {entries entries' : List (κ × α)} (h : entries.Perm entries')
    (hkeys : (entries.map (·.1)).Nodup) (key : κ) : entries.lookup key = entries'.lookup key := by
  have hkeys' := (h.map (·.1)).nodup_iff.mp hkeys
  refine Option.ext fun value => ⟨fun hlookup => ?_, fun hlookup => ?_⟩
  · exact lookup_of_mem hkeys' (h.mem_iff.mp (mem_of_lookup hlookup))
  · exact lookup_of_mem hkeys (h.mem_iff.mpr (mem_of_lookup hlookup))

/-- Entries under distinct keys that are found alike are the same up to their order. -/
theorem perm_of_lookup {entries entries' : List (κ × α)} (hkeys : (entries.map (·.1)).Nodup)
    (hkeys' : (entries'.map (·.1)).Nodup) (h : ∀ key, entries.lookup key = entries'.lookup key) :
    entries.Perm entries' := by
  refine (List.perm_ext_iff_of_nodup hkeys.of_map hkeys'.of_map).mpr fun ⟨key, value⟩ => ?_
  constructor
  · intro hmem
    exact mem_of_lookup ((h key).symm.trans (lookup_of_mem hkeys hmem))
  · intro hmem
    exact mem_of_lookup ((h key).trans (lookup_of_mem hkeys' hmem))

end Entries

/-- Types are equal, up to the order of the properties of roots. -/
inductive TypeNode.Alike : TypeNode → TypeNode → Prop
  | same (node : TypeNode) : Alike node node
  | root {o : ObjectType} {properties : List Property} : o.host = none →
    o.properties.Perm properties → Alike (.object o) (.object { o with properties })

/-- Two graphs have the same types, with the same contents and under the same names, up to the order
of the types and of the properties of roots. -/
structure TypeGraph.Agrees (g g' : TypeGraph) : Prop where
  names : (g.types.map (·.1)).Perm (g'.types.map (·.1))
  types : ∀ name, Option.Rel TypeNode.Alike (g.type? name) (g'.type? name)
  outputs : ∀ host, g.outputs.lookup host = g'.outputs.lookup host
  inputs : ∀ host, g.inputs.lookup host = g'.inputs.lookup host
  scalarNames : ∀ host, g.scalarNames.lookup host = g'.scalarNames.lookup host
  query : g.query = g'.query
  mutation : g.mutation = g'.mutation

namespace Names

variable {N : Names}

theorem insertDeclared_cons {declaration : PropertyDeclaration}
    {declarations : List PropertyDeclaration} {before properties : List Property} :
    N.insertDeclared before (declaration :: declarations) = some properties ↔
      ∃ p, N.property declaration = some p ∧ (∀ q ∈ before, q.name ≠ p.name) ∧
        N.insertDeclared (before ++ [p]) declarations = some properties := by
  rw [insertDeclared, List.foldlM_cons, Option.bind_eq_bind, Option.bind_eq_some_iff]
  constructor
  · rintro ⟨next, hnext, hrest⟩
    obtain ⟨p, hp, hinsert⟩ := Option.bind_eq_some_iff.mp hnext
    obtain ⟨hfresh, rfl⟩ := insertProperty_eq_some.mp hinsert
    exact ⟨p, hp, hfresh, hrest⟩
  · rintro ⟨p, hp, hfresh, hrest⟩
    have hinsert := insertProperty_eq_some.mpr ⟨hfresh, rfl⟩
    exact ⟨before ++ [p], Option.bind_eq_some_iff.mpr ⟨p, hp, hinsert⟩, hrest⟩

/-- Declared properties are added if they all come to something and have distinct names. -/
theorem insertDeclared_eq_some {declarations : List PropertyDeclaration}
    {before properties : List Property} (hbefore : (before.map (·.name)).Nodup) :
    N.insertDeclared before declarations = some properties ↔ ∃ new,
      List.Forall₂ (fun declaration p => N.property declaration = some p) declarations new ∧
        properties = before ++ new ∧ (properties.map (·.name)).Nodup := by
  induction declarations generalizing before with
  | nil =>
    constructor
    · intro h
      cases h
      exact ⟨[], .nil, (List.append_nil _).symm, hbefore⟩
    · rintro ⟨new, hnew, rfl, -⟩
      cases hnew
      rw [List.append_nil]
      rfl
  | cons declaration declarations ih =>
    have hnames (p : Property) (hfresh : ∀ q ∈ before, q.name ≠ p.name) :
        ((before ++ [p]).map (·.name)).Nodup := by
      rw [List.map_append, List.map_singleton, ← List.concat_eq_append, List.nodup_concat]
      refine ⟨fun hmem => ?_, hbefore⟩
      obtain ⟨q, hq, he⟩ := List.mem_map.mp hmem
      exact hfresh q hq he
    rw [insertDeclared_cons]
    constructor
    · rintro ⟨p, hp, hfresh, hrest⟩
      obtain ⟨new, hnew, rfl, hnodup⟩ := (ih (hnames p hfresh)).mp hrest
      exact ⟨p :: new, .cons hp hnew, by simp, hnodup⟩
    · rintro ⟨_, hall, rfl, hnodup⟩
      cases hall with
      | @cons _ p _ new hp hnew =>
        have hfresh : ∀ q ∈ before, q.name ≠ p.name := by
          intro q hq he
          rw [List.map_append, List.nodup_append] at hnodup
          exact hnodup.2.2 _ (List.mem_map_of_mem hq) _ (List.mem_map_of_mem List.mem_cons_self) he
        exact ⟨p, hp, hfresh, (ih (hnames p hfresh)).mpr ⟨new, hnew, by simp, hnodup⟩⟩

/-- The properties of a root are the same in any order of their declarations. -/
theorem root_perm {name : String} {declarations declarations' : List PropertyDeclaration}
    (h : declarations.Perm declarations') {o : ObjectType}
    (ho : N.root name declarations = some o) :
    ∃ properties, N.root name declarations' = some { o with properties } ∧ o.host = none ∧
      o.properties.Perm properties := by
  obtain ⟨properties, hproperties, hpure⟩ := Option.bind_eq_some_iff.mp ho
  cases hpure
  have hnil : (([] : List Property).map (·.name)).Nodup := List.nodup_nil
  obtain ⟨new, hnew, he, hnodup⟩ := (insertDeclared_eq_some hnil).mp hproperties
  rw [List.nil_append] at he
  obtain rfl := he
  obtain ⟨reordered, hall, hperm⟩ := List.perm_comp_forall₂ h.symm hnew
  have hreordered : N.insertDeclared [] declarations' = some reordered :=
    (insertDeclared_eq_some hnil).mpr
      ⟨reordered, hall, rfl, (hperm.map _).nodup_iff.mpr hnodup⟩
  refine ⟨reordered, ?_, rfl, hperm.symm⟩
  rw [root, hreordered]
  rfl

end Names

namespace Declarations

/-- The same declarations in another order. -/
structure Reordered (d d' : Declarations) : Prop where
  queries : d.queries.Perm d'.queries
  mutations : d.mutations.Perm d'.mutations
  types : d.types.Perm d'.types
  enums : d.enums.Perm d'.enums
  unions : d.unions.Perm d'.unions
  scalars : d.scalars.Perm d'.scalars
  inputs : d.inputs.Perm d'.inputs

namespace Reordered

variable {d d' : Declarations} {catalogue : Catalogue} {N : Names}

theorem symm (h : d.Reordered d') : d'.Reordered d :=
  ⟨h.queries.symm, h.mutations.symm, h.types.symm, h.enums.symm, h.unions.symm, h.scalars.symm,
    h.inputs.symm⟩

theorem proper (h : d.Reordered d') (hp : d.Proper) : d'.Proper where
  types host declaration hmem := hp.types host declaration (h.types.mem_iff.mpr hmem)
  enums host declaration hmem := hp.enums host declaration (h.enums.mem_iff.mpr hmem)
  typeHosts := (h.types.map _).nodup_iff.mp hp.typeHosts
  enumHosts := (h.enums.map _).nodup_iff.mp hp.enumHosts
  unionNames := (h.unions.map _).nodup_iff.mp hp.unionNames

theorem mentions (h : d.Reordered d') : d.mentions.Perm d'.mentions :=
  (((((h.queries.flatMap_right _).append (h.mutations.flatMap_right _)).append
    (h.types.flatMap_right _)).append (h.unions.flatMap_right _)).append h.inputs)

theorem describes (h : d.Reordered d') {ref : TypeRef} (href : d.Describes catalogue ref) :
    d'.Describes catalogue ref := href.mono h.mentions.subset h.enums.subset

theorem coherent (h : d.Reordered d') (hd : d.Coherent catalogue) : d'.Coherent catalogue :=
  hd.of_describes h.symm.describes

theorem allScalars (h : d.Reordered d') : d.allScalars.Perm d'.allScalars :=
  h.scalars.append_left _

/-- A root is declared in both orders. -/
theorem exists_root (h : d.Reordered d') {name : String} {declarations : List PropertyDeclaration}
    (hroot : (name, declarations) ∈ d.roots) :
    ∃ declarations', (name, declarations') ∈ d'.roots ∧ declarations.Perm declarations' := by
  rw [roots, List.mem_cons] at hroot
  rcases hroot with he | hroot
  · cases he
    exact ⟨_, List.mem_cons_self, h.queries⟩
  · split at hroot
    · exact absurd hroot List.not_mem_nil
    · rename_i hmutations
      cases List.mem_singleton.mp hroot
      refine ⟨_, List.mem_cons_of_mem _ ?_, h.mutations⟩
      have hkept : ¬ d'.mutations.isEmpty = true := by
        rw [List.isEmpty_iff] at hmutations ⊢
        exact fun hnil => hmutations (List.perm_nil.mp (hnil ▸ h.mutations))
      rw [if_neg hkept]
      exact List.mem_cons_self

theorem customization (h : d.Reordered d') (hp : d.Proper) (host outline : HostType) :
    d.customization host outline = d'.customization host outline := by
  rw [Declarations.customization, Entries.lookup_perm h.types hp.typeHosts]
  rfl

theorem enumeration (h : d.Reordered d') (hp : d.Proper) (host : HostType) (shape : EnumShape) :
    d.enumeration host shape = d'.enumeration host shape := by
  rw [Declarations.enumeration, Entries.lookup_perm h.enums hp.enumHosts]
  rfl

theorem object (h : d.Reordered d') (hp : d.Proper) (host outline : HostType) :
    d.object catalogue N host outline = d'.object catalogue N host outline := by
  have hwith : d.objectWith catalogue host outline = d'.objectWith catalogue host outline := by
    funext properties
    rw [objectWith, h.customization hp]
    rfl
  rw [Declarations.object, hwith, h.customization hp]
  rfl

theorem owns (h : d.Reordered d') {i : Identity} {name : String} (hi : d.Owns catalogue N i name) :
    d'.Owns catalogue N i name := by
  cases hi with
  | scalar ht => exact .scalar (h.allScalars.mem_iff.mp ht)
  | enumeration hdescribes hname => exact .enumeration (h.describes hdescribes) hname
  | object hdescribes hname => exact .object (h.describes hdescribes) hname
  | root hroot =>
    obtain ⟨declarations, hroot', -⟩ := h.exists_root hroot
    exact .root hroot'
  | union hunion => exact .union (h.unions.mem_iff.mp hunion)
  | inputObject hdescribes hname => exact .inputObject (h.describes hdescribes) hname

/-- Names that fit for one order fit for the other one. -/
theorem fits (h : d.Reordered d') (hp : d.Proper) (hN : d.Fits catalogue N) :
    d'.Fits catalogue N where
  scalarHosts := (h.allScalars.map _).nodup_iff.mp hN.scalarHosts
  scalars {host name} := by
    simp only [hN.scalars, h.allScalars.mem_iff]
  isUnion name := by rw [hN.isUnion, (h.unions.map (·.1)).mem_iff]
  enumeration hdescribes hname := by
    rw [← h.enumeration hp]
    exact hN.enumeration (h.symm.describes hdescribes) hname
  object hdescribes hname := by
    rw [← h.object hp]
    exact hN.object (h.symm.describes hdescribes) hname
  inputObject hdescribes hname := hN.inputObject (h.symm.describes hdescribes) hname
  roots := fun ⟨name, declarations⟩ hroot => by
    obtain ⟨declarations', hroot', hperm⟩ := h.symm.exists_root hroot
    obtain ⟨o, ho⟩ := Option.isSome_iff_exists.mp (hN.roots _ hroot')
    obtain ⟨properties, ho', -⟩ := Names.root_perm hperm.symm ho
    exact Option.isSome_iff_exists.mpr ⟨_, ho'⟩
  types entry hmem := hN.types entry (h.types.mem_iff.mpr hmem)
  enums entry hmem := hN.enums entry (h.enums.mem_iff.mpr hmem)
  inputs ref hmem := hN.inputs ref (h.inputs.mem_iff.mpr hmem)
  unions union hmem := hN.unions union (h.unions.mem_iff.mpr hmem)
  owner hi hi' := hN.owner (h.symm.owns hi) (h.symm.owns hi')

/-- What declarations come to, they come to in every order, up to the order of the properties of
roots. -/
theorem exists_makes (h : d.Reordered d') (hp : d.Proper) {node : TypeNode}
    (hnode : d.Makes catalogue N node) :
    ∃ node', d'.Makes catalogue N node' ∧ node'.name = node.name ∧ node.Alike node' := by
  cases hnode with
  | scalar ht hname => exact ⟨_, .scalar (h.allScalars.mem_iff.mp ht) hname, rfl, .same _⟩
  | enumeration hdescribes hname =>
    rw [h.enumeration hp] at hname ⊢
    exact ⟨_, .enumeration (h.describes hdescribes) hname, rfl, .same _⟩
  | object hdescribes ho hname =>
    rw [h.object hp] at ho
    exact ⟨_, .object (h.describes hdescribes) ho hname, rfl, .same _⟩
  | root hroot ho =>
    obtain ⟨declarations', hroot', hperm⟩ := h.exists_root hroot
    obtain ⟨properties, ho', hhost, hproperties⟩ := Names.root_perm hperm ho
    exact ⟨_, .root hroot' ho', rfl, .root hhost hproperties⟩
  | union hunion ht => exact ⟨_, .union (h.unions.mem_iff.mp hunion) ht, rfl, .same _⟩
  | inputObject hdescribes ht hname =>
    exact ⟨_, .inputObject (h.describes hdescribes) ht hname, rfl, .same _⟩

theorem transfers (h : d.Reordered d') (hd : d.Coherent catalogue) (hp : d.Proper) :
    d.Transfers catalogue TypeNode.Alike d' :=
  ⟨h.coherent hd, h.proper hp, h.fits hp, h.exists_makes hp⟩

end Reordered

end Declarations

end Trellis
