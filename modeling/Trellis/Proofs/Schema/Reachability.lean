import Trellis.Proofs.Schema.RootTranslation

/-!
Reachable types.

What is reachable is said without an order: declarations mention descriptions, and a description of
an object or of an input object leads on to those of its fields, of its declared properties and of
its transformations. A walk keeps an account of the descriptions that it took; at its end nothing
that can be reached through them is left out, and nothing else was taken.
-/

namespace Trellis

/-- Whether a type belongs to a host type that is met on walks. Scalars, roots and unions are
declared one by one. -/
def Identity.isMet : Identity → Bool
  | .enumeration _ | .object (some _) | .inputObject _ => true
  | .scalar _ | .object none | .union => false

/-- The identities of all objects, enums and input objects of a schema, one for each entry. -/
def TypeGraph.identities (g : TypeGraph) : List Identity :=
  (g.types.map (·.2.identity)).filter (·.isMet)

namespace TypeRef

/-- The identity of the type that a description stands for. -/
def identity? : TypeRef → Option Identity
  | .enumeration host _ => some (.enumeration host)
  | .object host _ => some (.object (some host))
  | .inputObject host _ => some (.inputObject host)
  | _ => none

/-- The host type that a description is entered under as the type of values. -/
def output? : TypeRef → Option HostType
  | .enumeration host _ | .object host _ => some host
  | _ => none

/-- The host type that a description is entered under as the type of arguments. -/
def input? : TypeRef → Option HostType
  | .enumeration host _ | .inputObject host _ => some host
  | _ => none

/-- The host type inside all lists and nullable types has been taken for the same use. -/
def Met (taken : List TypeRef) : TypeRef → Prop
  | .nullable _ inner | .list _ inner => Met taken inner
  | .enumeration host _ | .object host _ => ∃ ref ∈ taken, ref.output? = some host
  | .inputObject host _ => ∃ ref ∈ taken, ref.input? = some host
  | _ => True

theorem Met.mono {taken taken' : List TypeRef} (h : taken ⊆ taken') {ref : TypeRef}
    (hmet : ref.Met taken) : ref.Met taken' := by
  induction ref with
  | nullable _ _ ih | list _ _ ih => exact ih hmet
  | enumeration | object | inputObject =>
    obtain ⟨ref, hmem, hhost⟩ := hmet
    exact ⟨ref, h hmem, hhost⟩
  | scalar | union | function | generic => trivial

theorem isMet_of_identity? {ref : TypeRef} {i : Identity} (h : ref.identity? = some i) :
    i.isMet = true := by
  cases ref <;> cases h <;> rfl

end TypeRef

/-- The types of the arguments that a transformation declares. -/
def TransformationDeclaration.mentions (t : TransformationDeclaration) : List TypeRef :=
  match t.transformation with
  | some t => Parameters.argumentTypes t.parameters.kinds
  | none => []

namespace Declarations

variable (d : Declarations) (catalogue : Catalogue)

/-- The descriptions that a schema starts from. -/
def entrances : List TypeRef :=
  d.queries.flatMap (·.mentions) ++ d.mutations.flatMap (·.mentions) ++ d.types.map (·.2.type) ++
    d.enums.map (·.2.type) ++ d.inputs ++ d.unions.flatMap (·.2.members)

/-- The descriptions that an object or an input object leads on to. Fields that are ignored do not
count; arguments of declared properties and of transformations do. -/
def links : TypeRef → List TypeRef
  | .object host outline =>
    let declaration := d.customization host outline
    ((catalogue.object outline).fields.filter (·.name ∉ declaration.ignored)).map (·.type) ++
      declaration.properties.flatMap (·.mentions) ++
      declaration.transformations.flatMap (·.mentions)
  | .inputObject _ outline => (catalogue.input outline).fields.map (·.type)
  | _ => []

/-- What can be reached by way of some descriptions, through any nesting of lists and nullable
types. -/
inductive Reaches (through : TypeRef → Prop) : TypeRef → Prop
  | entrance {ref : TypeRef} : ref ∈ d.entrances → Reaches through ref
  | nullable {host : HostType} {inner : TypeRef} : Reaches through (.nullable host inner) →
    Reaches through inner
  | list {host : HostType} {inner : TypeRef} : Reaches through (.list host inner) →
    Reaches through inner
  | link {ref next : TypeRef} : Reaches through ref → through ref → next ∈ d.links catalogue ref →
    Reaches through next

/-- No two descriptions that can be reached make different types of one host type, neither as the
types of values nor as the types of arguments. -/
structure Consistent : Prop where
  outputs : ∀ {ref other host}, d.Reaches catalogue (fun _ => True) ref →
    d.Reaches catalogue (fun _ => True) other → ref.output? = some host →
    other.output? = some host → ref = other
  inputs : ∀ {ref other host}, d.Reaches catalogue (fun _ => True) ref →
    d.Reaches catalogue (fun _ => True) other → ref.input? = some host →
    other.input? = some host → ref = other

variable {d catalogue}

theorem Reaches.mono {through through' : TypeRef → Prop} (h : ∀ ref, through ref → through' ref)
    {ref : TypeRef} (hreaches : d.Reaches catalogue through ref) :
    d.Reaches catalogue through' ref := by
  induction hreaches with
  | entrance hmem => exact .entrance hmem
  | nullable _ ih => exact ih.nullable
  | list _ ih => exact ih.list
  | link _ hthrough hmem ih => exact ih.link (h _ hthrough) hmem

variable (d catalogue) in
/-- An account of a walk: the descriptions it took, some of them still pending. Each of them is
reachable and has one type, and what those that are not pending lead on to has been met. -/
structure Explored (opened : List (String × Identity)) (pending taken : List TypeRef)
    (r : Registry) : Prop where
  tidy : Tidy opened r.types
  provided : ∀ i, i.isMet = true →
    ((∃ name, r.Provides opened name i) ↔ ∃ ref ∈ taken, ref.identity? = some i)
  once : ∀ {i name other}, i.isMet = true → r.Provides opened name i → r.Provides opened other i →
    name = other
  outputs : ∀ host, host ∈ r.outputs.map (·.1) ↔ ∃ ref ∈ taken, ref.output? = some host
  inputs : ∀ host, host ∈ r.inputs.map (·.1) ↔ ∃ ref ∈ taken, ref.input? = some host
  unspent : d.Unspent r
  typeDeclarations : r.typeDeclarations ⊆ d.types
  enumDeclarations : r.enumDeclarations ⊆ d.enums
  reached : ∀ ref ∈ taken, d.Reaches catalogue (· ∈ taken) ref
  finished : ∀ ref ∈ taken, ref ∈ pending ∨ ∀ next ∈ d.links catalogue ref, next.Met taken

end Declarations

namespace Registry

variable {opened : List (String × Identity)} {r s : Registry} {name other : String}
  {i j : Identity}

theorem provides_reserved (htypes : s.types = r.types ++ [(name, none)]) :
    s.Provides ((name, i) :: opened) other j ↔
      (other = name ∧ j = i) ∨ r.Provides opened other j := by
  have hnode (node : TypeNode) :
      (other, some node) ∈ s.types ↔ (other, some node) ∈ r.types := by
    rw [htypes]
    exact ⟨Declarations.mem_reserved, List.mem_append_left _⟩
  simp only [Provides, hnode, List.mem_cons, Prod.mk.injEq, or_assoc]

/-- A name that is filled in provides what it was opened for. -/
theorem provides_filled {node : TypeNode}
    (h : Declarations.Tidy ((node.name, node.identity) :: opened) r.types) :
    (r.filled node).Provides opened name i ↔
      r.Provides ((node.name, node.identity) :: opened) name i := by
  have hopen : (node.name, none) ∈ r.types := (h.reserved node.name).mpr List.mem_cons_self
  constructor
  · rintro (hmem | ⟨other, rfl, hmem⟩)
    · exact .inl (List.mem_cons_of_mem _ hmem)
    · rcases Declarations.Tidy.mem_fill.mp hmem with ⟨rfl, hslot, -⟩ | ⟨-, hold⟩
      · cases hslot
        exact .inl List.mem_cons_self
      · exact .inr ⟨other, rfl, hold⟩
  · rintro (hmem | ⟨other, rfl, hmem⟩)
    · rcases List.mem_cons.mp hmem with he | hmem
      · cases he
        exact .inr ⟨node, rfl,
          Declarations.Tidy.mem_fill.mpr (.inl ⟨rfl, rfl, List.mem_map_of_mem hopen⟩)⟩
      · exact .inl hmem
    · refine .inr ⟨other, rfl, Declarations.Tidy.mem_fill.mpr (.inr ⟨?_, hmem⟩)⟩
      rintro rfl
      cases h.slot_unique hopen hmem

end Registry

namespace Declarations.Explored

variable {d : Declarations} {catalogue : Catalogue} {opened : List (String × Identity)}
  {pending taken : List TypeRef} {r s : Registry} {name : String}

theorem start (d : Declarations) (catalogue : Catalogue) :
    d.Explored catalogue [] [] [] (.start d) where
  tidy := by constructor <;> simp [Registry.start]
  provided i _ := by simp [Registry.Provides, Registry.start]
  once _ h := by simp [Registry.Provides, Registry.start] at h
  outputs _ := by simp [Registry.start]
  inputs _ := by simp [Registry.start]
  unspent := .start d
  typeDeclarations := List.Subset.refl _
  enumDeclarations := List.Subset.refl _
  reached _ hmem := absurd hmem List.not_mem_nil
  finished _ hmem := absurd hmem List.not_mem_nil

/-- A new name may be reserved for a type that is not met on walks. -/
theorem reserve (h : d.Explored catalogue opened pending taken r) {i : Identity}
    (hi : i.isMet = false) (hnew : name ∉ r.types.map (·.1)) :
    d.Explored catalogue ((name, i) :: opened) pending taken (Registering.withName r name) := by
  have hprovides {other : String} {j : Identity} (hj : j.isMet = true) :
      (Registering.withName r name).Provides ((name, i) :: opened) other j ↔
        r.Provides opened other j := by
    rw [Registry.provides_reserved (r := r) rfl, or_iff_right]
    rintro ⟨-, rfl⟩
    simp [hi] at hj
  exact {
    tidy := h.tidy.reserve hnew i
    provided := fun j hj => by
      simp only [hprovides hj]
      exact h.provided j hj
    once := fun hj hname hother => h.once hj ((hprovides hj).mp hname) ((hprovides hj).mp hother)
    outputs := h.outputs
    inputs := h.inputs
    unspent := ⟨h.unspent.types, h.unspent.enums⟩
    typeDeclarations := h.typeDeclarations
    enumDeclarations := h.enumDeclarations
    reached := h.reached
    finished := h.finished }

/-- A description whose type is new may be taken, and is pending then. -/
theorem take (h : d.Explored catalogue opened pending taken r) (ref : TypeRef) {i : Identity}
    (hi : ref.identity? = some i) (hfree : ∀ other ∈ taken, other.identity? ≠ some i)
    (hreaches : d.Reaches catalogue (· ∈ taken) ref) (hnew : name ∉ r.types.map (·.1))
    (htypes : s.types = r.types ++ [(name, none)])
    (houtputs : ∀ host,
      host ∈ s.outputs.map (·.1) ↔ ref.output? = some host ∨ host ∈ r.outputs.map (·.1))
    (hinputs : ∀ host,
      host ∈ s.inputs.map (·.1) ↔ ref.input? = some host ∨ host ∈ r.inputs.map (·.1))
    (hunspent : d.Unspent s) (htd : s.typeDeclarations ⊆ r.typeDeclarations)
    (hed : s.enumDeclarations ⊆ r.enumDeclarations) :
    d.Explored catalogue ((name, i) :: opened) (ref :: pending) (ref :: taken) s where
  tidy := htypes ▸ h.tidy.reserve hnew i
  provided j hj := by
    simp only [Registry.provides_reserved htypes, exists_or, List.exists_mem_cons_iff, hi,
      h.provided j hj]
    simp [eq_comm]
  once {j first second} hj hfirst hsecond := by
    -- Nothing had this identity before, so it has the new name alone.
    have hnone {other : String} : ¬ r.Provides opened other i := fun hother => by
      obtain ⟨ref', hmem, hi'⟩ :=
        (h.provided i (TypeRef.isMet_of_identity? hi)).mp ⟨other, hother⟩
      exact hfree ref' hmem hi'
    rcases (Registry.provides_reserved htypes).mp hfirst with ⟨rfl, rfl⟩ | hold
    · exact (((Registry.provides_reserved htypes).mp hsecond).resolve_right hnone).1.symm
    · rcases (Registry.provides_reserved htypes).mp hsecond with ⟨rfl, rfl⟩ | hold'
      · exact absurd hold hnone
      · exact h.once hj hold hold'
  outputs host := by
    rw [houtputs, h.outputs, List.exists_mem_cons_iff]
  inputs host := by
    rw [hinputs, h.inputs, List.exists_mem_cons_iff]
  unspent := hunspent
  typeDeclarations := List.Subset.trans htd h.typeDeclarations
  enumDeclarations := List.Subset.trans hed h.enumDeclarations
  reached other hmem := by
    have hgrown (ref' : TypeRef) (h' : ref' ∈ taken) : ref' ∈ ref :: taken :=
      List.mem_cons_of_mem _ h'
    rcases List.mem_cons.mp hmem with rfl | hmem
    · exact hreaches.mono hgrown
    · exact (h.reached other hmem).mono hgrown
  finished other hmem := by
    rcases List.mem_cons.mp hmem with rfl | hmem
    · exact .inl List.mem_cons_self
    · refine (h.finished other hmem).imp (List.mem_cons_of_mem _) fun hlinks next hnext => ?_
      exact (hlinks next hnext).mono (List.subset_cons_self _ _)

theorem fill (node : TypeNode)
    (h : d.Explored catalogue ((node.name, node.identity) :: opened) pending taken r) :
    d.Explored catalogue opened pending taken (r.filled node) where
  tidy := h.tidy.fill
  provided i hi := by
    simp only [Registry.provides_filled h.tidy]
    exact h.provided i hi
  once hi hname hother := h.once hi ((Registry.provides_filled h.tidy).mp hname)
    ((Registry.provides_filled h.tidy).mp hother)
  outputs := h.outputs
  inputs := h.inputs
  unspent := ⟨h.unspent.types, h.unspent.enums⟩
  typeDeclarations := h.typeDeclarations
  enumDeclarations := h.enumDeclarations
  reached := h.reached
  finished := h.finished

theorem finish {ref : TypeRef} (h : d.Explored catalogue opened (ref :: pending) taken r)
    (hlinks : ∀ next ∈ d.links catalogue ref, next.Met taken) :
    d.Explored catalogue opened pending taken r :=
  { h with
    finished := fun other hmem => by
      rcases h.finished other hmem with hpending | hdone
      · rcases List.mem_cons.mp hpending with rfl | hpending
        · exact .inr hlinks
        · exact .inl hpending
      · exact .inr hdone }

/-- Once nothing is pending, all that can be reached through what was taken is met. -/
theorem met_of_reaches (h : d.Explored catalogue [] [] taken r)
    (hentrances : ∀ ref ∈ d.entrances, ref.Met taken) {ref : TypeRef}
    (hreaches : d.Reaches catalogue (· ∈ taken) ref) : ref.Met taken := by
  induction hreaches with
  | entrance hmem => exact hentrances _ hmem
  | nullable _ ih => exact ih
  | list _ ih => exact ih
  | link _ hthrough hmem _ => exact (h.finished _ hthrough).resolve_left List.not_mem_nil _ hmem

end Declarations.Explored

end Trellis
