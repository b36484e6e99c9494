import Mathlib.Data.List.Forall2
import Trellis.Proofs.Schema.Settling

/-!
Declarations that come to the same under the same names.

If names that fit for some declarations fit for others as well, and the other way round, then both
are registered or neither is, under the same names. What is stored under a name is related if all
that the declarations come to is.
-/

namespace Trellis

theorem isSome_eq_of_rel {α β : Type*} {R : α → β → Prop} {a : Option α} {b : Option β}
    (h : Option.Rel R a b) : a.isSome = b.isSome := by
  cases h <;> rfl

theorem Entries.isSome_lookup_iff {κ α : Type} [DecidableEq κ] {entries : List (κ × α)} {key : κ} :
    (entries.lookup key).isSome = true ↔ key ∈ entries.map (·.1) := by
  rw [Option.isSome_iff_ne_none, ne_eq, not_iff_comm]
  exact ⟨lookup_of_notMem, notMem_of_lookup⟩

/-- Registries that have each other's names have the same names. -/
theorem Registry.names_eq {r s : Registry} (h : r.Under s.names) (hs : s.Under r.names) :
    r.names = s.names := by
  have houtputs : r.names.outputs = s.names.outputs :=
    funext fun host => Option.ext fun name => ⟨h.outputs, hs.outputs⟩
  have hinputs : r.names.inputs = s.names.inputs :=
    funext fun host => Option.ext fun name => ⟨h.inputs, hs.inputs⟩
  have hscalars : r.names.scalars = s.names.scalars :=
    funext fun host => Option.ext fun name => ⟨h.scalars, hs.scalars⟩
  have hunions : r.names.isUnion = s.names.isUnion := by
    funext name
    rw [Bool.eq_iff_iff, hs.unions]
    exact decide_eq_true_iff.symm
  change Names.mk r.names.outputs r.names.inputs r.names.scalars r.names.isUnion = _
  rw [houtputs, hinputs, hscalars, hunions]

namespace Declarations

variable {d d' : Declarations} {catalogue : Catalogue}

/-- A graph is registered exactly if registration runs to its end. -/
theorem register_eq_ok {g : TypeGraph} : d.register catalogue = .ok g ↔ ∃ r,
    Registering.Runs (Registering.addAll catalogue (d.depth catalogue) d) (.start d) () r ∧
      g = r.graph (if d.mutations.isEmpty then none else some Registering.mutationName) := by
  rw [register]
  unfold Registering.Runs
  cases (Registering.addAll catalogue (d.depth catalogue) d).run (.start d) with
  | error stop =>
    constructor
    · intro h
      cases h
    · rintro ⟨r, h, -⟩
      cases h
  | ok done =>
    constructor
    · intro h
      exact ⟨done.2, rfl, (Except.ok.inj h).symm⟩
    · rintro ⟨r, h, rfl⟩
      cases h
      rfl

theorem Describes.mono (hmentions : d.mentions ⊆ d'.mentions) (henums : d.enums ⊆ d'.enums)
    {ref : TypeRef} (href : d.Describes catalogue ref) : d'.Describes catalogue ref := by
  induction href with
  | mention hmem => exact .mention (hmentions hmem)
  | customized hmem => exact .customized (henums hmem)
  | nullable _ ih => exact ih.nullable
  | list _ ih => exact ih.list
  | field _ hf ih => exact ih.field hf
  | inputField _ hf ih => exact ih.inputField hf

theorem Coherent.of_describes (hd : d.Coherent catalogue)
    (h : ∀ {ref}, d'.Describes catalogue ref → d.Describes catalogue ref) :
    d'.Coherent catalogue where
  object host shape outline henum hobject := hd.object host shape outline (h henum) (h hobject)
  inputObject host shape outline henum hinput :=
    hd.inputObject host shape outline (h henum) (h hinput)
  shapes host shape other hshape hother := hd.shapes host shape other (h hshape) (h hother)
  outlines host outline other houtline hother :=
    hd.outlines host outline other (h houtline) (h hother)
  inputOutlines host outline other houtline hother :=
    hd.inputOutlines host outline other (h houtline) (h hother)

/-- Names that fit for some declarations fit for others, which come to the same under them, up to a
relation of types. -/
structure Transfers (d : Declarations) (catalogue : Catalogue) (R : TypeNode → TypeNode → Prop)
    (d' : Declarations) : Prop where
  coherent : d'.Coherent catalogue
  proper : d'.Proper
  fits : ∀ {N}, d.Fits catalogue N → d'.Fits catalogue N
  makes : ∀ {N node}, d.Makes catalogue N node →
    ∃ node', d'.Makes catalogue N node' ∧ node'.name = node.name ∧ R node node'

namespace Transfers

variable {R S : TypeNode → TypeNode → Prop} {r r' : Registry}

/-- A registration of some declarations gives a registration of the others, with the same names. -/
theorem exists_runs (h : d.Transfers catalogue R d') (h' : d'.Transfers catalogue S d)
    (hr : Registering.Runs (Registering.addAll catalogue (d.depth catalogue) d) (.start d) () r) :
    ∃ r', Registering.Runs (Registering.addAll catalogue (d'.depth catalogue) d') (.start d') () r' ∧
      r.names = r'.names := by
  have hfits := (Registering.addAll_settled h'.coherent h'.proper hr).fits h'.coherent h'.proper
  obtain ⟨r', hr', hunder⟩ := Registering.addAll_runs h.coherent h.proper (h.fits hfits)
  have hfits' := (Registering.addAll_settled h.coherent h.proper hr').fits h.coherent h.proper
  obtain ⟨s, hs, hunder'⟩ := Registering.addAll_runs h'.coherent h'.proper (h'.fits hfits')
  cases hr.symm.trans hs
  exact ⟨r', hr', Registry.names_eq hunder' hunder⟩

theorem exists_type (h : d.Transfers catalogue R d') (hr : d.Settled catalogue r)
    (hr' : d'.Settled catalogue r') (hnames : r.names = r'.names) {name : String} {node : TypeNode}
    (hmem : (name, some node) ∈ r.types) : ∃ node', (name, some node') ∈ r'.types ∧ R node node' := by
  have hmakes := hr.faithful.makes hmem r.under_names
  rw [hnames] at hmakes
  obtain ⟨node', hmakes', hname, hR⟩ := h.makes hmakes
  have hmem' := hr'.stored h.coherent h.proper hmakes'
  rw [hname, hr.faithful.sound.tidy.named name node hmem] at hmem'
  exact ⟨node', hmem', hR⟩

theorem type? (h : d.Transfers catalogue R d') (h' : d'.Transfers catalogue S d)
    (hr : d.Settled catalogue r) (hr' : d'.Settled catalogue r') (hnames : r.names = r'.names)
    (mutation : Option String) (name : String) :
    Option.Rel R ((r.graph mutation).type? name) ((r'.graph mutation).type? name) := by
  cases htype : (r.graph mutation).type? name with
  | some node =>
    obtain ⟨node', hmem', hR⟩ := h.exists_type hr hr' hnames
      (Sound.mem_graph_types.mp (Entries.mem_of_lookup htype))
    rw [hr'.faithful.sound.type?_graph mutation hmem']
    exact .some hR
  | none =>
    cases htype' : (r'.graph mutation).type? name with
    | none => exact .none
    | some node' =>
      obtain ⟨node, hmem, -⟩ := h'.exists_type hr' hr hnames.symm
        (Sound.mem_graph_types.mp (Entries.mem_of_lookup htype'))
      cases htype.symm.trans (hr.faithful.sound.type?_graph mutation hmem)

/-- What is registered for some declarations is registered for the others. -/
theorem register (h : d.Transfers catalogue R d') (h' : d'.Transfers catalogue S d)
    (hmutations : d.mutations.isEmpty = d'.mutations.isEmpty) {g : TypeGraph}
    (hg : d.register catalogue = .ok g) : ∃ r r' mutation, g = r.graph mutation ∧
      d'.register catalogue = .ok (r'.graph mutation) ∧ d.Settled catalogue r ∧
      d'.Settled catalogue r' ∧ r.names = r'.names ∧
      ∀ name, Option.Rel R ((r.graph mutation).type? name) ((r'.graph mutation).type? name) := by
  obtain ⟨r, hr, rfl⟩ := register_eq_ok.mp hg
  obtain ⟨r', hr', hnames⟩ := h.exists_runs h' hr
  have hsettled := Registering.addAll_settled h'.coherent h'.proper hr
  have hsettled' := Registering.addAll_settled h.coherent h.proper hr'
  exact ⟨r, r', _, rfl, register_eq_ok.mpr ⟨r', hr', by rw [hmutations]⟩, hsettled, hsettled',
    hnames, h.type? h' hsettled hsettled' hnames _⟩

end Transfers

end Declarations

end Trellis
