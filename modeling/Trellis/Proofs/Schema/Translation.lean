import Mathlib.Data.List.Count
import Trellis.Proofs.Schema.Closedness
import Trellis.Proofs.Schema.Naming

/-!
Registration and the names that it gives.

A step of a registration hands out what declarations come to under the names of any registry that
the step leads into. Conversely, where names are given for which declarations come to something, the
step can be taken from every registry that has some of these names. Both halves together say that a
step translates declarations; they pass through all ways of putting steps together.
-/

namespace Trellis

namespace Declarations

/-- What is described of a host type is always the same: either it is an enum, or it is an object or
an input object, and it has one shape or one outline. -/
structure Coherent (d : Declarations) (catalogue : Catalogue) : Prop extends
    d.Unambiguous catalogue where
  shapes : ∀ host shape other, d.Describes catalogue (.enumeration host shape) →
    d.Describes catalogue (.enumeration host other) → shape = other
  outlines : ∀ host outline other, d.Describes catalogue (.object host outline) →
    d.Describes catalogue (.object host other) → outline = other
  inputOutlines : ∀ host outline other, d.Describes catalogue (.inputObject host outline) →
    d.Describes catalogue (.inputObject host other) → outline = other

/-- Declarations as a builder collects them: objects are customized as objects and enums as enums,
each of them once, and each union is declared once. -/
structure Proper (d : Declarations) : Prop where
  types : ∀ host declaration, (host, declaration) ∈ d.types →
    ∃ outline, declaration.type = .object host outline
  enums : ∀ host declaration, (host, declaration) ∈ d.enums →
    ∃ shape, declaration.type = .enumeration host shape
  typeHosts : (d.types.map (·.1)).Nodup
  enumHosts : (d.enums.map (·.1)).Nodup
  unionNames : (d.unions.map (·.1)).Nodup

end Declarations

namespace Registry

def names (r : Registry) : Names where
  outputs host := r.outputs.lookup host
  inputs host := r.inputs.lookup host
  scalars host := r.scalarNames.lookup host
  isUnion name := decide (name ∈ r.unionNames)

/-- Names include those of a registry. -/
structure Under (r : Registry) (N : Names) : Prop where
  outputs : ∀ {host name}, r.outputs.lookup host = some name → N.outputs host = some name
  inputs : ∀ {host name}, r.inputs.lookup host = some name → N.inputs host = some name
  scalars : ∀ {host name}, r.scalarNames.lookup host = some name → N.scalars host = some name
  unions : ∀ name, N.isUnion name = true ↔ name ∈ r.unionNames

theorem under_names (r : Registry) : r.Under r.names := ⟨id, id, id, fun _ => decide_eq_true_iff⟩

theorem Extends.under {d : Declarations} {catalogue : Catalogue} {opened : List (String × Identity)}
    {r s : Registry} {N : Names} (h : r.Extends s) (hs : d.Sound catalogue opened s)
    (hN : s.Under N) : r.Under N where
  outputs hlookup :=
    hN.outputs (Entries.lookup_of_mem hs.outputHosts (h.outputs (Entries.mem_of_lookup hlookup)))
  inputs hlookup :=
    hN.inputs (Entries.lookup_of_mem hs.inputHosts (h.inputs (Entries.mem_of_lookup hlookup)))
  scalars hlookup :=
    hN.scalars (Entries.lookup_of_mem hs.scalarHosts
      (h.scalarNames (Entries.mem_of_lookup hlookup)))
  unions name := by rw [hN.unions, h.unionNames]

end Registry

/-- How many of some host types are not entered yet. -/
def unentered (entries : List (HostType × String)) (hosts : List HostType) : Nat :=
  hosts.countP fun host => (entries.lookup host).isNone

theorem unentered_le {entries entries' : List (HostType × String)} (hosts : List HostType)
    (h : ∀ host, entries'.lookup host = none → entries.lookup host = none) :
    unentered entries' hosts ≤ unentered entries hosts := by
  refine List.countP_mono_left fun host _ hnone => ?_
  rw [Option.isNone_iff_eq_none] at hnone ⊢
  exact h host hnone

theorem unentered_lt {entries entries' : List (HostType × String)} {hosts : List HostType}
    {host : HostType} (h : ∀ host, entries'.lookup host = none → entries.lookup host = none)
    (hmem : host ∈ hosts) (hnew : entries.lookup host = none) (hentered : entries'.lookup host ≠ none) :
    unentered entries' hosts < unentered entries hosts := by
  obtain ⟨before, after, rfl⟩ := List.append_of_mem hmem
  have hbefore := unentered_le before h
  have hafter := unentered_le after h
  simp only [unentered, List.countP_append, List.countP_cons, hnew, Option.isNone_none, if_true,
    Option.isNone_iff_eq_none, hentered, if_false] at hbefore hafter ⊢
  omega

namespace Declarations

variable (d : Declarations) (catalogue : Catalogue)

/-- Host types that are not entered still have the declarations that customize them. -/
structure Unspent (r : Registry) : Prop where
  types : ∀ host, r.outputs.lookup host = none →
    r.typeDeclarations.lookup host = d.types.lookup host
  enums : ∀ host, r.outputs.lookup host = none →
    r.enumDeclarations.lookup host = d.enums.lookup host

/-- A registry in good order whose types are what the declarations come to. -/
structure Faithful (opened : List (String × Identity)) (r : Registry) : Prop where
  sound : d.Sound catalogue opened r
  unspent : d.Unspent r
  makes : ∀ {name node}, (name, some node) ∈ r.types → ∀ {N}, r.Under N →
    d.Makes catalogue N node

/-- A name is given to the types of an identity. -/
inductive Owns (N : Names) : Identity → String → Prop
  | scalar {t : ScalarType} : t ∈ d.allScalars → Owns N (.scalar t.coercion.host) t.name
  | enumeration {host : HostType} {shape : EnumShape} {name : String} :
    d.Describes catalogue (.enumeration host shape) → N.outputs host = some name →
    Owns N (.enumeration host) name
  | object {host outline : HostType} {name : String} :
    d.Describes catalogue (.object host outline) → N.outputs host = some name →
    Owns N (.object (some host)) name
  | root {name : String} {declarations : List PropertyDeclaration} :
    (name, declarations) ∈ d.roots → Owns N (.object none) name
  | union {name : String} {declaration : UnionDeclaration} :
    (name, declaration) ∈ d.unions → Owns N .union name
  | inputObject {host outline : HostType} {name : String} :
    d.Describes catalogue (.inputObject host outline) → N.inputs host = some name →
    Owns N (.inputObject host) name

/-- Names under which all that is declared comes to something, no two types having one name. -/
structure Fits (N : Names) : Prop where
  scalarHosts : (d.allScalars.map (·.coercion.host)).Nodup
  scalars : ∀ {host name}, N.scalars host = some name ↔
    ∃ t ∈ d.allScalars, t.coercion.host = host ∧ t.name = name
  isUnion : ∀ name, N.isUnion name = true ↔ name ∈ d.unions.map (·.1)
  enumeration : ∀ {host shape name}, d.Describes catalogue (.enumeration host shape) →
    N.outputs host = some name →
    (d.enumeration host shape).name = name ∧ N.inputs host = some name
  object : ∀ {host outline name}, d.Describes catalogue (.object host outline) →
    N.outputs host = some name → ∃ o, d.object catalogue N host outline = some o ∧ o.name = name
  inputObject : ∀ {host outline name}, d.Describes catalogue (.inputObject host outline) →
    N.inputs host = some name → ∃ t, N.inputObject catalogue host outline = some t ∧ t.name = name
  roots : ∀ root ∈ d.roots, (N.root root.1 root.2).isSome
  types : ∀ entry ∈ d.types, (N.outputs entry.1).isSome
  enums : ∀ entry ∈ d.enums, (N.outputs entry.1).isSome
  inputs : ∀ ref ∈ d.inputs, (N.inputType ref).isSome
  unions : ∀ union ∈ d.unions, (N.union union.1 union.2).isSome
  owner : ∀ {i i' name}, d.Owns catalogue N i name → d.Owns catalogue N i' name → i = i'

/-- What a type stands for is entered; of roots and unions, those that are done are known. -/
def Entered (r : Registry) (done : List String) : Identity → String → Prop
  | .scalar host, _ => r.scalarNames.lookup host ≠ none
  | .enumeration host, _ | .object (some host), _ => r.outputs.lookup host ≠ none
  | .inputObject host, _ => r.inputs.lookup host ≠ none
  | .object none, name | .union, name => name ∈ done

def objectHosts : List HostType :=
  (catalogue.mentions ++ d.mentions).filterMap fun ref =>
    match ref.innermost with
    | .object host _ => some host
    | _ => none

def inputHosts : List HostType :=
  (catalogue.mentions ++ d.mentions).filterMap fun ref =>
    match ref.innermost with
    | .inputObject host _ => some host
    | _ => none

/-- A registry has some of the names that fit. Every name it has is that of a type which is entered,
and fewer objects and input objects are left than walks may be nested. -/
structure Within (N : Names) (done : List String) (objectDepth inputDepth : Nat) (r : Registry) :
    Prop where
  under : r.Under N
  scalars : ∀ host, r.scalarNames.lookup host = N.scalars host
  unspent : d.Unspent r
  typeDeclarations : r.typeDeclarations ⊆ d.types
  enumDeclarations : r.enumDeclarations ⊆ d.enums
  names : ∀ name ∈ r.types.map (·.1), ∃ i, d.Owns catalogue N i name ∧ Entered r done i name
  objectsLeft : unentered r.outputs (d.objectHosts catalogue) < objectDepth
  inputsLeft : unentered r.inputs (d.inputHosts catalogue) < inputDepth

end Declarations

namespace Registering

variable (d : Declarations) (catalogue : Catalogue)

/-- A step hands out what declarations come to. It is taken from every registry that has some of the
names under which they come to something. -/
structure Translates (objectDepth inputDepth : Nat) {α : Type} (op : Registering α)
    (spec : Names → Option α) : Prop where
  rises : ∀ {opened : List (String × Identity)} {r s : Registry} {a : α}, Runs op r a s →
    d.Faithful catalogue opened r → (d.Faithful catalogue opened s ∧ r.Extends s) ∧
      ∀ {N : Names}, s.Under N → spec N = some a
  falls : ∀ {N : Names} {done : List String} {r : Registry} {a : α}, d.Fits catalogue N →
    d.Within catalogue N done objectDepth inputDepth r → spec N = some a →
      ∃ s, Runs op r a s ∧ d.Within catalogue N done objectDepth inputDepth s

namespace Translates

variable {d catalogue} {objectDepth inputDepth : Nat} {α β : Type} {op : Registering α}
  {spec : Names → Option α}

theorem pure (a : α) :
    Translates d catalogue objectDepth inputDepth (Pure.pure a) fun _ => Pure.pure a where
  rises h hr := by
    obtain ⟨rfl, rfl⟩ := runs_pure.mp h
    exact ⟨⟨hr, .refl _⟩, fun _ => rfl⟩
  falls _ hr h := by
    cases h
    exact ⟨_, runs_pure.mpr ⟨rfl, rfl⟩, hr⟩

theorem refuse (e : SchemaError) :
    Translates d catalogue objectDepth inputDepth (Registering.refuse e : Registering α)
      fun _ => none where
  rises h := absurd h not_runs_refuse
  falls _ _ h := nomatch h

theorem bind {next : α → Registering β} {specNext : α → Names → Option β}
    (h : Translates d catalogue objectDepth inputDepth op spec)
    (hnext : ∀ a, Translates d catalogue objectDepth inputDepth (next a) (specNext a)) :
    Translates d catalogue objectDepth inputDepth (op >>= next)
      fun N => spec N >>= fun a => specNext a N where
  rises hruns hr := by
    obtain ⟨a, t, hop, hrest⟩ := runs_bind.mp hruns
    obtain ⟨⟨ht, hgrown⟩, hspec⟩ := h.rises hop hr
    obtain ⟨⟨hs, hgrown'⟩, hspec'⟩ := (hnext a).rises hrest ht
    refine ⟨⟨hs, hgrown.trans hgrown'⟩, fun hN => ?_⟩
    rw [hspec (hgrown'.under hs.sound hN)]
    exact hspec' hN
  falls hN hr hspec := by
    obtain ⟨a, ha, hrest⟩ := Option.bind_eq_some_iff.mp hspec
    obtain ⟨t, hop, ht⟩ := h.falls hN hr ha
    obtain ⟨s, hruns, hs⟩ := (hnext a).falls hN ht hrest
    exact ⟨s, runs_bind.mpr ⟨a, t, hop, hruns⟩, hs⟩

theorem map (f : α → β) (h : Translates d catalogue objectDepth inputDepth op spec) :
    Translates d catalogue objectDepth inputDepth (f <$> op) fun N => f <$> spec N := by
  have hbind := h.bind fun a => Translates.pure (f a)
  simpa only [bind_pure_comp] using hbind

/-- A step that is taken only at times. -/
theorem optional {c : Prop} [Decidable c] {op : Registering Unit} {spec : Names → Option Unit}
    {next : Registering β} {specNext : Names → Option β}
    (h : Translates d catalogue objectDepth inputDepth op spec)
    (hnext : Translates d catalogue objectDepth inputDepth next specNext) :
    Translates d catalogue objectDepth inputDepth
      (if c then op >>= fun _ => next else next)
      fun N => if c then spec N >>= fun _ => specNext N else specNext N := by
  by_cases hc : c
  · simpa only [if_pos hc] using h.bind fun _ => hnext
  · simpa only [if_neg hc] using hnext

theorem foldlM {f : β → α → Registering β} {spec : β → α → Names → Option β} {items : List α}
    (h : ∀ item ∈ items, ∀ b, Translates d catalogue objectDepth inputDepth (f b item) (spec b item))
    (b : β) :
    Translates d catalogue objectDepth inputDepth (items.foldlM f b)
      fun N => items.foldlM (fun b item => spec b item N) b := by
  induction items generalizing b with
  | nil => exact pure b
  | cons item items ih =>
    simp only [List.foldlM_cons]
    exact (h item List.mem_cons_self b).bind
      (ih fun other hmem => h other (List.mem_cons_of_mem _ hmem))

theorem mapM {f : α → Registering β} {spec : α → Names → Option β} {items : List α}
    (h : ∀ item ∈ items, Translates d catalogue objectDepth inputDepth (f item) (spec item)) :
    Translates d catalogue objectDepth inputDepth (items.mapM f)
      fun N => items.mapM fun item => spec item N := by
  induction items with
  | nil =>
    simp only [List.mapM_nil]
    exact pure []
  | cons item items ih =>
    simp only [List.mapM_cons]
    exact (h item List.mem_cons_self).bind fun b =>
      (ih fun other hmem => h other (List.mem_cons_of_mem _ hmem)).bind fun rest =>
        pure (b :: rest)

end Translates

end Registering

end Trellis
