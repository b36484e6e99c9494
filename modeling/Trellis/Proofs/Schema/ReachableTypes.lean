import Trellis.Proofs.Schema.DeclarationOrder
import Trellis.Proofs.Schema.Exploration

/-!
The types of a schema are those that can be reached.

Where host types are described in one way, a schema has the objects, enums and input objects that can
be reached from its declarations, through any nesting of lists and nullable types, and no others: a
type that only ignored fields mention is left out. Each of them has one entry, however often and by
whichever route it is met. Of a host type that is described in two ways, only the description that is
met first is looked into.
-/

namespace Trellis

namespace Registering

variable {d : Declarations} {catalogue : Catalogue} {depth : Nat}

theorem meets_addScalar (scalar : ScalarType) : Meets d catalogue (addScalar scalar) [] where
  explores {opened pending taken r s u} h hr _ := by
    obtain ⟨-, hname, rfl⟩ := runs_addScalar.mp h
    have hfilled := (hr.reserve (i := .scalar scalar.coercion.host) rfl hname).fill (.scalar scalar)
    have htypes := Declarations.Tidy.fill_reserved (.scalar scalar) hname
    refine ⟨taken, List.Subset.refl _, ?_, fun _ hmem => absurd hmem List.not_mem_nil⟩
    exact htypes ▸ { hfilled with unspent := ⟨hr.unspent.types, hr.unspent.enums⟩ }

theorem meets_addRoot (name : String) (declarations : List PropertyDeclaration) :
    Meets d catalogue (addRoot catalogue depth name declarations)
      (declarations.flatMap (·.mentions)) where
  explores h hr hreaches := by
    obtain ⟨hname, properties, t, hdeclared, rfl⟩ := runs_addRoot.mp h
    obtain ⟨taken', hgrown, ht, hmet⟩ :=
      (meets_insertDeclared (meets_registerObject depth) name declarations []).explores hdeclared
        (hr.reserve (i := .object none) rfl hname) hreaches
    exact ⟨taken', hgrown, ht.fill (.object ⟨name, none, none, properties⟩), hmet⟩

theorem meets_addDeclared {ref : TypeRef} {host : HostType} (href : ref.output? = some host) :
    Meets d catalogue (addDeclared catalogue depth ref) [ref] := by
  cases ref with
  | object host outline => exact (meets_registerObject depth host outline).discard
  | enumeration host shape => exact (meets_registerEnum host shape).discard
  | scalar | inputObject | list | nullable | union | function | generic => cases href

theorem meets_unionMember (union : String) (ref : TypeRef) :
    Meets d catalogue (unionMember catalogue depth union ref) [ref] := by
  cases ref with
  | object host outline =>
    exact (meets_registerObject depth host outline).bindIdle fun name => .pure (host, name)
  | scalar | enumeration | inputObject | list | nullable | union | function | generic =>
    exact .refuse _ _

theorem meets_addUnion (name : String) (declaration : UnionDeclaration) :
    Meets d catalogue (addUnion catalogue depth name declaration) declaration.members where
  explores h hr hreaches := by
    obtain ⟨-, hname, members, t, hmembers, rfl⟩ := runs_addUnion.mp h
    have hwalk : Meets d catalogue (declaration.members.mapM (unionMember catalogue depth name))
        (declaration.members.flatMap fun ref => [ref]) :=
      .mapM fun ref _ => meets_unionMember name ref
    rw [← List.flatMap_singleton' declaration.members] at hreaches ⊢
    obtain ⟨taken', hgrown, ht, hmet⟩ := hwalk.explores hmembers
      (hr.reserve (i := .union) rfl hname) hreaches
    exact ⟨taken', hgrown, ht.fill (.union ⟨name, declaration.description, members.map (·.2),
      Entries.ofPairs members⟩), hmet⟩

theorem meets_roots : Meets d catalogue
    (d.roots.forM fun root => addRoot catalogue depth root.1 root.2)
    (d.queries.flatMap (·.mentions) ++ d.mutations.flatMap (·.mentions)) := by
  refine (Meets.forM fun root _ => meets_addRoot root.1 root.2).congr fun ref => ?_
  rw [Declarations.roots, List.flatMap_cons, List.mem_append, List.mem_append]
  cases d.mutations <;> simp

theorem output?_of_type (hp : d.Proper) {entry : HostType × TypeDeclaration}
    (hmem : entry ∈ d.types) : entry.2.type.output? = some entry.1 := by
  obtain ⟨outline, htype⟩ := hp.types entry.1 entry.2 hmem
  rw [htype]
  rfl

theorem output?_of_enum (hp : d.Proper) {entry : HostType × EnumDeclaration}
    (hmem : entry ∈ d.enums) : entry.2.type.output? = some entry.1 := by
  obtain ⟨shape, htype⟩ := hp.enums entry.1 entry.2 hmem
  rw [htype]
  rfl

/-- The types that customizations are left for. -/
def remaining (r : Registry) : List TypeRef :=
  r.typeDeclarations.map (·.2.type) ++ r.enumDeclarations.map (·.2.type)

variable {opened : List (String × Identity)} {pending taken taken' : List TypeRef} {r : Registry}

theorem meets_remaining (hp : d.Proper) (hr : d.Explored catalogue opened pending taken r) :
    Meets d catalogue ((remaining r).forM (addDeclared catalogue depth)) (remaining r) := by
  refine .each fun ref hmem => ?_
  rcases List.mem_append.mp hmem with hmem | hmem
  · obtain ⟨entry, hentry, rfl⟩ := List.mem_map.mp hmem
    exact meets_addDeclared (output?_of_type hp (hr.typeDeclarations hentry))
  · obtain ⟨entry, hentry, rfl⟩ := List.mem_map.mp hmem
    exact meets_addDeclared (output?_of_enum hp (hr.enumDeclarations hentry))

theorem mem_customized (hr : d.Explored catalogue opened pending taken r) {ref : TypeRef}
    (hmem : ref ∈ remaining r) : ref ∈ d.types.map (·.2.type) ++ d.enums.map (·.2.type) := by
  rcases List.mem_append.mp hmem with hmem | hmem
  · exact List.mem_append_left _ (List.map_subset _ hr.typeDeclarations hmem)
  · exact List.mem_append_right _ (List.map_subset _ hr.enumDeclarations hmem)

/-- What is customized is met before, or its customization is left. -/
theorem met_or_remaining (hp : d.Proper) (hr : d.Explored catalogue opened pending taken r)
    {ref : TypeRef} (hmem : ref ∈ d.types.map (·.2.type) ++ d.enums.map (·.2.type)) :
    ref.Met taken ∨ ref ∈ remaining r := by
  have hmet {host : HostType} (houtput : ref.output? = some host)
      (hleft : r.outputs.lookup host = none → ref ∈ remaining r) :
      ref.Met taken ∨ ref ∈ remaining r := by
    cases hlookup : r.outputs.lookup host with
    | none => exact .inr (hleft hlookup)
    | some name =>
      have hknown := (hr.outputs host).mp (List.mem_map_of_mem (Entries.mem_of_lookup hlookup))
      cases ref <;> cases houtput <;> exact .inl hknown
  rcases List.mem_append.mp hmem with hmem | hmem
  · obtain ⟨entry, hentry, rfl⟩ := List.mem_map.mp hmem
    refine hmet (output?_of_type hp hentry) fun hnone => List.mem_append_left _ ?_
    have hlookup := (hr.unspent.types entry.1 hnone).trans (Entries.lookup_of_mem hp.typeHosts hentry)
    exact List.mem_map_of_mem (Entries.mem_of_lookup hlookup)
  · obtain ⟨entry, hentry, rfl⟩ := List.mem_map.mp hmem
    refine hmet (output?_of_enum hp hentry) fun hnone => List.mem_append_right _ ?_
    have hlookup := (hr.unspent.enums entry.1 hnone).trans (Entries.lookup_of_mem hp.enumHosts hentry)
    exact List.mem_map_of_mem (Entries.mem_of_lookup hlookup)

theorem meets_inputs : Meets d catalogue
    (d.inputs.forM fun ref => discard (inputType (registerInput catalogue depth) ref)) d.inputs :=
  .each fun ref _ => (meets_inputType (meets_registerInput depth) ref).discard

theorem meets_unions : Meets d catalogue
    (d.unions.forM fun union => addUnion catalogue depth union.1 union.2)
    (d.unions.flatMap (·.2.members)) :=
  .forM fun union _ => meets_addUnion union.1 union.2

/-- At its end, a registration has met all that it started from. -/
theorem addAll_explored (hp : d.Proper) {u : Unit} {s : Registry}
    (h : Runs (addAll catalogue depth d) (.start d) u s) :
    ∃ taken, d.Explored catalogue [] [] taken s ∧ ∀ ref ∈ d.entrances, ref.Met taken := by
  obtain ⟨r₁, r₂, r₃, r₄, hscalars, hroots, hdeclared, hinputs, hunions⟩ := runs_addAll.mp h
  have hentrance {ref : TypeRef} {through : TypeRef → Prop} (hmem : ref ∈ d.entrances) :
      d.Reaches catalogue through ref := .entrance hmem
  simp only [Declarations.entrances, List.append_assoc, List.mem_append] at hentrance
  obtain ⟨taken₁, -, h₁, -⟩ := (Meets.forM fun scalar _ => meets_addScalar scalar).explores hscalars
    (.start d catalogue) (by simp)
  obtain ⟨taken₂, -, h₂, hmet₂⟩ := meets_roots.explores hroots h₁ fun ref hmem =>
    hentrance ((List.mem_append.mp hmem).imp_right .inl)
  obtain ⟨taken₃, hgrown₃, h₃, hmet₃⟩ := (meets_remaining hp h₂).explores hdeclared h₂
    fun ref hmem => by
      rcases List.mem_append.mp (mem_customized h₂ hmem) with hmem | hmem
      · exact hentrance (.inr (.inr (.inl hmem)))
      · exact hentrance (.inr (.inr (.inr (.inl hmem))))
  obtain ⟨taken₄, hgrown₄, h₄, hmet₄⟩ := meets_inputs.explores hinputs h₃ fun ref hmem =>
    hentrance (.inr (.inr (.inr (.inr (.inl hmem)))))
  obtain ⟨taken₅, hgrown₅, hs, hmet₅⟩ := meets_unions.explores hunions h₄ fun ref hmem =>
    hentrance (.inr (.inr (.inr (.inr (.inr hmem)))))
  have hlast := List.Subset.trans hgrown₄ hgrown₅
  have hall := List.Subset.trans hgrown₃ hlast
  refine ⟨taken₅, hs, fun ref hmem => ?_⟩
  rw [Declarations.entrances, List.append_assoc _ (d.types.map _), List.mem_append, List.mem_append,
    List.mem_append] at hmem
  rcases hmem with ((hmem | hmem) | hmem) | hmem
  · exact (hmet₂ ref hmem).mono hall
  · rcases met_or_remaining hp h₂ hmem with hmet | hleft
    · exact hmet.mono hall
    · exact (hmet₃ ref hleft).mono hlast
  · exact (hmet₄ ref hmem).mono hgrown₅
  · exact hmet₅ ref hmem

end Registering

namespace Declarations

variable {d : Declarations} {catalogue : Catalogue} {r : Registry} {taken : List TypeRef}

namespace Explored

variable (h : d.Explored catalogue [] [] taken r) (mutation : Option String)

include h

theorem mem_identities {i : Identity} :
    i ∈ (r.graph mutation).identities ↔ ∃ ref ∈ taken, ref.identity? = some i := by
  have hprovides : (∃ name, r.Provides [] name i) ↔
      ∃ entry ∈ (r.graph mutation).types, entry.2.identity = i := by
    simp only [Registry.Provides, List.not_mem_nil, false_or, Prod.exists, Sound.mem_graph_types]
    exact exists₂_congr fun _ _ => and_comm
  rw [TypeGraph.identities, List.mem_filter, List.mem_map, ← hprovides]
  constructor
  · rintro ⟨hname, hi⟩
    exact (h.provided i hi).mp hname
  · intro htaken
    have hi : i.isMet = true := by
      obtain ⟨ref, -, href⟩ := htaken
      exact TypeRef.isMet_of_identity? href
    exact ⟨(h.provided i hi).mpr htaken, hi⟩

theorem identities_nodup : (r.graph mutation).identities.Nodup := by
  have hnames := h.tidy.graph_names mutation
  rw [TypeGraph.identities, List.filter_map]
  refine List.Nodup.map_on (fun first hfirst second hsecond hi => ?_) (hnames.of_map.filter _)
  obtain ⟨hfirst, hmet⟩ := List.mem_filter.mp hfirst
  obtain ⟨hsecond, -⟩ := List.mem_filter.mp hsecond
  exact List.inj_on_of_nodup_map hnames hfirst hsecond
    (h.once hmet (.inr ⟨_, rfl, Sound.mem_graph_types.mp hfirst⟩)
      (.inr ⟨_, hi.symm, Sound.mem_graph_types.mp hsecond⟩))

/-- Where host types are described in one way, what can be reached through what was taken is taken
itself. -/
theorem mem_of_reaches (hentrances : ∀ ref ∈ d.entrances, ref.Met taken)
    (hd : d.Consistent catalogue) {ref : TypeRef} (hreaches : d.Reaches catalogue (· ∈ taken) ref)
    {i : Identity} (hi : ref.identity? = some i) : ref ∈ taken := by
  have hmet := h.met_of_reaches hentrances hreaches
  have hreached {other : TypeRef} (hother : d.Reaches catalogue (· ∈ taken) other) :
      d.Reaches catalogue (fun _ => True) other := hother.mono fun _ _ => trivial
  cases ref with
  | enumeration | object =>
    obtain ⟨other, hmem, hhost⟩ := hmet
    exact hd.outputs (hreached hreaches) (hreached (h.reached other hmem)) rfl hhost ▸ hmem
  | inputObject =>
    obtain ⟨other, hmem, hhost⟩ := hmet
    exact hd.inputs (hreached hreaches) (hreached (h.reached other hmem)) rfl hhost ▸ hmem
  | scalar | union | list | nullable | function | generic => cases hi

/-- Then all that can be reached can be reached through what was taken. -/
theorem reaches_taken (hentrances : ∀ ref ∈ d.entrances, ref.Met taken)
    (hd : d.Consistent catalogue) {ref : TypeRef}
    (hreaches : d.Reaches catalogue (fun _ => True) ref) : d.Reaches catalogue (· ∈ taken) ref := by
  induction hreaches with
  | entrance hmem => exact .entrance hmem
  | nullable _ ih => exact ih.nullable
  | list _ ih => exact ih.list
  | @link ref next _ _ hmem ih =>
    refine ih.link ?_ hmem
    cases ref with
    | object | inputObject => exact h.mem_of_reaches hentrances hd ih rfl
    | scalar | enumeration | union | list | nullable | function | generic =>
      exact absurd hmem List.not_mem_nil

end Explored

/-- Declarations that describe every host type in one way do so in particular where it is reached. -/
theorem Reaches.describes {through : TypeRef → Prop} {ref : TypeRef}
    (h : d.Reaches catalogue through ref) : d.Describes catalogue ref := by
  have hmention {ref : TypeRef} (hmem : ref ∈ d.mentions) : d.Describes catalogue ref :=
    .mention hmem
  simp only [mentions, List.mem_append, List.mem_flatMap] at hmention
  induction h with
  | @entrance ref hmem =>
    simp only [entrances, List.mem_append, List.mem_flatMap, List.mem_map] at hmem
    rcases hmem with ((((hmem | hmem) | hmem) | hmem) | hmem) | hmem
    · exact hmention (.inl (.inl (.inl (.inl hmem))))
    · exact hmention (.inl (.inl (.inl (.inr hmem))))
    · obtain ⟨entry, hentry, rfl⟩ := hmem
      exact hmention (.inl (.inl (.inr ⟨entry, hentry, List.mem_append_left _ List.mem_cons_self⟩)))
    · obtain ⟨entry, hentry, rfl⟩ := hmem
      exact .customized hentry
    · exact hmention (.inr hmem)
    · exact hmention (.inl (.inr hmem))
  | nullable _ ih => exact ih.nullable
  | list _ ih => exact ih.list
  | @link ref next _ _ hmem ih =>
    cases ref with
    | inputObject host outline =>
      obtain ⟨f, hf, rfl⟩ := List.mem_map.mp hmem
      exact ih.inputField hf
    | object host outline =>
      have hdescribed := Registering.described_customization d catalogue host outline
      rcases List.mem_append.mp hmem with hmem | hmem
      · rcases List.mem_append.mp hmem with hmem | hmem
        · obtain ⟨f, hf, rfl⟩ := List.mem_map.mp hmem
          exact ih.field (List.mem_filter.mp hf).1
        · obtain ⟨property, hproperty, hmem⟩ := List.mem_flatMap.mp hmem
          exact hdescribed.properties property hproperty next hmem
      · obtain ⟨t, ht, hmem⟩ := List.mem_flatMap.mp hmem
        rw [TransformationDeclaration.mentions] at hmem
        split at hmem
        · rename_i transformation htransformation
          exact hdescribed.transformations t ht transformation htransformation next hmem
        · exact absurd hmem List.not_mem_nil
    | scalar | enumeration | union | list | nullable | function | generic =>
      exact absurd hmem List.not_mem_nil

/-- Host types that are described in one way wherever they are met are also reached in one way. -/
theorem Coherent.consistent (hd : d.Coherent catalogue) : d.Consistent catalogue where
  outputs {ref other host} href hother hhost hhost' := by
    have hdescribes := href.describes
    have hdescribes' := hother.describes
    -- Of both, enums and objects are left, in this order.
    cases ref <;> cases hhost <;> cases other <;> cases hhost'
    · rw [hd.shapes _ _ _ hdescribes hdescribes']
    · exact absurd hdescribes' (hd.object _ _ _ hdescribes)
    · exact absurd hdescribes (hd.object _ _ _ hdescribes')
    · rw [hd.outlines _ _ _ hdescribes hdescribes']
  inputs {ref other host} href hother hhost hhost' := by
    have hdescribes := href.describes
    have hdescribes' := hother.describes
    -- Of both, enums and input objects are left, in this order.
    cases ref <;> cases hhost <;> cases other <;> cases hhost'
    · rw [hd.shapes _ _ _ hdescribes hdescribes']
    · exact absurd hdescribes' (hd.inputObject _ _ _ hdescribes)
    · exact absurd hdescribes (hd.inputObject _ _ _ hdescribes')
    · rw [hd.inputOutlines _ _ _ hdescribes hdescribes']

end Declarations

namespace SchemaBuilder

/-- A schema has the types that can be reached, each of them once. Its objects, enums and input
objects belong to descriptions that were taken: all of these can be reached by way of each other, and
of what can be reached by way of them no host type is left out. So where no two descriptions that can
be reached make different types of one host type, they are the types of all that can be reached. -/
theorem build_reachable {catalogue : Catalogue} {b : SchemaBuilder} (hb : b.Arises catalogue)
    {s : Schema} (h : (b.build catalogue).1 = .ok s) :
    s.graph.identities.Nodup ∧
    (∃ taken : List TypeRef,
      (∀ i, i ∈ s.graph.identities ↔ ∃ ref ∈ taken, ref.identity? = some i) ∧
      (∀ ref ∈ taken, b.declarations.Reaches catalogue (· ∈ taken) ref) ∧
      ∀ ref, b.declarations.Reaches catalogue (· ∈ taken) ref → ref.Met taken) ∧
    (b.declarations.Consistent catalogue → ∀ i, i ∈ s.graph.identities ↔
      ∃ ref, b.declarations.Reaches catalogue (fun _ => True) ref ∧ ref.identity? = some i) := by
  obtain ⟨r, hruns, hgraph⟩ := Declarations.register_eq_ok.mp (register_of_build h)
  obtain ⟨taken, hexplored, hentrances⟩ := Registering.addAll_explored hb.proper hruns
  rw [hgraph]
  refine ⟨hexplored.identities_nodup _, ⟨taken, fun i => hexplored.mem_identities _,
    hexplored.reached, fun ref => hexplored.met_of_reaches hentrances⟩, fun hd i => ?_⟩
  rw [hexplored.mem_identities]
  constructor
  · rintro ⟨ref, hmem, hi⟩
    exact ⟨ref, (hexplored.reached ref hmem).mono fun _ _ => trivial, hi⟩
  · rintro ⟨ref, hreaches, hi⟩
    have hthrough := hexplored.reaches_taken hentrances hd hreaches
    exact ⟨ref, hexplored.mem_of_reaches hentrances hd hthrough hi, hi⟩

namespace Ignoring

open Declarations.Sample

def maker : HostType := .named "studio::Maker"

/-- Films have a maker. -/
def catalogue : Catalogue where
  objects := [(film, ⟨"Film", [⟨"title", .scalar .text, fun v => .single .text (v.field "title")⟩,
      ⟨"maker", .object maker maker, fun v => .single maker (v.field "maker")⟩,
      ⟨"sequels", .list (.sequence film) (.object film film), fun _ => .list []⟩]⟩),
    (maker, ⟨"Maker", [⟨"name", .scalar .text, fun v => .single .text (v.field "name")⟩]⟩)]
  inputs := Declarations.Sample.catalogue.inputs

/-- The makers of films are ignored. -/
def calls : List BuilderCall :=
  [.query films, .type (.object film film) ⟨fun t => { t with ignored := ["maker"] }, fun _ => rfl⟩]

/-- What is reached of objects, enums and input objects. -/
def Expected : TypeRef → Prop
  | .enumeration host shape => .enumeration host shape = genre
  | .object host outline => host = film ∧ outline = film
  | .inputObject host outline => host = filter ∧ outline = filter
  | .list _ inner | .nullable _ inner => Expected inner
  | _ => True

theorem expected {ref : TypeRef} {through : TypeRef → Prop}
    (h : (ofCalls calls).declarations.Reaches catalogue through ref) : Expected ref := by
  induction h with
  | entrance hmem =>
    have hentrances : (ofCalls calls).declarations.entrances =
      [.list (.sequence film) (.object film film), .inputObject filter filter, .object film film] := rfl
    rw [hentrances] at hmem
    simp only [List.mem_cons, List.not_mem_nil, or_false] at hmem
    rcases hmem with rfl | rfl | rfl <;> exact ⟨rfl, rfl⟩
  | nullable _ ih => exact ih
  | list _ ih => exact ih
  | @link ref next _ _ hmem ih =>
    cases ref with
    | object host outline =>
      obtain ⟨rfl, rfl⟩ := ih
      have hlinks : (ofCalls calls).declarations.links catalogue (.object film film) =
        [.scalar .text, .list (.sequence film) (.object film film)] := rfl
      rw [hlinks] at hmem
      simp only [List.mem_cons, List.not_mem_nil, or_false] at hmem
      rcases hmem with rfl | rfl
      · trivial
      · exact ⟨rfl, rfl⟩
    | inputObject host outline =>
      obtain ⟨rfl, rfl⟩ := ih
      have hlinks : (ofCalls calls).declarations.links catalogue (.inputObject filter filter) =
        [genre, .nullable (.optional filter) (.inputObject filter filter)] := rfl
      rw [hlinks] at hmem
      simp only [List.mem_cons, List.not_mem_nil, or_false] at hmem
      rcases hmem with rfl | rfl
      · rfl
      · exact ⟨rfl, rfl⟩
    | scalar | enumeration | union | list | nullable | function | generic =>
      exact absurd hmem List.not_mem_nil

theorem consistent : (ofCalls calls).declarations.Consistent catalogue where
  outputs {ref other host} href hother hhost hhost' := by
    have hne : film ≠ .named "studio::Genre" := by decide
    have hexpected := expected href
    have hexpected' := expected hother
    cases ref <;> cases hhost <;> cases other <;> cases hhost'
    · exact hexpected.trans hexpected'.symm
    · exact absurd (hexpected'.1.symm.trans (TypeRef.enumeration.inj hexpected).1) hne
    · exact absurd (hexpected.1.symm.trans (TypeRef.enumeration.inj hexpected').1) hne
    · rw [hexpected.2, hexpected'.2]
  inputs {ref other host} href hother hhost hhost' := by
    have hne : filter ≠ .named "studio::Genre" := by decide
    have hexpected := expected href
    have hexpected' := expected hother
    cases ref <;> cases hhost <;> cases other <;> cases hhost'
    · exact hexpected.trans hexpected'.symm
    · exact absurd (hexpected'.1.symm.trans (TypeRef.enumeration.inj hexpected).1) hne
    · exact absurd (hexpected.1.symm.trans (TypeRef.enumeration.inj hexpected').1) hne
    · rw [hexpected.2, hexpected'.2]

theorem exists_schema : ∃ s, ((ofCalls calls).build catalogue).1 = .ok s := ⟨_, rfl⟩

end Ignoring

open Declarations.Sample in
/-- Films are reached, through a list, and the genres of their filters, but not their makers. -/
theorem build_reachable_sample : ∃ s, ((ofCalls Ignoring.calls).build Ignoring.catalogue).1 = .ok s ∧
    s.graph.identities.Nodup ∧ Identity.object (some film) ∈ s.graph.identities ∧
    Identity.enumeration (.named "studio::Genre") ∈ s.graph.identities ∧
    Identity.object (some Ignoring.maker) ∉ s.graph.identities := by
  obtain ⟨s, hs⟩ := Ignoring.exists_schema
  obtain ⟨hnodup, -, hreached⟩ := build_reachable (arises_ofCalls Ignoring.catalogue Ignoring.calls) hs
  have hiff := hreached Ignoring.consistent
  have hentrance {ref : TypeRef} (hmem : ref ∈ (ofCalls Ignoring.calls).declarations.entrances) :
      (ofCalls Ignoring.calls).declarations.Reaches Ignoring.catalogue (fun _ => True) ref :=
    .entrance hmem
  have hentrances : (ofCalls Ignoring.calls).declarations.entrances =
    [.list (.sequence film) (.object film film), .inputObject filter filter, .object film film] := rfl
  rw [hentrances] at hentrance
  refine ⟨s, hs, hnodup, (hiff _).mpr ⟨.object film film, ?_, rfl⟩, (hiff _).mpr ⟨genre, ?_, rfl⟩,
    fun hmaker => ?_⟩
  · exact (hentrance List.mem_cons_self).list
  · exact (hentrance (List.mem_cons_of_mem _ List.mem_cons_self)).link trivial List.mem_cons_self
  · obtain ⟨ref, hreaches, hi⟩ := (hiff _).mp hmaker
    have hexpected := Ignoring.expected hreaches
    cases ref <;> cases hi
    exact absurd hexpected.1 (by decide)

namespace Recut

open Declarations.Sample Ignoring

def cut : HostType := .named "studio::Cut"

/-- The fields of a film say who made it, those of its cut do not. -/
def catalogue : Catalogue where
  objects := [(film, ⟨"Film", [⟨"maker", .object maker maker, fun v => .single maker (v.field "maker")⟩]⟩),
    (cut, ⟨"Cut", [⟨"title", .scalar .text, fun v => .single .text (v.field "title")⟩]⟩)]
  inputs := []

def showing (name : String) (outline : HostType) : PropertyDeclaration :=
  { PropertyDeclaration.extension name with
    resolver := some ⟨.ofKinds [], .object film outline,
      .suspending none fun _ _ => .answer (.ok .null)⟩ }

/-- Films are described as cuts, and then as what they are. -/
def calls : List BuilderCall := [.query (showing "revival" cut), .query (showing "premiere" film)]

theorem build_calls : ∃ s, ((ofCalls calls).build catalogue).1 = .ok s ∧
    s.graph.identities = [.object (some film)] := ⟨_, rfl, rfl⟩

/-- A builder that films are declared on, and that has built a schema since. -/
def spent : SchemaBuilder :=
  ((ofCalls [.type (.object film film) ⟨id, fun _ => rfl⟩]).build catalogue).2

theorem arises_spent : spent.Arises catalogue := (arises_ofCalls _ _).build

theorem build_spent : ∃ s, (spent.build catalogue).1 = .ok s ∧ s.graph.identities = [] := ⟨_, rfl, rfl⟩

end Recut

open Declarations.Sample Recut in
/-- Makers of films are left out although they can be reached, if films are described in another way
before. And what was declared for a schema is left out of the next one. -/
theorem maker_unregistered :
    (∃ s, ((ofCalls Recut.calls).build Recut.catalogue).1 = .ok s ∧
      (ofCalls Recut.calls).declarations.Reaches Recut.catalogue (fun _ => True)
        (.object Ignoring.maker Ignoring.maker) ∧
      Identity.object (some Ignoring.maker) ∉ s.graph.identities) ∧
    spent.Arises Recut.catalogue ∧ ∃ s, (spent.build Recut.catalogue).1 = .ok s ∧
      Identity.object (some film) ∉ s.graph.identities := by
  obtain ⟨s, hs, hidentities⟩ := Recut.build_calls
  obtain ⟨s', hs', hnone⟩ := build_spent
  have hentrance : .object film film ∈ (ofCalls Recut.calls).declarations.entrances :=
    List.mem_cons_of_mem _ List.mem_cons_self
  refine ⟨⟨s, hs, .link (.entrance hentrance) trivial ?_, ?_⟩, arises_spent, s', hs', ?_⟩
  · exact List.mem_cons_self
  · rw [hidentities, List.mem_singleton]
    exact fun he => absurd (Option.some.inj (Identity.object.inj he)) (by decide)
  · rw [hnone]
    exact List.not_mem_nil

end SchemaBuilder

end Trellis
