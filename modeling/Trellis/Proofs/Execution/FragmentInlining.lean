import Trellis.Proofs.Execution.Gist
import Trellis.Proofs.Execution.ScheduleIndependence

/-!
Fragments written in place give the same response.

Within one object a named fragment is entered once, while its copies are collected each time they
are met. When it is met again, though, all that it comes to was collected already: it was entered
before, and as no fragment reaches itself, it is not still being entered. So both documents collect
the same but for repetitions, also from the selections that are merged on the next level.
-/

namespace Trellis

open Document

/-- The field with the fragments inside it written in place. -/
def Document.Field.inline (d : Document) (f : Field) : Field :=
  f.expand d fun g => d.inline g.selections

def Document.Selection.inline (d : Document) (s : Selection) : Selection :=
  s.expand d fun g => d.inline g.selections

def FieldGroup.inline (d : Document) (g : FieldGroup) : FieldGroup :=
  ⟨g.key, g.first.inline d, g.rest.map (·.inline d)⟩

/-- What was collected, with the fragments inside it written in place. -/
def Collected.inline (d : Document) (c : Collected) : Collected :=
  { c with groups := c.groups.map (·.inline d) }

section

variable {d : Document}

theorem Document.inline_eq_map (hd : d.Acyclic) (L : List Selection) :
    d.inline L = L.map (·.inline d) := by
  rw [inline_eq hd, expandAll_eq_map]
  rfl

theorem Document.inline_cons (hd : d.Acyclic) (s : Selection) (L : List Selection) :
    d.inline (s :: L) = s.inline d :: d.inline L := by
  rw [inline_eq_map hd, inline_eq_map hd, List.map_cons]

theorem Document.Field.inline_eq (hd : d.Acyclic) (f : Field) : f.inline d =
    ⟨f.start, f.responseName, f.name, f.arguments, f.directives, f.selections.map d.inline⟩ := by
  have hinline : d.inline = d.expandAll fun g => d.inline g.selections := funext (Document.inline_eq hd)
  rw [Field.inline, Field.expand_eq, ← hinline]

theorem Document.Field.key_inline (f : Field) : (f.inline d).key = f.key := by
  rw [Field.inline, Field.expand_eq]
  rfl

theorem Collected.addTo_inline (f : Field) (groups : List FieldGroup) :
    addTo (f.inline d) (groups.map (·.inline d)) = (addTo f groups).map (·.inline d) := by
  induction groups with
  | nil => simp only [addTo, List.map_cons, List.map_nil, FieldGroup.inline, f.key_inline]
  | cons g groups ih =>
    simp only [addTo, List.map_cons, ih, f.key_inline]
    by_cases hkey : g.key = f.key
    · simp [FieldGroup.inline, hkey]
    · simp [FieldGroup.inline, hkey]

theorem Collected.inline_add (c : Collected) (f : Field) :
    (c.add f).inline d = (c.inline d).add (f.inline d) := by
  simp only [Collected.add, Collected.inline, Collected.addTo_inline]

theorem Collected.inline_miss (c : Collected) (start : Position) (name : String) :
    (c.miss start name).inline d = (c.inline d).miss start name := rfl

end

namespace Scope

variable (scope : Scope) (object : ObjectType)

/-- All that was met and is not being entered has been collected. -/
structure Absorbs (entered : List String) (c : Collected) : Prop where
  lacking : ∀ name, scope.document.Lacks name →
    (name ∈ c.visited ↔ name ∈ c.missing.map (·.2))
  defined : ∀ name ∈ c.visited, name ∉ entered → ∀ f, scope.document.fragment? name = some f →
    scope.applies f.condition object = true →
    ∀ x ∈ scope.items object (scope.document.inline f.selections),
      (c.inline scope.document).gist.Has x

variable {scope object}

namespace Absorbs

variable {entered : List String} {c : Collected}

theorem empty : scope.Absorbs object [] .empty :=
  ⟨fun _ _ => Iff.rfl, by simp [Collected.empty]⟩

theorem add (h : scope.Absorbs object entered c) (f : Field) :
    scope.Absorbs object entered (c.add f) := by
  refine ⟨h.lacking, fun name hname hout g hg happlies x hx => ?_⟩
  rw [Collected.inline_add, Collected.gist_add]
  exact (h.defined name hname hout g hg happlies x hx).add _

theorem miss (h : scope.Absorbs object entered c) {name : String}
    (hname : scope.document.Lacks name) (hnew : name ∉ c.missing.map (·.2)) (start : Position) :
    scope.Absorbs object entered (c.miss start name) := by
  refine ⟨fun other hother => ?_, fun other hin hout g hg happlies x hx => ?_⟩
  · simp only [Collected.miss, List.mem_cons, List.map_append, List.mem_append, List.map_cons,
      List.map_nil, List.not_mem_nil, or_false, h.lacking other hother]
    exact or_comm
  · have hne : other ≠ name := fun he => by
      rw [he, hname] at hg
      cases hg
    have hnew' : name ∉ (c.inline scope.document).missing.map (·.2) := hnew
    rw [Collected.inline_miss, Collected.gist_miss hnew']
    exact (h.defined other ((List.mem_cons.mp hin).resolve_left hne) hout g hg happlies x hx).add _

/-- A fragment is met, to be entered or because it does not apply. -/
theorem visit (h : scope.Absorbs object entered c) {name : String} {f : Fragment}
    (hf : scope.document.fragment? name = some f) {entered' : List String}
    (hsub : ∀ other, other ∉ entered' → other ∉ entered)
    (hname : name ∈ entered' ∨ ¬ scope.applies f.condition object = true) :
    scope.Absorbs object entered' (c.visit name) := by
  refine ⟨fun other hother => ?_, fun other hin hout g hg happlies x hx => ?_⟩
  · have hne : other ≠ name := fun he => by
      rw [he, Lacks, hf] at hother
      cases hother
    simpa [Collected.visit, hne] using h.lacking other hother
  · rcases List.mem_cons.mp hin with rfl | hin
    · cases hf.symm.trans hg
      exact absurd happlies (hname.resolve_left hout)
    · exact h.defined other hin (hsub other hout) g hg happlies x hx

theorem leave {name : String} (h : scope.Absorbs object (name :: entered) c) {f : Fragment}
    (hf : scope.document.fragment? name = some f)
    (hhas : ∀ x ∈ scope.items object (scope.document.inline f.selections),
      (c.inline scope.document).gist.Has x) : scope.Absorbs object entered c := by
  refine ⟨h.lacking, fun other hin hout g hg happlies x hx => ?_⟩
  rcases eq_or_ne other name with rfl | hne
  · cases hf.symm.trans hg
    exact hhas x hx
  · exact h.defined other hin (by simp [hne, hout]) g hg happlies x hx

end Absorbs

/-- Collecting comes to some items, but for repetitions. -/
structure Amounts (scope : Scope) (object : ObjectType) (entered : List String) (T : List Item)
    (before after : Collected) : Prop where
  gist : (after.inline scope.document).gist =
    T.foldl Gist.add (before.inline scope.document).gist
  absorbs : scope.Absorbs object entered after

/-- Entering a fragment comes to what is written in its place. -/
def Enters (scope : Scope) (object : ObjectType) (entered : List String)
    (enter : Fragment → Collected → Collected) (names : List String) : Prop :=
  ∀ name ∈ names, ∀ f, scope.document.fragment? name = some f → ∀ c,
    scope.Absorbs object (name :: entered) c →
      scope.Amounts object (name :: entered) (scope.items object (scope.document.inline f.selections))
        c (enter f c)

section

variable {entered : List String} {enter : Fragment → Collected → Collected}

theorem Amounts.nothing {c : Collected} (h : scope.Absorbs object entered c) :
    scope.Amounts object entered [] c c := ⟨rfl, h⟩

theorem amounts_missing {name : String} {c : Collected} (hc : scope.Absorbs object entered c)
    (hf : scope.document.Lacks name) (start : Position) :
    scope.Amounts object entered [.missing start name] c
      (if c.visited.contains name then c else c.miss start name) := by
  by_cases hmet : name ∈ c.visited
  · rw [if_pos (List.contains_iff_mem.mpr hmet)]
    have hhas : (c.inline scope.document).gist.Has (.missing start name) :=
      (hc.lacking name hf).mp hmet
    exact ⟨hhas.add_eq.symm, hc⟩
  · have hnew : name ∉ c.missing.map (·.2) := fun h => hmet ((hc.lacking name hf).mpr h)
    rw [if_neg (by simpa using hmet)]
    exact ⟨(c.inline scope.document).gist_miss hnew start, hc.miss hf hnew start⟩

/-- A fragment that applies comes to its items, entered or not: if it was met before, they are there
already. -/
theorem amounts_applying {name : String} {c : Collected} (hc : scope.Absorbs object entered c)
    (hout : name ∉ entered) (henter : scope.Enters object entered enter [name]) {f : Fragment}
    (hf : scope.document.fragment? name = some f)
    (happlies : scope.applies f.condition object = true) :
    scope.Amounts object entered (scope.items object (scope.document.inline f.selections)) c
      (if c.visited.contains name then c else enter f (c.visit name)) := by
  by_cases hmet : name ∈ c.visited
  · rw [if_pos (List.contains_iff_mem.mpr hmet)]
    have hhas := hc.defined name hmet hout f hf happlies
    exact ⟨(Gist.foldl_eq_of_has hhas).symm, hc⟩
  · rw [if_neg (by simpa using hmet)]
    have hvisit : scope.Absorbs object (name :: entered) (c.visit name) :=
      hc.visit hf (fun _ h hin => h (List.mem_cons_of_mem _ hin)) (.inl List.mem_cons_self)
    have hbody := henter name List.mem_cons_self f hf _ hvisit
    refine ⟨hbody.gist, hbody.absorbs.leave hf fun x hx => ?_⟩
    rw [hbody.gist]
    exact Gist.has_of_mem hx _

/-- A spread comes to what is written in its place, whether its fragment is met for the first time,
was met before, or is missing. -/
theorem amounts_spread {start : Position} {name : String} {directives : List Directive}
    {c : Collected} (hout : name ∉ entered) (henter : scope.Enters object entered enter [name])
    (hc : scope.Absorbs object entered c) :
    scope.Amounts object entered
      (scope.itemsOf object ((Selection.spread start name directives).inline scope.document)) c
      (scope.collectSelection object enter (.spread start name directives) c) := by
  rw [collectSelection_spread, Selection.inline, Selection.expand]
  by_cases hexcluded : scope.isExcluded directives = true
  · rw [if_pos (by rw [hexcluded, Bool.true_or])]
    split
    · rw [itemsOf, if_pos hexcluded]
      exact .nothing hc
    · rw [itemsOf, if_pos hexcluded]
      exact .nothing hc
  rw [Bool.not_eq_true] at hexcluded
  rw [hexcluded, Bool.false_or]
  cases hf : scope.document.fragment? name with
  | none =>
    dsimp only
    rw [itemsOf, hexcluded, if_neg Bool.false_ne_true]
    exact amounts_missing hc hf start
  | some f =>
    dsimp only
    rw [itemsOf, hexcluded, if_neg Bool.false_ne_true, Option.all_some]
    by_cases happlies : scope.applies f.condition object = true
    · simp only [if_pos happlies]
      exact amounts_applying hc hout henter hf happlies
    · simp only [if_neg happlies]
      split
      · exact .nothing hc
      · exact ⟨rfl, hc.visit hf (fun _ h => h) (.inr happlies)⟩

mutual

theorem amounts_collectSelection (hd : scope.document.Acyclic) :
    ∀ (s : Selection) (c : Collected), (∀ name ∈ s.spreads, name ∉ entered) →
      scope.Enters object entered enter s.spreads → scope.Absorbs object entered c →
      scope.Amounts object entered (scope.itemsOf object (s.inline scope.document)) c
        (scope.collectSelection object enter s c)
  | .field f, c, _, _, hc => by
    have hdirectives : (f.inline scope.document).directives = f.directives := by
      rw [Field.inline_eq hd]
    have hinline : (Selection.field f).inline scope.document = .field (f.inline scope.document) := by
      rw [Selection.inline, Selection.expand, Field.inline]
    rw [hinline, itemsOf, collectSelection, hdirectives]
    split
    · exact .nothing hc
    · exact ⟨by rw [Collected.inline_add, Collected.gist_add]; rfl, hc.add f⟩
  | .spread start name directives, c, hout, henter, hc => by
    rw [Selection.spreads] at hout henter
    exact amounts_spread (hout name List.mem_cons_self) henter hc
  | .inlineFragment start condition directives selections, c, hout, henter, hc => by
    rw [Selection.spreads] at hout henter
    have hinline : (Selection.inlineFragment start condition directives selections).inline
        scope.document =
          .inlineFragment start condition directives (scope.document.inline selections) := by
      rw [Selection.inline, Selection.expand, ← Document.inline_eq hd]
    rw [hinline, itemsOf, collectSelection]
    split
    · exact .nothing hc
    · split
      · exact amounts_collectSelections hd selections c hout henter hc
      · exact .nothing hc

theorem amounts_collectSelections (hd : scope.document.Acyclic) :
    ∀ (L : List Selection) (c : Collected), (∀ name ∈ spreadsOf L, name ∉ entered) →
      scope.Enters object entered enter (spreadsOf L) → scope.Absorbs object entered c →
      scope.Amounts object entered (scope.items object (scope.document.inline L)) c
        (scope.collectSelections object enter L c)
  | [], c, _, _, hc => by
    rw [Document.inline_eq_map hd, List.map_nil, items, collectSelections]
    exact .nothing hc
  | s :: rest, c, hout, henter, hc => by
    rw [spreadsOf] at hout henter
    have hs := amounts_collectSelection hd s c
      (fun name h => hout name (List.mem_append_left _ h))
      (fun name h => henter name (List.mem_append_left _ h)) hc
    have hrest := amounts_collectSelections hd rest _
      (fun name h => hout name (List.mem_append_right _ h))
      (fun name h => henter name (List.mem_append_right _ h)) hs.absorbs
    rw [Document.inline_cons hd, items, collectSelections]
    exact ⟨by rw [hrest.gist, hs.gist, List.foldl_append], hrest.absorbs⟩

end

theorem amounts_collectWithin (hd : scope.document.Acyclic) {depth : Nat} {L : List Selection}
    (h : scope.document.Trail entered depth (spreadsOf L)) {c : Collected}
    (hc : scope.Absorbs object entered c) :
    scope.Amounts object entered (scope.items object (scope.document.inline L)) c
      (scope.collectWithin object depth L c) := by
  induction depth generalizing entered L c with
  | zero =>
    refine amounts_collectSelections hd L c (fun _ => h.notMem hd) ?_ hc
    intro name hname f hf
    obtain ⟨rest, hrest, -⟩ := h.enter hd hname hf
    cases hrest
  | succ depth ih =>
    refine amounts_collectSelections hd L c (fun _ => h.notMem hd) ?_ hc
    intro name hname f hf c hc
    obtain ⟨rest, hrest, htrail⟩ := h.enter hd hname hf
    cases hrest
    exact ih htrail hc

end

/-- What is collected is what the selections come to with the fragments written in place, but for
repetitions. -/
theorem gist_inline_collect (hd : scope.document.Acyclic) (L : List Selection) :
    ((scope.collect object L).inline scope.document).gist =
      (scope.items object (scope.document.inline L)).foldl Gist.add .empty :=
  (amounts_collectWithin hd (.start _ _) .empty).gist

end Scope

theorem FieldGroup.selections_inline {d : Document} (hd : d.Acyclic) (g : FieldGroup) :
    (g.inline d).selections = d.inline g.selections := by
  have hfields : ∀ fields : List Field,
      (fields.map (·.inline d)).flatMap (fun f => f.selections.getD []) =
        d.inline (fields.flatMap fun f => f.selections.getD []) := by
    intro fields
    induction fields with
    | nil => rw [List.flatMap_nil, inline_eq_map hd]; rfl
    | cons f fields ih =>
      rw [List.map_cons, List.flatMap_cons, List.flatMap_cons, ih, inline_append hd,
        Field.inline_eq hd]
      cases f.selections with
      | none => rw [Option.map_none, Option.getD_none, inline_eq_map hd []]; rfl
      | some L => rfl
  exact hfields (g.first :: g.rest)

namespace Scope

variable {scope : Scope}

/-- The scope of the document with the fragments written in place. -/
def inlined (scope : Scope) : Scope := scope.withDocument scope.document.inlined

/-- Groups with the same gist are planned alike. -/
theorem alike_of_gist (hd : scope.document.Acyclic) {object : ObjectType} {g g' : FieldGroup}
    (h : (g.inline scope.document).gist = g'.gist) :
    scope.Alike scope.inlined (fun L L' => firsts (scope.document.inline L) = firsts L') object
      g g' := by
  obtain ⟨hkey, hfields⟩ := Prod.mk.inj h
  have hfirst : g.first.inline scope.document = g'.first := by
    obtain ⟨_, hrest⟩ := exists_firsts_cons (g.first.inline scope.document)
      (g.inline scope.document).rest
    obtain ⟨_, hrest'⟩ := exists_firsts_cons g'.first g'.rest
    exact (List.cons.inj (hrest.symm.trans (hfields.trans hrest'))).1
  rw [Field.inline_eq hd] at hfirst
  exact {
    key := hkey
    start := by rw [← hfirst]
    name := by rw [← hfirst]
    arguments := fun property => by
      have hvalues : scope.values = scope.inlined.values := rfl
      rw [← hfirst]
      exact argumentsOf_congr hvalues object property g.first.arguments
    selections := by
      rw [← FieldGroup.selections_inline hd]
      exact firsts_flatMap_congr hfields _ }

theorem mirrors_inlined (hd : scope.document.Acyclic) :
    scope.Mirrors scope.inlined fun L L' => firsts (scope.document.inline L) = firsts L' := by
  have hgist : ∀ (object : ObjectType) {L L' : List Selection},
      firsts (scope.document.inline L) = firsts L' →
      ((scope.collect object L).inline scope.document).gist =
        (scope.inlined.collect object L').gist := by
    intro object L L' hL
    have hlacks : ∀ name ∈ spreadsOf L', scope.inlined.document.Lacks name := by
      intro name hname
      rw [spreadsOf_eq_flatMap] at hname
      obtain ⟨s, hs, hin⟩ := List.mem_flatMap.mp hname
      rw [← mem_firsts, ← hL, mem_firsts] at hs
      refine (lacks_inlined _).mpr (lacks_inline hd L name ?_)
      rw [spreadsOf_eq_flatMap]
      exact List.mem_flatMap.mpr ⟨s, hs, hin⟩
    have hgraph : scope.inlined.graph.Indistinct scope.graph := .refl _
    rw [gist_inline_collect hd, gist_collect object hlacks, items_congr object hgraph rfl,
      items_eq_flatMap, items_eq_flatMap]
    exact Gist.foldl_congr (firsts_flatMap_congr hL _) _
  refine ⟨.refl _, rfl, fun object L L' hL => congrArg Gist.missing (hgist object hL),
    fun object L L' hL => ?_⟩
  have hgroups := congrArg Gist.groups (hgist object hL)
  rw [Collected.gist, Collected.gist, Collected.inline, List.map_map] at hgroups
  rw [← List.forall₂_eq_eq_eq, List.forall₂_map_left_iff, List.forall₂_map_right_iff] at hgroups
  exact hgroups.imp fun g g' => alike_of_gist hd

end Scope

/-- Names of the fragments that a definition spreads, at any nesting. -/
def Document.Definition.spreads : Definition → List String
  | .operation o => spreadsOf o.selections
  | .fragment f => spreadsOf f.selections

/-- The request with the fragments of its document written in place. -/
def Request.inlined (r : Request) : Request := { r with document := r.document.inlined }

theorem Document.lacks_of_mem_inlined {d : Document} (hd : d.Acyclic) {definition : Definition}
    (h : definition ∈ d.inlined) {name : String} (hname : name ∈ definition.spreads) :
    d.inlined.Lacks name := by
  rw [inlined, rewrite] at h
  obtain ⟨original, -, rfl⟩ := List.mem_map.mp h
  refine (lacks_inlined d).mpr ?_
  cases original with
  | operation o => exact lacks_inline hd o.selections name hname
  | fragment f => exact lacks_inline hd f.selections name hname

namespace Schema

variable {s : Schema}

/-- If no fragment of a document reaches itself, writing the fragments in place keeps the response:
no spread of a fragment of the document is left, the request is refused with the same error or
opened, it lays out the same agenda at every depth, and it answers the same on all workers. -/
theorem inlined_executes_alike {r : Request} (hd : r.document.Acyclic) :
    (∀ definition ∈ r.document.inlined, ∀ name ∈ definition.spreads,
      r.document.inlined.Lacks name) ∧
    (∀ e, s.opening r = .error e ↔ s.opening r.inlined = .error e) ∧
    (∀ o, s.opening r = .ok o → ∃ o', s.opening r.inlined = .ok o' ∧
      ∀ depth, o.agenda depth = o'.agenda depth) ∧
    ∀ workers depth, s.executeOn? workers depth r = s.executeOn? workers depth r.inlined := by
  have hmap : s.opening r.inlined = (s.opening r).map fun o =>
      ⟨o.scope.withDocument r.document.inlined, o.root, o.operation.inline r.document⟩ :=
    opening_rewrite (Operation.inline _) (Fragment.inline _) (fun _ => rfl) (fun _ => rfl)
      (fun _ => rfl) r
  have hagenda : ∀ o, s.opening r = .ok o → ∀ depth, o.agenda depth = Opening.agenda
      ⟨o.scope.withDocument r.document.inlined, o.root, o.operation.inline r.document⟩ depth := by
    intro o ho depth
    obtain ⟨-, -, values, -, hscope⟩ := opening_ok.mp ho
    have hdocument : o.scope.document = r.document := by rw [hscope]
    rw [← hdocument] at hd ⊢
    exact (Scope.mirrors_inlined hd).agenda depth o.root _ rfl
  refine ⟨fun _ h _ hname => lacks_of_mem_inlined hd h hname, fun e => ?_, fun o ho => ?_,
    executeOn_congr rfl hmap hagenda⟩
  · rw [hmap]
    cases s.opening r <;> simp [Except.map]
  · exact ⟨_, by rw [hmap, ho]; rfl, hagenda o ho⟩

end Schema

namespace Sample

def spreading : Operation :=
  ⟨.origin, .query, none, [], [], [field 2 "latest" (some
    [.spread ⟨0, 11⟩ "Card" [], .spread ⟨0, 19⟩ "Dates" [], field 28 "title" none])]⟩

def card : Fragment :=
  ⟨⟨1, 0⟩, "Card", "Film", [], [field 24 "title" none, .spread ⟨1, 30⟩ "Dates" []]⟩

def dates : Fragment := ⟨⟨2, 0⟩, "Dates", "Film", [], [field 25 "year" none]⟩

def spreadingRequest : Request :=
  ⟨[.operation spreading, .fragment card, .fragment dates], none, [], []⟩

theorem acyclic_spreading : spreadingRequest.document.Acyclic := by
  have hspreads : ∀ {name next : String}, spreadingRequest.document.Spreads name next →
      name = "Card" ∧ next = "Dates" := by
    rintro name next ⟨f, hf, hnext⟩
    obtain ⟨hmem, rfl⟩ := mem_fragments_of_fragment? hf
    have hcases : f = card ∨ f = dates := by simpa [spreadingRequest, fragments] using hmem
    rcases hcases with rfl | rfl
    · exact ⟨rfl, by simpa [card, spreadsOf, Selection.spreads, Field.spreads, field] using hnext⟩
    · simp [dates, spreadsOf, Selection.spreads, Field.spreads, field] at hnext
  have hreaches : ∀ {name next : String},
      Relation.TransGen spreadingRequest.document.Spreads name next →
        name = "Card" ∧ next = "Dates" := by
    intro name next h
    induction h with
    | single h => exact hspreads h
    | tail _ hlast ih => exact ⟨ih.1, (hspreads hlast).2⟩
  intro name h
  obtain ⟨rfl, hne⟩ := hreaches h
  simp at hne

/-- The operation with `Card` and `Dates` written in place, each where it is spread. -/
def copies : List Selection :=
  [field 2 "latest" (some
    [.inlineFragment ⟨0, 11⟩ (some "Film") []
      [field 24 "title" none, .inlineFragment ⟨1, 30⟩ (some "Film") [] [field 25 "year" none]],
     .inlineFragment ⟨0, 19⟩ (some "Film") [] [field 25 "year" none], field 28 "title" none])]

end Sample

namespace Schema

theorem inlined_executes_alike_sample :
    Sample.spreadingRequest.document.Acyclic ∧
    Sample.spreadingRequest.document.inline Sample.spreading.selections = Sample.copies ∧
    ∀ workers depth, Sample.schema.executeOn? workers depth Sample.spreadingRequest =
      Sample.schema.executeOn? workers depth Sample.spreadingRequest.inlined :=
  ⟨Sample.acyclic_spreading, rfl, (inlined_executes_alike Sample.acyclic_spreading).2.2.2⟩

end Schema

end Trellis
