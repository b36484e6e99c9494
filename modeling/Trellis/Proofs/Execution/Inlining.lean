import Mathlib.Data.List.Perm.Subperm
import Trellis.Proofs.Execution.Mirroring

/-!
Writing fragments in place.

Every spread of a fragment that a document defines is replaced by an inline fragment with the type
condition and the selections of the fragment and the directives of the spread. Where no fragment
reaches itself this comes to an end: the fragments that are entered inside each other are different,
so as many levels suffice as there are fragments.
-/

namespace Trellis

namespace Document

mutual

/-- Names of the fragments that a field spreads, at any nesting. -/
def Field.spreads : Field → List String
  | ⟨_, _, _, _, _, none⟩ => []
  | ⟨_, _, _, _, _, some selections⟩ => spreadsOf selections

def Selection.spreads : Selection → List String
  | .field f => f.spreads
  | .spread _ name _ => [name]
  | .inlineFragment _ _ _ selections => spreadsOf selections

def spreadsOf : List Selection → List String
  | [] => []
  | s :: rest => s.spreads ++ spreadsOf rest

end

theorem spreadsOf_eq_flatMap (L : List Selection) : spreadsOf L = L.flatMap (·.spreads) := by
  induction L with
  | nil => rw [spreadsOf, List.flatMap_nil]
  | cons s rest ih => rw [spreadsOf, List.flatMap_cons, ih]

variable (d : Document)

/-- A fragment spreads another one, at any nesting. -/
def Spreads (name next : String) : Prop :=
  ∃ f, d.fragment? name = some f ∧ next ∈ spreadsOf f.selections

/-- No fragment reaches itself. -/
def Acyclic : Prop := ∀ name, ¬ Relation.TransGen d.Spreads name name

def Lacks (name : String) : Prop := d.fragment? name = none

mutual

/-- The field with every spread inside it replaced; `body` gives what is written for a fragment. -/
def Field.expand (body : Fragment → List Selection) : Field → Field
  | ⟨start, responseName, name, arguments, directives, none⟩ =>
    ⟨start, responseName, name, arguments, directives, none⟩
  | ⟨start, responseName, name, arguments, directives, some selections⟩ =>
    ⟨start, responseName, name, arguments, directives, some (expandAll body selections)⟩

def Selection.expand (body : Fragment → List Selection) : Selection → Selection
  | .field f => .field (Field.expand body f)
  | .spread start name directives =>
    match d.fragment? name with
    | none => .spread start name directives
    | some f => .inlineFragment start (some f.condition) directives (body f)
  | .inlineFragment start condition directives selections =>
    .inlineFragment start condition directives (expandAll body selections)

def expandAll (body : Fragment → List Selection) : List Selection → List Selection
  | [] => []
  | s :: rest => Selection.expand body s :: expandAll body rest

end

/-- Replaces spreads in selections and in what was written for spreads, so many levels deep. -/
def inlineWithin : Nat → List Selection → List Selection
  | 0, L => d.expandAll (·.selections) L
  | depth + 1, L => d.expandAll (fun f => inlineWithin depth f.selections) L

/-- Selections with the fragments written in place. -/
def inline (L : List Selection) : List Selection := d.inlineWithin d.fragments.length L

def Operation.inline (o : Operation) : Operation := { o with selections := d.inline o.selections }

def Fragment.inline (f : Fragment) : Fragment := { f with selections := d.inline f.selections }

/-- The document with the fragments written in place, also inside each other. -/
def inlined : Document := d.rewrite (Operation.inline d) (Fragment.inline d)

theorem fragment?_inlined (name : String) :
    d.inlined.fragment? name = (d.fragment? name).map (Fragment.inline d) :=
  fragment?_rewrite _ (Fragment.inline d) d (fun _ => rfl) name

theorem lacks_inlined {name : String} : d.inlined.Lacks name ↔ d.Lacks name := by
  rw [Lacks, fragment?_inlined, Option.map_eq_none_iff, Lacks]

variable {d}

theorem mem_fragments_of_fragment? {name : String} {f : Fragment}
    (h : d.fragment? name = some f) : f ∈ d.fragments ∧ f.name = name :=
  ⟨List.mem_reverse.mp (List.mem_of_find?_eq_some h), by simpa using List.find?_some h⟩

/-- Fragments that were entered inside each other, the levels that are left, and names that are
spread inside the last one. -/
structure Trail (d : Document) (entered : List String) (depth : Nat) (names : List String) :
    Prop where
  nodup : entered.Nodup
  defined : ∀ name ∈ entered, ¬ d.Lacks name
  room : d.fragments.length ≤ depth + entered.length
  leads : ∀ name ∈ entered, ∀ next ∈ names, Relation.TransGen d.Spreads name next

namespace Trail

variable {entered : List String} {depth : Nat} {names : List String}

theorem start (d : Document) (names : List String) : d.Trail [] d.fragments.length names :=
  ⟨List.nodup_nil, by simp, by simp, by simp⟩

theorem notMem (hd : d.Acyclic) (h : d.Trail entered depth names) {name : String}
    (hname : name ∈ names) : name ∉ entered :=
  fun hin => hd name (h.leads name hin name hname)

/-- A fragment is only spread while there are levels left, and it may be entered. -/
theorem enter (hd : d.Acyclic) (h : d.Trail entered depth names) {name : String} {f : Fragment}
    (hname : name ∈ names) (hf : d.fragment? name = some f) :
    ∃ rest, depth = rest + 1 ∧ d.Trail (name :: entered) rest (spreadsOf f.selections) := by
  have hnodup : (name :: entered).Nodup := List.nodup_cons.mpr ⟨h.notMem hd hname, h.nodup⟩
  have hdefined : ∀ other ∈ name :: entered, ¬ d.Lacks other :=
    List.forall_mem_cons.mpr ⟨by simp [Lacks, hf], h.defined⟩
  have hsub : name :: entered ⊆ d.fragments.map (·.name) := by
    intro other hother
    obtain ⟨g, hg⟩ := Option.ne_none_iff_exists'.mp (hdefined other hother)
    obtain ⟨hmem, rfl⟩ := mem_fragments_of_fragment? hg
    exact List.mem_map_of_mem hmem
  have hlength : entered.length + 1 ≤ d.fragments.length := by
    simpa using (hnodup.subperm hsub).length_le
  have hroom := h.room
  obtain ⟨rest, rfl⟩ : ∃ rest, depth = rest + 1 := ⟨depth - 1, by omega⟩
  refine ⟨rest, rfl, hnodup, hdefined, by simp only [List.length_cons]; omega, ?_⟩
  intro other hother next hnext
  have hstep : d.Spreads name next := ⟨f, hf, hnext⟩
  rcases List.mem_cons.mp hother with rfl | hin
  · exact .single hstep
  · exact (h.leads other hin name hname).tail hstep

end Trail

section Expanding

variable {body body' : Fragment → List Selection}

theorem Field.expand_eq (f : Field) : f.expand d body =
    ⟨f.start, f.responseName, f.name, f.arguments, f.directives,
      f.selections.map (d.expandAll body)⟩ := by
  obtain ⟨start, responseName, name, arguments, directives, _ | selections⟩ := f
  all_goals rw [Field.expand]; rfl

theorem expandAll_eq_map (L : List Selection) : d.expandAll body L = L.map (·.expand d body) := by
  induction L with
  | nil => rw [expandAll, List.map_nil]
  | cons s rest ih => rw [expandAll, List.map_cons, ih]

mutual

theorem Field.expand_congr : ∀ f : Field,
    (∀ name ∈ f.spreads, ∀ g, d.fragment? name = some g → body g = body' g) →
      f.expand d body = f.expand d body'
  | ⟨_, _, _, _, _, none⟩, _ => by rw [Field.expand, Field.expand]
  | ⟨_, _, _, _, _, some selections⟩, h => by
    rw [Field.expand, Field.expand, expandAll_congr selections (by simpa only [Field.spreads] using h)]

theorem Selection.expand_congr : ∀ s : Selection,
    (∀ name ∈ s.spreads, ∀ g, d.fragment? name = some g → body g = body' g) →
      s.expand d body = s.expand d body'
  | .field f, h => by
    rw [Selection.expand, Selection.expand,
      Field.expand_congr f (by simpa only [Selection.spreads] using h)]
  | .spread _ name _, h => by
    rw [Selection.expand, Selection.expand]
    split
    · rfl
    · rename_i g hg
      rw [h name (by simp [Selection.spreads]) g hg]
  | .inlineFragment _ _ _ selections, h => by
    rw [Selection.expand, Selection.expand,
      expandAll_congr selections (by simpa only [Selection.spreads] using h)]

/-- Only what is written for fragments that are spread counts. -/
theorem expandAll_congr : ∀ L : List Selection,
    (∀ name ∈ spreadsOf L, ∀ g, d.fragment? name = some g → body g = body' g) →
      d.expandAll body L = d.expandAll body' L
  | [], _ => by rw [expandAll, expandAll]
  | s :: rest, h => by
    rw [spreadsOf] at h
    rw [expandAll, expandAll,
      Selection.expand_congr s fun name hname => h name (List.mem_append_left _ hname),
      expandAll_congr rest fun name hname => h name (List.mem_append_right _ hname)]

end

mutual

theorem Field.lacks_expand : ∀ f : Field,
    (∀ name ∈ f.spreads, ∀ g, d.fragment? name = some g → ∀ next ∈ spreadsOf (body g),
      d.Lacks next) → ∀ name ∈ (f.expand d body).spreads, d.Lacks name
  | ⟨_, _, _, _, _, none⟩, _ => by simp [Field.expand, Field.spreads]
  | ⟨_, _, _, _, _, some selections⟩, h => by
    rw [Field.expand, Field.spreads]
    exact lacks_expandAll selections (by simpa only [Field.spreads] using h)

theorem Selection.lacks_expand : ∀ s : Selection,
    (∀ name ∈ s.spreads, ∀ g, d.fragment? name = some g → ∀ next ∈ spreadsOf (body g),
      d.Lacks next) → ∀ name ∈ (s.expand d body).spreads, d.Lacks name
  | .field f, h => by
    rw [Selection.expand, Selection.spreads]
    exact Field.lacks_expand f (by simpa only [Selection.spreads] using h)
  | .spread _ name _, h => by
    rw [Selection.expand]
    split
    · rename_i hlacks
      rw [Selection.spreads]
      exact List.forall_mem_singleton.mpr hlacks
    · rename_i g hg
      rw [Selection.spreads]
      exact h name (by simp [Selection.spreads]) g hg
  | .inlineFragment _ _ _ selections, h => by
    rw [Selection.expand, Selection.spreads]
    exact lacks_expandAll selections (by simpa only [Selection.spreads] using h)

/-- If what is written for fragments spreads no fragment of the document, neither does the whole. -/
theorem lacks_expandAll : ∀ L : List Selection,
    (∀ name ∈ spreadsOf L, ∀ g, d.fragment? name = some g → ∀ next ∈ spreadsOf (body g),
      d.Lacks next) → ∀ name ∈ spreadsOf (d.expandAll body L), d.Lacks name
  | [], _ => by simp [expandAll, spreadsOf]
  | s :: rest, h => by
    rw [spreadsOf] at h
    rw [expandAll, spreadsOf]
    intro name hname
    rcases List.mem_append.mp hname with hin | hin
    · exact Selection.lacks_expand s (fun n hn => h n (List.mem_append_left _ hn)) name hin
    · exact lacks_expandAll rest (fun n hn => h n (List.mem_append_right _ hn)) name hin

end

end Expanding

/-- More levels than are left change nothing. -/
theorem inlineWithin_succ (hd : d.Acyclic) {entered : List String} {depth : Nat}
    {L : List Selection} (h : d.Trail entered depth (spreadsOf L)) :
    d.inlineWithin depth L = d.inlineWithin (depth + 1) L := by
  induction depth generalizing entered L with
  | zero =>
    rw [inlineWithin, inlineWithin]
    refine expandAll_congr L fun name hname g hg => ?_
    obtain ⟨rest, hrest, -⟩ := h.enter hd hname hg
    cases hrest
  | succ depth ih =>
    rw [inlineWithin, inlineWithin]
    refine expandAll_congr L fun name hname g hg => ?_
    obtain ⟨rest, hrest, htrail⟩ := h.enter hd hname hg
    cases hrest
    exact ih htrail

/-- What is written for a fragment has its own spreads replaced in the same way. -/
theorem inline_eq (hd : d.Acyclic) (L : List Selection) :
    d.inline L = d.expandAll (fun f => d.inline f.selections) L :=
  inlineWithin_succ hd (.start d _)

theorem lacks_inlineWithin (hd : d.Acyclic) {entered : List String} {depth : Nat}
    {L : List Selection} (h : d.Trail entered depth (spreadsOf L)) :
    ∀ name ∈ spreadsOf (d.inlineWithin depth L), d.Lacks name := by
  induction depth generalizing entered L with
  | zero =>
    rw [inlineWithin]
    refine lacks_expandAll L fun name hname g hg => ?_
    obtain ⟨rest, hrest, -⟩ := h.enter hd hname hg
    cases hrest
  | succ depth ih =>
    rw [inlineWithin]
    refine lacks_expandAll L fun name hname g hg => ?_
    obtain ⟨rest, hrest, htrail⟩ := h.enter hd hname hg
    cases hrest
    exact ih htrail

theorem lacks_inline (hd : d.Acyclic) (L : List Selection) :
    ∀ name ∈ spreadsOf (d.inline L), d.Lacks name :=
  lacks_inlineWithin hd (.start d _)

theorem inline_append (hd : d.Acyclic) (L M : List Selection) :
    d.inline (L ++ M) = d.inline L ++ d.inline M := by
  rw [inline_eq hd (L ++ M), inline_eq hd L, inline_eq hd M, expandAll_eq_map, expandAll_eq_map,
    expandAll_eq_map, List.map_append]

end Document

end Trellis
