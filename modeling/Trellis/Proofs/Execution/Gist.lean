import Mathlib.Data.List.Induction
import Trellis.Proofs.Execution.Collecting
import Trellis.Proofs.Execution.Inlining

/-!
What of collected fields counts.

A field that is collected once more under its response key changes nothing: its selections are the
ones that are there, and of selections the same holds again. The gist of what was collected leaves
repetitions out, so it depends only on the order in which fields and missing fragments were first
met.
-/

namespace Trellis

open Document

section Firsts

variable {α β : Type*}

open scoped Classical in
noncomputable def insertLast (l : List α) (x : α) : List α := if x ∈ l then l else l ++ [x]

/-- The elements of a list in the order of their first occurrence. -/
noncomputable def firsts (l : List α) : List α := l.foldl insertLast []

theorem insertLast_of_mem {l : List α} {x : α} (h : x ∈ l) : insertLast l x = l := if_pos h

theorem mem_insertLast {l : List α} {x y : α} : y ∈ insertLast l x ↔ y ∈ l ∨ y = x := by
  rw [insertLast]
  split
  · rename_i hx
    exact ⟨.inl, fun h => h.elim id fun he => he ▸ hx⟩
  · rw [List.mem_append, List.mem_singleton]

theorem mem_foldl_insertLast {l m : List α} {y : α} :
    y ∈ m.foldl insertLast l ↔ y ∈ l ∨ y ∈ m := by
  induction m generalizing l with
  | nil => simp
  | cons x m ih => rw [List.foldl_cons, ih, mem_insertLast, List.mem_cons, or_assoc]

@[simp]
theorem mem_firsts {l : List α} {y : α} : y ∈ firsts l ↔ y ∈ l := by
  rw [firsts, mem_foldl_insertLast]
  simp

theorem firsts_append (l m : List α) : firsts (l ++ m) = m.foldl insertLast (firsts l) :=
  List.foldl_append

theorem foldl_insertLast_of_subset {l m : List α} (h : m ⊆ l) : m.foldl insertLast l = l := by
  induction m with
  | nil => rfl
  | cons x m ih =>
    obtain ⟨hx, hm⟩ := List.cons_subset.mp h
    rw [List.foldl_cons, insertLast_of_mem hx, ih hm]

theorem exists_firsts_cons (x : α) (l : List α) : ∃ rest, firsts (x :: l) = x :: rest := by
  have hfold : ∀ (m rest : List α), ∃ rest', m.foldl insertLast (x :: rest) = x :: rest' := by
    intro m
    induction m with
    | nil => exact fun rest => ⟨rest, rfl⟩
    | cons y m ih =>
      intro rest
      rw [List.foldl_cons, insertLast]
      split
      · exact ih rest
      · exact ih (rest ++ [y])
  exact hfold l []

/-- Steps that change nothing when an element comes again are determined by the first
occurrences. -/
theorem foldl_firsts {step : β → α → β} {start : β}
    (h : ∀ (l : List α) (x : α), x ∈ l → step (l.foldl step start) x = l.foldl step start)
    (l : List α) :
    (firsts l).foldl step start = l.foldl step start := by
  induction l using List.reverseRecOn with
  | nil => rfl
  | append_singleton l x ih =>
    rw [firsts_append, List.foldl_append, ← ih]
    change (insertLast (firsts l) x).foldl step start = step _ x
    rw [insertLast]
    split
    · rename_i hx
      exact (h (firsts l) x hx).symm
    · rw [List.foldl_append]
      rfl

/-- First occurrences in images of elements depend on first occurrences alone. -/
theorem firsts_flatMap_congr {l l' : List α} (h : firsts l = firsts l') (f : α → List β) :
    firsts (l.flatMap f) = firsts (l'.flatMap f) := by
  have hfold : ∀ m : List α, firsts (m.flatMap f) =
      m.foldl (fun acc x => (f x).foldl insertLast acc) [] := by
    intro m
    rw [firsts, List.foldl_flatMap]
  have hstep : ∀ (m : List α) (x : α), x ∈ m →
      (f x).foldl insertLast (m.foldl (fun acc x => (f x).foldl insertLast acc) []) =
        m.foldl (fun acc x => (f x).foldl insertLast acc) [] := by
    intro m x hx
    apply foldl_insertLast_of_subset
    intro y hy
    rw [← hfold, mem_firsts]
    exact List.mem_flatMap.mpr ⟨x, hx, hy⟩
  rw [hfold, hfold, ← foldl_firsts hstep l, ← foldl_firsts hstep l', h]

end Firsts

/-- What selections come to for an object, one after another: fields, and spreads of fragments that
are missing. -/
inductive Item where
  | field (f : Field)
  | missing (start : Position) (name : String)

namespace Scope

variable (scope : Scope) (object : ObjectType)

mutual

/-- What a selection comes to if it spreads no fragment of the document. -/
def itemsOf : Selection → List Item
  | .field f => if scope.isExcluded f.directives then [] else [.field f]
  | .spread start name directives => if scope.isExcluded directives then [] else [.missing start name]
  | .inlineFragment _ condition directives selections =>
    if scope.isExcluded directives then []
    else if condition.all (scope.applies · object) then items selections
    else []

def items : List Selection → List Item
  | [] => []
  | s :: rest => itemsOf s ++ items rest

end

theorem items_eq_flatMap (L : List Selection) :
    scope.items object L = L.flatMap (scope.itemsOf object) := by
  induction L with
  | nil => rw [items, List.flatMap_nil]
  | cons s rest ih => rw [items, List.flatMap_cons, ih]

variable {scope} {scope' : Scope}

mutual

theorem itemsOf_congr (hgraph : scope.graph.Indistinct scope'.graph)
    (hvalues : scope.values = scope'.values) :
    ∀ s : Selection, scope.itemsOf object s = scope'.itemsOf object s
  | .field f => by rw [itemsOf, itemsOf, isExcluded_congr hvalues]
  | .spread _ _ directives => by rw [itemsOf, itemsOf, isExcluded_congr hvalues]
  | .inlineFragment _ condition directives selections => by
    rw [itemsOf, itemsOf, isExcluded_congr hvalues, applies_congr hgraph,
      items_congr hgraph hvalues selections]

theorem items_congr (hgraph : scope.graph.Indistinct scope'.graph)
    (hvalues : scope.values = scope'.values) :
    ∀ L : List Selection, scope.items object L = scope'.items object L
  | [] => by rw [items, items]
  | s :: rest => by
    rw [items, items, itemsOf_congr hgraph hvalues s, items_congr hgraph hvalues rest]

end

end Scope

/-- Fields by response key and missing fragments, without repetitions. -/
@[ext]
structure Gist where
  groups : List (String × List Field)
  missing : List (Position × String)

namespace Gist

def empty : Gist := ⟨[], []⟩

noncomputable def addField (f : Field) : List (String × List Field) → List (String × List Field)
  | [] => [(f.key, [f])]
  | (key, fields) :: groups =>
    if key = f.key then (key, insertLast fields f) :: groups
    else (key, fields) :: addField f groups

noncomputable def add (γ : Gist) : Item → Gist
  | .field f => { γ with groups := addField f γ.groups }
  | .missing start name =>
    if name ∈ γ.missing.map (·.2) then γ
    else { γ with missing := γ.missing ++ [(start, name)] }

/-- What an item would add is there. -/
def Has (γ : Gist) : Item → Prop
  | .field f => ∃ fields, γ.groups.lookup f.key = some fields ∧ f ∈ fields
  | .missing _ name => name ∈ γ.missing.map (·.2)

theorem lookup_addField (f : Field) (groups : List (String × List Field)) (key : String) :
    (addField f groups).lookup key =
      if key = f.key then some (insertLast ((groups.lookup key).getD []) f)
      else groups.lookup key := by
  induction groups with
  | nil =>
    rw [addField, List.lookup_cons]
    rcases eq_or_ne key f.key with rfl | hne
    · simp [insertLast]
    · simp [hne, beq_false_of_ne hne]
  | cons group groups ih =>
    obtain ⟨other, fields⟩ := group
    rw [addField]
    rcases eq_or_ne other f.key with rfl | hother
    · rcases eq_or_ne key f.key with rfl | hne
      · simp
      · simp [hne, beq_false_of_ne hne, List.lookup_cons]
    · rw [if_neg hother, List.lookup_cons, List.lookup_cons, ih]
      rcases eq_or_ne key other with rfl | hne
      · simp [hother]
      · simp [beq_false_of_ne hne]

theorem has_add (γ : Gist) (x : Item) : (γ.add x).Has x := by
  cases x with
  | field f =>
    refine ⟨_, (lookup_addField f γ.groups f.key).trans (if_pos rfl), ?_⟩
    exact mem_insertLast.mpr (.inr rfl)
  | missing start name =>
    rw [add]
    split
    · assumption
    · simp [Has]

theorem Has.add {γ : Gist} {x : Item} (h : γ.Has x) (y : Item) : (γ.add y).Has x := by
  cases y with
  | missing start name =>
    rw [Gist.add]
    split
    · exact h
    · cases x with
      | field f => exact h
      | missing =>
        rw [Has, List.map_append]
        exact List.mem_append_left _ h
  | field g =>
    cases x with
    | missing => exact h
    | field f =>
      obtain ⟨fields, hlookup, hf⟩ := h
      rcases eq_or_ne f.key g.key with hkey | hne
      · refine ⟨_, (lookup_addField g γ.groups f.key).trans (if_pos hkey), ?_⟩
        rw [hlookup]
        exact mem_insertLast.mpr (.inl hf)
      · exact ⟨fields, (lookup_addField g γ.groups f.key).trans ((if_neg hne).trans hlookup), hf⟩

/-- What is there is not added again. -/
theorem Has.add_eq {γ : Gist} {x : Item} (h : γ.Has x) : γ.add x = γ := by
  cases x with
  | missing start name => exact if_pos h
  | field f =>
    obtain ⟨fields, hlookup, hf⟩ := h
    have hgroups : ∀ groups : List (String × List Field), groups.lookup f.key = some fields →
        addField f groups = groups := by
      intro groups
      induction groups with
      | nil => simp
      | cons group groups ih =>
        obtain ⟨key, others⟩ := group
        intro hlookup
        rw [List.lookup_cons] at hlookup
        rw [addField]
        rcases eq_or_ne key f.key with rfl | hne
        · rw [beq_self_eq_true] at hlookup
          cases hlookup
          rw [if_pos rfl, insertLast_of_mem hf]
        · rw [beq_false_of_ne hne.symm] at hlookup
          rw [if_neg hne, ih hlookup]
    rw [Gist.add, hgroups _ hlookup]

theorem Has.foldl {γ : Gist} {x : Item} (h : γ.Has x) (T : List Item) :
    (T.foldl Gist.add γ).Has x := by
  induction T generalizing γ with
  | nil => exact h
  | cons y T ih => exact ih (h.add y)

theorem has_of_mem {T : List Item} {x : Item} (h : x ∈ T) (γ : Gist) :
    (T.foldl Gist.add γ).Has x := by
  induction T generalizing γ with
  | nil => cases h
  | cons y T ih =>
    rcases List.mem_cons.mp h with rfl | h
    · exact (has_add γ x).foldl T
    · exact ih h (γ.add y)

theorem foldl_eq_of_has {γ : Gist} {T : List Item} (h : ∀ x ∈ T, γ.Has x) :
    T.foldl Gist.add γ = γ := by
  induction T with
  | nil => rfl
  | cons x T ih =>
    obtain ⟨hx, hT⟩ := List.forall_mem_cons.mp h
    rw [List.foldl_cons, hx.add_eq, ih hT]

theorem foldl_congr {T T' : List Item} (h : firsts T = firsts T') (γ : Gist) :
    T.foldl Gist.add γ = T'.foldl Gist.add γ := by
  have hstep : ∀ (l : List Item) (x : Item), x ∈ l →
      (l.foldl Gist.add γ).add x = l.foldl Gist.add γ := fun l x hx => (has_of_mem hx γ).add_eq
  rw [← foldl_firsts hstep T, ← foldl_firsts hstep T', h]

end Gist

/-- The fields of a group without repetitions, with their key. -/
noncomputable def FieldGroup.gist (g : FieldGroup) : String × List Field :=
  (g.key, firsts (g.first :: g.rest))

namespace Collected

noncomputable def gist (c : Collected) : Gist := ⟨c.groups.map FieldGroup.gist, c.missing⟩

@[simp]
theorem gist_visit (c : Collected) (name : String) : (c.visit name).gist = c.gist := rfl

theorem gist_add (c : Collected) (f : Field) : (c.add f).gist = c.gist.add (.field f) := by
  have hgroups : ∀ groups : List FieldGroup,
      (addTo f groups).map FieldGroup.gist = Gist.addField f (groups.map FieldGroup.gist) := by
    intro groups
    induction groups with
    | nil => rfl
    | cons g groups ih =>
      rw [addTo, List.map_cons, FieldGroup.gist, Gist.addField]
      split
      · rw [List.map_cons, FieldGroup.gist, ← List.cons_append, firsts_append]
        rfl
      · rw [List.map_cons, ih, FieldGroup.gist]
  rw [gist, add, hgroups, Gist.add, gist]

theorem gist_miss {c : Collected} {name : String} (h : name ∉ c.missing.map (·.2))
    (start : Position) : (c.miss start name).gist = c.gist.add (.missing start name) :=
  (if_neg h).symm

end Collected

namespace Scope

variable (scope : Scope) (object : ObjectType)

end Scope

/-- Only missing fragments were met. -/
def Collected.Plain (c : Collected) : Prop :=
  ∀ name, name ∈ c.visited ↔ name ∈ c.missing.map (·.2)

theorem Collected.Plain.miss {c : Collected} (h : c.Plain) (start : Position) (name : String) :
    (c.miss start name).Plain := by
  intro other
  simp only [Collected.miss, List.mem_cons, List.map_append, List.mem_append, List.map_cons,
    List.map_nil, List.not_mem_nil, or_false, h other]
  exact or_comm

namespace Scope

variable (scope : Scope) (object : ObjectType) (enter : Fragment → Collected → Collected)

mutual

theorem gist_collectSelection : ∀ (s : Selection) (c : Collected),
    (∀ name ∈ s.spreads, scope.document.Lacks name) → c.Plain →
      (scope.collectSelection object enter s c).gist =
        (scope.itemsOf object s).foldl Gist.add c.gist ∧
      (scope.collectSelection object enter s c).Plain
  | .field f, c, _, hc => by
    rw [collectSelection, itemsOf]
    split
    · exact ⟨rfl, hc⟩
    · exact ⟨c.gist_add f, hc⟩
  | .spread start name directives, c, hlacks, hc => by
    have hnone : scope.document.fragment? name = none :=
      hlacks name (by rw [Selection.spreads]; exact List.mem_cons_self)
    rw [collectSelection_spread, itemsOf, hnone]
    by_cases hexcluded : scope.isExcluded directives
    · simp [hexcluded, hc]
    · by_cases hmet : name ∈ c.visited
      · have hhas : c.gist.Has (.missing start name) := (hc name).mp hmet
        simp [hexcluded, hmet, hc, hhas.add_eq]
      · have hnew : name ∉ c.missing.map (·.2) := fun h => hmet ((hc name).mpr h)
        simpa [hexcluded, hmet, hc.miss] using c.gist_miss hnew start
  | .inlineFragment _ condition directives selections, c, hlacks, hc => by
    rw [Selection.spreads] at hlacks
    rw [collectSelection, itemsOf]
    split
    · exact ⟨rfl, hc⟩
    · split
      · exact gist_collectSelections selections c hlacks hc
      · exact ⟨rfl, hc⟩

theorem gist_collectSelections : ∀ (L : List Selection) (c : Collected),
    (∀ name ∈ spreadsOf L, scope.document.Lacks name) → c.Plain →
      (scope.collectSelections object enter L c).gist =
        (scope.items object L).foldl Gist.add c.gist ∧
      (scope.collectSelections object enter L c).Plain
  | [], c, _, hc => by
    rw [collectSelections, items]
    exact ⟨rfl, hc⟩
  | s :: rest, c, hlacks, hc => by
    rw [spreadsOf] at hlacks
    obtain ⟨hgist, hplain⟩ :=
      gist_collectSelection s c (fun name h => hlacks name (List.mem_append_left _ h)) hc
    rw [collectSelections, items, List.foldl_append, ← hgist]
    exact gist_collectSelections rest _ (fun name h => hlacks name (List.mem_append_right _ h)) hplain

end

variable {scope}

/-- From selections that spread no fragment of the document, what they come to is collected. -/
theorem gist_collect {L : List Selection} (h : ∀ name ∈ spreadsOf L, scope.document.Lacks name) :
    (scope.collect object L).gist = (scope.items object L).foldl Gist.add .empty := by
  have hplain : Collected.empty.Plain := fun name => Iff.rfl
  rw [collect]
  cases scope.document.fragments.length with
  | zero => exact (scope.gist_collectSelections object _ L .empty h hplain).1
  | succ depth => exact (scope.gist_collectSelections object _ L .empty h hplain).1

end Scope

end Trellis
