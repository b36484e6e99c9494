import Trellis.Proofs.Execution.Substitution

/-!
Directives are pruning.

Whether directives exclude a selection depends on the variables only, not on where the selection is
met or what was collected before it. Deleting from the document what is excluded, and the directives
of what is kept, therefore leaves the same agenda. A fragment that no spread is left of is not
entered, as it would not have been by a spread that is excluded.
-/

namespace Trellis

open Document

namespace Document

section Excluding

variable (σ : String → Literal)

/-- Whether the `if` of a directive is true, with `σ` in the place of variables. Anything else counts
as false, and so does a directive without it. -/
def Directive.isOn (d : Directive) : Bool :=
  match d.argument? "if" with
  | none => false
  | some l =>
    match l.substitute σ with
    | .scalar (.boolean b) => b
    | _ => false

/-- Whether some directive is a `@skip` that is on or an `@include` that is not. -/
def excludes (directives : List Directive) : Bool :=
  directives.any fun d =>
    d.name == "skip" && d.isOn σ || d.name == "include" && !d.isOn σ

end Excluding

variable (excluded : List Directive → Bool)

mutual

def Field.prune : Field → Field
  | ⟨start, responseName, name, arguments, _, none⟩ =>
    ⟨start, responseName, name, arguments, [], none⟩
  | ⟨start, responseName, name, arguments, _, some selections⟩ =>
    ⟨start, responseName, name, arguments, [], some (pruneAll selections)⟩

/-- What is left of a selection: nothing if its directives exclude it. -/
def Selection.prune : Selection → List Selection
  | .field f => if excluded f.directives then [] else [.field f.prune]
  | .spread start name directives => if excluded directives then [] else [.spread start name []]
  | .inlineFragment start condition directives selections =>
    if excluded directives then [] else [.inlineFragment start condition [] (pruneAll selections)]

def pruneAll : List Selection → List Selection
  | [] => []
  | s :: rest => s.prune ++ pruneAll rest

end

def Operation.prune (o : Operation) : Operation :=
  { o with directives := [], selections := pruneAll excluded o.selections }

def Fragment.prune (f : Fragment) : Fragment :=
  { f with directives := [], selections := pruneAll excluded f.selections }

end Document

/-- The document with all fragments pruned, and the operations that are chosen. -/
def Document.prune (excluded : List Directive → Bool) (chosen : Operation → Bool) (d : Document) :
    Document :=
  d.rewrite (fun o => if chosen o then o.prune excluded else o) (·.prune excluded)

namespace Document

variable (excluded : List Directive → Bool)

theorem Field.prune_eq (f : Field) : f.prune excluded =
    ⟨f.start, f.responseName, f.name, f.arguments, [], f.selections.map (pruneAll excluded)⟩ := by
  obtain ⟨start, responseName, name, arguments, directives, _ | selections⟩ := f
  all_goals rw [Field.prune]; rfl

theorem Field.key_prune (f : Field) : (f.prune excluded).key = f.key := by
  rw [Field.prune_eq]
  rfl

theorem pruneAll_append (L M : List Selection) :
    pruneAll excluded (L ++ M) = pruneAll excluded L ++ pruneAll excluded M := by
  induction L with
  | nil => rfl
  | cons s L ih => rw [List.cons_append, pruneAll, pruneAll, ih, List.append_assoc]

end Document

def FieldGroup.prune (excluded : List Directive → Bool) (g : FieldGroup) : FieldGroup :=
  ⟨g.key, g.first.prune excluded, g.rest.map (·.prune excluded)⟩

def Collected.prune (excluded : List Directive → Bool) (c : Collected) : Collected :=
  { c with groups := c.groups.map (·.prune excluded) }

section

variable (excluded : List Directive → Bool)

theorem FieldGroup.selections_prune (g : FieldGroup) :
    (g.prune excluded).selections = pruneAll excluded g.selections := by
  have hfields : ∀ fields : List Field,
      (fields.map (·.prune excluded)).flatMap (fun f => f.selections.getD []) =
        pruneAll excluded (fields.flatMap fun f => f.selections.getD []) := by
    intro fields
    induction fields with
    | nil => rfl
    | cons f fields ih =>
      rw [List.map_cons, List.flatMap_cons, List.flatMap_cons, ih, pruneAll_append, Field.prune_eq]
      cases f.selections <;> rfl
  exact hfields (g.first :: g.rest)

theorem Collected.addTo_prune (f : Field) (groups : List FieldGroup) :
    addTo (f.prune excluded) (groups.map (·.prune excluded)) =
      (addTo f groups).map (·.prune excluded) := by
  induction groups with
  | nil => simp only [addTo, List.map_cons, List.map_nil, FieldGroup.prune, f.key_prune]
  | cons g groups ih =>
    simp only [addTo, List.map_cons, ih, f.key_prune]
    by_cases hkey : g.key = f.key
    · simp [FieldGroup.prune, hkey]
    · simp [FieldGroup.prune, hkey]

end

namespace Scope

variable (scope : Scope)

/-- What a directive's condition comes to, and so what is excluded, is known from the values of the
variables. -/
theorem isExcluded_eq_excludes {σ : String → Literal}
    (h : ∀ name, (scope.values.get? name).getD .null = σ name) :
    scope.isExcluded = excludes σ := by
  have hholds (d : Directive) : scope.holds d = d.isOn σ := by
    rw [holds, Directive.isOn]
    cases d.argument? "if" with
    | none => rfl
    | some l =>
      dsimp only [Option.map_some, Option.bind_some]
      rw [Literal.resolve_eq_substitute h]
      cases l.substitute σ with
      | scalar s => cases s <;> rfl
      | _ => rfl
  funext directives
  rw [isExcluded, excludes]
  congr 1
  funext d
  rw [hholds]
  split
  · simp_all
  · simp_all
  · simp_all

@[simp]
theorem isExcluded_nil : scope.isExcluded [] = false := rfl

def prune (chosen : Operation → Bool) : Scope :=
  scope.withDocument (scope.document.prune scope.isExcluded chosen)

variable {scope} {chosen : Operation → Bool}

theorem fragment?_prune (name : String) : (scope.prune chosen).document.fragment? name =
    (scope.document.fragment? name).map (·.prune scope.isExcluded) :=
  fragment?_rewrite _ (·.prune scope.isExcluded) scope.document (fun _ => rfl) name

variable (object : ObjectType) {enter enter' : Fragment → Collected → Collected}

theorem collectSelections_append (L M : List Selection) (c : Collected) :
    scope.collectSelections object enter (L ++ M) c =
      scope.collectSelections object enter M (scope.collectSelections object enter L c) := by
  induction L generalizing c with
  | nil => rw [List.nil_append, collectSelections]
  | cons s L ih => rw [List.cons_append, collectSelections, collectSelections, ih]

mutual

/-- What is left of a selection is collected as the selection is. -/
theorem collectSelection_prune
    (henter : ∀ f c, enter' (f.prune scope.isExcluded) (c.prune scope.isExcluded) =
      (enter f c).prune scope.isExcluded) :
    ∀ (s : Selection) (c : Collected),
      (scope.prune chosen).collectSelections object enter' (s.prune scope.isExcluded)
        (c.prune scope.isExcluded) =
        (scope.collectSelection object enter s c).prune scope.isExcluded
  | .field f, c => by
    have hdirectives : (f.prune scope.isExcluded).directives = [] := by rw [Field.prune_eq]
    rw [Selection.prune, collectSelection]
    by_cases hout : scope.isExcluded f.directives = true
    · rw [if_pos hout, if_pos hout, collectSelections]
    · rw [if_neg hout, if_neg hout, collectSelections, collectSelections, collectSelection,
        hdirectives, isExcluded_nil]
      simp only [Bool.false_eq_true, if_false, Collected.add, Collected.prune,
        Collected.addTo_prune]
  | .spread start name directives, c => by
    rw [Selection.prune, collectSelection_spread]
    by_cases hout : scope.isExcluded directives = true
    · rw [if_pos hout, hout, Bool.true_or, if_pos rfl, collectSelections]
    · rw [if_neg hout, collectSelections, collectSelections, collectSelection_spread,
        Bool.eq_false_iff.mpr hout, isExcluded_nil, fragment?_prune]
      change (if (false || c.visited.contains name) = true then _ else _) = _
      split
      · rfl
      · cases scope.document.fragment? name with
        | none => rfl
        | some f =>
          change (if scope.applies f.condition object then
            enter' (f.prune scope.isExcluded) ((c.visit name).prune scope.isExcluded)
            else (c.visit name).prune scope.isExcluded) = _
          dsimp only
          split
          · exact henter f (c.visit name)
          · rfl
  | .inlineFragment _ condition directives selections, c => by
    rw [Selection.prune, collectSelection]
    by_cases hout : scope.isExcluded directives = true
    · rw [if_pos hout, if_pos hout, collectSelections]
    · rw [if_neg hout, if_neg hout, collectSelections, collectSelections, collectSelection,
        isExcluded_nil, collectSelections_prune henter selections c]
      change (if condition.all (scope.applies · object) = true then _ else _) = _
      split
      · rfl
      · rfl

theorem collectSelections_prune
    (henter : ∀ f c, enter' (f.prune scope.isExcluded) (c.prune scope.isExcluded) =
      (enter f c).prune scope.isExcluded) :
    ∀ (L : List Selection) (c : Collected),
      (scope.prune chosen).collectSelections object enter' (pruneAll scope.isExcluded L)
        (c.prune scope.isExcluded) =
        (scope.collectSelections object enter L c).prune scope.isExcluded
  | [], c => by rw [pruneAll, collectSelections, collectSelections]
  | s :: rest, c => by
    rw [pruneAll, collectSelections_append, collectSelections,
      collectSelection_prune henter s c, collectSelections_prune henter rest]

end

theorem collectWithin_prune (depth : Nat) (L : List Selection) (c : Collected) :
    (scope.prune chosen).collectWithin object depth (pruneAll scope.isExcluded L)
        (c.prune scope.isExcluded) =
      (scope.collectWithin object depth L c).prune scope.isExcluded := by
  induction depth generalizing L c with
  | zero =>
    rw [collectWithin, collectWithin]
    exact collectSelections_prune object (fun _ _ => rfl) L c
  | succ depth ih =>
    rw [collectWithin, collectWithin]
    exact collectSelections_prune object (fun f c => ih f.selections c) L c

theorem collect_prune (L : List Selection) :
    (scope.prune chosen).collect object (pruneAll scope.isExcluded L) =
      (scope.collect object L).prune scope.isExcluded := by
  have hlength : (scope.prune chosen).document.fragments.length =
      scope.document.fragments.length :=
    (congrArg List.length (fragments_rewrite _ _ scope.document)).trans (List.length_map _)
  rw [collect, collect, hlength]
  exact collectWithin_prune object _ L .empty

theorem mirrors_prune : scope.Mirrors (scope.prune chosen) fun L L' =>
    L' = pruneAll scope.isExcluded L where
  graph := .refl _
  context := rfl
  missing object L _ hL := by
    rw [hL, collect_prune]
    rfl
  groups object L _ hL := by
    rw [hL, collect_prune, Collected.prune, List.forall₂_map_right_iff, List.forall₂_same]
    intro g _
    have hfirst := g.first.prune_eq scope.isExcluded
    have hvalues : scope.values = (scope.prune chosen).values := rfl
    exact {
      key := rfl
      start := by rw [FieldGroup.prune, hfirst]
      name := by rw [FieldGroup.prune, hfirst]
      arguments := fun property => by
        rw [FieldGroup.prune, hfirst]
        exact argumentsOf_congr hvalues object property g.first.arguments
      selections := g.selections_prune scope.isExcluded }

end Scope

/-- The request for a document pruned by the directives under the variables of an operation. -/
def Request.prune (r : Request) (o : Operation) (chosen : Operation → Bool) : Request :=
  { r with document := r.document.prune (excludes (o.valueOf r.values)) chosen }

namespace Schema

variable {s : Schema}

/-- A request is executed as the one for its pruned document is: both are refused with one error, or
they are opened as one agenda, and they are answered the same on all workers. Whether other
operations of the document are pruned as well does not count. -/
theorem directives_pruned {r : Request} {o : Operation}
    (ho : selectOperation r.document r.operation = .ok o) {chosen : Operation → Bool}
    (hchosen : chosen o = true) :
    (∀ workers depth,
      s.executeOn? workers depth r = s.executeOn? workers depth (r.prune o chosen)) ∧
    ∀ opening, s.opening r = .ok opening →
      ∃ opening', s.opening (r.prune o chosen) = .ok opening' ∧
        opening'.operation = o.prune (excludes (o.valueOf r.values)) ∧
        ∀ depth, opening.agenda depth = opening'.agenda depth := by
  let excluded := excludes (o.valueOf r.values)
  let onOperation (o : Operation) : Operation := if chosen o then o.prune excluded else o
  let pruned (opening : Opening) : Opening :=
    ⟨opening.scope.withDocument (r.document.prune excluded chosen), opening.root,
      onOperation opening.operation⟩
  have hopening : s.opening (r.prune o chosen) = (s.opening r).map pruned := by
    refine opening_rewrite onOperation (·.prune excluded) ?_ ?_ ?_ r
    all_goals
      intro o
      by_cases h : chosen o = true <;> simp [onOperation, h, Operation.prune]
  have hpruned (opening : Opening) (h : s.opening r = .ok opening) :
      pruned opening =
        ⟨opening.scope.prune chosen, opening.root, opening.operation.prune excluded⟩ ∧
      opening.scope.isExcluded = excluded ∧ opening.operation = o := by
    obtain ⟨hselect, -, values, hvalues, hscope⟩ := opening_ok.mp h
    obtain rfl : o = opening.operation := Except.ok.inj (ho.symm.trans hselect)
    have hexcluded : opening.scope.isExcluded = excluded :=
      opening.scope.isExcluded_eq_excludes fun name => by
        rw [hscope, coerceVariables_get? hvalues]
        rfl
    have hselected : onOperation opening.operation = opening.operation.prune excluded :=
      if_pos hchosen
    refine ⟨?_, hexcluded, rfl⟩
    dsimp only [pruned]
    rw [hselected, Scope.prune, hexcluded, hscope]
  have hagenda (opening : Opening) (h : s.opening r = .ok opening) (depth : Nat) :
      opening.agenda depth = (pruned opening).agenda depth := by
    obtain ⟨heq, hexcluded, -⟩ := hpruned opening h
    rw [heq, ← hexcluded]
    exact Scope.mirrors_prune.agenda depth opening.root _ rfl
  refine ⟨executeOn_congr rfl hopening hagenda, fun opening h => ⟨pruned opening, ?_, ?_, ?_⟩⟩
  · rw [hopening, h]
    rfl
  · obtain ⟨heq, -, rfl⟩ := hpruned opening h
    rw [heq]
  · exact hagenda opening h

end Schema

namespace Sample

/-- The operation
`query ($a: Boolean) { ...Rest @include(if: $a) x: echo(word: "sun") @skip ...Rest }` or what is left
of it. -/
def directing (left : List Selection) (directives : List Directive) : Operation :=
  ⟨.origin, .query, none, [⟨⟨0, 7⟩, "a", .named "Boolean" false, none⟩], [],
    left ++ [call 50 "x" (.string "sun") directives, .spread ⟨0, 72⟩ "Rest" []]⟩

/-- The fragment
`fragment Rest on Query { y: echo(word: "moon") @skip(if: $b) z: echo(word: $b) @include(if: $b) }`
or what is left of it. -/
def directed (left : List Selection) (directives : List Directive) : Fragment :=
  ⟨⟨1, 0⟩, "Rest", "Query", [], left ++ [call 60 "z" (.reference "b") directives]⟩

def booleanHall : Schema where
  graph := { hall.graph with types := ("Boolean", .scalar .boolean) :: hall.graph.types }
  configuration := .default

/-- No value is given for `$a`, and `$b` is true. -/
def directions : Request where
  document := [
    .operation (directing [.spread ⟨0, 23⟩ "Rest" [⟨⟨0, 31⟩, "include", [("if", .reference "a")]⟩]]
      [⟨⟨0, 66⟩, "skip", []⟩]),
    .fragment (directed [call 25 "y" (.string "moon") [⟨⟨1, 47⟩, "skip", [("if", .reference "b")]⟩]]
      [⟨⟨1, 79⟩, "include", [("if", .reference "b")]⟩])]
  operation := none
  values := [("b", .scalar (.boolean true))]
  context := []

def remaining : Request :=
  { directions with document := [.operation (directing [] []), .fragment (directed [] [])] }

end Sample

namespace Schema

theorem directives_pruned_sample : ∃ o : Operation,
    selectOperation Sample.directions.document none = .ok o ∧
    Sample.directions.prune o (fun _ => true) = Sample.remaining ∧
    ∃ opening, Sample.booleanHall.opening Sample.directions = .ok opening ∧
    (∀ workers depth, Sample.booleanHall.executeOn? workers depth Sample.directions =
      Sample.booleanHall.executeOn? workers depth Sample.remaining) ∧
    ∃ opening', Sample.booleanHall.opening Sample.remaining = .ok opening' ∧
      ∀ depth, opening.agenda depth = opening'.agenda depth := by
  refine ⟨_, rfl, rfl, _, rfl, ?_⟩
  obtain ⟨hexecute, hopening⟩ :=
    @directives_pruned Sample.booleanHall Sample.directions _ rfl (fun _ => true) rfl
  obtain ⟨opening', hopening', -, hagenda⟩ := hopening _ rfl
  exact ⟨hexecute, opening', hopening', hagenda⟩

end Schema

end Trellis
