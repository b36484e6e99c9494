import Trellis.Proofs.Execution.Collecting
import Trellis.Proofs.Execution.Mirroring
import Trellis.Proofs.Literal.Resolution

/-!
Variables are substitution.

Values of variables reach an execution by the arguments of fields and by the conditions of
directives. Writing the values into the document instead, in every argument of its operations and
fragments, gives the same agenda: the same fields are collected from what corresponds, and they
are called with the same arguments.
-/

namespace Trellis

open Document

namespace Document

def substituteArguments (σ : String → Literal) (arguments : List (String × Literal)) :
    List (String × Literal) :=
  arguments.map fun a => (a.1, a.2.substitute σ)

def Directive.substitute (σ : String → Literal) (d : Directive) : Directive :=
  { d with arguments := substituteArguments σ d.arguments }

mutual

def Field.substitute (σ : String → Literal) : Field → Field
  | ⟨start, responseName, name, arguments, directives, none⟩ =>
    ⟨start, responseName, name, substituteArguments σ arguments,
      directives.map (·.substitute σ), none⟩
  | ⟨start, responseName, name, arguments, directives, some selections⟩ =>
    ⟨start, responseName, name, substituteArguments σ arguments,
      directives.map (·.substitute σ), some (substituteAll σ selections)⟩

def Selection.substitute (σ : String → Literal) : Selection → Selection
  | .field f => .field (f.substitute σ)
  | .spread start name directives => .spread start name (directives.map (·.substitute σ))
  | .inlineFragment start condition directives selections =>
    .inlineFragment start condition (directives.map (·.substitute σ)) (substituteAll σ selections)

def substituteAll (σ : String → Literal) : List Selection → List Selection
  | [] => []
  | s :: rest => s.substitute σ :: substituteAll σ rest

end

def Operation.substitute (σ : String → Literal) (o : Operation) : Operation :=
  { o with
    directives := o.directives.map (·.substitute σ), selections := substituteAll σ o.selections }

def Fragment.substitute (σ : String → Literal) (f : Fragment) : Fragment :=
  { f with
    directives := f.directives.map (·.substitute σ), selections := substituteAll σ f.selections }

end Document

/-- The document with every variable in an argument of a field or of a directive replaced by what is
given for its name. Definitions of variables stay. -/
def Document.substitute (σ : String → Literal) (d : Document) : Document :=
  d.rewrite (·.substitute σ) (·.substitute σ)

namespace Document

variable (σ : String → Literal)

theorem Field.substitute_eq (f : Field) :
    f.substitute σ = ⟨f.start, f.responseName, f.name, substituteArguments σ f.arguments,
      f.directives.map (·.substitute σ), f.selections.map (substituteAll σ)⟩ := by
  obtain ⟨start, responseName, name, arguments, directives, _ | selections⟩ := f
  all_goals rw [Field.substitute]; rfl

theorem Field.key_substitute (f : Field) : (f.substitute σ).key = f.key := by
  rw [Field.substitute_eq]
  rfl

theorem substituteAll_append (L M : List Selection) :
    substituteAll σ (L ++ M) = substituteAll σ L ++ substituteAll σ M := by
  induction L with
  | nil => rfl
  | cons s L ih => rw [List.cons_append, substituteAll, substituteAll, ih, List.cons_append]

theorem fragment?_substitute (d : Document) (name : String) :
    (d.substitute σ).fragment? name = (d.fragment? name).map (·.substitute σ) :=
  fragment?_rewrite _ (·.substitute σ) d (fun _ => rfl) name

theorem selectOperation_substitute (d : Document) (name : Option String) :
    selectOperation (d.substitute σ) name = (selectOperation d name).map (·.substitute σ) :=
  selectOperation_rewrite (·.substitute σ) _ d (fun _ => rfl) name

end Document

def FieldGroup.substitute (σ : String → Literal) (g : FieldGroup) : FieldGroup :=
  ⟨g.key, g.first.substitute σ, g.rest.map (·.substitute σ)⟩

def Collected.substitute (σ : String → Literal) (c : Collected) : Collected :=
  ⟨c.groups.map (·.substitute σ), c.visited, c.missing⟩

@[simp]
theorem Collected.visited_substitute (σ : String → Literal) (c : Collected) :
    (c.substitute σ).visited = c.visited := rfl

theorem FieldGroup.selections_substitute (σ : String → Literal) (g : FieldGroup) :
    (g.substitute σ).selections = substituteAll σ g.selections := by
  have hfields : ∀ fields : List Field,
      (fields.map (·.substitute σ)).flatMap (fun f => f.selections.getD []) =
        substituteAll σ (fields.flatMap fun f => f.selections.getD []) := by
    intro fields
    induction fields with
    | nil => rfl
    | cons f fields ih =>
      rw [List.map_cons, List.flatMap_cons, List.flatMap_cons, ih, substituteAll_append,
        Field.substitute_eq]
      cases f.selections <;> rfl
  exact hfields (g.first :: g.rest)

theorem Collected.addTo_substitute (σ : String → Literal) (f : Field) (groups : List FieldGroup) :
    addTo (f.substitute σ) (groups.map (·.substitute σ)) =
      (addTo f groups).map (·.substitute σ) := by
  induction groups with
  | nil => simp only [addTo, List.map_cons, List.map_nil, FieldGroup.substitute, f.key_substitute]
  | cons g groups ih =>
    simp only [addTo, List.map_cons, ih, f.key_substitute]
    by_cases hkey : g.key = f.key
    · simp [FieldGroup.substitute, hkey]
    · simp [FieldGroup.substitute, hkey]

/-- What variables come to: the value provided, else the first default that is declared, else
null. -/
def Document.Operation.valueOf (o : Operation) (values : Variables) (name : String) : Literal :=
  ((values.get? name).or (o.variableDefinitions.findSome? fun d =>
    if d.name = name then d.default else none)).getD .null

theorem Variables.get?_orElse (values : Variables) (name other : String) (value : Literal) :
    (values.orElse name value).get? other =
      (values.get? other).or (if name = other then some value else none) := by
  rw [orElse]
  split
  · rename_i given hgiven
    rcases eq_or_ne name other with rfl | hne
    · rw [hgiven, Option.some_or]
    · rw [if_neg hne, Option.or_none]
  · rename_i hnone
    rcases eq_or_ne name other with rfl | hne
    · rw [hnone, Option.none_or, if_pos rfl, Variables.get?, List.lookup_cons_self]
    · rw [if_neg hne, Option.or_none, Variables.get?, List.lookup_cons,
        beq_false_of_ne hne.symm]
      rfl

theorem coerceVariables_get? {graph : TypeGraph} {definitions : List VariableDefinition}
    {values values' : Variables} (h : coerceVariables graph definitions values = .ok values')
    (name : String) :
    values'.get? name = (values.get? name).or (definitions.findSome? fun d =>
      if d.name = name then d.default else none) := by
  induction definitions generalizing values with
  | nil =>
    cases h
    simp
  | cons d rest ih =>
    rw [coerceVariables] at h
    split at h
    · rw [ih h, List.findSome?_cons]
      cases d.default with
      | none => simp
      | some value =>
        rw [Variables.get?_orElse, Option.or_assoc]
        split <;> rfl
    · cases h

theorem coerceVariables_ok {graph : TypeGraph} {definitions : List VariableDefinition}
    {values values' : Variables} (h : coerceVariables graph definitions values = .ok values')
    (others : Variables) : ∃ others', coerceVariables graph definitions others = .ok others' := by
  induction definitions generalizing values others with
  | nil => exact ⟨others, rfl⟩
  | cons d rest ih =>
    rw [coerceVariables] at h ⊢
    split at h
    · rename_i hinput
      rw [if_pos hinput]
      exact ih h _
    · cases h

namespace Scope

def substitute (σ : String → Literal) (scope : Scope) (others : Variables) : Scope :=
  ⟨scope.graph, scope.document.substitute σ, others, scope.context⟩

variable {scope : Scope} {σ : String → Literal} {others : Variables}

@[simp]
theorem document_substitute :
    (scope.substitute σ others).document = scope.document.substitute σ := rfl

@[simp]
theorem applies_substitute : (scope.substitute σ others).applies = scope.applies := rfl

/-- What is put in the place of variables are their values, and it has no variables itself. -/
structure Gives (scope : Scope) (σ : String → Literal) : Prop where
  values : ∀ name, (scope.values.get? name).getD .null = σ name
  closed : ∀ name, (σ name).Closed

namespace Gives

theorem holds_substitute (h : scope.Gives σ) (d : Directive) :
    (scope.substitute σ others).holds (d.substitute σ) = scope.holds d := by
  have hargument : (d.substitute σ).argument? "if" = (d.argument? "if").map (·.substitute σ) :=
    Entries.lookup_map _ d.arguments _
  have hresolve : ∀ l : Literal, (l.substitute σ).resolve (scope.substitute σ others).values =
      l.resolve scope.values := Literal.resolve_substitute h.closed h.values _
  rw [holds, hargument, holds]
  simp only [Option.map_map, Function.comp_def, hresolve]

theorem isExcluded_substitute (h : scope.Gives σ) (directives : List Directive) :
    (scope.substitute σ others).isExcluded (directives.map (·.substitute σ)) =
      scope.isExcluded directives := by
  simp only [isExcluded, List.any_map, Function.comp_def, holds_substitute h]
  rfl

theorem argumentsOf_substitute (h : scope.Gives σ) (object : ObjectType) (property : Property)
    (arguments : List (String × Literal)) :
    (scope.substitute σ others).argumentsOf object property (substituteArguments σ arguments) =
      scope.argumentsOf object property arguments := by
  induction arguments with
  | nil => rfl
  | cons a rest ih =>
    simp only [substituteArguments, List.map_cons] at ih ⊢
    rw [argumentsOf, argumentsOf, ih, Literal.resolve_substitute h.closed h.values]

variable {object : ObjectType} {enter enter' : Fragment → Collected → Collected}

mutual

theorem collectSelection_substitute (h : scope.Gives σ)
    (henter : ∀ f c, enter' (f.substitute σ) (c.substitute σ) = (enter f c).substitute σ) :
    ∀ (s : Selection) (c : Collected),
      (scope.substitute σ others).collectSelection object enter' (s.substitute σ) (c.substitute σ) =
        (scope.collectSelection object enter s c).substitute σ
  | .field f, c => by
    have hdirectives : (f.substitute σ).directives = f.directives.map (·.substitute σ) := by
      rw [Field.substitute_eq]
    rw [Selection.substitute, collectSelection, collectSelection, hdirectives,
      isExcluded_substitute h]
    split
    · rfl
    · simp only [Collected.add, Collected.substitute, Collected.addTo_substitute]
  | .spread start name directives, c => by
    rw [Selection.substitute, collectSelection_spread, collectSelection_spread,
      isExcluded_substitute h, document_substitute, fragment?_substitute,
      Collected.visited_substitute]
    split
    · rfl
    · cases scope.document.fragment? name with
      | none => rfl
      | some fragment =>
        change (if scope.applies fragment.condition object then
          enter' (fragment.substitute σ) ((c.visit name).substitute σ)
          else (c.visit name).substitute σ) = _
        dsimp only
        split
        · exact henter fragment (c.visit name)
        · rfl
  | .inlineFragment _ condition _ selections, c => by
    rw [Selection.substitute, collectSelection, collectSelection,
      isExcluded_substitute h]
    rw [applies_substitute, collectSelections_substitute h henter selections c]
    split
    · rfl
    · split <;> rfl

theorem collectSelections_substitute (h : scope.Gives σ)
    (henter : ∀ f c, enter' (f.substitute σ) (c.substitute σ) = (enter f c).substitute σ) :
    ∀ (L : List Selection) (c : Collected),
      (scope.substitute σ others).collectSelections object enter' (substituteAll σ L)
        (c.substitute σ) = (scope.collectSelections object enter L c).substitute σ
  | [], c => by rw [substituteAll, collectSelections, collectSelections]
  | s :: rest, c => by
    rw [substituteAll, collectSelections, collectSelections,
      collectSelection_substitute h henter s c, collectSelections_substitute h henter rest]

end

theorem collectWithin_substitute (h : scope.Gives σ) (object : ObjectType) (depth : Nat)
    (L : List Selection)
    (c : Collected) :
    (scope.substitute σ others).collectWithin object depth (substituteAll σ L) (c.substitute σ) =
      (scope.collectWithin object depth L c).substitute σ := by
  induction depth generalizing L c with
  | zero =>
    rw [collectWithin, collectWithin]
    exact collectSelections_substitute h (fun _ _ => rfl) L c
  | succ depth ih =>
    rw [collectWithin, collectWithin]
    exact collectSelections_substitute h (fun f c => ih f.selections c) L c

/-- From the selections whose variables were replaced, what is collected is what was collected, with
its variables replaced. -/
theorem collect_substitute (h : scope.Gives σ) (object : ObjectType) (L : List Selection) :
    (scope.substitute σ others).collect object (substituteAll σ L) =
      (scope.collect object L).substitute σ := by
  have hlength : (scope.substitute σ others).document.fragments.length =
      scope.document.fragments.length := by
    rw [document_substitute, Document.substitute, fragments_rewrite, List.length_map]
  rw [collect, collect, hlength]
  exact collectWithin_substitute h object _ L .empty

theorem mirrors_substitute (h : scope.Gives σ) :
    scope.Mirrors (scope.substitute σ others) fun L L' => L' = substituteAll σ L where
  graph := .refl _
  context := rfl
  missing object L _ hL := by
    rw [hL, collect_substitute h]
    rfl
  groups object L _ hL := by
    rw [hL, collect_substitute h, Collected.substitute, List.forall₂_map_right_iff,
      List.forall₂_same]
    intro g _
    have hfirst := g.first.substitute_eq σ
    exact {
      key := rfl
      start := by rw [FieldGroup.substitute, hfirst]
      name := by rw [FieldGroup.substitute, hfirst]
      arguments := fun property => by
        rw [FieldGroup.substitute, hfirst]
        exact (argumentsOf_substitute h object property g.first.arguments).symm
      selections := g.selections_substitute σ }

end Gives

end Scope

/-- The request without variables that has their values in its document. -/
def Request.substitute (r : Request) (σ : String → Literal) : Request :=
  ⟨r.document.substitute σ, r.operation, [], r.context⟩

namespace Schema

variable {s : Schema}

/-- Executing a request with variables is executing, without variables, the document that has their
values in their place: it is opened as well, lays out the same agenda at every depth, and answers
the same on all workers. -/
theorem variables_substituted {r : Request} {o : Opening} (ho : s.opening r = .ok o)
    (hvalues : ∀ name value, r.values.get? name = some value → value.Closed)
    (hdefaults : ∀ d ∈ o.operation.variableDefinitions, ∀ value, d.default = some value →
      value.Closed) :
    ∃ o', s.opening (r.substitute (o.operation.valueOf r.values)) = .ok o' ∧
      (∀ depth, o.agenda depth = o'.agenda depth) ∧
      ∀ workers depth, s.executeOn? workers depth r =
        s.executeOn? workers depth (r.substitute (o.operation.valueOf r.values)) := by
  obtain ⟨hselect, hroot, values, hcoerce, hscope⟩ := opening_ok.mp ho
  obtain ⟨others, hothers⟩ := coerceVariables_ok hcoerce []
  let σ := o.operation.valueOf r.values
  have hσ : ∀ name, (values.get? name).getD .null = σ name := by
    intro name
    rw [coerceVariables_get? hcoerce]
    rfl
  have hclosed : ∀ name, (σ name).Closed := by
    intro name
    change Literal.Closed (Option.getD _ _)
    cases hvalue : (r.values.get? name).or (o.operation.variableDefinitions.findSome? fun d =>
      if d.name = name then d.default else none) with
    | none => simp [Literal.Closed, Literal.references]
    | some value =>
      rcases Option.or_eq_some_iff.mp hvalue with hgiven | ⟨-, hdefault⟩
      · exact hvalues name value hgiven
      · obtain ⟨d, hd, hsome⟩ := List.exists_of_findSome?_eq_some hdefault
        split at hsome
        · exact hdefaults d hd value hsome
        · cases hsome
  have hselect' : selectOperation (r.substitute σ).document r.operation =
      .ok (o.operation.substitute σ) := by
    rw [Request.substitute, selectOperation_substitute, hselect]
    rfl
  have ho' : s.opening (r.substitute σ) =
      .ok ⟨o.scope.substitute σ others, o.root, o.operation.substitute σ⟩ := by
    rw [hscope]
    exact opening_ok.mpr ⟨hselect', hroot, others, hothers, rfl⟩
  have hgives : o.scope.Gives σ := ⟨by rwa [hscope], hclosed⟩
  have hagenda : ∀ depth, o.agenda depth = Opening.agenda
      ⟨o.scope.substitute σ others, o.root, o.operation.substitute σ⟩ depth := fun depth =>
    hgives.mirrors_substitute.agenda depth o.root _ rfl
  have hmap : s.opening (r.substitute σ) = (s.opening r).map fun o =>
      ⟨o.scope.substitute σ others, o.root, o.operation.substitute σ⟩ := by
    rw [ho', ho]
    rfl
  refine ⟨_, ho', hagenda, executeOn_congr rfl hmap fun other hother => ?_⟩
  cases ho.symm.trans hother
  exact hagenda

end Schema

namespace Sample

def word : Parameter :=
  .argument (.nullable (.optional .text) (.scalar .text)) fun _ l =>
    .ok (match l.string? with
      | some s => .present (.text s)
      | none => .absent)

def echo : Property :=
  ⟨"echo", none, .current, .named "String" false, [⟨"word", .named "String" false⟩], .extension,
    ⟨⟨[word], ["word"]⟩, .nullable (.optional .text) (.scalar .text), .suspending none fun _ bounds =>
      .answer (.ok (match bounds with
        | [.value (.present v)] => .single .text v
        | _ => .null))⟩, []⟩

def hall : Schema where
  graph := ⟨[("String", .scalar .string), ("Query", .object ⟨"Query", none, none, [echo]⟩)],
    [], [], [(.text, "String")], "Query", none⟩
  configuration := .default

def call (column : Nat) (responseName : String) (word : Literal) (directives : List Directive) :
    Selection :=
  .field ⟨⟨0, column⟩, some responseName, "echo", [("word", word)], directives, none⟩

/-- The operation `query ($a: String = "moon") { x: echo(word: $a) y: echo(word: $b) ...Rest }` with
literals in the place of the variables. -/
def echoes (a b : Literal) : Operation :=
  ⟨.origin, .query, none, [⟨⟨0, 7⟩, "a", .named "String" false, some (.string "moon")⟩], [],
    [call 30 "x" a [], call 47 "y" b [], .spread ⟨0, 64⟩ "Rest" []]⟩

/-- The fragment `fragment Rest on Query { z: echo(word: $c) @skip(if: $d) }` in the same way. -/
def rest (c d : Literal) : Fragment :=
  ⟨⟨1, 0⟩, "Rest", "Query", [], [call 25 "z" c [⟨⟨1, 42⟩, "skip", [("if", d)]⟩]]⟩

/-- Values for two variables that are not declared; nothing is given for the other two. -/
def given : Variables := [("c", .null), ("d", .scalar (.boolean true))]

def calling : Request where
  document := [.operation (echoes (.reference "a") (.reference "b")),
    .fragment (rest (.reference "c") (.reference "d"))]
  operation := none
  values := given
  context := []

def callingOpening : Opening :=
  ⟨⟨hall.graph, calling.document, ("a", .string "moon") :: given, []⟩,
    ⟨"Query", none, none, [echo]⟩, echoes (.reference "a") (.reference "b")⟩

def written : Request where
  document := [.operation (echoes (.string "moon") .null),
    .fragment (rest .null (.scalar (.boolean true)))]
  operation := none
  values := []
  context := []

end Sample

namespace Schema

theorem variables_substituted_sample :
    Sample.hall.opening Sample.calling = .ok Sample.callingOpening ∧
    ∃ o, Sample.hall.opening Sample.written = .ok o ∧
      (∀ depth, Sample.callingOpening.agenda depth = o.agenda depth) ∧
      ∀ workers depth, Sample.hall.executeOn? workers depth Sample.calling =
        Sample.hall.executeOn? workers depth Sample.written := by
  have hopening : Sample.hall.opening Sample.calling = .ok Sample.callingOpening := rfl
  refine ⟨hopening, variables_substituted hopening ?_ ?_⟩
  · intro name value hvalue
    have hmem := Entries.mem_of_lookup hvalue
    simp only [Sample.calling, Sample.given, List.mem_cons, Prod.mk.injEq, List.not_mem_nil,
      or_false] at hmem
    rcases hmem with ⟨-, rfl⟩ | ⟨-, rfl⟩ <;> rfl
  · intro d hd value hvalue
    obtain rfl := List.mem_singleton.mp hd
    cases hvalue
    rfl

end Schema

end Trellis
