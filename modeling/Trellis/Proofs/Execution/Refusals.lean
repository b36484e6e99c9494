import Trellis.Proofs.Execution.Ending
import Trellis.Proofs.Schema.PropertyTables

/-!
Requests that are refused.

A request is refused for what can be told before anything is called: which operation it picks,
whether the schema has a root for it, and whether its variables have input types. What is wrong
first is reported. The properties of objects do not count for that, and neither do fragments or
operations that were not picked.
-/

namespace Trellis

open Document

/-- A request picks an operation: the only one of its document, or the last one with the name that
it asks for. -/
inductive Request.Picks (r : Request) : Operation → Prop
  | only {o : Operation} : r.operation = none → r.document.operations = [o] → Picks r o
  | last {name : String} {before after : List Operation} {o : Operation} :
    r.operation = some name → r.document.operations = before ++ o :: after → o.name = some name →
    (∀ later ∈ after, later.name ≠ some name) → Picks r o

/-- A name stands for a type that variables may have: a scalar, an enum or an input object. -/
inductive TypeGraph.TakesInput (g : TypeGraph) (name : String) : Prop
  | scalar {t : ScalarType} : g.type? name = some (.scalar t) → TakesInput g name
  | enumeration {t : EnumType} : g.type? name = some (.enumeration t) → TakesInput g name
  | inputObject {t : InputObjectType} : g.type? name = some (.inputObject t) → TakesInput g name

/-- There are no operations of a kind: never any subscriptions, and no mutations unless some are
declared. -/
def Declarations.Lacks (d : Declarations) (kind : OperationKind) : Prop :=
  kind = .subscription ∨ kind = .mutation ∧ d.mutations = []

/-- Why a request is refused by the schema of some declarations. What comes later counts only if
nothing before it is wrong. -/
inductive Request.Refused (r : Request) (d : Declarations) (g : TypeGraph) : RequestError → Prop
  | noOperation : r.operation = none → r.document.operations = [] → Refused r d g .noOperation
  | multipleOperations : r.operation = none → 2 ≤ r.document.operations.length →
    Refused r d g .multipleOperations
  | unknownOperation {name : String} : r.operation = some name →
    (∀ o ∈ r.document.operations, o.name ≠ some name) → Refused r d g .unknownOperation
  | unsupported {o : Operation} : r.Picks o → d.Lacks o.kind → Refused r d g (.unsupported o.kind)
  | unknownVariableType {o : Operation} {before after : List VariableDefinition}
    {v : VariableDefinition} : r.Picks o → ¬ d.Lacks o.kind →
    o.variableDefinitions = before ++ v :: after →
    (∀ earlier ∈ before, g.TakesInput earlier.type.innermost) →
    ¬ g.TakesInput v.type.innermost →
    Refused r d g (.unknownVariableType v.name v.type.innermost)

def TypeNode.withProperties (properties : ObjectType → List Property) : TypeNode → TypeNode
  | .object o => .object { o with properties := properties o }
  | node => node

/-- The schema with other properties, and so with other resolvers and transformations, in all of its
objects. -/
def Schema.withProperties (properties : ObjectType → List Property) (s : Schema) : Schema :=
  { s with graph := { s.graph with
    types := s.graph.types.map fun (name, node) => (name, node.withProperties properties) } }

/-! ### What a request picks -/

/-- The last element of some kind. -/
theorem find?_reverse_eq_some_iff {α : Type} {p : α → Bool} {l : List α} {a : α} :
    l.reverse.find? p = some a ↔
      ∃ before after, l = before ++ a :: after ∧ p a = true ∧ ∀ b ∈ after, p b = false := by
  rw [List.find?_eq_some_iff_append]
  constructor
  · rintro ⟨ha, first, rest, hl, hfirst⟩
    refine ⟨rest.reverse, first.reverse, ?_, ha, fun b hb => ?_⟩
    · rw [← List.reverse_reverse l, hl]
      simp
    · simpa using hfirst b (List.mem_reverse.mp hb)
  · rintro ⟨before, after, rfl, ha, hafter⟩
    refine ⟨ha, after.reverse, before.reverse, by simp, fun b hb => ?_⟩
    simp [hafter b (List.mem_reverse.mp hb)]

variable {d : Declarations} {g : TypeGraph} {r : Request} {o : Operation} {e : RequestError}

theorem Request.picks_of_none (hname : r.operation = none) :
    r.Picks o ↔ r.document.operations = [o] := by
  constructor
  · rintro (⟨-, h⟩ | ⟨hother, -⟩)
    · exact h
    · rw [hname] at hother
      cases hother
  · exact .only hname

theorem Request.picks_of_some {name : String} (hname : r.operation = some name) :
    r.Picks o ↔ r.document.operations.reverse.find? (·.name = some name) = some o := by
  rw [find?_reverse_eq_some_iff]
  constructor
  · rintro (⟨hnone, -⟩ | ⟨hother, hsplit, ho, hafter⟩)
    · rw [hname] at hnone
      cases hnone
    · obtain rfl : name = _ := Option.some.inj (hname.symm.trans hother)
      exact ⟨_, _, hsplit, decide_eq_true ho, fun later hlater =>
        decide_eq_false (hafter later hlater)⟩
  · rintro ⟨before, after, hsplit, ho, hafter⟩
    exact .last hname hsplit (of_decide_eq_true ho) fun later hlater =>
      of_decide_eq_false (hafter later hlater)

theorem selectOperation_eq_ok_iff : selectOperation r.document r.operation = .ok o ↔ r.Picks o := by
  cases hname : r.operation with
  | none =>
    rw [Request.picks_of_none hname]
    rcases hoperations : r.document.operations with _ | ⟨first, _ | ⟨second, rest⟩⟩ <;>
      simp [selectOperation, hoperations]
  | some name =>
    rw [Request.picks_of_some hname, selectOperation]
    cases r.document.operations.reverse.find? fun o : Operation => o.name = some name <;> simp

theorem selectOperation_eq_error_iff : selectOperation r.document r.operation = .error e ↔
    (r.operation = none ∧ r.document.operations = [] ∧ e = .noOperation) ∨
    (r.operation = none ∧ 2 ≤ r.document.operations.length ∧ e = .multipleOperations) ∨
    ∃ name, r.operation = some name ∧ (∀ o ∈ r.document.operations, o.name ≠ some name) ∧
      e = .unknownOperation := by
  cases hname : r.operation with
  | none =>
    rcases hoperations : r.document.operations with _ | ⟨first, _ | ⟨second, rest⟩⟩ <;>
      simp [selectOperation, hoperations, eq_comm]
  | some name =>
    rw [selectOperation]
    cases hfind : r.document.operations.reverse.find? fun o : Operation => o.name = some name with
    | none =>
      have hnone : ∀ o ∈ r.document.operations, o.name ≠ some name := by simpa using hfind
      simp only [reduceCtorEq, false_and, Option.some.injEq, exists_eq_left', false_or,
        Except.error.injEq]
      exact ⟨fun he => ⟨hnone, he.symm⟩, fun he => he.2.symm⟩
    | some o =>
      have hmem := List.mem_reverse.mp (List.mem_of_find?_eq_some hfind)
      have ho : o.name = some name := by simpa using List.find?_some hfind
      simp only [reduceCtorEq, false_and, Option.some.injEq, false_or, false_iff]
      rintro ⟨_, rfl, hnone, -⟩
      exact hnone o hmem ho

theorem TypeGraph.isInput_iff {name : String} :
    ((g.type? name).map TypeNode.isInput).getD false = true ↔ g.TakesInput name := by
  constructor
  · intro h
    cases hnode : g.type? name with
    | none => simp [hnode] at h
    | some node =>
      cases node with
      | scalar => exact .scalar hnode
      | enumeration => exact .enumeration hnode
      | inputObject => exact .inputObject hnode
      | object | union => simp [hnode, TypeNode.isInput] at h
  · rintro (h | h | h) <;> simp [h, TypeNode.isInput]

/-- The first variable without an input type is reported. -/
theorem coerceVariables_eq_error_iff {definitions : List VariableDefinition} {values : Variables} :
    coerceVariables g definitions values = .error e ↔ ∃ before v after,
      definitions = before ++ v :: after ∧
      (∀ earlier ∈ before, g.TakesInput earlier.type.innermost) ∧
      ¬ g.TakesInput v.type.innermost ∧ e = .unknownVariableType v.name v.type.innermost := by
  induction definitions generalizing values with
  | nil => simp [coerceVariables]
  | cons first rest ih =>
    rw [coerceVariables]
    split
    · rename_i hinput
      rw [TypeGraph.isInput_iff] at hinput
      rw [ih]
      constructor
      · rintro ⟨before, v, after, rfl, hbefore, hv, he⟩
        exact ⟨first :: before, v, after, rfl, List.forall_mem_cons.mpr ⟨hinput, hbefore⟩, hv, he⟩
      · rintro ⟨before, v, after, hsplit, hbefore, hv, he⟩
        rcases List.cons_eq_append_iff.mp hsplit with ⟨rfl, hrest⟩ | ⟨before, rfl, hrest⟩
        · cases hrest
          exact absurd hinput hv
        · exact ⟨before, v, after, hrest, (List.forall_mem_cons.mp hbefore).2, hv, he⟩
    · rename_i hinput
      rw [TypeGraph.isInput_iff] at hinput
      constructor
      · intro h
        cases h
        exact ⟨[], first, rest, rfl, by simp, hinput, rfl⟩
      · rintro ⟨before, v, after, hsplit, hbefore, hv, rfl⟩
        rcases List.cons_eq_append_iff.mp hsplit with ⟨rfl, hrest⟩ | ⟨before, rfl, hrest⟩
        · cases hrest
          rfl
        · exact absurd (List.forall_mem_cons.mp hbefore).1 hinput

namespace Schema

variable {s : Schema}

/-- What a request is refused for at its start, step by step. -/
theorem opening_error : s.opening r = .error e ↔
    selectOperation r.document r.operation = .error e ∨
    ∃ o, selectOperation r.document r.operation = .ok o ∧
      (s.root? o.kind = none ∧ e = .unsupported o.kind ∨
        s.root? o.kind ≠ none ∧
          coerceVariables s.graph o.variableDefinitions r.values = .error e) := by
  rw [opening]
  cases selectOperation r.document r.operation with
  | error first => simp [bind, Except.bind]
  | ok o =>
    simp only [bind, Except.bind, reduceCtorEq, false_or, Except.ok.injEq, exists_eq_left']
    cases s.root? o.kind with
    | none => simp [eq_comm]
    | some root =>
      cases coerceVariables s.graph o.variableDefinitions r.values <;> simp [pure, Except.pure]

/-- A request is refused at its start for the first thing that is wrong with it. -/
theorem opening_eq_error_iff (hroots : ∀ kind, s.root? kind = none ↔ d.Lacks kind) :
    s.opening r = .error e ↔ r.Refused d s.graph e := by
  simp only [opening_error, selectOperation_eq_error_iff, selectOperation_eq_ok_iff, hroots, ne_eq,
    coerceVariables_eq_error_iff]
  constructor
  · rintro ((⟨hname, hnil, rfl⟩ | ⟨hname, htwo, rfl⟩ | ⟨name, hname, hnone, rfl⟩) |
      ⟨o, hpicks, ⟨hlacks, rfl⟩ | ⟨hroot, before, v, after, hsplit, hbefore, hv, rfl⟩⟩)
    · exact .noOperation hname hnil
    · exact .multipleOperations hname htwo
    · exact .unknownOperation hname hnone
    · exact .unsupported hpicks hlacks
    · exact .unknownVariableType hpicks hroot hsplit hbefore hv
  · intro h
    cases h with
    | noOperation hname hnil => exact .inl (.inl ⟨hname, hnil, rfl⟩)
    | multipleOperations hname htwo => exact .inl (.inr (.inl ⟨hname, htwo, rfl⟩))
    | unknownOperation hname hnone => exact .inl (.inr (.inr ⟨_, hname, hnone, rfl⟩))
    | unsupported hpicks hlacks => exact .inr ⟨_, hpicks, .inl ⟨hlacks, rfl⟩⟩
    | unknownVariableType hpicks hroot hsplit hbefore hv =>
      exact .inr ⟨_, hpicks, .inr ⟨hroot, _, _, _, hsplit, hbefore, hv, rfl⟩⟩

/-- What is not refused is answered with an outcome or with a timeout. -/
theorem finish?_answer {workers rest : Workers} {agenda : Agenda}
    {answer : Except RequestError Outcome} (h : s.finish? workers agenda = some (answer, rest)) :
    (∃ outcome, answer = .ok outcome) ∨
      ∃ limit, s.configuration.timeout = some limit ∧ answer = .error (.timeout limit) := by
  rw [finish?] at h
  split at h
  · obtain ⟨limit, hlimit, h⟩ := Option.bind_eq_some_iff.mp h
    obtain ⟨begun, -, h⟩ := Option.bind_eq_some_iff.mp h
    dsimp only at h
    split at h <;> cases h
    exact .inr ⟨limit, hlimit, rfl⟩
  · dsimp only at h
    split at h
    · rename_i limit hlimit
      split at h
      · obtain ⟨e, -, h⟩ := Option.bind_eq_some_iff.mp h
        split at h <;> cases h
        · exact .inr ⟨limit, hlimit, rfl⟩
        · exact .inl ⟨_, rfl⟩
      · cases h
        exact .inr ⟨limit, hlimit, rfl⟩
    · split at h
      · cases h
      · obtain ⟨e, -, h⟩ := Option.bind_eq_some_iff.mp h
        split at h <;> cases h
        exact .inl ⟨_, rfl⟩

/-- An execution is refused, apart from timeouts, exactly if it is refused at its start, and then at
once. -/
theorem executeOn?_eq_error_iff {workers rest : Workers} {depth : Nat}
    (he : ∀ limit, e ≠ .timeout limit) :
    s.executeOn? workers depth r = some (.error e, rest) ↔
      s.opening r = .error e ∧ rest = workers := by
  rw [executeOn?]
  cases hopening : s.opening r with
  | error first => simp [eq_comm]
  | ok o =>
    simp only [reduceCtorEq, false_and, iff_false]
    intro h
    rcases finish?_answer h with ⟨outcome, houtcome⟩ | ⟨limit, -, hlimit⟩
    · cases houtcome
    · exact he limit (Except.error.inj hlimit)

/-! ### What does not count -/

variable (properties : ObjectType → List Property)

theorem type?_withProperties (name : String) :
    (s.withProperties properties).graph.type? name =
      (s.graph.type? name).map (TypeNode.withProperties properties) :=
  Entries.lookup_map (TypeNode.withProperties properties) s.graph.types name

theorem takesInput_withProperties (name : String) :
    (s.withProperties properties).graph.TakesInput name ↔ s.graph.TakesInput name := by
  rw [← TypeGraph.isInput_iff, ← TypeGraph.isInput_iff, type?_withProperties, Option.map_map]
  have hinput : TypeNode.isInput ∘ TypeNode.withProperties properties = TypeNode.isInput := by
    funext node
    cases node <;> rfl
  rw [hinput]

theorem object?_withProperties (name : String) :
    ((s.withProperties properties).graph.type? name).bind TypeNode.object? = none ↔
      (s.graph.type? name).bind TypeNode.object? = none := by
  rw [type?_withProperties]
  rcases s.graph.type? name with _ | _ | _ | _ | _ | _ <;>
    simp [TypeNode.withProperties, TypeNode.object?]

theorem root?_withProperties (kind : OperationKind) :
    (s.withProperties properties).root? kind = none ↔ s.root? kind = none := by
  cases kind with
  | query => exact object?_withProperties properties s.graph.query
  | mutation =>
    change (s.graph.mutation.bind fun name =>
        ((s.withProperties properties).graph.type? name).bind TypeNode.object?) = none ↔
      (s.graph.mutation.bind fun name => (s.graph.type? name).bind TypeNode.object?) = none
    cases s.graph.mutation with
    | none => rfl
    | some name => exact object?_withProperties properties name
  | subscription => rfl

end Schema

theorem Request.Refused.mono {g' : TypeGraph} (h : r.Refused d g e)
    (hinput : ∀ name, g.TakesInput name ↔ g'.TakesInput name) : r.Refused d g' e := by
  cases h with
  | noOperation hname hnil => exact .noOperation hname hnil
  | multipleOperations hname htwo => exact .multipleOperations hname htwo
  | unknownOperation hname hnone => exact .unknownOperation hname hnone
  | unsupported hpicks hlacks => exact .unsupported hpicks hlacks
  | unknownVariableType hpicks hroot hsplit hbefore hv =>
    exact .unknownVariableType hpicks hroot hsplit
      (fun earlier hearlier => (hinput _).mp (hbefore earlier hearlier)) (mt (hinput _).mpr hv)

/-- Two requests pick alike, and have the same values of variables and the same context. They may
differ in fragments, and in operations that are not picked. -/
structure Request.Alike (r r' : Request) : Prop where
  operation : r.operation = r'.operation
  values : r.values = r'.values
  context : r.context = r'.context
  picks : ∀ o, r.Picks o ↔ r'.Picks o
  /-- How many operations there are counts only if none is asked for by name. -/
  count : r.operation = none → r.document.operations.length = r'.document.operations.length

namespace Request.Alike

variable {r' : Request}

theorem selectOperation_eq (h : r.Alike r') :
    selectOperation r.document r.operation = selectOperation r'.document r'.operation := by
  symm
  cases hselect : selectOperation r.document r.operation with
  | ok o =>
    have hpicks := (h.picks o).mp (selectOperation_eq_ok_iff.mp hselect)
    exact selectOperation_eq_ok_iff.mpr hpicks
  | error first =>
    rcases selectOperation_eq_error_iff.mp hselect with
      ⟨hname, hnil, rfl⟩ | ⟨hname, htwo, rfl⟩ | ⟨name, hname, hnone, rfl⟩ <;>
      rw [selectOperation_eq_error_iff, ← h.operation]
    · refine .inl ⟨hname, List.eq_nil_of_length_eq_zero ?_, rfl⟩
      rw [← h.count hname, hnil, List.length_nil]
    · exact .inr (.inl ⟨hname, h.count hname ▸ htwo, rfl⟩)
    · refine .inr (.inr ⟨name, hname, ?_, rfl⟩)
      have hfind : r'.document.operations.reverse.find? (·.name = some name) = none := by
        refine Option.eq_none_iff_forall_ne_some.mpr fun o hfind => ?_
        have hpicks := (h.picks o).mpr ((picks_of_some (h.operation ▸ hname)).mpr hfind)
        rw [← selectOperation_eq_ok_iff, hselect] at hpicks
        cases hpicks
      simpa using hfind

/-- What is refused does not depend on fragments and on operations that are not picked, and neither
does what an execution starts with. -/
theorem opening_eq (h : r.Alike r') (s : Schema) : s.opening r' = (s.opening r).map fun o =>
    ⟨o.scope.withDocument r'.document, o.root, o.operation⟩ := by
  rw [Schema.opening, Schema.opening, h.selectOperation_eq, h.values, h.context]
  cases selectOperation r'.document r'.operation with
  | error first => rfl
  | ok o =>
    simp only [bind, Except.bind]
    cases s.root? o.kind with
    | none => rfl
    | some root =>
      dsimp only
      cases coerceVariables s.graph o.variableDefinitions r'.values <;> rfl

theorem refused_iff {s : Schema} (h : r.Alike r')
    (hroots : ∀ kind, s.root? kind = none ↔ d.Lacks kind) :
    r.Refused d s.graph e ↔ r'.Refused d s.graph e := by
  rw [← Schema.opening_eq_error_iff hroots, ← Schema.opening_eq_error_iff hroots, h.opening_eq]
  cases s.opening r <;> simp [Except.map]

theorem executeOn?_eq (h : r.Alike r') (hfragments : r.document.fragments = r'.document.fragments)
    (s : Schema) (workers : Workers) (depth : Nat) :
    s.executeOn? workers depth r = s.executeOn? workers depth r' := by
  refine Schema.executeOn_congr rfl (h.opening_eq s) (fun o ho depth => ?_) workers depth
  obtain ⟨-, -, values, -, hscope⟩ := Schema.opening_ok.mp ho
  have hdocument : o.scope.document.fragments =
      (o.scope.withDocument r'.document).document.fragments := by
    rw [hscope]
    exact hfragments
  have hmirrors : o.scope.Mirrors (o.scope.withDocument r'.document) (· = ·) :=
    Scope.mirrors_of_indistinct (.refl _) hdocument rfl rfl
  exact hmirrors.agenda depth o.root _ rfl

end Request.Alike

namespace SchemaBuilder

variable {catalogue : Catalogue} {b : SchemaBuilder} {s : Schema}

/-- A schema that was built has a root for queries, and one for mutations if some are declared. -/
theorem root?_eq_none_iff (h : (b.build catalogue).1 = .ok s) (kind : OperationKind) :
    s.root? kind = none ↔ b.declarations.Lacks kind := by
  obtain ⟨r, hruns, hgraph⟩ := Declarations.register_eq_ok.mp (register_of_build h)
  obtain ⟨L, hcompletes⟩ := Declarations.completes_of_runs hruns
  have hroot {root : String × List PropertyDeclaration} (hmem : root ∈ b.declarations.roots) :
      ∃ o, s.graph.type? root.1 = some (.object o) := by
    obtain ⟨node, hnode, -, -, hidentity⟩ := hcompletes.exists_type? _ (hcompletes.roots root hmem)
    obtain ⟨o, rfl, -⟩ := TypeNode.eq_object hidentity
    exact ⟨o, hgraph ▸ hnode⟩
  have hmutation : s.graph.mutation =
      if b.declarations.mutations.isEmpty then none else some Registering.mutationName := by
    rw [hgraph]
    rfl
  cases kind with
  | query =>
    obtain ⟨o, ho⟩ := hroot List.mem_cons_self
    have hquery : s.graph.query = Registering.queryName := by
      rw [hgraph]
      rfl
    change (s.graph.type? s.graph.query).bind TypeNode.object? = none ↔ _
    simp [hquery, ho, TypeNode.object?, Declarations.Lacks]
  | mutation =>
    change (s.graph.mutation.bind fun name => (s.graph.type? name).bind TypeNode.object?) = none ↔ _
    by_cases hnone : b.declarations.mutations = []
    · simp [hmutation, hnone, Declarations.Lacks]
    · have hmem : (Registering.mutationName, b.declarations.mutations) ∈ b.declarations.roots := by
        simp [Declarations.roots, hnone]
      obtain ⟨o, ho⟩ := hroot hmem
      simp [hmutation, hnone, ho, TypeNode.object?, Declarations.Lacks]
  | subscription => exact ⟨fun _ => .inl rfl, fun _ => rfl⟩

/-- What is refused is exact, and it is refused before anything is called. Apart from timeouts, a
request ends with an error exactly if it is refused for it, at any depth and with any workers, which
stay as they were; other resolvers, or none, would not change that. Any other request is answered
with an outcome or times out, and it is answered if resolvers return and objects inside each other
come to an end. Neither fragments nor operations that are not picked count for what is refused, and
the latter do not count for anything that is answered. -/
theorem refused_before_calls (h : (b.build catalogue).1 = .ok s) (r : Request) :
    (∀ workers depth e rest, (∀ limit, e ≠ .timeout limit) →
      (s.executeOn? workers depth r = some (.error e, rest) ↔
        r.Refused b.declarations s.graph e ∧ rest = workers)) ∧
    (∀ e, r.Refused b.declarations s.graph e → ∀ properties workers depth,
      (s.withProperties properties).executeOn? workers depth r = some (.error e, workers)) ∧
    ((∀ e, ¬ r.Refused b.declarations s.graph e) → ∀ workers,
      (∀ depth answer rest, s.executeOn? workers depth r = some (answer, rest) →
        (∃ outcome, answer = .ok outcome) ∨
          ∃ limit, s.configuration.timeout = some limit ∧ answer = .error (.timeout limit)) ∧
      (s.graph.Does Action.Returns →
        (∀ o, s.opening r = .ok o → Acc o.scope.Nests o.site) → ∃ depth answer rest,
          (∀ deeper ≥ depth, s.executeOn? workers deeper r = some (answer, rest)) ∧
          (s.configuration.timeout = none → ∃ outcome, answer = .ok outcome))) ∧
    ∀ r', r.Alike r' →
      (∀ e, r.Refused b.declarations s.graph e ↔ r'.Refused b.declarations s.graph e) ∧
      (r.document.fragments = r'.document.fragments → ∀ workers depth,
        s.executeOn? workers depth r = s.executeOn? workers depth r') := by
  have hroots := root?_eq_none_iff h
  have hopening (e : RequestError) := Schema.opening_eq_error_iff (r := r) (e := e) hroots
  refine ⟨fun workers depth e rest he => ?_, fun e he properties workers depth => ?_,
    fun hfine workers => ?_, fun r' halike => ⟨fun e => halike.refused_iff hroots,
      fun hfragments => halike.executeOn?_eq hfragments s⟩⟩
  · rw [Schema.executeOn?_eq_error_iff he, hopening]
  · have hrefused := he.mono fun name => (Schema.takesInput_withProperties properties name).symm
    have hopening' := (Schema.opening_eq_error_iff fun kind =>
      (Schema.root?_withProperties properties kind).trans (hroots kind)).mpr hrefused
    rw [Schema.executeOn?, hopening']
  · cases ho : s.opening r with
    | error e => exact absurd ((hopening e).mp ho) (hfine e)
    | ok o =>
      simp only [Schema.executeOn?, ho]
      refine ⟨fun depth answer rest => Schema.finish?_answer, fun hreturns hacc => ?_⟩
      obtain ⟨hroot, hgraph⟩ := Schema.opening_eq ho
      obtain ⟨name, hname⟩ := Schema.root?_type? hroot
      exact s.exists_finish o.agenda (fun _ => rfl)
        (Opening.exists_run (hgraph ▸ hreturns) (hreturns name o.root hname) (hacc o rfl)) workers

end SchemaBuilder

namespace Remakes

open Universe.Sample (field)

def count : VariableDefinition := ⟨⟨0, 11⟩, "count", .named "Int" false, none⟩

def films : VariableDefinition := ⟨⟨0, 24⟩, "films", .list (.named "Film" true) false, none⟩

/-- The operation `query Pick($count: Int, $films: [Film!]) { latest }`. -/
def pick : Operation :=
  ⟨.origin, .query, some "Pick", [count, films], [], [field 43 "latest" [] none]⟩

def change : Operation :=
  ⟨⟨1, 0⟩, .mutation, some "Change", [films], [], [field 35 "latest" [] none]⟩

/-- Asks for one of the two operations by its name, or for the only one. -/
def asking (name : Option String) : Request :=
  ⟨[.operation pick, .operation change], name, [], []⟩

/-- The schema of films has no input type for films, and no mutations. -/
theorem refused_asking :
    (asking none).Refused (SchemaBuilder.ofCalls calls).declarations schema.graph
      .multipleOperations ∧
    (asking (some "Change")).Refused (SchemaBuilder.ofCalls calls).declarations schema.graph
      (.unsupported .mutation) ∧
    (asking (some "Pick")).Refused (SchemaBuilder.ofCalls calls).declarations schema.graph
      (.unknownVariableType "films" "Film") := by
  have hcount : schema.graph.type? "Int" = some (.scalar .int) := rfl
  have hfilm : schema.graph.type? "Film" = some (.object filmType) := rfl
  refine ⟨.multipleOperations rfl (le_refl 2), ?_, ?_⟩
  · have hpicks : (asking (some "Change")).Picks change := selectOperation_eq_ok_iff.mp rfl
    exact .unsupported hpicks (.inr ⟨rfl, rfl⟩)
  · have hpicks : (asking (some "Pick")).Picks pick := selectOperation_eq_ok_iff.mp rfl
    have hsplit : pick.variableDefinitions = [count] ++ films :: [] := rfl
    refine .unknownVariableType hpicks (by simp [Declarations.Lacks, pick]) hsplit ?_ ?_
    · exact List.forall_mem_singleton.mpr (.scalar hcount)
    · rintro (h | h | h) <;> cases hfilm.symm.trans h

end Remakes

namespace SchemaBuilder

open Universe.Sample (studio)
open Remakes (calls schema asking)

theorem refused_before_calls_sample :
    ((ofCalls calls).build studio.catalogue).1 = .ok schema ∧ ∀ workers depth,
      schema.executeOn? workers depth (asking none) =
        some (.error .multipleOperations, workers) ∧
      schema.executeOn? workers depth (asking (some "Change")) =
        some (.error (.unsupported .mutation), workers) ∧
      schema.executeOn? workers depth (asking (some "Pick")) =
        some (.error (.unknownVariableType "films" "Film"), workers) := by
  obtain ⟨hnone, hchange, hpick⟩ := Remakes.refused_asking
  have hrefused (name : Option String) := refused_before_calls Remakes.build_calls (asking name)
  exact ⟨Remakes.build_calls, fun workers depth =>
    ⟨((hrefused none).1 workers depth _ workers (by simp)).mpr ⟨hnone, rfl⟩,
      ((hrefused _).1 workers depth _ workers (by simp)).mpr ⟨hchange, rfl⟩,
      ((hrefused _).1 workers depth _ workers (by simp)).mpr ⟨hpick, rfl⟩⟩⟩

end SchemaBuilder

end Trellis
