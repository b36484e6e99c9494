import Trellis.Proofs.Pointers.Execution
import Trellis.Proofs.Pointers.Programs
import Trellis.Proofs.Typing.Soundness

/-!
Pointers are transparent.

Which pointers a program puts around its types makes no difference to the schema that it builds and
to what is executed against it, with two exceptions. A transformation has to be spelled like the
type of its property. And a function is only ever called on values of the very type that it is a
property of, which are never handed out as pointers: declared for a pointer, it is a property of
what is pointed to all the same, but it can never be called.
-/

namespace Trellis

open Document

theorem Agenda.run_congr {agenda agenda' : Agenda} (herrors : agenda.errors = agenda'.errors)
    (hkeys : agenda.keys = agenda'.keys) (hserial : agenda.serial = agenda'.serial)
    (hparts : List.Forall₂ Plan.Alike agenda.parts agenda'.parts) : agenda.run = agenda'.run := by
  funext ranking
  rw [Agenda.run, Agenda.run, Plan.Alike.map_rank hparts, Plan.Alike.runAll hparts, herrors, hkeys,
    hserial]

namespace Schema

variable {s s' : Schema}

/-- Agendas that are carried out in the same way are answered for in the same way. -/
theorem finish?_congr (hconfiguration : s.configuration = s'.configuration)
    {agenda agenda' : Agenda} (herrors : agenda.errors = agenda'.errors)
    (hkeys : agenda.keys = agenda'.keys) (hserial : agenda.serial = agenda'.serial)
    (hparts : List.Forall₂ Plan.Same agenda.parts agenda'.parts) (workers : Workers) :
    s.finish? workers agenda = s'.finish? workers agenda' := by
  have hrun : agenda.run = agenda'.run :=
    Agenda.run_congr herrors hkeys hserial (hparts.imp fun _ _ h => h.whole)
  have hbegun : agenda.begun.run = agenda'.begun.run :=
    Agenda.run_congr herrors hkeys hserial (Plan.Same.begunAll hparts)
  have hgraph : s'.finish? workers agenda' = s.finish? workers agenda' := by
    obtain ⟨graph, configuration⟩ := s
    obtain ⟨graph', _⟩ := s'
    subst hconfiguration
    rfl
  rw [hgraph, finish?, finish?, cutOff?, cutOff?, hrun, hbegun, hserial]

theorem root?_congr (h : s.graph.bare = s'.graph.bare) (kind : OperationKind) :
    (s.root? kind).map ObjectType.bare = (s'.root? kind).map ObjectType.bare := by
  obtain ⟨-, -, -, -, hquery, hmutation⟩ := TypeGraph.mk.inj h
  cases kind with
  | query =>
    change ((s.graph.type? s.graph.query).bind TypeNode.object?).map _ =
      ((s'.graph.type? s'.graph.query).bind TypeNode.object?).map _
    change s.graph.query = s'.graph.query at hquery
    rw [← hquery]
    exact TypeGraph.map_object?_congr h s.graph.query
  | mutation =>
    change (s.graph.mutation.bind fun name => (s.graph.type? name).bind TypeNode.object?).map _ =
      (s'.graph.mutation.bind fun name => (s'.graph.type? name).bind TypeNode.object?).map _
    change s.graph.mutation = s'.graph.mutation at hmutation
    rw [← hmutation]
    cases s.graph.mutation with
    | none => rfl
    | some name => exact TypeGraph.map_object?_congr h name
  | subscription => rfl

/-- A request is refused alike, or opened from roots that are the same without pointers. -/
theorem opening_congr (h : s.graph.bare = s'.graph.bare) (r : Request) :
    (∃ e, s.opening r = .error e ∧ s'.opening r = .error e) ∨
    ∃ o o', s.opening r = .ok o ∧ s'.opening r = .ok o' ∧ o.scope.SameBare o'.scope ∧
      o.root.bare = o'.root.bare ∧ o.operation = o'.operation := by
  rw [opening, opening]
  cases selectOperation r.document r.operation with
  | error e => exact .inl ⟨e, rfl, rfl⟩
  | ok operation =>
    simp only [bind, Except.bind, coerceVariables_congr (TypeGraph.map_isInput_congr h)]
    rcases none_or_some_of_map_eq (root?_congr h operation.kind) with
      ⟨hnone, hnone'⟩ | ⟨root, root', hroot, hroot', hbare⟩
    · rw [hnone, hnone']
      exact .inl ⟨_, rfl, rfl⟩
    · rw [hroot, hroot']
      dsimp only
      cases coerceVariables s'.graph operation.variableDefinitions r.values with
      | error e => exact .inl ⟨e, rfl, rfl⟩
      | ok values => exact .inr ⟨_, _, rfl, rfl, ⟨h, rfl, rfl, rfl⟩, hbare, rfl⟩

/-- Requests to schemas that are the same without pointers, one of which is typed, are executed in
the same way. -/
theorem executeOn?_congr {u : Universe} (hu : u.Genuine) (hg : u.Types s.graph)
    (h : s.graph.bare = s'.graph.bare) (hconfiguration : s.configuration = s'.configuration)
    (workers : Workers) (depth : Nat) (r : Request) :
    s.executeOn? workers depth r = s'.executeOn? workers depth r := by
  rw [executeOn?, executeOn?]
  rcases opening_congr h r with ⟨e, ho, ho'⟩ | ⟨o, o', ho, ho', hscope, hroot, hoperation⟩
  · rw [ho, ho']
  · rw [ho, ho']
    dsimp only
    obtain ⟨hopened, hgraph⟩ := opening_eq ho
    obtain ⟨name, hname⟩ := root?_type? hopened
    have hparent := hg.holds_root hopened
    rw [← hgraph] at hg hname
    have hcollect := hscope.collect hroot o.operation.selections
    rw [Opening.agenda, Opening.agenda, Scope.agenda, Scope.agenda, ← hoperation, ← hcollect]
    refine finish?_congr hconfiguration (by rfl) (by rfl) (by rfl) ?_ workers
    rw [List.forall₂_map_left_iff, List.forall₂_map_right_iff]
    exact List.forall₂_same.mpr fun group _ => Universe.same_planGroup hu hg hscope
      (Universe.plansAlike_planObject hu hg hscope depth) hname hroot hparent [] group

end Schema

namespace SchemaBuilder

/-- Pointers are transparent. If the calls of two programs are the same without pointers, and the
types of the first one are sound, then both build the same schema without pointers, or are refused
with the same error without the names of host types. The only difference there can be is that one of
them is refused because a transformation is spelled with other pointers than the type of its
property. If both are built, then whatever is requested, on any workers, both are executed in the
same way: with the same data and errors, the same journal, and as many idle workers afterwards. -/
theorem build_pointers {u : Universe} (hu : u.Genuine) {calls calls' : List BuilderCall}
    (hcalls : ∀ c ∈ calls, u.Calls c) (h : List.Forall₂ BuilderCall.Alike calls calls') :
    BuildAlike ((ofCalls calls).build u.catalogue).1 ((ofCalls calls').build u.catalogue).1 ∧
    ∀ s s', ((ofCalls calls).build u.catalogue).1 = .ok s →
      ((ofCalls calls').build u.catalogue).1 = .ok s' → ∀ configuration workers depth r,
        (Schema.mk s.graph configuration).executeOn? workers depth r =
          (Schema.mk s'.graph configuration).executeOn? workers depth r := by
  have halike := (alike_ofCalls h).build u.catalogue (proper_ofCalls calls)
  refine ⟨halike, fun s s' hs hs' configuration workers depth r => ?_⟩
  rw [hs, hs'] at halike
  cases halike with
  | built hgraph _ =>
    obtain ⟨-, hregister, -⟩ := build_eq_ok.mp hs
    have htypes : u.Types s.graph :=
      (Universe.declares_ofCalls hcalls).types_of_register hu (proper_ofCalls calls) hregister
    exact @Schema.executeOn?_congr ⟨s.graph, configuration⟩ ⟨s'.graph, configuration⟩ u hu htypes
      hgraph rfl workers depth r

end SchemaBuilder

namespace Universe.Sample

/-! The same program with and without pointers. -/

def all : studio.Function := constant (.sequence film) (.sequence [nightfall])
  (.sequence (List.forall_mem_singleton.mpr hasType_nightfall))

def plainCalls : List BuilderCall :=
  calls ++ [.query { PropertyDeclaration.extension "all" with
    resolver := some all.resolver }]

theorem hasType_sharedDouble : studio.HasType .member
    (.member (studio.erase (.sequence (.shared film)) (.sequence [nightfall]))) :=
  .member (.sequence (List.forall_mem_singleton.mpr (.shared hasType_nightfall)))

/-- All films are in boxes or shared. -/
def pointerCalls : List BuilderCall :=
  [.query { PropertyDeclaration.extension "latest" with
      resolver := some ((constant film nightfall hasType_nightfall).returning (.boxed film)
        rfl).resolver },
    .query { PropertyDeclaration.ofUnion "featured" with
      resolver := some (constant .member _ hasType_sharedDouble).resolver
      union := some "Media" },
    .type (studio.describe (.shared film)) ⟨fun d => { d with
      properties := d.properties ++ [{ PropertyDeclaration.extension "rival" with
        arguments := ["name"]
        resolver := some (rival.returning (.shared film) rfl).resolver }]
      transformations := d.transformations ++
        [⟨"title", [], some (loud.mapping (.boxed .text) rfl).transformation⟩] }, fun _ => rfl⟩,
    .union "Media" ⟨none, [studio.describe (.boxed film)]⟩,
    .query { PropertyDeclaration.extension "all" with
      resolver := some (all.returning (.sequence (.boxed film)) rfl).resolver }]

theorem typed_plainCalls : ∀ c ∈ plainCalls, studio.Calls c := by
  refine List.forall_mem_append.mpr ⟨typed, List.forall_mem_singleton.mpr ?_⟩
  rintro r ⟨⟩
  exact ⟨all, rfl, rfl⟩

theorem alike_pointerCalls : List.Forall₂ BuilderCall.Alike plainCalls pointerCalls := by
  have hlatest := Function.respells_returning (constant film nightfall hasType_nightfall)
    (t := .boxed film) rfl
  have hall := all.respells_returning (t := .sequence (.boxed film)) rfl
  have hrival := rival.respells_returning (t := .shared film) rfl
  have hloud := loud.respells_mapping (t := .boxed .text) rfl
  refine .cons (.query (hlatest.bare_declaration _)) (.cons (.query rfl)
    (.cons (.type (bare_describe rfl) fun d d' h => ?_)
    (.cons (.union _ rfl) (.cons (.query (hall.bare_declaration _)) .nil))))
  obtain ⟨htype, hname, hdescription, hignored, hchanges, htransformations, hproperties⟩ :=
    TypeDeclaration.mk.inj h
  simp only [TypeDeclaration.bare, TypeDeclaration.mk.injEq]
  exact ⟨htype, hname, hdescription, hignored, hchanges,
    map_concat_congr htransformations (hloud.bare_declaration _ _),
    map_concat_congr hproperties (hrival.bare_declaration
      { PropertyDeclaration.extension "rival" with arguments := ["name"] })⟩

end Universe.Sample

namespace SchemaBuilder

open Universe.Sample

theorem build_pointers_sample : studio.Genuine ∧ (∀ c ∈ plainCalls, studio.Calls c) ∧
    List.Forall₂ BuilderCall.Alike plainCalls pointerCalls ∧
    ∃ s s', ((ofCalls plainCalls).build studio.catalogue).1 = .ok s ∧
      ((ofCalls pointerCalls).build studio.catalogue).1 = .ok s' ∧
      s.graph.bare = s'.graph.bare ∧
      ∀ depth, s.execute? depth request = s'.execute? depth request := by
  obtain ⟨halike, hexecuted⟩ := build_pointers genuine typed_plainCalls alike_pointerCalls
  refine ⟨genuine, typed_plainCalls, alike_pointerCalls, _, _, rfl, rfl, ?_, fun depth => ?_⟩
  · cases halike
    assumption
  · exact congrArg (Option.map (·.1)) (hexecuted _ _ rfl rfl .default _ depth request)

end SchemaBuilder

namespace Universe.Sample

/-- The sequels as they are. -/
def kept : studio.Mapping where
  host := .sequence film
  parameters := []
  apply v bounds :=
    match bounds with
    | [] => .ok v
    | _ :: _ => .error Bound.mismatch
  keeps := by
    rintro _ _ _ hv ⟨⟩ ⟨⟩
    exact hv
  unpacks := by
    intro _ bounds hbounds
    cases bounds with
    | nil => exact absurd .nil hbounds
    | cons => rfl

def sequelCalls (m : studio.Mapping) : List BuilderCall :=
  [.query { PropertyDeclaration.extension "latest" with
      resolver := some (constant film nightfall hasType_nightfall).resolver },
    .type (studio.describe film) ⟨fun d => { d with
      transformations := d.transformations ++ [⟨"sequels", [], some m.transformation⟩] },
      fun _ => rfl⟩]

example : ((SchemaBuilder.ofCalls (sequelCalls (kept.mapping (.sequence (.boxed film)) rfl))).build
    studio.catalogue).1 = .error (.refused (.transformationType "Film" "sequels"
      "alloc::vec::Vec<studio::Film>" "alloc::vec::Vec<alloc::boxed::Box<studio::Film>>")) := by
  cbv

end Universe.Sample

namespace Universe.Sample

/-! Films that are the same as themselves, by functions on films or on pointers to films. -/

def itself (receiver : HostType) : Resolver :=
  ⟨.ofKinds [], studio.describe film, .suspending (some receiver) fun v _ =>
    .answer (.ok (studio.erase film v))⟩

def receiverCalls (receiver : HostType) : List BuilderCall :=
  [.query { PropertyDeclaration.extension "latest" with
      resolver := some (constant film nightfall hasType_nightfall).resolver },
    .type (studio.describe receiver) ⟨fun d => { d with
      properties := d.properties ++ [{ PropertyDeclaration.extension "same" with
        resolver := some (itself receiver) }] }, fun _ => rfl⟩]

def receiverQuery : ObjectType :=
  ⟨"Query", none, none, [⟨"latest", none, .current, .named "Film" true, [], .extension,
    (constant film nightfall hasType_nightfall).named [], []⟩]⟩

def receiverFilm (receiver : HostType) : ObjectType :=
  ⟨"Film", none, some film,
    [⟨"title", none, .current, .named "String" true, [], .native,
      .ofField film (studio.objectField ("title", .text)), []⟩,
    ⟨"sequels", none, .current, .list (.named "Film" true) true, [], .native,
      .ofField film (studio.objectField ("sequels", .sequence film)), []⟩,
    ⟨"same", none, .current, .named "Film" true, [], .extension, itself receiver, []⟩]⟩

def receiverSchema (receiver : HostType) : Schema where
  graph := ⟨ScalarType.builtin.map (fun s => (s.name, .scalar s)) ++
      [("Query", .object receiverQuery), ("Film", .object (receiverFilm receiver))],
    [(film, "Film")], [], ScalarType.builtin.map (fun s => (s.coercion.host, s.name)), "Query",
    none⟩
  configuration := .default

def sameRequest : Request :=
  ⟨[.operation ⟨.origin, .query, none, [], [], [field 2 "latest" [] (some
    [field 11 "same" [] (some [field 18 "title" [] none])])]⟩], none, [], []⟩

def sameOutcome : Outcome :=
  ⟨.object [("latest", .object [("same", .object [("title", .string "Nightfall")])])], [], []⟩

def refusedOutcome : Outcome :=
  ⟨.null, [⟨⟨0, 11⟩, [.field "latest", .field "same"],
    .ofMessage "Expected a parent value of type alloc::boxed::Box<studio::Film>", .resolver⟩], []⟩

end Universe.Sample

namespace SchemaBuilder

open Universe.Sample

/-- A function on boxes of films is declared for films, as boxes are described as what they hold.
But no film is handed out in a box, so it is never called. -/
theorem boxed_receiver_refused :
    studio.describe (.boxed film) = studio.describe film ∧
    ((ofCalls (receiverCalls film)).build studio.catalogue).1 = .ok (receiverSchema film) ∧
    ((ofCalls (receiverCalls (.boxed film))).build studio.catalogue).1 =
      .ok (receiverSchema (.boxed film)) ∧
    (receiverSchema film).execute? 2 sameRequest = some (.ok sameOutcome) ∧
    (receiverSchema (.boxed film)).execute? 2 sameRequest = some (.ok refusedOutcome) := by
  refine ⟨rfl, rfl, rfl, ?_, ?_⟩
  · cbv
  · cbv

end SchemaBuilder

end Trellis
