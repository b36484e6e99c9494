import Trellis.Proofs.Execution.Levels
import Trellis.Proofs.Typing.Soundness

/-!
Executions that come to their end.

An execution ends if its resolvers and transformations do, unless there is an endless chain of
objects that are laid out inside each other. For that resolvers have to hand out objects without end,
and the document has to select from them without end, which takes a fragment that reaches itself
below a field.
-/

namespace Trellis

namespace Schema

variable {s : Schema}

/-- Carried out to the same end from some depth on, whatever the ranking, an agenda is answered for
in the same way from some depth on. Without a limit the answer is an outcome. -/
theorem exists_finish (s : Schema) (agendas : Nat → Agenda) {serial : Bool}
    (hserial : ∀ depth, (agendas depth).serial = serial)
    (h : ∀ ranking, ∃ e, Call.anyEndless e.calls = false ∧
      ∃ depth, ∀ deeper ≥ depth, (agendas deeper).run ranking = some e) (workers : Workers) :
    ∃ depth answer rest,
      (∀ deeper ≥ depth, s.finish? workers (agendas deeper) = some (answer, rest)) ∧
      (s.configuration.timeout = none → ∃ outcome, answer = .ok outcome) := by
  obtain ⟨inPlace, hfinite, first, hfirst⟩ := h fun _ => 0
  let table := s.timetable workers serial inPlace.calls
  obtain ⟨e, hcalls, second, hsecond⟩ := h table.ranking
  have hinPlace (deeper : Nat) (hdeeper : deeper ≥ max first second) :
      (agendas deeper).run (fun _ => 0) = some inPlace :=
    hfirst deeper (le_trans (le_max_left ..) hdeeper)
  have hranked (deeper : Nat) (hdeeper : deeper ≥ max first second) :
      (agendas deeper).run (s.timetable workers serial inPlace.calls).ranking = some e :=
    hsecond deeper (le_trans (le_max_right ..) hdeeper)
  cases htimeout : s.configuration.timeout with
  | none =>
    refine ⟨max first second, .ok (.ofEnded e), workers, fun deeper hdeeper => ?_,
      fun _ => ⟨_, rfl⟩⟩
    rw [finish?, hinPlace deeper hdeeper]
    simp only [htimeout, hfinite, hserial, hranked deeper hdeeper, hcalls, Bool.false_eq_true,
      if_false, Option.bind_eq_bind, Option.bind_some]
  | some limit =>
    by_cases hdone : table.isDone = true
    · refine ⟨max first second, .ok (.ofEnded e), table.workersAt table.clock,
        fun deeper hdeeper => ?_, fun hnone => by cases hnone⟩
      rw [finish?, hinPlace deeper hdeeper]
      simp only [htimeout, hserial, hranked deeper hdeeper, hcalls, Bool.false_eq_true, if_false,
        Option.bind_eq_bind, Option.bind_some]
      exact if_pos hdone
    · refine ⟨max first second, .error (.timeout limit), table.workersAt limit.nanoseconds,
        fun deeper hdeeper => ?_, fun hnone => by cases hnone⟩
      rw [finish?, hinPlace deeper hdeeper]
      simp only [htimeout, hserial]
      exact if_neg hdone

end Schema

namespace Remakes

open Document
open Universe.Sample (studio film nightfall field)

/-! Films whose remakes are the films themselves, and a request for remakes of remakes. -/

def latest : Resolver :=
  ⟨.ofKinds [], studio.describe film, .blocking none fun _ _ =>
    .answer (.ok (studio.erase film nightfall))⟩

def remake : Resolver :=
  ⟨.ofKinds [], studio.describe film, .suspending (some film) fun v _ =>
    .answer (.ok (studio.erase film v))⟩

def calls : List BuilderCall :=
  [.query { PropertyDeclaration.extension "latest" with resolver := some latest },
    .type (studio.describe film) ⟨fun d => { d with
      properties := d.properties ++
        [{ PropertyDeclaration.extension "remake" with resolver := some remake }] }, fun _ => rfl⟩]

def filmType : ObjectType :=
  ⟨"Film", none, some film,
    [⟨"title", none, .current, .named "String" true, [], .native,
      .ofField film (studio.objectField ("title", .text)), []⟩,
    ⟨"sequels", none, .current, .list (.named "Film" true) true, [], .native,
      .ofField film (studio.objectField ("sequels", .sequence film)), []⟩,
    ⟨"remake", none, .current, .named "Film" true, [], .extension, remake, []⟩]⟩

def queryType : ObjectType :=
  ⟨"Query", none, none,
    [⟨"latest", none, .current, .named "Film" true, [], .extension, latest, []⟩]⟩

def schema : Schema where
  graph := ⟨ScalarType.builtin.map (fun s => (s.name, .scalar s)) ++
      [("Query", .object queryType), ("Film", .object filmType)],
    [(film, "Film")], [], ScalarType.builtin.map (fun s => (s.coercion.host, s.name)), "Query",
    none⟩
  configuration := .default

theorem build_calls : ((SchemaBuilder.ofCalls calls).build studio.catalogue).1 = .ok schema := rfl

def again (column : Nat) : Selection := .spread ⟨0, column⟩ "F" []

/-- The document `{ latest { ...F } } fragment F on Film { name { ...F } }`. -/
def document (name : String) : Document :=
  [.operation ⟨.origin, .query, none, [], [], [field 2 "latest" [] (some [again 11])]⟩,
    .fragment ⟨⟨0, 20⟩, "F", "Film", [], [field 39 name [] (some [again 48])]⟩]

def request (name : String) : Request := ⟨document name, none, [], []⟩

def opening (name : String) : Opening :=
  ⟨⟨schema.graph, document name, [], []⟩, queryType,
    ⟨.origin, .query, none, [], [], [field 2 "latest" [] (some [again 11])]⟩⟩

theorem opening_request (name : String) : schema.opening (request name) = .ok (opening name) := rfl

end Remakes

namespace Schema

open Remakes
open Universe.Sample (studio)

end Schema

end Trellis
