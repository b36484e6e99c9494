import Trellis.Proofs.Execution.Invocations
import Trellis.Proofs.Execution.ScheduleIndependence

/-!
One root field after another.

The root fields of a mutation are carried out in turn, in the order in which their keys were first
selected. What can be seen of it at any moment is what was seen of the fields that came to their
ends, followed by what was seen of the one whose turn it is. A field that fails takes its turn like
any other: the next ones are carried out all the same.
-/

namespace Trellis

/-- A plan is carried out to its end. -/
def Plan.RunsTo (part : Plan) (s : Settled) : Prop := Job.Run (.ready part) s.events (.ended s.result)

namespace Job

theorem numbered_append {α : Type} (first second : List α) (start : Nat) :
    numbered (first ++ second) start =
      numbered first start ++ numbered second (start + first.length) := by
  rw [numbered, List.zipIdx_append, List.map_append]
  rfl

/-- What can happen in a serial gathering: its first part goes on or comes in, or there is none. -/
theorem Step.serial_cases {frame : Frame} {tray : Tray} {pending : List (Nat × Job)}
    {events : List Event} {job' : Job} (h : Step (.gathering frame true tray pending) events job') :
    (pending = [] ∧ events = [] ∧ job' = .ended (tray.assemble frame)) ∨
    ∃ i job rest, pending = (i, job) :: rest ∧
      ((∃ next, Step job events next ∧ job' = .gathering frame true tray ((i, next) :: rest)) ∨
        ∃ result, job = .ended result ∧ events = [] ∧
          job' = .gathering frame true (tray.add i result) rest) := by
  generalize hjob : Job.gathering frame true tray pending = job at h
  cases h with
  | report | answer | transform | spread => cases hjob
  | @within _ _ _ before after i job next _ hserial hstep =>
    cases hjob
    obtain rfl := hserial rfl
    exact .inr ⟨i, job, after, rfl, .inl ⟨next, hstep, rfl⟩⟩
  | @collect _ _ _ before after i result hserial =>
    cases hjob
    obtain rfl := hserial rfl
    exact .inr ⟨i, _, after, rfl, .inr ⟨result, rfl, rfl, rfl⟩⟩
  | assemble =>
    cases hjob
    exact .inl ⟨rfl, rfl, rfl⟩

/-- The first parts of a serial gathering may be carried out one after another. -/
theorem Run.in_turn {first : List Plan} {finished : List Settled}
    (h : List.Forall₂ Plan.RunsTo first finished) (frame : Frame) (tray : Tray) (start : Nat)
    (rest : List (Nat × Job)) :
    Run (.gathering frame true tray (numbered (first.map .ready) start ++ rest))
      (finished.flatMap (·.events))
      (.gathering frame true (tray.addAll (numbered finished start)) rest) := by
  induction h generalizing tray start with
  | nil => exact .refl _
  | @cons part s first finished hpart _ ih =>
    exact (Run.first hpart frame true tray start _).trans (ih (tray.add start s.result) (start + 1))

end Job

namespace Agenda

variable {a : Agenda}

/-- What was seen when the first parts of an agenda have come to their ends. -/
def seen (a : Agenda) (finished : List Settled) : List Event :=
  a.errors.map .reported ++ finished.flatMap (·.events)

/-- The slots when the first parts of an agenda have come in. -/
def filled (a : Agenda) (finished : List Settled) : Tray :=
  (Tray.ofSize a.parts.length).addAll (Job.numbered finished 0)

/-- An agenda of which some parts have come in, with those that are left. -/
def underWay (a : Agenda) (finished : List Settled) (pending : List (Nat × Job)) : Job :=
  .gathering ⟨.object a.keys, true⟩ true (a.filled finished) pending

/-- What can be seen of an agenda whose parts are carried out in turn, whatever they come to. -/
inductive InTurn (a : Agenda) : List Event → Job → Prop
  /-- The first parts have come in, and it is the turn of the next. -/
  | turn {first rest : List Plan} {part : Plan} {finished : List Settled} {log : List Event}
    {job : Job} : a.parts = first ++ part :: rest → List.Forall₂ Plan.RunsTo first finished →
      Job.Run (.ready part) log job →
      InTurn a (a.seen finished ++ log) (a.underWay finished
        ((first.length, job) :: Job.numbered (rest.map .ready) (first.length + 1)))
  /-- All parts have come in. -/
  | last {finished : List Settled} : List.Forall₂ Plan.RunsTo a.parts finished →
      InTurn a (a.seen finished) (a.underWay finished [])
  | ended {finished : List Settled} : List.Forall₂ Plan.RunsTo a.parts finished →
      InTurn a (a.seen finished) (.ended ((a.filled finished).assemble ⟨.object a.keys, true⟩))

theorem seen_append (finished : List Settled) (s : Settled) :
    a.seen (finished ++ [s]) = a.seen finished ++ s.events := by
  simp [seen]

theorem filled_append (finished : List Settled) (s : Settled) :
    a.filled (finished ++ [s]) = (a.filled finished).add finished.length s.result := by
  rw [filled, Job.numbered_append, Tray.addAll_append, Nat.zero_add]
  rfl

/-- When some parts have come in, it is the turn of the next one, if there is one. -/
theorem InTurn.next {first rest : List Plan} {finished : List Settled}
    (hparts : a.parts = first ++ rest) (h : List.Forall₂ Plan.RunsTo first finished) :
    a.InTurn (a.seen finished)
      (a.underWay finished (Job.numbered (rest.map .ready) first.length)) := by
  cases rest with
  | nil =>
    rw [List.append_nil] at hparts
    exact .last (hparts ▸ h)
  | cons part rest =>
    have hturn := InTurn.turn hparts h (.refl (.ready part))
    rw [List.append_nil] at hturn
    exact hturn

/-- Whatever happens, the parts are carried out in turn. -/
theorem InTurn.step {log events : List Event} {job job' : Job} (h : a.InTurn log job)
    (hstep : Job.Step job events job') : a.InTurn (log ++ events) job' := by
  cases h with
  | @turn first rest part finished log job hparts hfinished hrun =>
    obtain ⟨hnil, -, -⟩ | ⟨i, _, _, hpending, hcase⟩ := hstep.serial_cases
    · cases hnil
    · cases hpending
      rcases hcase with ⟨next, hinner, rfl⟩ | ⟨result, rfl, rfl, rfl⟩
      · rw [List.append_assoc]
        exact .turn hparts hfinished (hrun.trans (.single hinner))
      · have hlength : finished.length = first.length := hfinished.length_eq.symm
        have hdone : List.Forall₂ Plan.RunsTo (first ++ [part]) (finished ++ [⟨result, log⟩]) :=
          List.rel_append hfinished (.cons hrun .nil)
        have hnext := InTurn.next (by rw [hparts, List.append_assoc]; rfl) hdone
        rw [seen_append, underWay, filled_append, hlength, List.length_append] at hnext
        rw [List.append_nil]
        exact hnext
  | @last finished hfinished =>
    obtain ⟨-, rfl, rfl⟩ | ⟨_, _, _, hpending, -⟩ := hstep.serial_cases
    · rw [List.append_nil]
      exact .ended hfinished
    · cases hpending
  | ended => cases hstep

theorem InTurn.run {log events : List Event} {job job' : Job} (h : a.InTurn log job)
    (hrun : Job.Run job events job') : a.InTurn (log ++ events) job' := by
  induction hrun generalizing log with
  | refl => rwa [List.append_nil]
  | head hstep _ ih =>
    rw [← List.append_assoc]
    exact ih (h.step hstep)

theorem Reaches.trans {log more : List Event} {job job' : Job} (h : a.Reaches log job)
    (hrun : Job.Run job more job') : a.Reaches (log ++ more) job' := by
  obtain ⟨rest, hfirst, rfl⟩ := h
  exact ⟨rest ++ more, hfirst.trans hrun, List.append_assoc ..⟩

theorem start_of_serial (h : a.serial = true) :
    a.start = a.underWay [] (Job.numbered (a.parts.map .ready) 0) := by
  rw [start, h]
  rfl

/-- The first parts of a serial agenda may come in in turn, whatever they come to. -/
theorem reaches_underWay (h : a.serial = true) {first rest : List Plan} {finished : List Settled}
    (hparts : a.parts = first ++ rest) (hfinished : List.Forall₂ Plan.RunsTo first finished) :
    a.Reaches (a.seen finished)
      (a.underWay finished (Job.numbered (rest.map .ready) first.length)) := by
  have hrun := Job.Run.in_turn hfinished ⟨.object a.keys, true⟩ (Tray.ofSize a.parts.length) 0
    (Job.numbered (rest.map .ready) first.length)
  refine ⟨finished.flatMap (·.events), ?_, rfl⟩
  have hjobs : Job.numbered (a.parts.map Job.ready) 0 =
      Job.numbered (first.map .ready) 0 ++ Job.numbered (rest.map .ready) first.length := by
    rw [hparts, List.map_append, Job.numbered_append, List.length_map, Nat.zero_add]
  rw [start_of_serial h, hjobs]
  exact hrun

/-- A serial agenda comes to exactly what carrying its parts out in turn comes to. -/
theorem reaches_iff_inTurn (h : a.serial = true) {log : List Event} {job : Job} :
    a.Reaches log job ↔ a.InTurn log job := by
  constructor
  · rintro ⟨rest, hrun, rfl⟩
    have hfirst : a.InTurn (a.seen []) a.start := start_of_serial h ▸ InTurn.next rfl .nil
    simpa [seen] using hfirst.run hrun
  · intro hturn
    cases hturn with
    | turn hparts hfinished hrun =>
      have hnone : true = true → ([] : List (Nat × Job)) = [] := fun _ => rfl
      exact (reaches_underWay h hparts hfinished).trans (.within hnone hrun)
    | last hfinished =>
      exact reaches_underWay h (List.append_nil _).symm hfinished
    | @ended finished hfinished =>
      have hlast := reaches_underWay h (List.append_nil _).symm hfinished
      have hassemble := Job.Step.assemble ⟨.object a.keys, true⟩ true (a.filled finished)
      simpa using hlast.trans (.single hassemble)

/-- A serial agenda that came to its end carried out all its parts to their ends in turn. -/
theorem Reaches.finished {log : List Event} {result : Option Value}
    (hreaches : a.Reaches log (.ended result)) (h : a.serial = true) :
    ∃ finished, List.Forall₂ Plan.RunsTo a.parts finished ∧ log = a.seen finished := by
  generalize hjob : Job.ended result = job at hreaches
  cases (reaches_iff_inTurn h).mp hreaches with
  | turn | last => cases hjob
  | ended hfinished =>
    cases hjob
    exact ⟨_, hfinished, rfl⟩

end Agenda

/-- The place of a path among root keys: its first step is the key of a root field. -/
def Path.turn (keys : List String) : Path → Nat
  | .field key :: _ => keys.idxOf key
  | _ => 0

theorem Path.turn_of_prefix {keys : List String} {key : String} {p : Path}
    (h : [.field key] <+: p) : p.turn keys = keys.idxOf key := by
  obtain ⟨rest, rfl⟩ := h
  rfl

namespace Agenda

variable {a : Agenda}

/-- Every part of an agenda keeps to the key of its own, and its errors are those of the root. -/
structure Keyed (a : Agenda) : Prop where
  keys : a.keys.Nodup
  parts : Plan.AllFit (fun _ => True) a.parts [] (a.keys.map .field)
  errors : ∀ e ∈ a.errors, e.path = []

/-- What was seen of an agenda whose parts are carried out in turn is what was seen of its parts,
one after the other. Only one of them has calls under way. -/
theorem InTurn.portions {log : List Event} {job : Job} (h : a.InTurn log job) :
    ∃ first rest portions, a.parts = first ++ rest ∧
      List.Forall₂ (fun part portion => (Job.ready part).Leaves portion) first portions ∧
      (Job.Portion.mk log job).marks =
        Event.marks (a.errors.map .reported) ++ portions.flatMap Job.Portion.marks ∧
      (job.front = [] ∨ ∃ portion ∈ portions, job.front = portion.job.front) := by
  have hdone {first : List Plan} {finished : List Settled}
      (hfinished : List.Forall₂ Plan.RunsTo first finished) :
      List.Forall₂ (fun part portion => (Job.ready part).Leaves portion) first
        (finished.map fun s => ⟨s.events, .ended s.result⟩) :=
    List.forall₂_map_right_iff.mpr hfinished
  have hmarks (finished : List Settled) : Event.marks (a.seen finished) =
      Event.marks (a.errors.map .reported) ++
        (finished.map fun s => Job.Portion.mk s.events (.ended s.result)).flatMap
          Job.Portion.marks := by
    simp [seen, Event.marks, List.flatMap_map, List.map_flatMap, Job.Portion.marks, Job.front,
      Plan.awaited]
  cases h with
  | @turn first rest part finished log job hparts hfinished hrun =>
    have hlast : (Job.ready part).Leaves ⟨log, job⟩ := hrun
    refine ⟨first ++ [part], rest, _ ++ [⟨log, job⟩], by simp [hparts],
      List.rel_append (hdone hfinished) (.cons hlast .nil), ?_, .inr ⟨⟨log, job⟩, by simp, ?_⟩⟩
    · rw [List.flatMap_append, ← List.append_assoc, ← hmarks]
      simp [Job.Portion.marks, underWay, Job.front, Job.frontOf]
    · simp [underWay, Job.front, Job.frontOf]
  | last hfinished =>
    refine ⟨a.parts, [], _, (List.append_nil _).symm, hdone hfinished, ?_, .inl rfl⟩
    rw [← hmarks]
    exact List.append_nil _
  | ended hfinished =>
    refine ⟨a.parts, [], _, (List.append_nil _).symm, hdone hfinished, ?_, .inl rfl⟩
    rw [← hmarks]
    exact List.append_nil _

/-- Everything that is seen of a part, and its calls that may be under way, are below a root key. -/
def Under (key : String) (portion : Job.Portion) : Prop := ∀ m ∈ portion.marks, [.field key] <+: m.1

theorem under_keys {call : Action → Prop} {parts : List Plan} {portions : List Job.Portion}
    (h : List.Forall₂ (fun part portion => (Job.ready part).Leaves portion) parts portions)
    {keys : List String} (hfit : Plan.AllFit call parts [] (keys.map .field)) :
    List.Forall₂ Under keys portions := by
  induction h generalizing keys with
  | nil =>
    obtain rfl : keys = [] := List.map_eq_nil_iff.mp hfit
    exact .nil
  | cons hpart _ ih =>
    obtain ⟨step, steps, hsteps, hfirst, hrest⟩ := hfit
    obtain ⟨key, keys, rfl, rfl, rfl⟩ := List.map_eq_cons_iff.mp hsteps
    exact .cons (hfirst.marks_spread hpart).below (ih hrest)

theorem Under.turn {key : String} {portion : Job.Portion} (h : Under key portion)
    {before after : List String} (hkey : key ∉ before) {m : Path × Mark} (hm : m ∈ portion.marks) :
    m.1.turn (before ++ key :: after) = before.length := by
  rw [Path.turn_of_prefix (h m hm), List.idxOf_append_of_notMem hkey, List.idxOf_cons_self,
    Nat.add_zero]

/-- What is seen of parts below different keys, one after the other, keeps to the order of the
keys. -/
theorem pairwise_turn {all : List String} (hall : all.Nodup) {keys : List String}
    {portions : List Job.Portion} (h : List.Forall₂ Under keys portions)
    (before after : List String) (hkeys : all = before ++ keys ++ after) :
    (portions.flatMap Job.Portion.marks).Pairwise (fun m n => m.1.turn all ≤ n.1.turn all) ∧
      ∀ m ∈ portions.flatMap Job.Portion.marks, before.length ≤ m.1.turn all := by
  induction h generalizing before with
  | nil => simp
  | @cons key portion keys portions hkey _ ih =>
    have hsplit : all = before ++ key :: (keys ++ after) := by simp [hkeys]
    have hnew : key ∉ before := fun hmem =>
      (List.nodup_append.mp (hsplit ▸ hall)).2.2 key hmem key List.mem_cons_self rfl
    have hturn (m) (hm : m ∈ portion.marks) : m.1.turn all = before.length :=
      hsplit ▸ hkey.turn hnew hm
    obtain ⟨hsorted, hlater⟩ := ih (before ++ [key]) (by simp [hkeys])
    have hafter (m) (hm : m ∈ portions.flatMap Job.Portion.marks) : before.length < m.1.turn all := by
      have hle := hlater m hm
      rwa [List.length_append] at hle
    rw [List.flatMap_cons]
    constructor
    · refine List.pairwise_append.mpr ⟨?_, hsorted, fun m hm n hn => ?_⟩
      · exact List.pairwise_of_forall_mem_list fun m hm n hn =>
          Nat.le_of_eq ((hturn m hm).trans (hturn n hn).symm)
      · rw [hturn m hm]
        exact Nat.le_of_lt (hafter n hn)
    · intro m hm
      rcases List.mem_append.mp hm with hm | hm
      · exact Nat.le_of_eq (hturn m hm).symm
      · exact Nat.le_of_lt (hafter m hm)

/-- Nothing of a root field is seen after something of a later one, and the calls that may be under
way are those of one root field. -/
theorem InTurn.in_order (hk : a.Keyed) {log : List Event} {job : Job} (h : a.InTurn log job) :
    (Job.Portion.mk log job).marks.Pairwise (fun m n => m.1.turn a.keys ≤ n.1.turn a.keys) ∧
      ∀ p ∈ job.front, ∀ q ∈ job.front, p.turn a.keys = q.turn a.keys := by
  obtain ⟨first, rest, portions, hparts, hportions, hmarks, hfront⟩ := h.portions
  obtain ⟨keys, after, hkeys, hfit⟩ : ∃ keys after, a.keys = keys ++ after ∧
      Plan.AllFit (fun _ => True) first [] (keys.map .field) := by
    have hfits := Plan.allFit_iff.mp (hparts ▸ hk.parts)
    obtain ⟨_, _, hfirst, -, hsteps⟩ := forall₂_append.mp hfits
    obtain ⟨keys, after, hkeys, rfl, -⟩ := List.map_eq_append_iff.mp hsteps
    exact ⟨keys, after, hkeys, Plan.allFit_iff.mpr hfirst⟩
  have hunder := under_keys hportions hfit
  constructor
  · have hroot (m) (hm : m ∈ Event.marks (a.errors.map .reported)) : m.1.turn a.keys = 0 := by
      obtain ⟨_, hevent, rfl⟩ := List.mem_map.mp hm
      obtain ⟨e, he, rfl⟩ := List.mem_map.mp hevent
      rw [Event.mark, hk.errors e he]
      rfl
    obtain ⟨hsorted, -⟩ := pairwise_turn hk.keys hunder [] after hkeys
    rw [hmarks]
    refine List.pairwise_append.mpr ⟨?_, hsorted, fun m hm n _ => (hroot m hm).symm ▸ Nat.zero_le _⟩
    exact List.pairwise_of_forall_mem_list fun m hm n hn =>
      Nat.le_of_eq ((hroot m hm).trans (hroot n hn).symm)
  · rcases hfront with hnone | ⟨portion, hportion, hfront⟩
    · simp [hnone]
    · obtain ⟨i, hi, rfl⟩ := List.getElem_of_mem hportion
      have hkey := hunder.get (hunder.length_eq ▸ hi) hi
      have hturn (p) (hp : p ∈ job.front) : p.turn a.keys = a.keys.idxOf (keys.get ⟨i, _⟩) :=
        Path.turn_of_prefix (hkey (p, .answered)
          (List.mem_append_right _ (List.mem_map_of_mem (hfront ▸ hp))))
      intro p hp q hq
      rw [hturn p hp, hturn q hq]

end Agenda

namespace Schema

variable {s : Schema}

/-- The root fields of a request have keys of their own. -/
theorem keyed_agenda {r : Request} {o : Opening} (ho : s.opening r = .ok o) (depth : Nat) :
    (o.agenda depth).Keyed := by
  obtain ⟨hroot, hgraph⟩ := opening_eq ho
  obtain ⟨name, hname⟩ := root?_type? hroot
  have hdoes := hgraph ▸ s.graph.does_anything
  constructor
  · exact (o.scope.tidy_collect o.root o.operation.selections).keys
  · have hsteps : (o.agenda depth).keys.map PathSegment.field =
        (o.scope.collect o.root o.operation.selections).groups.map fun group => .field group.key :=
      List.map_map ..
    rw [hsteps]
    exact Plan.allFit_map fun group _ => Scope.fits_planGroup hdoes
      (Scope.fits_planObject hdoes depth) (s.graph.does_anything name o.root hname) none [] group
  · intro e he
    obtain ⟨spread, -, rfl⟩ := List.mem_map.mp he
    rfl

/-- At every moment of a run of a request, what was seen and the calls that may be under way are
there once each: no position is resolved twice and no transformation is applied again, however many
selections were merged there. What can be seen of a mutation is exactly what carrying its root fields
out in turn shows, in the order of their keys: everything below a key comes before anything below a
later one, and the calls under way are below one key. A mutation that ends has carried out every root
field to its end, whatever the ones before it came to. -/
theorem invoked_once_in_turn {r : Request} {o : Opening} (ho : s.opening r = .ok o) (depth : Nat) :
    (∀ log job, (o.agenda depth).Reaches log job → (Job.Portion.mk log job).marks.Nodup) ∧
    (o.operation.kind = .mutation →
      (∀ log job, (o.agenda depth).Reaches log job ↔ (o.agenda depth).InTurn log job) ∧
      (∀ log job, (o.agenda depth).Reaches log job →
        (Job.Portion.mk log job).marks.Pairwise (fun m n =>
          m.1.turn (o.agenda depth).keys ≤ n.1.turn (o.agenda depth).keys) ∧
        ∀ p ∈ job.front, ∀ q ∈ job.front,
          p.turn (o.agenda depth).keys = q.turn (o.agenda depth).keys) ∧
      (∀ log result, (o.agenda depth).Reaches log (.ended result) → ∃ finished,
        List.Forall₂ Plan.RunsTo (o.agenda depth).parts finished ∧
          log = (o.agenda depth).seen finished) ∧
      ∀ workers outcome rest, s.executeOn? workers depth r = some (.ok outcome, rest) →
        ∃ finished, List.Forall₂ Plan.RunsTo (o.agenda depth).parts finished ∧
          ∃ result, (o.agenda depth).Reaches ((o.agenda depth).seen finished) (.ended result) ∧
            Agenda.recorded ((o.agenda depth).seen finished) result =
              (outcome.data, outcome.errors)) := by
  have hkeyed := keyed_agenda ho depth
  refine ⟨fun log job h => (fits_agenda ho s.graph.does_anything depth).marks_nodup h, fun hkind => ?_⟩
  have hserial : (o.agenda depth).serial = true := decide_eq_true hkind
  refine ⟨fun log job => Agenda.reaches_iff_inTurn hserial, fun log job h => ?_, ?_, ?_⟩
  · exact ((Agenda.reaches_iff_inTurn hserial).mp h).in_order hkeyed
  · exact fun log result h => h.finished hserial
  · intro workers outcome rest hrun
    obtain ⟨other, hother, log, result, hreaches, hrecorded⟩ := exists_reaches_of_executeOn hrun
    obtain rfl : o = other := Except.ok.inj (ho.symm.trans hother)
    obtain ⟨finished, hfinished, rfl⟩ := hreaches.finished hserial
    exact ⟨finished, hfinished, result, hreaches, hrecorded⟩

end Schema

namespace Sample

open Document

def delete : Property :=
  ⟨"delete", none, .current, .named "Int" true, [], .extension,
    ⟨.ofKinds [], .scalar .int, .suspending none fun _ _ =>
      .answer (.error (.ofMessage "locked"))⟩, []⟩

def mutation : ObjectType := ⟨"Mutation", none, none, [delete, latest]⟩

def writable : Schema where
  graph := { schema.graph with
    types := schema.graph.types ++ [("Mutation", .object mutation)]
    mutation := some "Mutation" }
  configuration := .default

/-- The operation `mutation { delete latest { title } latest { title year } }`. -/
def changing : Operation :=
  ⟨.origin, .mutation, none, [], [],
    [field 11 "delete" none, field 18 "latest" (some [field 27 "title" none]),
      field 35 "latest" (some [field 44 "title" none, field 50 "year" none])]⟩

def changes : Request := ⟨[.operation changing], none, [], []⟩

def changesOpening : Opening := ⟨⟨writable.graph, changes.document, [], []⟩, mutation, changing⟩

theorem opening_changes : writable.opening changes = .ok changesOpening := rfl

/-- The deletion makes the data null, and still the other field was carried out. -/
def locked : Outcome :=
  ⟨.null, [⟨⟨0, 11⟩, [.field "delete"], .ofMessage "locked", .resolver⟩,
    ⟨⟨0, 50⟩, [.field "latest", .field "year"], .ofMessage "not released", .resolver⟩], []⟩

theorem execute_changes : writable.execute? 2 changes = some (.ok locked) := by cbv

end Sample

namespace Schema

theorem invoked_once_in_turn_sample :
    Sample.writable.opening Sample.changes = .ok Sample.changesOpening ∧
    Sample.changesOpening.operation.kind = .mutation ∧
    (∀ log job, (Sample.changesOpening.agenda 2).Reaches log job →
      (Job.Portion.mk log job).marks.Nodup) ∧
    ∃ finished, List.Forall₂ Plan.RunsTo (Sample.changesOpening.agenda 2).parts finished ∧
      ∃ result, Agenda.recorded ((Sample.changesOpening.agenda 2).seen finished) result =
        (Sample.locked.data, Sample.locked.errors) := by
  obtain ⟨honce, hturns⟩ := Sample.writable.invoked_once_in_turn Sample.opening_changes 2
  obtain ⟨-, -, -, hexecuted⟩ := hturns rfl
  obtain ⟨⟨_, rest⟩, hrun, rfl⟩ := Option.map_eq_some_iff.mp Sample.execute_changes
  obtain ⟨finished, hfinished, result, -, hrecorded⟩ := hexecuted _ _ _ hrun
  exact ⟨Sample.opening_changes, rfl, honce, finished, hfinished, result, hrecorded⟩

end Schema

end Trellis
