import Mathlib
import Trellis.Proofs.Execution.Opening

/-!
The order in which calls end cannot be seen in a response.

If the resolvers of a schema are functions of what they are called with, every run of a request ends
with the same data and the same sorted errors. They are those of carrying everything out one after
another in the order of the selections, and no run gets stuck on the way to them.
-/

namespace Trellis

namespace Runner

/-- Parts of one rank are carried out in place. -/
theorem inOrder_zero (runners : List Runner) :
    inOrder (runners.map fun _ => 0) runners = inPlace runners := by
  have hzero : ∀ entry ∈ (runners.map fun _ => 0).zip runners.zipIdx, entry.1 = 0 := by
    intro entry hentry
    obtain ⟨_, _, hzero⟩ := List.mem_map.mp (List.of_mem_zip hentry).1
    exact hzero.symm
  have hsorted : ((runners.map fun _ => 0).zip runners.zipIdx).Pairwise
      fun a b => decide (a.1 ≤ b.1) = true :=
    List.pairwise_of_forall_mem_list fun a ha b hb => by simp [hzero a ha, hzero b hb]
  have hsnd : ((runners.map fun _ => 0).zip runners.zipIdx).map (·.2) = runners.zipIdx := by
    rw [← List.unzip_snd, List.unzip_zip (by simp)]
  have hplaced := congrArg (List.map fun (part : Runner × Nat) => (part.2, part.1)) hsnd
  rw [List.map_map] at hplaced
  rw [inOrder, List.mergeSort_of_pairwise hsorted]
  exact hplaced

end Runner

namespace Agenda

/-- The outcome of carrying out an agenda one call after another, each in its place; nothing if some
call never ends. -/
def sequential? (a : Agenda) : Option Outcome :=
  (a.run fun _ => 0).bind fun e =>
    if Call.anyEndless e.calls then none else some (.ofEnded e)

theorem Fits.steady {a : Agenda} (h : a.Fits Action.Steady) : a.Steady := by
  have hplan : (Plan.reportAll a.errors (.together ⟨.object a.keys, true⟩ a.parts)).Steady :=
    Plan.Fits.steady h
  have hrest : (Plan.together ⟨.object a.keys, true⟩ a.parts).Steady := by
    generalize a.errors = errors at hplan
    induction errors with
    | nil => exact hplan
    | cons e errors ih => exact ih hplan
  exact Plan.steady_together.mp hrest

theorem Fits.recorded_unique {a : Agenda} (h : a.Fits Action.Steady) {log log' : List Event}
    {result result' : Option Value} (hrun : a.Reaches log (.ended result))
    (hrun' : a.Reaches log' (.ended result')) : recorded log result = recorded log' result' := by
  obtain ⟨s, hs, rfl, hperm⟩ := hrun.settles
  obtain ⟨t, ht, rfl, hperm'⟩ := hrun'.settles
  obtain rfl := (Plan.Fits.steady h).settles_unique hs ht
  have herrors : (Event.errors log).Perm (Event.errors log') :=
    (hperm.symm.trans hperm').filterMap _
  rw [recorded, recorded, ExecutionError.sort_eq_of_perm herrors (h.nodup_errors hrun)]

theorem exists_reaches_of_sequential {a : Agenda} {o : Outcome} (h : a.sequential? = some o) :
    ∃ log result, a.Reaches log (.ended result) ∧ recorded log result = (o.data, o.errors) := by
  obtain ⟨e, he, hends⟩ := Option.bind_eq_some_iff.mp h
  split at hends
  · cases hends
  · rename_i hfinite
    cases hends
    obtain ⟨log, hreaches, herrors⟩ := reaches_of_run he (Bool.eq_false_iff.mpr hfinite)
    exact ⟨log, e.result, hreaches, by rw [recorded, Outcome.ofEnded, herrors]⟩

/-- What steady calls are recorded with one after another, they are recorded with in every run, and
every run gets there. -/
theorem Fits.sequential {a : Agenda} (h : a.Fits Action.Steady) {o : Outcome}
    (ho : a.sequential? = some o) {log : List Event} {job : Job} (hrun : a.Reaches log job) :
    job.Completes ∧ ∀ result, job = .ended result → recorded log result = (o.data, o.errors) := by
  obtain ⟨first, result, hfirst, hrecorded⟩ := exists_reaches_of_sequential ho
  constructor
  · obtain ⟨_, hrest, -⟩ := hfirst
    obtain ⟨s, hs, -⟩ := Job.settles_of_ended hrest a.orderly_start
    obtain ⟨_, hjob, -⟩ := hrun
    exact h.steady.completes hs hjob
  · rintro result rfl
    rw [← hrecorded]
    exact h.recorded_unique hrun hfirst

/-- If some run of steady calls comes to its end, so does carrying them out one after another. -/
theorem Fits.exists_sequential {a : Agenda} (h : a.Fits Action.Steady) {log : List Event}
    {result : Option Value} (hrun : a.Reaches log (.ended result)) :
    ∃ o, a.sequential? = some o := by
  obtain ⟨_, hrest, -⟩ := hrun
  obtain ⟨s, hs, -⟩ := Job.settles_of_ended hrest a.orderly_start
  obtain ⟨e, he, hends⟩ := h.steady.finishes hs fun _ => 0
  exact ⟨.ofEnded e, by rw [sequential?, he, Option.bind_some, hends]; rfl⟩

end Agenda

namespace Schema

variable {s : Schema}

/-- If resolvers are functions of what they are called with, the order in which calls end does not
show. Carrying everything out one after another comes to an end exactly if some run does. Then no
run gets stuck, every run that ends is recorded with the same data and errors, and no two of the
errors agree on both path and message. At every moment of a run the slots of parts that are under
way are empty, and the others are filled unless a part failed. What workers answer is recorded in
such a run as well. -/
theorem schedule_independent (hs : s.graph.Steady) {r : Request} {o : Opening}
    (ho : s.opening r = .ok o) (depth : Nat) :
    ((∃ outcome, (o.agenda depth).sequential? = some outcome) ↔
      ∃ log result, (o.agenda depth).Reaches log (.ended result)) ∧
    (∀ log job, (o.agenda depth).Reaches log job → job.Orderly) ∧
    (∀ log result, (o.agenda depth).Reaches log (.ended result) →
      ((Event.errors log).map ExecutionError.signature).Nodup) ∧
    (∀ outcome, (o.agenda depth).sequential? = some outcome →
      ∀ log job, (o.agenda depth).Reaches log job → job.Completes ∧ ∀ result, job = .ended result →
        Agenda.recorded log result = (outcome.data, outcome.errors)) ∧
    ∀ workers outcome rest, s.executeOn? workers depth r = some (.ok outcome, rest) →
      ∃ sequential, (o.agenda depth).sequential? = some sequential ∧
        (outcome.data, outcome.errors) = (sequential.data, sequential.errors) := by
  have hfits := fits_agenda ho hs depth
  refine ⟨⟨?_, ?_⟩, ?_, ?_, ?_, ?_⟩
  · rintro ⟨outcome, houtcome⟩
    obtain ⟨log, result, hrun, -⟩ := Agenda.exists_reaches_of_sequential houtcome
    exact ⟨log, result, hrun⟩
  · rintro ⟨log, result, hrun⟩
    exact hfits.exists_sequential hrun
  · rintro log job ⟨rest, hrun, -⟩
    exact (o.agenda depth).orderly_start.run hrun
  · exact fun log result hrun => hfits.nodup_errors hrun
  · exact fun outcome houtcome log job hrun => hfits.sequential houtcome hrun
  · intro workers outcome rest h
    obtain ⟨other, hother, log, result, hrun, hrecorded⟩ := exists_reaches_of_executeOn h
    obtain rfl : o = other := Except.ok.inj (ho.symm.trans hother)
    obtain ⟨sequential, hsequential⟩ := hfits.exists_sequential hrun
    refine ⟨sequential, hsequential, ?_⟩
    rw [← hrecorded]
    exact (hfits.sequential hsequential hrun).2 result rfl

end Schema

namespace Sample

open Document

def film : HostType := .named "studio::Film"

def title : Property :=
  ⟨"title", none, .current, .named "String" true, [], .native,
    .ofField film ⟨"title", .scalar .text, fun v => .single .text (v.field "title")⟩, []⟩

/-- The year of a film, which fails for films that are not released. -/
def year : Property :=
  ⟨"year", none, .current, .named "Int" true, [], .extension,
    ⟨.ofKinds [], .scalar .int, .blocking (some film) fun _ _ =>
      .answer (.error (.ofMessage "not released"))⟩, []⟩

def latest : Property :=
  ⟨"latest", none, .current, .named "Film" false, [], .extension,
    ⟨.ofKinds [], .nullable (.optional film) (.object film film), .suspending none fun _ _ =>
      .answer (.ok (.single film (.record [("title", .text "Nightfall")])))⟩, []⟩

def tags : Property :=
  ⟨"tags", none, .current, .list (.named "String" false) true, [], .extension,
    ⟨.ofKinds [], .list (.sequence (.optional .text)) (.nullable (.optional .text) (.scalar .text)),
      .blocking none fun _ _ => .answer (.ok (.list [.single .text (.text "noir"), .null]))⟩, []⟩

def schema : Schema where
  graph := ⟨[("String", .scalar .string), ("Int", .scalar .int),
    ("Film", .object ⟨"Film", none, some film, [title, year]⟩),
    ("Query", .object ⟨"Query", none, none, [latest, tags]⟩)],
    [(film, "Film")], [], [(.text, "String"), (.int, "Int")], "Query", none⟩
  configuration := .default

def field (column : Nat) (name : String) (selections : Option (List Selection)) : Selection :=
  .field ⟨⟨0, column⟩, none, name, [], [], selections⟩

/-- The operation `{ latest { title year } tags rating ...Absent }`. -/
def operation : Operation :=
  ⟨.origin, .query, none, [], [],
    [field 2 "latest" (some [field 11 "title" none, field 17 "year" none]), field 24 "tags" none,
      field 29 "rating" none, .spread ⟨0, 36⟩ "Absent" []]⟩

def request : Request := ⟨[.operation operation], none, [], []⟩

def opening : Opening :=
  ⟨⟨schema.graph, request.document, [], []⟩, ⟨"Query", none, none, [latest, tags]⟩, operation⟩

def data : Value :=
  .object [("latest", .null), ("tags", .list [.string "noir", .null]), ("rating", .null)]

def errors : List ExecutionError :=
  [⟨⟨0, 17⟩, [.field "latest", .field "year"], .ofMessage "not released", .resolver⟩,
    ⟨⟨0, 29⟩, [.field "rating"], .ofMessage "Unknown field \"rating\" on type \"Query\"",
      .unknownField⟩,
    ⟨⟨0, 36⟩, [], .ofMessage "Unknown fragment \"Absent\"", .unknownField⟩]

theorem opening_request : schema.opening request = .ok opening := rfl

theorem sequential_opening : (opening.agenda 2).sequential? = some ⟨data, errors, []⟩ := by cbv

theorem steady_graph : schema.graph.Steady := by
  intro name object h p hp parent bounds
  have hmem := Entries.mem_of_lookup h
  have hproperty : p ∈ [title, year, latest, tags] := by
    simp only [schema, List.mem_cons, Prod.mk.injEq, List.not_mem_nil, or_false] at hmem
    rcases hmem with ⟨-, he⟩ | ⟨-, he⟩ | ⟨-, he⟩ | ⟨-, he⟩ <;> cases he
    · exact List.mem_append_left [latest, tags] hp
    · exact List.mem_append_right [title, year] hp
  simp only [List.mem_cons, List.not_mem_nil, or_false] at hproperty
  rcases hproperty with rfl | rfl | rfl | rfl
  · exact Action.steady_answer _
  · change (Resolver.call (.blocking (some film) _) parent bounds).Steady
    rw [Resolver.call]
    split <;> exact Action.steady_answer _
  · exact Action.steady_answer _
  · exact Action.steady_answer _

end Sample

namespace Schema

theorem schedule_independent_sample :
    (∃ log result, (Sample.opening.agenda 2).Reaches log (.ended result)) ∧
    ∀ log job, (Sample.opening.agenda 2).Reaches log job → job.Completes ∧ ∀ result,
      job = .ended result → Agenda.recorded log result = (Sample.data, Sample.errors) := by
  obtain ⟨hends, -, -, hrecorded, -⟩ :=
    Sample.schema.schedule_independent Sample.steady_graph Sample.opening_request 2
  exact ⟨hends.mp ⟨_, Sample.sequential_opening⟩, hrecorded _ Sample.sequential_opening⟩

end Schema

end Trellis
