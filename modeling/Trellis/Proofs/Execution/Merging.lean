import Trellis.Proofs.Execution.Answering
import Trellis.Proofs.Execution.Grouping

/-!
Groups of fields are resolved once.

An object of a response is resolved from the groups that its selections expand to. Each group is
resolved as one field, with the name and the arguments of its first member and the selections of all
of them, and everything that takes place at its path or below belongs to this. Right at the path of
the object nothing is recorded but that fragments are missing.
-/

namespace Trellis

open Document

namespace Opening

variable (o : Opening) (log : List Event) (data : Value) (errors : List ExecutionError)

/-- The fields of a group are resolved as one field below their object. All that took place there is
what the merged group settles to, and no call is made twice. What is shown there is its result. -/
structure ResolvedOnce (object : ObjectType) (parent : Option Erased) (path : Path)
    (group : FieldGroup) : Prop where
  settled : ∃ depth t,
    (o.scope.planGroup (o.scope.planObject depth) object parent path group.merged).Settles t ∧
    (log.filter fun e => path ++ [.field group.key] <+: e.mark.1).Perm t.events ∧
    ∀ value, data.follow? (path ++ [.field group.key]) = some value → t.result = some value
  once : (Event.marks log).count (path ++ [.field group.key], .answered) ≤ 1
  answers : o.Answers log data errors object parent (path ++ [.field group.key]) group.first.name
    group.first.arguments group.selections

/-- All objects of a response are resolved from what is collected for them: at their own paths the
missing fragments are recorded, and nothing else, and their groups are resolved once each. -/
def ResolvesCollected : Prop :=
  ∀ path place object selections, o.place? log path = some place →
    o.scope.objectAt? place = some (object, selections) →
      (errors.filter fun e => e.path = path).Perm
        ((o.scope.collect object selections).missing.map (Scope.missingFragment path)) ∧
      ∀ group ∈ (o.scope.collect object selections).groups,
        o.ResolvedOnce log data errors object place.parent? path group

variable {o log data} {path : Path} {place : Place}

theorem place?_concat_ne_root {step : PathSegment} {type : ObjectType} {selections : List Selection} :
    o.place? log (path ++ [step]) ≠ some (.root type selections) := by
  rw [place?_concat]
  intro h
  obtain ⟨above, -, hstep⟩ := Option.bind_eq_some_iff.mp h
  rw [Scope.step?.eq_def] at hstep
  split at hstep
  · obtain ⟨⟨object, inner⟩, -, hgroups⟩ := Option.bind_eq_some_iff.mp hstep
    obtain ⟨group, -, hplace⟩ := Option.map_eq_some_iff.mp hgroups
    rw [Scope.fieldPlace] at hplace
    split at hplace
    · cases hplace
    · split at hplace <;> cases hplace
  · split at hstep
    · obtain ⟨item, -, hplace⟩ := Option.map_eq_some_iff.mp hstep
      cases hplace
    · cases hstep

/-- An object of a response was laid out, and all errors at its path or below are among what it
settled to. -/
theorem exists_object_of_place? {depth : Nat} (hmarks : (Event.marks log).Nodup)
    (hrun : (o.agenda depth).Reaches log (.ended (some data)))
    (hplace : o.place? log path = some place) {object : ObjectType} {selections : List Selection}
    (hobject : o.scope.objectAt? place = some (object, selections)) :
    ∃ depth t, (o.scope.planObject (depth + 1) object place.parent? selections path
      place.isNullable).Settles t ∧ t.events ⊆ log ∧
        ∀ e ∈ Event.errors log, path <+: e.path → e ∈ Event.errors t.events := by
  cases path using List.reverseRecOn with
  | nil =>
    cases hplace
    cases hobject
    obtain ⟨t, ht, -, hperm⟩ := hrun.settles
    exact ⟨depth, t, ht, hperm.subset, fun e he _ => (hperm.filterMap _).mem_iff.mpr he⟩
  | append_singleton path step =>
    have htraced := traced_of_place? hmarks hrun hplace
    rw [Scope.objectAt?.eq_def] at hobject
    split at hobject
    · exact absurd hplace place?_concat_ne_root
    · obtain ⟨_, hfor, he⟩ := Option.map_eq_some_iff.mp hobject
      cases he
      obtain ⟨depth, location, t, ht, hwithin, howned⟩ := htraced.value _ _ _ rfl
      rw [Scope.complete, Scope.completeSingle_of_objectFor? hfor] at ht
      cases depth with
      | zero => exact ht.elim
      | succ depth => exact ⟨depth, t, ht, hwithin.events, howned⟩
    · cases hobject

end Opening

namespace Scope

variable {scope : Scope}

/-- Right at the path of an object only missing fragments are reported. -/
theorem mem_missing_of_planObject {depth : Nat} {object : ObjectType} {parent : Option Erased}
    {selections : List Selection} {path : Path} {nullable : Bool} {t : Settled}
    (ht : (scope.planObject (depth + 1) object parent selections path nullable).Settles t)
    {e : ExecutionError} : e ∈ Event.errors t.events ∧ e.path = path ↔
      e ∈ (scope.collect object selections).missing.map (missingFragment path) := by
  obtain ⟨u, hu, rfl⟩ := Plan.exists_of_reportAll ht
  have herrors : Event.errors (u.after (((scope.collect object selections).missing.map
      (missingFragment path)).map .reported)).events =
      (scope.collect object selections).missing.map (missingFragment path) ++
        Event.errors u.events := by
    rw [Settled.after, Event.errors_append, Event.errors_map_reported]
  rw [herrors, List.mem_append]
  constructor
  · rintro ⟨hmissing | hbelow, hpath⟩
    · exact hmissing
    · obtain ⟨each, heach, rfl⟩ := Plan.settles_together.mp hu
      have hplanner : FittingPlanner (fun _ => True) (scope.planObject depth) :=
        fits_planObject (TypeGraph.does_anything _) depth
      have hfit := allFit_groups (TypeGraph.does_anything scope.graph) hplanner
        object.does_anything parent (scope.collect object selections).groups path
      have hsteps := nodup_steps (scope.tidy_collect object selections)
      obtain ⟨-, hunder⟩ := hfit.spread hsteps (fun s => Event.marks s.events) heach
        fun part _ _ _ hq hsettles => hq.spread hsettles
      rw [Tray.settle, Plan.flatMap_numbered] at hbelow
      obtain ⟨event, hevent, hreported⟩ := List.mem_filterMap.mp hbelow
      obtain ⟨step, -, hprefix⟩ := hunder event.mark (by
        rw [← List.map_flatMap]
        exact List.mem_map_of_mem hevent)
      cases event <;> cases hreported
      -- What a group reports is below its step, and so never at the path of the object itself.
      have hlength : (path ++ [step]).length ≤ e.path.length := hprefix.length_le
      rw [hpath, List.length_append, List.length_singleton] at hlength
      omega
  · intro hmissing
    obtain ⟨spread, -, rfl⟩ := List.mem_map.mp hmissing
    exact ⟨.inl hmissing, rfl⟩

end Scope

namespace Opening

variable {o : Opening} {log : List Event} {data : Value} {errors : List ExecutionError}

theorem resolvesCollected_of_reaches {depth : Nat} (hmarks : (Event.marks log).Nodup)
    (hnodup : ((Event.errors log).map ExecutionError.signature).Nodup)
    (herrors : errors.Perm (Event.errors log))
    (hrun : (o.agenda depth).Reaches log (.ended (some data))) :
    o.ResolvesCollected log data errors := by
  intro path place object selections hplace hobject
  constructor
  · obtain ⟨_, t, ht, hsub, howned⟩ := exists_object_of_place? hmarks hrun hplace hobject
    have hmissing := Scope.nodup_missingFragment (o.scope.tidy_collect object selections) path
    refine (herrors.filter _).trans
      ((List.perm_ext_iff_of_nodup (hnodup.of_map.filter _) hmissing.of_map).mpr fun e => ?_)
    rw [List.mem_filter, decide_eq_true_eq, ← Scope.mem_missing_of_planObject ht]
    constructor
    · rintro ⟨he, hpath⟩
      exact ⟨howned e he (by rw [hpath]), hpath⟩
    · rintro ⟨he, hpath⟩
      obtain ⟨event, hevent, hreported⟩ := List.mem_filterMap.mp he
      exact ⟨List.mem_filterMap.mpr ⟨event, hsub hevent, hreported⟩, hpath⟩
  · intro group hgroup
    obtain ⟨depth, t, ht, hwithin, howned⟩ :=
      (traced_of_place? hmarks hrun hplace).group hobject hgroup
    have hplanner : Scope.FittingPlanner (fun _ => True) (o.scope.planObject depth) :=
      Scope.fits_planObject (TypeGraph.does_anything _) depth
    have hspread := (Scope.fits_planGroup (TypeGraph.does_anything o.scope.graph) hplanner
      object.does_anything place.parent? path group).spread ht
    have hperm : (log.filter fun e => path ++ [.field group.key] <+: e.mark.1).Perm t.events := by
      refine (List.perm_ext_iff_of_nodup (hmarks.of_map.filter _) hspread.nodup.of_map).mpr
        fun e => ?_
      rw [List.mem_filter, decide_eq_true_eq]
      constructor
      · rintro ⟨he, hpath⟩
        exact howned e he hpath
      · exact fun he => ⟨hwithin.events he, hspread.below e.mark (List.mem_map_of_mem he)⟩
    refine ⟨⟨depth, t, ?_, hperm, hwithin.shown⟩, List.nodup_iff_count_le_one.mp hmarks _, ?_⟩
    · rwa [← Scope.planGroup_merged]
    · exact answers_first (fun e he => herrors.mem_iff.mpr he) ht hwithin

end Opening

namespace Schema

/-- Collecting for an object comes to its end, for all selections and whatever fragments a document
has, and groups the depth-first expansion of the selections. In every run of a request to its end, and
so in what workers answer, every object is resolved from these groups, once each, and each unknown
fragment that is met is recorded once at the path of the object. -/
theorem expansions_grouped :
    (∀ (scope : Scope) (object : ObjectType) (L : List Selection),
      ∃ T met, scope.CollectsAs object L T met) ∧
    ∀ (s : Schema) (r : Request) (o : Opening), s.opening r = .ok o → ∀ depth,
      (∀ log result, (o.agenda depth).Reaches log (.ended result) →
        o.ResolvesCollected log (Agenda.recorded log result).1 (Agenda.recorded log result).2) ∧
      ∀ workers outcome rest, s.executeOn? workers depth r = some (.ok outcome, rest) →
        ∃ log result, (o.agenda depth).Reaches log (.ended result) ∧
          o.ResolvesCollected log outcome.data outcome.errors := by
  refine ⟨fun scope object L => scope.exists_collectsAs object L, fun s r o ho depth => ?_⟩
  have hruns (log : List Event) (result : Option Value)
      (hrun : (o.agenda depth).Reaches log (.ended result)) :
      o.ResolvesCollected log (Agenda.recorded log result).1 (Agenda.recorded log result).2 := by
    have hnodup := (fits_agenda ho (TypeGraph.does_anything _) depth).nodup_errors hrun
    obtain ⟨data, rfl, hdata⟩ := exists_data_of_reaches ho hrun
    rw [hdata]
    exact Opening.resolvesCollected_of_reaches (nodup_marks ho hrun) hnodup
      (List.mergeSort_perm ..) hrun
  exact ⟨hruns, fun workers outcome rest h => exists_reaches_of_outcome ho hruns h⟩

end Schema

namespace Sample

/-- The fragment `fragment A on Query { b: echo(word: "star") ...A ...Gone a: echo(word: "moon") }`,
which spreads itself. -/
def circle : Fragment :=
  ⟨⟨2, 0⟩, "A", "Query", [], [call 22 "b" (.string "star") [], .spread ⟨2, 44⟩ "A" [],
    .spread ⟨2, 49⟩ "Gone" [], call 57 "a" (.string "moon") []]⟩

/-- The operation `{ ...A a: echo(word: "sun") ...Gone ...A }`. The first fragment `A` of the document
is not the one that counts. -/
def circling : Request where
  document := [.operation ⟨.origin, .query, none, [], [], [.spread ⟨0, 2⟩ "A" [],
      call 7 "a" (.string "sun") [], .spread ⟨0, 28⟩ "Gone" [], .spread ⟨0, 36⟩ "A" []]⟩,
    .fragment ⟨⟨1, 0⟩, "A", "Query", [], []⟩, .fragment circle]
  operation := none
  values := []
  context := []

def circlingOpening : Opening :=
  ⟨⟨hall.graph, circling.document, [], []⟩, ⟨"Query", none, none, [echo]⟩,
    ⟨.origin, .query, none, [], [], [.spread ⟨0, 2⟩ "A" [], call 7 "a" (.string "sun") [],
      .spread ⟨0, 28⟩ "Gone" [], .spread ⟨0, 36⟩ "A" []]⟩⟩

end Sample

namespace Schema

open Sample

theorem expansions_grouped_sample : hall.opening circling = .ok circlingOpening ∧
    (∃ T met, circlingOpening.scope.CollectsAs circlingOpening.root
      circlingOpening.operation.selections T met) ∧
    ∃ log result, (circlingOpening.agenda 1).Reaches log (.ended result) ∧
      circlingOpening.ResolvesCollected log
        (.object [("b", .string "star"), ("a", .string "moon")])
        [⟨⟨2, 49⟩, [], .ofMessage "Unknown fragment \"Gone\"", .unknownField⟩] := by
  have hopening : hall.opening circling = .ok circlingOpening := rfl
  have hsequential : (circlingOpening.agenda 1).sequential? =
      some ⟨.object [("b", .string "star"), ("a", .string "moon")],
        [⟨⟨2, 49⟩, [], .ofMessage "Unknown fragment \"Gone\"", .unknownField⟩], []⟩ := by cbv
  obtain ⟨hcollects, hresolves⟩ := expansions_grouped
  obtain ⟨log, result, hrun, hrecorded⟩ := Agenda.exists_reaches_of_sequential hsequential
  have hresolved := (hresolves hall circling circlingOpening hopening 1).1 log result hrun
  rw [hrecorded] at hresolved
  exact ⟨hopening, hcollects _ _ _, log, result, hrun, hresolved⟩

end Schema

end Trellis
