import Trellis.Proofs.Execution.Nesting
import Trellis.Proofs.Execution.NullPropagation

/-!
Tracing a response back to what was laid out.

Every place that a run comes to was laid out by a plan, and what this plan settles to is part of the
run: its events took place, all that took place below the place are among them, and what the response
shows there is what it settles to. So what a place shows can be read off the plan for it, and a field
off the plan for the group that it was collected in.
-/

namespace Trellis

open Document

theorem Value.follow?_concat (v : Value) (path : Path) (step : PathSegment) :
    v.follow? (path ++ [step]) = (v.follow? path).bind (·.step? step) := by
  simp [follow?, List.foldlM_append]

namespace Settled

/-- What a plan settles to is part of a run: its events took place, all others below the path are
its own, and what the data show at the path is its result. -/
structure Within (t : Settled) (log : List Event) (data : Value) (path : Path) : Prop where
  events : t.events ⊆ log
  below : ∀ e ∈ log, path <+: e.mark.1 → e.mark.1 ≠ path → e ∈ t.events
  shown : ∀ value, data.follow? path = some value → t.result = some value

variable {t : Settled} {log : List Event} {data : Value} {path : Path}

theorem Within.of_after {events : List Event} (h : (t.after events).Within log data path)
    (hevents : ∀ e ∈ events, e.mark.1 = path) : t.Within log data path where
  events := (List.append_subset.mp h.events).2
  below e he hpath hne :=
    (List.mem_append.mp (h.below e he hpath hne)).resolve_left fun hin => hne (hevents e hin)
  shown := h.shown

end Settled

namespace Plan

variable {call : Action → Prop} {log : List Event} {data : Value} {path : Path}

section Gathering

variable {parts : List Plan} {steps : List PathSegment} {each : List Settled}
  (heach : List.Forall₂ Settles parts each) (hsteps : steps.Nodup)

include heach hsteps

/-- What a gathering sees at the end of a step or below it belongs to the part of this step. -/
theorem mem_events_of_step
    (hfits : List.Forall₂ (fun part step => Fits call part (path ++ [step]) []) parts steps)
    {e : Event} (he : e ∈ each.flatMap (·.events)) {i : Nat} (hi : i < each.length)
    (hi' : i < steps.length) (hpath : path ++ [steps[i]] <+: e.mark.1) : e ∈ each[i].events := by
  obtain ⟨u, hu, heu⟩ := List.mem_flatMap.mp he
  obtain ⟨j, hj, rfl⟩ := List.getElem_of_mem hu
  have hparts : j < parts.length := heach.length_eq ▸ hj
  have hspread := (hfits.get hparts (hfits.length_eq ▸ hparts)).spread (heach.get hparts hj)
  have hbelow := hspread.below e.mark (List.mem_map_of_mem heu)
  obtain rfl : j = i := hsteps.getElem_inj_iff.mp (Path.step_unique hbelow hpath)
  exact heu

/-- What is shown at the end of a step is what the part of this step settled to. -/
theorem result_of_step {scope : Scope} {place : Place} {frame : Frame}
    (hlength : parts.length = steps.length) (hcomposes : ∀ values : List Value,
      values.length = parts.length →
        scope.Composes place steps values (frame.assembly.compose values)) {whole value : Value}
    (hwhole : ((Tray.ofSize parts.length).settle frame (Job.numbered each 0)).result = some whole)
    {i : Nat} (hi : i < each.length) (hi' : i < steps.length)
    (hvalue : whole.step? steps[i] = some value) : each[i].result = some value := by
  rcases Settled.valued_or_failed each with ⟨valued, rfl⟩ | hfailed
  · have hvalued : parts.length = valued.length := by rw [heach.length_eq, List.length_map]
    rw [hvalued, Tray.settle_valued] at hwhole
    obtain rfl := Option.some.inj hwhole
    have hvalues : (valued.map (·.1)).length = parts.length := by rw [List.length_map, hvalued]
    obtain ⟨j, hj, hw⟩ := ((hcomposes _ hvalues).step?_eq_some_iff
      (hlength.symm.trans hvalues.symm)).mp hvalue
    obtain ⟨hj', heq⟩ := List.getElem?_eq_some_iff.mp hj
    obtain rfl : j = i := hsteps.getElem_inj_iff.mp heq
    obtain ⟨-, rfl⟩ := List.getElem?_eq_some_iff.mp hw
    simp [Settled.valued]
  · rw [Tray.settle_failed _ _ hfailed] at hwhole
    split at hwhole
    · cases hwhole
      cases hstep : steps[i] <;> rw [hstep] at hvalue <;> cases hvalue
    · cases hwhole

end Gathering

/-- Each part of a gathering that is part of a run is so as well, and all that took place at the end
of its step or below is its own. -/
theorem exists_part_within {scope : Scope} {place : Place} {frame : Frame} {parts : List Plan}
    {steps : List PathSegment} {t : Settled} (ht : (Plan.together frame parts).Settles t)
    (hfit : AllFit call parts path steps) (hsteps : steps.Nodup)
    (hcomposes : ∀ values : List Value, values.length = parts.length →
      scope.Composes place steps values (frame.assembly.compose values))
    (hwithin : t.Within log data path) {i : Nat} {part : Plan} {step : PathSegment}
    (hpart : parts[i]? = some part) (hstep : steps[i]? = some step) :
    ∃ u, part.Settles u ∧ u.Within log data (path ++ [step]) ∧
      ∀ e ∈ log, path ++ [step] <+: e.mark.1 → e ∈ u.events := by
  obtain ⟨each, heach, rfl⟩ := settles_together.mp ht
  have hfits := allFit_iff.mp hfit
  obtain ⟨hi, rfl⟩ := List.getElem?_eq_some_iff.mp hpart
  obtain ⟨hi', rfl⟩ := List.getElem?_eq_some_iff.mp hstep
  have hieach : i < each.length := heach.length_eq ▸ hi
  have hevents : ((Tray.ofSize parts.length).settle frame (Job.numbered each 0)).events =
      each.flatMap (·.events) := flatMap_numbered each 0
  have howned (e : Event) (he : e ∈ log) (hpath : path ++ [steps[i]] <+: e.mark.1) :
      e ∈ each[i].events := by
    have hne : e.mark.1 ≠ path := by
      intro heq
      have hlength := hpath.length_le
      rw [heq, List.length_append, List.length_singleton] at hlength
      omega
    have hin := hwithin.below e he ((List.prefix_append path [steps[i]]).trans hpath) hne
    rw [hevents] at hin
    exact mem_events_of_step heach hsteps hfits hin hieach hi' hpath
  refine ⟨each[i], heach.get hi hieach, ⟨fun e he => hwithin.events ?_,
    fun e he hpath _ => howned e he hpath, fun value hvalue => ?_⟩, howned⟩
  · rw [hevents]
    exact List.mem_flatMap.mpr ⟨_, List.getElem_mem hieach, he⟩
  · rw [Value.follow?_concat] at hvalue
    obtain ⟨whole, hwhole, hvalue⟩ := Option.bind_eq_some_iff.mp hvalue
    exact result_of_step heach hsteps hfits.length_eq hcomposes (hwithin.shown whole hwhole) hieach
      hi' hvalue

theorem exists_of_reportAll {errors : List ExecutionError} {rest : Plan} {t : Settled}
    (h : (reportAll errors rest).Settles t) :
    ∃ u, rest.Settles u ∧ t = u.after (errors.map .reported) := by
  induction errors generalizing t with
  | nil => exact ⟨t, h, rfl⟩
  | cons e errors ih =>
    obtain ⟨_, hrest, rfl⟩ := h
    obtain ⟨u, hu, rfl⟩ := ih hrest
    exact ⟨u, hu, rfl⟩

end Plan

/-- The value that stands at a place, if it is a single one. -/
def Place.parent? : Place → Option Erased
  | .value _ (some (.single host v)) _ => some ⟨host, v⟩
  | _ => none

namespace Scope

variable {scope : Scope} {log : List Event} {data : Value} {path : Path}

theorem composes_object {place : Place} {object : ObjectType} {selections : List Selection}
    (hobject : scope.objectAt? place = some (object, selections)) {values : List Value}
    (hlength : values.length = (scope.collect object selections).groups.length) :
    scope.Composes place ((scope.collect object selections).groups.map fun group => .field group.key)
      values ((Assembly.object (scope.collect object selections).keys).compose values) := by
  have hkeys := (scope.tidy_collect object selections).keys
  have hlengths : (scope.collect object selections).keys.length = values.length := by
    rw [hlength, Collected.keys, List.length_map]
  have h : scope.Composes place _ values _ := .object hobject
  rwa [← Assembly.compose_object hkeys hlengths, Collected.keys, List.map_map] at h

/-- What is laid out for an output that transformations hand out comes after calls at the path. -/
theorem exists_of_transformAll {provided : List (String × Literal)} {fail : CallError → Plan}
    {complete : Output → Plan} {transformations : List Transformation} {i : Nat}
    {output shown : Output} {t : Settled}
    (hshown : scope.transformed? provided transformations output = some shown)
    (ht : (scope.transformAll provided path fail complete i transformations output).Settles t) :
    ∃ u events, (complete shown).Settles u ∧ t = u.after events ∧
      (∀ e ∈ events, e.mark.1 = path) ∧ Event.errors events = [] := by
  induction transformations generalizing i output t with
  | nil =>
    cases hshown
    exact ⟨t, [], ht, rfl, nofun, rfl⟩
  | cons first rest ih =>
    rw [transformed?] at hshown
    rw [transformAll] at ht
    split at hshown
    · rename_i next hnext
      rw [hnext] at ht
      obtain ⟨_, hrest, rfl⟩ := ht
      obtain ⟨u, events, hu, rfl, hevents, herrors⟩ := ih hshown hrest
      exact ⟨u, .transformed path i :: events, hu, rfl, List.forall_mem_cons.mpr ⟨rfl, hevents⟩,
        herrors⟩
    · cases hshown

/-- An element of a list is completed at its index. -/
theorem getElem?_completeItems {plan : ObjectPlanner} {selections : List Selection}
    {location : Position} {items : List Output} {type : TypeLiteral} {start i : Nat} {item : Output}
    (h : items[i]? = some item) :
    (scope.completeItems plan selections location items type path start)[i]? =
      some (scope.complete plan selections location item type (path ++ [.index (start + i)])) := by
  induction items generalizing start i with
  | nil => cases h
  | cons first items ih =>
    rw [completeItems]
    cases i with
    | zero =>
      cases h
      rfl
    | succ i =>
      rw [List.getElem?_cons_succ, ih h]
      congr 5
      omega

end Scope

namespace Opening

/-- A place was laid out, and what it settled to is part of a run: the object that stands there, or
the output that was handed out for it, with all errors there or below. -/
structure Traced (o : Opening) (log : List Event) (data : Value) (path : Path) (place : Place) :
    Prop where
  object : ∀ object selections, o.scope.objectAt? place = some (object, selections) →
    ∃ depth t, (o.scope.planObject (depth + 1) object place.parent? selections path
      place.isNullable).Settles t ∧ t.Within log data path
  value : ∀ type output selections, place = .value type (some output) selections →
    ∃ depth location t, (o.scope.complete (o.scope.planObject depth) selections location output type
      path).Settles t ∧ t.Within log data path ∧
        ∀ e ∈ Event.errors log, path <+: e.path → e ∈ Event.errors t.events

variable {o : Opening} {log : List Event} {data : Value} {path : Path} {place : Place}

theorem traced_of_none (hobject : o.scope.objectAt? place = none)
    (hvalue : ∀ type output selections, place ≠ .value type (some output) selections) :
    o.Traced log data path place where
  object object selections h := by cases hobject.symm.trans h
  value type output selections h := absurd h (hvalue type output selections)

theorem errors_of_owned {events : List Event}
    (howned : ∀ e ∈ log, path <+: e.mark.1 → e ∈ events) {e : ExecutionError}
    (he : e ∈ Event.errors log) (hpath : path <+: e.path) : e ∈ Event.errors events := by
  obtain ⟨event, hevent, hreported⟩ := List.mem_filterMap.mp he
  cases event <;> cases hreported
  exact List.mem_filterMap.mpr ⟨_, howned _ hevent hpath, rfl⟩

/-- An object is traced as the output that it is. -/
theorem Traced.of_value {type : TypeLiteral} {output : Output} {selections : List Selection}
    {depth : Nat} {location : Position} {t : Settled}
    (ht : (o.scope.complete (o.scope.planObject depth) selections location output type path).Settles
      t) (hwithin : t.Within log data path)
    (herrors : ∀ e ∈ Event.errors log, path <+: e.path → e ∈ Event.errors t.events) :
    o.Traced log data path (.value type (some output) selections) where
  object object inner hobject := by
    rw [Scope.objectAt?.eq_def] at hobject
    split at hobject
    · rename_i heq
      cases heq
    · rename_i name nonNull host value selections heq
      cases heq
      obtain ⟨_, hfor, he⟩ := Option.map_eq_some_iff.mp hobject
      cases he
      rw [Scope.complete, Scope.completeSingle_of_objectFor? hfor] at ht
      cases depth with
      | zero => exact ht.elim
      | succ depth => exact ⟨depth, t, ht, hwithin⟩
    · cases hobject
  value _ _ _ heq := by
    cases heq
    exact ⟨depth, location, t, ht, hwithin, herrors⟩

/-- The fields under a response key of an object were laid out, and all that took place at their path
or below is their own. -/
theorem Traced.group (h : o.Traced log data path place) {object : ObjectType}
    {selections : List Selection} (hobject : o.scope.objectAt? place = some (object, selections))
    {group : FieldGroup} (hgroup : group ∈ (o.scope.collect object selections).groups) :
    ∃ depth t, (o.scope.planGroup (o.scope.planObject depth) object place.parent? path
      group).Settles t ∧ t.Within log data (path ++ [.field group.key]) ∧
        ∀ e ∈ log, path ++ [.field group.key] <+: e.mark.1 → e ∈ t.events := by
  obtain ⟨depth, _, hobjects, hwithin⟩ := h.object object selections hobject
  obtain ⟨t, ht, rfl⟩ := Plan.exists_of_reportAll hobjects
  have hmissing : ∀ e ∈ ((o.scope.collect object selections).missing.map
      (Scope.missingFragment path)).map Event.reported, e.mark.1 = path := by
    simp only [List.forall_mem_map]
    exact fun _ _ => rfl
  have hplanner : Scope.FittingPlanner (fun _ => True) (o.scope.planObject depth) :=
    Scope.fits_planObject (TypeGraph.does_anything _) depth
  have hfit := Scope.allFit_groups (TypeGraph.does_anything o.scope.graph) hplanner
    (object.does_anything) place.parent? (o.scope.collect object selections).groups path
  have hsteps := Scope.nodup_steps (o.scope.tidy_collect object selections)
  obtain ⟨i, hi, rfl⟩ := List.getElem_of_mem hgroup
  obtain ⟨u, hu⟩ := Plan.exists_part_within ht hfit hsteps
    (fun values hlength => Scope.composes_object hobject (hlength.trans (List.length_map _)))
    (hwithin.of_after hmissing) (i := i) (by rw [List.getElem?_map, List.getElem?_eq_getElem hi]; rfl)
    (by rw [List.getElem?_map, List.getElem?_eq_getElem hi]; rfl)
  exact ⟨depth, u, hu⟩

/-- What a field is given to show was handed out by a call, as no other call is made at its path. -/
theorem Traced.of_property {depth : Nat} {object : ObjectType} {parent : Option Erased}
    {group : FieldGroup} {property : Property} {output : Output} {t : Settled}
    (hmarks : (Event.marks log).Nodup)
    (houtput : o.scope.outputOf? log path object property group = some output)
    (ht : (o.scope.planProperty (o.scope.planObject depth) object parent group path
      property).Settles t) (hwithin : t.Within log data path)
    (howned : ∀ e ∈ log, path <+: e.mark.1 → e ∈ t.events) :
    o.Traced log data path (.value property.type (some output) group.selections) := by
  rw [Scope.outputOf?] at houtput
  rw [Scope.planProperty] at ht
  dsimp only at ht
  split at houtput
  · rename_i arguments answer harguments hanswer
    rw [harguments] at ht
    dsimp only at ht
    split at ht
    · -- The answer would have taken place at the path, where only the failure did.
      obtain rfl := Plan.settles_fail.mp ht
      obtain ⟨e, he, hanswered⟩ := List.exists_of_findSome?_eq_some hanswer
      split at hanswered
      · split at hanswered
        · rename_i hpath
          have hmem := howned _ he (hpath ▸ List.prefix_rfl)
          cases List.mem_singleton.mp hmem
        · cases hanswered
      · cases hanswered
    · obtain ⟨_, ending, u, -, hu, rfl⟩ := ht
      have hother := Event.answer?_of_mem hmarks (hwithin.events List.mem_cons_self)
      rw [Option.some.inj (hother.symm.trans hanswer)] at hu
      have hinner := hwithin.of_after (List.forall_mem_singleton.mpr rfl)
      dsimp only at hu
      obtain ⟨v, events, hv, rfl, hevents, hnone⟩ := Scope.exists_of_transformAll houtput hu
      refine .of_value hv (hinner.of_after hevents) fun e he hpath => ?_
      have hin := errors_of_owned howned he hpath
      change e ∈ Event.errors (events ++ v.events) at hin
      rwa [Event.errors_append, hnone] at hin
  · cases houtput

/-- The fields under a response key of a traced object are traced. -/
theorem Traced.field (hmarks : (Event.marks log).Nodup) (h : o.Traced log data path place)
    {object : ObjectType} {selections : List Selection}
    (hobject : o.scope.objectAt? place = some (object, selections)) {group : FieldGroup}
    (hgroup : group ∈ (o.scope.collect object selections).groups) :
    o.Traced log data (path ++ [.field group.key])
      (o.scope.fieldPlace log (path ++ [.field group.key]) object group) := by
  obtain ⟨depth, t, ht, hwithin, howned⟩ := h.group hobject hgroup
  rw [Scope.fieldPlace]
  rw [Scope.planGroup] at ht
  split
  · exact traced_of_none rfl fun _ _ _ => (by cases ·)
  · rename_i hname
    rw [if_neg hname] at ht
    split
    · rename_i property hproperty
      rw [hproperty] at ht
      cases houtput : o.scope.outputOf? log (path ++ [.field group.key]) object property group with
      | none =>
        refine traced_of_none ?_ fun _ _ _ => (by cases ·)
        cases property.type <;> rfl
      | some output => exact .of_property hmarks houtput ht hwithin howned
    · exact traced_of_none rfl fun _ _ _ => (by cases ·)

/-- The elements of a traced list are traced. -/
theorem Traced.item {inner : TypeLiteral} {nonNull : Bool} {items : List Output}
    {selections : List Selection}
    (h : o.Traced log data path (.value (.list inner nonNull) (some (.list items)) selections))
    {i : Nat} {item : Output} (hitem : items[i]? = some item) :
    o.Traced log data (path ++ [.index i]) (.value inner (some item) selections) := by
  obtain ⟨depth, location, t, ht, hwithin, -⟩ := h.value _ _ _ rfl
  rw [Scope.complete] at ht
  have hplanner : Scope.FittingPlanner (fun _ => True) (o.scope.planObject depth) :=
    Scope.fits_planObject (TypeGraph.does_anything _) depth
  have hfit := Scope.fits_completeItems (TypeGraph.does_anything o.scope.graph) hplanner selections
    location items inner path 0
  have hindices : ((List.range' 0 items.length).map PathSegment.index).Nodup :=
    List.Nodup.map (fun i j hij => PathSegment.index.inj hij) List.nodup_range'
  have hindex : ((List.range' 0 items.length).map PathSegment.index)[i]? = some (.index i) := by
    obtain ⟨hi, -⟩ := List.getElem?_eq_some_iff.mp hitem
    simp [List.getElem?_range' hi]
  have hcomposes (values : List Value) : o.scope.Composes (.value (.list inner nonNull)
      (some (.list items)) selections) _ values (Assembly.list.compose values) := .list
  obtain ⟨u, hu, huwithin, howned⟩ := Plan.exists_part_within ht hfit hindices
    (fun values _ => hcomposes values) hwithin (Scope.getElem?_completeItems hitem) hindex
  rw [Nat.zero_add] at hu
  exact .of_value hu huwithin fun e he hpath => errors_of_owned howned he hpath

/-- Everything that a run comes to is traced: the place at any path of the response was laid out, and
what it settled to is part of the run. The induction is on the path, from its end. -/
theorem traced_of_place? {depth : Nat} (hmarks : (Event.marks log).Nodup)
    (hrun : (o.agenda depth).Reaches log (.ended (some data)))
    (hplace : o.place? log path = some place) : o.Traced log data path place := by
  induction path using List.reverseRecOn generalizing place with
  | nil =>
    cases hplace
    obtain ⟨t, ht, hresult, hperm⟩ := hrun.settles
    refine ⟨fun object selections hobject => ?_, nofun⟩
    cases hobject
    refine ⟨depth, t, ht, hperm.subset, fun e he _ _ => hperm.mem_iff.mpr he, fun value hvalue => ?_⟩
    cases hvalue
    exact hresult
  | append_singleton path step ih =>
    rw [place?_concat] at hplace
    obtain ⟨above, habove, hstep⟩ := Option.bind_eq_some_iff.mp hplace
    have htraced := ih habove
    cases step with
    | field key =>
      obtain ⟨⟨object, selections⟩, hobject, hgroups⟩ := Option.bind_eq_some_iff.mp hstep
      obtain ⟨group, hgroup, rfl⟩ := Option.map_eq_some_iff.mp hgroups
      obtain rfl : group.key = key := by simpa using List.find?_some hgroup
      exact htraced.field hmarks hobject (List.mem_of_find?_eq_some hgroup)
    | index i =>
      rw [Scope.step?.eq_def] at hstep
      dsimp only at hstep
      split at hstep
      · obtain ⟨item, hitem, rfl⟩ := Option.map_eq_some_iff.mp hstep
        exact htraced.item hitem
      · cases hstep

end Opening

theorem Schema.exists_data_of_reaches {s : Schema} {r : Request} {o : Opening}
    (ho : s.opening r = .ok o) {depth : Nat} {log : List Event} {result : Option Value}
    (hrun : (o.agenda depth).Reaches log (.ended result)) :
    ∃ data, result = some data ∧ (Agenda.recorded log result).1 = data := by
  obtain ⟨t, ht, rfl, -⟩ := (o.keeps_nulled log).of_reaches hrun (nodup_marks ho hrun)
  obtain ⟨data, hdata⟩ := ht.exists_data
  exact ⟨data, hdata, by rw [Agenda.recorded, hdata]; rfl⟩

end Trellis
