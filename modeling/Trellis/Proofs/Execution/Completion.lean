import Trellis.Proofs.Execution.Place

/-!
What comes to stand at the places of a response.

A position comes to its value in one of five ways: it is a leaf, it fails, its parts make it up, one
of its parts fails, or something is noted on the way. A property that all five keep holds of every
response, whatever the resolvers do. This is the one induction over the planning of requests.
-/

namespace Trellis

open Document

/-- A property of what the position at a path settles to, kept by all ways of coming to it. -/
structure Keeps (o : Opening) (log : List Event) (P : Path → Settled → Prop) : Prop where
  quiet : ∀ {path : Path} {s : Settled} (events : List Event), Event.errors events = [] →
    P path s → P path (s.after events)
  missing : ∀ {path : Path} {s : Settled} (spread : Position × String),
    P path s → P path (s.after [.reported (Scope.missingFragment path spread)])
  leaf : ∀ {path : Path} {place : Place} {value : Value}, o.place? log path = some place →
    o.scope.Leaf place value → P path ⟨some value, []⟩
  failed : ∀ {path : Path} {place : Place} {e : FieldError} {kind : ErrorKind}
    (location : Position), o.place? log path = some place → o.scope.Failure place e kind →
    Event.reported ⟨location, path, e, kind⟩ ∈ log →
    P path ⟨place.absent, [.reported ⟨location, path, e, kind⟩]⟩
  composed : ∀ {path : Path} {place : Place} {steps : List PathSegment} {value : Value}
    {parts : List (Value × List Event)}, o.place? log path = some place →
    o.scope.Composes place steps (parts.map (·.1)) value →
    List.Forall₂ (fun step part => P (path ++ [step]) (.valued part)) steps parts →
    P path ⟨some value, parts.flatMap (·.2)⟩
  broken : ∀ {path : Path} {place : Place} {steps : List PathSegment} {each : List Settled},
    o.place? log path = some place → (∃ values value, o.scope.Composes place steps values value) →
    List.Forall₂ (fun step s => P (path ++ [step]) s) steps each → (∃ s ∈ each, s.result = none) →
    P path ⟨place.absent, each.flatMap (·.events)⟩

namespace Plan

theorem settles_fail {type : TypeLiteral} {location : Position} {path : Path} {e : FieldError}
    {kind : ErrorKind} {s : Settled} : (Plan.fail type location path e kind).Settles s ↔
      s = ⟨nullFor type, [.reported ⟨location, path, e, kind⟩]⟩ := by
  constructor
  · rintro ⟨_, rfl, rfl⟩
    rfl
  · rintro rfl
    exact ⟨_, rfl, rfl⟩

/-- What plans at the ends of steps settle to, as far as it is among the events of a log. -/
theorem forall₂_settles {P : Path → Settled → Prop} {log : List Event} {path : Path}
    {steps : List PathSegment} {plans : List Plan} {each : List Settled}
    (hplans : List.Forall₂ (fun step plan => ∀ s, plan.Settles s → s.events ⊆ log →
      P (path ++ [step]) s) steps plans)
    (heach : List.Forall₂ Settles plans each) (hlog : each.flatMap (·.events) ⊆ log) :
    List.Forall₂ (fun step s => P (path ++ [step]) s) steps each := by
  induction hplans generalizing each with
  | nil =>
    cases heach
    exact .nil
  | cons hplan _ ih =>
    cases heach with
    | cons hs heach =>
      rw [List.flatMap_cons, List.append_subset] at hlog
      exact .cons (hplan _ hs hlog.1) (ih heach hlog.2)

end Plan

theorem Collected.find?_key {groups : List FieldGroup} (h : (groups.map (·.key)).Nodup)
    {group : FieldGroup} (hgroup : group ∈ groups) :
    groups.find? (·.key == group.key) = some group := by
  induction groups with
  | nil => cases hgroup
  | cons other groups ih =>
    obtain ⟨hnew, hrest⟩ := List.nodup_cons.mp h
    rcases List.mem_cons.mp hgroup with rfl | hin
    · simp
    · have hne : other.key ≠ group.key := fun he => hnew (List.mem_map.mpr ⟨group, hin, he.symm⟩)
      rw [List.find?_cons_of_neg (by simpa using hne)]
      exact ih hrest hin

namespace Keeps

variable {o : Opening} {log : List Event} {P : Path → Settled → Prop}

/-- A planner of objects whose plans settle to what has a property. -/
def Planner (o : Opening) (log : List Event) (P : Path → Settled → Prop) (plan : ObjectPlanner) :
    Prop :=
  ∀ {object : ObjectType} {parent : Option Erased} {selections : List Selection} {path : Path}
    {place : Place} {s : Settled}, o.place? log path = some place →
    o.scope.objectAt? place = some (object, selections) →
    (plan object parent selections path place.isNullable).Settles s → s.events ⊆ log → P path s

theorem fail (h : Keeps o log P) {path : Path} {type : TypeLiteral} {output : Option Output}
    {selections : List Selection} {location : Position} {e : FieldError} {kind : ErrorKind}
    {s : Settled} (hplace : o.place? log path = some (.value type output selections))
    (he : o.scope.Failure (.value type output selections) e kind)
    (hs : (Plan.fail type location path e kind).Settles s) (hlog : s.events ⊆ log) : P path s := by
  obtain rfl := Plan.settles_fail.mp hs
  rw [← Place.absent_value type output selections]
  exact h.failed location hplace he (hlog List.mem_cons_self)

/-- Parts are put together at a place, or some of them failed. -/
theorem together (h : Keeps o log P) {path : Path} {place : Place} {steps : List PathSegment}
    {assembly : Assembly} {plans : List Plan} {s : Settled} (hplace : o.place? log path = some place)
    (hplans : List.Forall₂ (fun step plan => ∀ s, plan.Settles s → s.events ⊆ log →
      P (path ++ [step]) s) steps plans)
    (hcomposes : ∀ values : List Value, values.length = plans.length →
      o.scope.Composes place steps values (assembly.compose values))
    (hs : (Plan.together ⟨assembly, place.isNullable⟩ plans).Settles s) (hlog : s.events ⊆ log) :
    P path s := by
  obtain ⟨each, heach, rfl⟩ := Plan.settles_together.mp hs
  have hevents : each.flatMap (·.events) ⊆ log := by
    rw [← Plan.flatMap_numbered each 0]
    exact hlog
  have hparts := Plan.forall₂_settles hplans heach hevents
  rcases Settled.valued_or_failed each with ⟨parts, rfl⟩ | hfailed
  · have hlength : plans.length = parts.length := by
      rw [heach.length_eq, List.length_map]
    rw [hlength, Tray.settle_valued]
    exact h.composed hplace (hcomposes _ (by rw [List.length_map, hlength]))
      (List.forall₂_map_right_iff.mp hparts)
  · rw [Tray.settle_failed _ _ hfailed]
    refine h.broken hplace ⟨each.map fun _ => .null, _, hcomposes _ ?_⟩ hparts hfailed
    rw [List.length_map, heach.length_eq]

theorem completeSingle (h : Keeps o log P) {plan : ObjectPlanner} (hplan : Planner o log P plan)
    {selections : List Selection} {location : Position} {name : String} {nonNull : Bool}
    {host : HostType} {value : HostValue} {path : Path} {s : Settled}
    (hplace : o.place? log path =
      some (.value (.named name nonNull) (some (.single host value)) selections))
    (hs : (o.scope.completeSingle plan selections location (.named name nonNull) name ⟨host, value⟩
      path).Settles s) (hlog : s.events ⊆ log) : P path s := by
  have hobject {object : ObjectType} (hfor : o.scope.objectFor? name host = some object) :
      o.scope.objectAt? (.value (.named name nonNull) (some (.single host value)) selections) =
        some (object, selections) := by
    rw [Scope.objectAt?, hfor]
    rfl
  rcases o.scope.completeSingle_cases plan selections location name nonNull host value path rfl
    with ⟨v, hlaid, hleaf⟩ | ⟨object, hlaid, hfor⟩ | ⟨e, kind, hlaid, hfailure⟩
  · rw [hlaid] at hs
    obtain rfl := hs
    exact h.leaf hplace hleaf
  · rw [hlaid] at hs
    exact hplan hplace (hobject hfor) hs hlog
  · rw [hlaid] at hs
    exact h.fail hplace hfailure hs hlog

mutual

theorem complete (h : Keeps o log P) {plan : ObjectPlanner} (hplan : Planner o log P plan)
    {selections : List Selection} {location : Position} :
    ∀ {output : Output} {type : TypeLiteral} {path : Path} {s : Settled},
      o.place? log path = some (.value type (some output) selections) →
      (o.scope.complete plan selections location output type path).Settles s → s.events ⊆ log →
      P path s
  | .null, type, path, s, hplace, hs, hlog => by
    rw [Scope.complete] at hs
    split at hs
    · rename_i hnonNull
      exact h.fail hplace (.null hnonNull) hs hlog
    · rename_i hnullable
      obtain rfl := hs
      exact h.leaf hplace (.null (Bool.eq_false_iff.mpr hnullable))
  | .list items, .list inner nonNull, path, s, hplace, hs, hlog => by
    rw [Scope.complete] at hs
    refine h.together hplace (completeItems h hplan fun i item hitem => ?_) (fun values _ => .list)
      hs hlog
    rw [Opening.place?_concat, hplace, Nat.zero_add]
    simp only [Option.bind_some, Scope.step?, hitem, Option.map_some]
  | .list items, .named name nonNull, path, s, hplace, hs, hlog => by
    rw [Scope.complete] at hs
    exact h.fail hplace (.list name nonNull items selections) hs hlog
  | .single host value, .list inner nonNull, path, s, hplace, hs, hlog => by
    rw [Scope.complete] at hs
    exact h.fail hplace (.single inner nonNull host value selections) hs hlog
  | .single host value, .named name nonNull, path, s, hplace, hs, hlog => by
    rw [Scope.complete] at hs
    exact h.completeSingle hplan hplace hs hlog

theorem completeItems (h : Keeps o log P) {plan : ObjectPlanner} (hplan : Planner o log P plan)
    {selections : List Selection} {location : Position} :
    ∀ {items : List Output} {type : TypeLiteral} {path : Path} {start : Nat},
      (∀ i item, items[i]? = some item →
        o.place? log (path ++ [.index (start + i)]) = some (.value type (some item) selections)) →
      List.Forall₂ (fun step plan => ∀ s, plan.Settles s → s.events ⊆ log → P (path ++ [step]) s)
        ((List.range' start items.length).map .index)
        (o.scope.completeItems plan selections location items type path start)
  | [], _, _, _, _ => by
    rw [Scope.completeItems]
    exact .nil
  | item :: items, type, path, start, hitems => by
    rw [Scope.completeItems, List.length_cons, List.range'_succ, List.map_cons]
    refine .cons (fun s hs hlog => complete h hplan (hitems 0 item rfl) hs hlog) ?_
    apply completeItems h hplan
    intro i next hnext
    have hplace := hitems (i + 1) next hnext
    rwa [Nat.add_comm i 1, ← Nat.add_assoc] at hplace

end

theorem transformAll (h : Keeps o log P) {plan : ObjectPlanner} (hplan : Planner o log P plan)
    {selections : List Selection} {location : Position} {type : TypeLiteral}
    {provided : List (String × Literal)} {path : Path} {transformations : List Transformation}
    {i : Nat} {output : Output} {s : Settled}
    (hplace : o.place? log path =
      some (.value type (o.scope.transformed? provided transformations output) selections))
    (hs : (o.scope.transformAll provided path
      (fun e => Plan.fail type location path e.error e.kind)
      (fun output => o.scope.complete plan selections location output type path)
      i transformations output).Settles s) (hlog : s.events ⊆ log) : P path s := by
  induction transformations generalizing i output s with
  | nil => exact h.complete hplan hplace hs hlog
  | cons t rest ih =>
    rw [Scope.transformAll] at hs
    rw [Scope.transformed?] at hplace
    split at hs
    · exact h.fail hplace (.call ..) hs hlog
    · obtain ⟨t, ht, rfl⟩ := hs
      exact h.quiet _ rfl (h.fail hplace (.call ..) ht (List.append_subset.mp hlog).2)
    · rename_i next hnext
      obtain ⟨t, ht, rfl⟩ := hs
      rw [hnext] at hplace
      exact h.quiet _ rfl (ih hplace ht (List.append_subset.mp hlog).2)

theorem planProperty (h : Keeps o log P) (hmarks : (Event.marks log).Nodup) {plan : ObjectPlanner}
    (hplan : Planner o log P plan) {object : ObjectType} {parent : Option Erased}
    {group : FieldGroup} {path : Path} {property : Property} {s : Settled}
    (hplace : o.place? log path = some (.value property.type
      (o.scope.outputOf? log path object property group) group.selections))
    (hs : (o.scope.planProperty plan object parent group path property).Settles s)
    (hlog : s.events ⊆ log) : P path s := by
  rw [Scope.planProperty] at hs
  dsimp only at hs
  split at hs
  · rename_i e harguments
    exact h.fail hplace (.arguments harguments) hs hlog
  · rename_i arguments harguments
    split at hs
    · exact h.fail hplace (.call ..) hs hlog
    · obtain ⟨_, ending, t, -, ht, rfl⟩ := hs
      obtain ⟨hanswered, hrest⟩ := List.append_subset.mp hlog
      have hanswer := Event.answer?_of_mem hmarks (hanswered List.mem_cons_self)
      refine h.quiet _ rfl ?_
      dsimp only at ht
      split at ht
      · rename_i e _
        exact h.fail hplace (.call _ _ _ (.failed e)) ht hrest
      · rename_i output houtput
        rw [houtput] at hanswer
        rw [Scope.outputOf?, harguments, hanswer] at hplace
        exact h.transformAll hplan hplace ht hrest

theorem planGroup (h : Keeps o log P) (hmarks : (Event.marks log).Nodup) {plan : ObjectPlanner}
    (hplan : Planner o log P plan) {object : ObjectType} {parent : Option Erased} {path : Path}
    {group : FieldGroup} {s : Settled}
    (hplace : o.place? log (path ++ [.field group.key]) =
      some (o.scope.fieldPlace log (path ++ [.field group.key]) object group))
    (hs : (o.scope.planGroup plan object parent path group).Settles s) (hlog : s.events ⊆ log) :
    P (path ++ [.field group.key]) s := by
  rw [Scope.planGroup] at hs
  rw [Scope.fieldPlace] at hplace
  split at hs
  · rename_i hname
    rw [if_pos hname] at hplace
    obtain rfl := hs
    exact h.leaf hplace (.typeName object)
  · rename_i hname
    rw [if_neg hname] at hplace
    split at hs
    · rename_i property hproperty
      rw [hproperty] at hplace
      exact h.planProperty hmarks hplan hplace hs hlog
    · rename_i hproperty
      rw [hproperty] at hplace
      obtain ⟨_, rfl, rfl⟩ := hs
      exact h.failed _ hplace (.unknown ..) (hlog List.mem_cons_self)

theorem reportAll (h : Keeps o log P) {path : Path} {missing : List (Position × String)}
    {rest : Plan} (hrest : ∀ {s : Settled}, rest.Settles s → s.events ⊆ log → P path s)
    {s : Settled} (hs : (Plan.reportAll (missing.map (Scope.missingFragment path)) rest).Settles s)
    (hlog : s.events ⊆ log) : P path s := by
  induction missing generalizing s with
  | nil => exact hrest hs hlog
  | cons spread missing ih =>
    obtain ⟨t, ht, rfl⟩ := hs
    exact h.missing spread (ih ht (List.append_subset.mp hlog).2)

theorem planObject (h : Keeps o log P) (hmarks : (Event.marks log).Nodup) (depth : Nat) :
    Planner o log P (o.scope.planObject depth) := by
  induction depth with
  | zero => exact fun _ _ hs => hs.elim
  | succ depth ih =>
    intro object parent selections path place s hplace hobject hs hlog
    have hkeys := (o.scope.tidy_collect object selections).keys
    have hgroups : List.Forall₂ (fun step plan => ∀ s, plan.Settles s → s.events ⊆ log →
        P (path ++ [step]) s) ((o.scope.collect object selections).keys.map .field)
        ((o.scope.collect object selections).groups.map
          (o.scope.planGroup (o.scope.planObject depth) object parent path)) := by
      rw [Collected.keys, List.map_map, List.forall₂_map_left_iff, List.forall₂_map_right_iff,
        List.forall₂_same]
      intro group hgroup s hs hlog
      refine h.planGroup hmarks ih ?_ hs hlog
      rw [Opening.place?_concat, hplace]
      simp only [Option.bind_some, Scope.step?, hobject, Collected.find?_key hkeys hgroup,
        Option.map_some]
    refine h.reportAll (fun hs hlog => ?_) hs hlog
    refine h.together hplace hgroups (fun values hlength => ?_) hs hlog
    have hlengths : (o.scope.collect object selections).keys.length = values.length := by
      rw [hlength, Collected.keys, List.length_map, List.length_map]
    rw [Assembly.compose_object hkeys hlengths]
    exact .object hobject

/-- What all ways of coming to a value keep holds of the data of every run to its end. -/
theorem of_reaches {depth : Nat} {result : Option Value}
    (hrun : (o.agenda depth).Reaches log (.ended result)) (h : Keeps o log P)
    (hmarks : (Event.marks log).Nodup) :
    ∃ s, P [] s ∧ s.result = result ∧ s.events.Perm log := by
  obtain ⟨s, hs, hresult, hperm⟩ := hrun.settles
  exact ⟨s, h.planObject hmarks (depth + 1) (o.place?_nil log) rfl hs hperm.subset, hresult, hperm⟩

end Keeps

end Trellis
