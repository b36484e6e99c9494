import Trellis.Proofs.Execution.Grouping
import Trellis.Proofs.Execution.ScheduleIndependence
import Trellis.Proofs.Execution.Tracing
import Trellis.Proofs.Execution.Unfolding

/-!
Siblings do not interact.

The fields of an object are put together only at the very end, and each of them is laid out on its
own. So two lists of fields without a response key in common come to the same side by side as each of
them does alone: what fails in one of them neither stops nor changes anything in the other, also when
the object is already lost.
-/

namespace Trellis

open Document

namespace Settled

/-- An object has failed: it is null, or nothing where null may not stand. -/
def Failed (nullable : Bool) (s : Settled) : Prop :=
  s.result = if nullable then some .null else none

theorem not_failed_object (nullable : Bool) {s : Settled} {fields : Object}
    (h : s.result = some (.object fields)) : ¬ s.Failed nullable := by
  rw [Failed, h]
  cases nullable <;> simp

/-- What two parts of an object come to side by side: the whole fails exactly if one of the parts does,
or else it has the fields of both, and in every case all that takes place is what takes place in one
of them. -/
structure Joins (nullable : Bool) (first second whole : Settled) : Prop where
  failed : whole.Failed nullable ↔ first.Failed nullable ∨ second.Failed nullable
  shown : ¬ whole.Failed nullable → ∃ a b : Object, first.result = some (.object a) ∧
    second.result = some (.object b) ∧ whole.result = some (.object (a ++ b))
  events : whole.events.Perm (first.events ++ second.events)

/-- What happens may be told in any order. -/
theorem Joins.of_perm {nullable : Bool} {first second whole first' second' whole' : Settled}
    (h : Joins nullable first second whole) (hresult : first.result = first'.result)
    (hresult' : second.result = second'.result) (hwhole : whole.result = whole'.result)
    (hperm : first.events.Perm first'.events) (hperm' : second.events.Perm second'.events)
    (hevents : whole.events.Perm whole'.events) : Joins nullable first' second' whole' where
  failed := by
    have hfailed := h.failed
    rwa [Failed, Failed, Failed, hresult, hresult', hwhole] at hfailed
  shown := by
    have hshown := h.shown
    rwa [Failed, hresult, hresult', hwhole] at hshown
  events := hevents.symm.trans (h.events.trans (hperm.append hperm'))

/-- What the fields of an object with some keys come to. -/
def ofFields (nullable : Bool) (keys : List String) (each : List Settled) : Settled :=
  (Tray.ofSize each.length).settle ⟨.object keys, nullable⟩ (Job.numbered each 0)

section

variable (nullable : Bool) (keys : List String) {each : List Settled}

theorem events_ofFields (each : List Settled) :
    (ofFields nullable keys each).events = each.flatMap (·.events) :=
  Plan.flatMap_numbered each 0

theorem failed_ofFields (h : ∃ s ∈ each, s.result = none) :
    (ofFields nullable keys each).Failed nullable := by
  rw [ofFields, Tray.settle_failed _ _ h, Failed]

variable {keys}

theorem result_ofFields (hkeys : keys.Nodup) (hlength : keys.length = each.length)
    {parts : List (Value × List Event)} (h : each = parts.map valued) :
    (ofFields nullable keys each).result = some (.object (keys.zip (parts.map (·.1)))) := by
  subst h
  rw [List.length_map] at hlength
  rw [ofFields, List.length_map, Tray.settle_valued]
  exact congrArg some (Assembly.compose_object hkeys (hlength.trans (List.length_map _).symm))

/-- Fields side by side come to what they come to apart. -/
theorem joins_ofFields {keys' : List String} {each' : List Settled} (hkeys : (keys ++ keys').Nodup)
    (hlength : keys.length = each.length) (hlength' : keys'.length = each'.length) :
    Joins nullable (ofFields nullable keys each) (ofFields nullable keys' each')
      (ofFields nullable (keys ++ keys') (each ++ each')) := by
  obtain ⟨hnodup, hnodup', -⟩ := List.nodup_append.mp hkeys
  have hevents : (ofFields nullable (keys ++ keys') (each ++ each')).events.Perm
      ((ofFields nullable keys each).events ++ (ofFields nullable keys' each').events) := by
    rw [events_ofFields, events_ofFields, events_ofFields, List.flatMap_append]
  rcases valued_or_failed each with ⟨parts, hparts⟩ | ⟨s, hs, hnone⟩
  · have hfirst := result_ofFields nullable hnodup hlength hparts
    rcases valued_or_failed each' with ⟨parts', hparts'⟩ | ⟨s, hs, hnone⟩
    · have hsecond := result_ofFields nullable hnodup' hlength' hparts'
      have hall : each ++ each' = (parts ++ parts').map valued := by
        rw [hparts, hparts', List.map_append]
      have hwhole := result_ofFields nullable hkeys (by simp [hlength, hlength']) hall
      refine ⟨?_, fun _ => ⟨_, _, hfirst, hsecond, ?_⟩, hevents⟩
      · simp [not_failed_object nullable hfirst, not_failed_object nullable hsecond,
          not_failed_object nullable hwhole]
      · rw [hwhole, List.map_append, List.zip_append (by simp [hlength, hparts])]
    · have hsecond := failed_ofFields nullable keys' ⟨s, hs, hnone⟩
      have hwhole := failed_ofFields nullable (keys ++ keys')
        ⟨s, List.mem_append_right each hs, hnone⟩
      exact ⟨by simp [hwhole, hsecond], fun h => absurd hwhole h, hevents⟩
  · have hfirst := failed_ofFields nullable keys ⟨s, hs, hnone⟩
    have hwhole := failed_ofFields nullable (keys ++ keys')
      ⟨s, List.mem_append_left each' hs, hnone⟩
    exact ⟨by simp [hwhole, hfirst], fun h => absurd hwhole h, hevents⟩

end

end Settled

namespace Scope

variable (scope : Scope) (object : ObjectType)

def kept (fields : List Field) : List Field := fields.filter fun f => !scope.isExcluded f.directives

theorem expands_fields (fields : List Field) (met : List String) :
    scope.Expands object (fields.map .field) met ((scope.kept fields).map .field) met := by
  induction fields with
  | nil => exact .nil met
  | cons f fields ih =>
    by_cases hout : scope.isExcluded f.directives = true
    · have hrest : scope.kept (f :: fields) = scope.kept fields := by simp [kept, hout]
      rw [hrest, List.map_cons]
      exact .excluded hout ih
    · have hrest : scope.kept (f :: fields) = f :: scope.kept fields := by simp [kept, hout]
      rw [hrest, List.map_cons]
      exact .field (Bool.eq_false_iff.mpr hout) ih

theorem collect_fields (fields : List Field) : scope.collect object (fields.map .field) =
    ⟨Collected.grouping (scope.kept fields) [], [], []⟩ := by
  rw [(scope.expands_fields object fields []).collect_eq, Collected.extend]
  have hfields : ((scope.kept fields).map Item.field).filterMap Item.field? = scope.kept fields := by
    rw [List.filterMap_map]
    exact List.filterMap_some
  have hmissing : ((scope.kept fields).map Item.field).filterMap Item.missing? = [] := by
    simp [List.filterMap_map, Function.comp_def, Item.missing?]
  rw [hfields, hmissing]
  rfl

theorem groups_append {A B : List Field} (h : ∀ f ∈ A, ∀ g ∈ B, f.key ≠ g.key) :
    (scope.collect object ((A ++ B).map .field)).groups =
      (scope.collect object (A.map .field)).groups ++
        (scope.collect object (B.map .field)).groups := by
  have hkept : scope.kept (A ++ B) = scope.kept A ++ scope.kept B := List.filter_append ..
  simp only [collect_fields, hkept]
  exact Collected.grouping_append fun f hf g hg =>
    h f (List.mem_of_mem_filter hf) g (List.mem_of_mem_filter hg)

variable {scope object}

/-- What an object of some fields comes to. -/
theorem settles_fields {depth : Nat} {parent : Option Erased} {fields : List Field} {path : Path}
    {nullable : Bool} {s : Settled} :
    (scope.planObject (depth + 1) object parent (fields.map .field) path nullable).Settles s ↔
      ∃ each, List.Forall₂ Plan.Settles ((scope.collect object (fields.map .field)).groups.map
        (scope.planGroup (scope.planObject depth) object parent path)) each ∧
        s = .ofFields nullable (scope.collect object (fields.map .field)).keys each := by
  have hmissing : (scope.collect object (fields.map .field)).missing = [] := by rw [collect_fields]
  rw [planObject]
  simp only [hmissing, List.map_nil]
  rw [Plan.reportAll, List.foldr_nil, Plan.settles_together]
  constructor
  · rintro ⟨each, heach, rfl⟩
    exact ⟨each, heach, by rw [heach.length_eq]; rfl⟩
  · rintro ⟨each, heach, rfl⟩
    exact ⟨each, heach, by rw [heach.length_eq]; rfl⟩

section

variable {depth : Nat} {parent : Option Erased} {path : Path} {nullable : Bool} {A B : List Field}
  (h : ∀ f ∈ A, ∀ g ∈ B, f.key ≠ g.key)

include h

/-- What fields come to side by side is put together from what they come to alone. -/
theorem exists_joins {whole : Settled} (hwhole : (scope.planObject (depth + 1) object parent
    ((A ++ B).map .field) path nullable).Settles whole) :
    ∃ first second, (scope.planObject (depth + 1) object parent (A.map .field) path
      nullable).Settles first ∧ (scope.planObject (depth + 1) object parent (B.map .field) path
        nullable).Settles second ∧ Settled.Joins nullable first second whole := by
  obtain ⟨each, heach, rfl⟩ := settles_fields.mp hwhole
  have hkeys := (scope.tidy_collect object ((A ++ B).map .field)).keys
  have hgroups := scope.groups_append object h
  rw [hgroups, List.map_append] at heach
  rw [Collected.keys, hgroups, List.map_append] at hkeys ⊢
  obtain ⟨first, second, hfirst, hsecond, rfl⟩ := forall₂_append.mp heach
  refine ⟨_, _, settles_fields.mpr ⟨first, hfirst, rfl⟩, settles_fields.mpr ⟨second, hsecond, rfl⟩,
    Settled.joins_ofFields nullable hkeys ?_ ?_⟩
  · rw [← hfirst.length_eq, Collected.keys, List.length_map, List.length_map]
  · rw [← hsecond.length_eq, Collected.keys, List.length_map, List.length_map]

theorem exists_settles_append {first second : Settled} (hfirst : (scope.planObject (depth + 1) object
    parent (A.map .field) path nullable).Settles first) (hsecond : (scope.planObject (depth + 1)
      object parent (B.map .field) path nullable).Settles second) :
    ∃ whole, (scope.planObject (depth + 1) object parent ((A ++ B).map .field) path
      nullable).Settles whole := by
  obtain ⟨each, heach, -⟩ := settles_fields.mp hfirst
  obtain ⟨each', heach', -⟩ := settles_fields.mp hsecond
  refine ⟨_, settles_fields.mpr ⟨each ++ each', ?_, rfl⟩⟩
  rw [scope.groups_append object h, List.map_append]
  exact forall₂_append.mpr ⟨each, each', heach, heach', rfl⟩

end

variable (scope object) in
/-- Selections are resolved against an object to the end, in whatever order things happen. -/
def Resolves (parent : Option Erased) (path : Path) (nullable : Bool) (L : List Selection)
    (s : Settled) : Prop :=
  ∃ depth, Job.Run (.ready (scope.planObject depth object parent L path nullable)) s.events
    (.ended s.result)

variable (scope object) in
/-- Selections are resolved to the end at the root, with its fields at once or one after another. -/
def ResolvesRoot (serial : Bool) (L : List Selection) (s : Settled) : Prop :=
  ∃ depth, (scope.agenda depth object L serial).Reaches s.events (.ended s.result)

variable (scope object) in
/-- What selections may be resolved to is what they are laid out to settle to, but for the order of
events. -/
structure SettlesAs (parent : Option Erased) (path : Path) (nullable : Bool)
    (R : List Selection → Settled → Prop) : Prop where
  settles : ∀ {L s}, R L s → ∃ depth t,
    (scope.planObject depth object parent L path nullable).Settles t ∧ t.result = s.result ∧
      t.events.Perm s.events
  exists_of_settles : ∀ {L depth t},
    (scope.planObject depth object parent L path nullable).Settles t → ∃ s, R L s

theorem settlesAs_resolves (parent : Option Erased) (path : Path) (nullable : Bool) :
    scope.SettlesAs object parent path nullable (scope.Resolves object parent path nullable) where
  settles := by
    rintro L s ⟨depth, hrun⟩
    obtain ⟨t, ht, hresult, hperm⟩ := Job.settles_of_ended hrun trivial
    exact ⟨depth, t, ht, hresult, hperm⟩
  exists_of_settles := by
    intro L depth t ht
    obtain ⟨log, result, hrun⟩ := Job.completes_of_plan ht
    exact ⟨⟨result, log⟩, depth, hrun⟩

theorem settlesAs_resolvesRoot (serial : Bool) :
    scope.SettlesAs object none [] true (scope.ResolvesRoot object serial) where
  settles := by
    rintro L s ⟨depth, hrun⟩
    obtain ⟨t, ht, hresult, hperm⟩ := hrun.settles
    exact ⟨depth + 1, t, ht, hresult, hperm⟩
  exists_of_settles := by
    intro L depth t ht
    cases depth with
    | zero => exact ht.elim
    | succ depth =>
      obtain ⟨u, hu, -⟩ := Plan.exists_of_reportAll ht
      have hstart : (scope.agenda depth object L serial).start.Settles u :=
        Agenda.settles_start.mpr hu
      obtain ⟨log, result, hrun⟩ := hstart.completes
      exact ⟨⟨result, _⟩, depth, log, hrun, rfl⟩

/-- Two lists of fields are resolved side by side as they are resolved alone. Side by side they come
to an end if each of them does. -/
structure Apart (nullable : Bool) (R : List Selection → Settled → Prop) (A B : List Field) : Prop where
  ends : (∃ s, R ((A ++ B).map .field) s) ↔ (∃ s, R (A.map .field) s) ∧ ∃ s, R (B.map .field) s
  joins : ∀ first second whole, R (A.map .field) first → R (B.map .field) second →
    R ((A ++ B).map .field) whole → Settled.Joins nullable first second whole
  errors : ∀ first second whole, R (A.map .field) first → R (B.map .field) second →
    R ((A ++ B).map .field) whole →
      (Event.errors whole.events).Perm (Event.errors first.events ++ Event.errors second.events)

section

variable (hsteady : scope.graph.Steady) {name : String}
  (hobject : scope.graph.type? name = some (.object object)) {parent : Option Erased} {path : Path}
  {nullable : Bool} {R : List Selection → Settled → Prop}
  (hR : scope.SettlesAs object parent path nullable R)

include hsteady hobject hR

/-- Selections are resolved to whatever they are laid out to settle to, at any depth. -/
theorem SettlesAs.eq_of_settles {L : List Selection} {s t : Settled} (hs : R L s) {depth : Nat}
    (ht : (scope.planObject depth object parent L path nullable).Settles t) :
    t.result = s.result ∧ t.events.Perm s.events := by
  obtain ⟨other, u, hu, hresult, hperm⟩ := hR.settles hs
  -- Laid out at a depth that does for both, a steady plan settles to one thing only.
  have hplan : (scope.planObject (depth + other) object parent L path nullable).Steady :=
    (fits_planObject hsteady (depth + other) object parent L path nullable []
      (hsteady name object hobject) Plan.silent_nil).steady
  have ht' := deepens_of_le (Nat.le_add_right depth other) object parent L path nullable t ht
  have hu' := deepens_of_le (Nat.le_add_left other depth) object parent L path nullable u hu
  obtain rfl := hplan.settles_unique ht' hu'
  exact ⟨hresult, hperm⟩

theorem apart_of_settlesAs {A B : List Field} (h : ∀ f ∈ A, ∀ g ∈ B, f.key ≠ g.key) :
    Apart nullable R A B := by
  have hjoins (first second whole : Settled) (hfirst : R (A.map .field) first)
      (hsecond : R (B.map .field) second) (hwhole : R ((A ++ B).map .field) whole) :
      Settled.Joins nullable first second whole := by
    obtain ⟨depth, v, hv, hresult, hperm⟩ := hR.settles hwhole
    obtain ⟨t, u, ht, hu, hjoined⟩ := exists_joins h (deepens_succ depth _ _ _ _ _ v hv)
    obtain ⟨hresult', hperm'⟩ := hR.eq_of_settles hsteady hobject hfirst ht
    obtain ⟨hresult'', hperm''⟩ := hR.eq_of_settles hsteady hobject hsecond hu
    exact hjoined.of_perm hresult' hresult'' hresult hperm' hperm'' hperm
  refine ⟨⟨?_, ?_⟩, hjoins, fun first second whole hfirst hsecond hwhole => ?_⟩
  · rintro ⟨whole, hwhole⟩
    obtain ⟨depth, v, hv, -⟩ := hR.settles hwhole
    obtain ⟨t, u, ht, hu, -⟩ := exists_joins h (deepens_succ depth _ _ _ _ _ v hv)
    exact ⟨hR.exists_of_settles ht, hR.exists_of_settles hu⟩
  · rintro ⟨⟨first, hfirst⟩, second, hsecond⟩
    obtain ⟨i, t, ht, -⟩ := hR.settles hfirst
    obtain ⟨j, u, hu, -⟩ := hR.settles hsecond
    have hi : i ≤ i + j + 1 := by omega
    have hj : j ≤ i + j + 1 := by omega
    obtain ⟨v, hv⟩ := exists_settles_append h (deepens_of_le hi _ _ _ _ _ t ht)
      (deepens_of_le hj _ _ _ _ _ u hu)
    exact hR.exists_of_settles hv
  · have hevents := (hjoins first second whole hfirst hsecond hwhole).events.filterMap Event.error?
    rwa [List.filterMap_append] at hevents

end

/-- If resolvers are functions of what they are called with, fields of an object do not interact. Two
lists of fields without a response key in common are resolved side by side, against any value of any
object type and at any place, just if each of them is resolved alone. The object fails exactly if one
of the two does, or else it has the fields of the first followed by those of the second. In every case
what takes place, and so what is reported, is what takes place for the first and for the second. This
holds also of the root, whether its fields are resolved at once or one after another. -/
theorem siblings_apart (hsteady : scope.graph.Steady) {name : String}
    (hobject : scope.graph.type? name = some (.object object)) {A B : List Field}
    (h : ∀ f ∈ A, ∀ g ∈ B, f.key ≠ g.key) :
    (∀ parent path nullable,
      Apart nullable (scope.Resolves object parent path nullable) A B) ∧
    ∀ serial, Apart true (scope.ResolvesRoot object serial) A B :=
  ⟨fun parent path nullable =>
      apart_of_settlesAs hsteady hobject (settlesAs_resolves parent path nullable) h,
    fun serial => apart_of_settlesAs hsteady hobject (settlesAs_resolvesRoot serial) h⟩

end Scope

namespace Sample

def titleField : Field := ⟨⟨0, 11⟩, none, "title", [], [], none⟩

def yearField : Field := ⟨⟨0, 17⟩, none, "year", [], [], none⟩

def filmType : ObjectType := ⟨"Film", none, some film, [title, year]⟩

def nightfall : Erased := ⟨film, .record [("title", .text "Nightfall")]⟩

end Sample

namespace Scope

open Sample

/-- The year of a film fails, and so does the film with its title and its year, where it may not be
null. -/
theorem siblings_apart_sample : ∃ first second whole,
    opening.scope.Resolves filmType (some nightfall) [] false ([titleField].map .field) first ∧
    first.result = some (.object [("title", .string "Nightfall")]) ∧
    opening.scope.Resolves filmType (some nightfall) [] false ([yearField].map .field) second ∧
    second.Failed false ∧
    opening.scope.Resolves filmType (some nightfall) [] false
      (([titleField] ++ [yearField]).map .field) whole ∧
    Settled.Joins false first second whole ∧ whole.Failed false := by
  have hfilm : opening.scope.graph.type? "Film" = some (.object filmType) := rfl
  have hkeys : ∀ f ∈ [titleField], ∀ g ∈ [yearField], f.key ≠ g.key := by decide
  have hsettles : opening.scope.SettlesAs filmType (some nightfall) [] false _ :=
    settlesAs_resolves (some nightfall) [] false
  have hapart := (siblings_apart steady_graph hfilm hkeys).1 (some nightfall) [] false
  have htitle : (opening.scope.planObject 1 filmType (some nightfall) ([titleField].map .field) []
      false).Settles ⟨some (.object [("title", .string "Nightfall")]),
        [.answered [.field "title"] (.ok (.single .text (.text "Nightfall")))]⟩ :=
    settles_fields.mpr ⟨[⟨some (.string "Nightfall"), _⟩],
      .cons ⟨[], ⟨_, _, _⟩, _, rfl, rfl, rfl⟩ .nil, rfl⟩
  have hyear : (opening.scope.planObject 1 filmType (some nightfall) ([yearField].map .field) []
      false).Settles ⟨none, [.answered [.field "year"] (.error (.ofMessage "not released")),
        .reported ⟨⟨0, 17⟩, [.field "year"], .ofMessage "not released", .resolver⟩]⟩ :=
    settles_fields.mpr ⟨[⟨none, _⟩],
      .cons ⟨[], ⟨_, _, _⟩, _, rfl, ⟨_, rfl, rfl⟩, rfl⟩ .nil, rfl⟩
  obtain ⟨first, hfirst⟩ := hsettles.exists_of_settles htitle
  obtain ⟨second, hsecond⟩ := hsettles.exists_of_settles hyear
  obtain ⟨whole, hwhole⟩ := hapart.ends.mpr ⟨⟨first, hfirst⟩, second, hsecond⟩
  have hjoins := hapart.joins first second whole hfirst hsecond hwhole
  have hshown := (hsettles.eq_of_settles steady_graph hfilm hfirst htitle).1
  have hfailed : second.Failed false :=
    (hsettles.eq_of_settles steady_graph hfilm hsecond hyear).1.symm
  exact ⟨first, second, whole, hfirst, hshown.symm, hsecond, hfailed, hwhole, hjoins,
    hjoins.failed.mpr (.inr hfailed)⟩

end Scope

end Trellis
