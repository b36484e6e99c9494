import Trellis.Proofs.Execution.Completion
import Trellis.Proofs.Execution.ScheduleIndependence

/-!
Nulls and errors of a response account for each other.

An error makes the nearest position null that may be null, its own or one above it, unless an even
higher one became null by another error. Apart from these positions only those are null for which
null was handed out.
-/

namespace Trellis

namespace Opening

def Nullable (o : Opening) (log : List Event) (path : Path) : Prop :=
  ∃ place, o.place? log path = some place ∧ place.isNullable = true

/-- The longest way to a path that ends where null may stand. -/
structure Governs (o : Opening) (log : List Event) (q path : Path) : Prop where
  above : q <+: path
  nullable : o.Nullable log q
  longest : ∀ other, other <+: path → o.Nullable log other → other <+: q

/-- Null stands at a path because it was handed out there, or because of an error that the path is
the nearest nullable position of. -/
def NullAt (o : Opening) (log : List Event) (errors : List ExecutionError) (path : Path) : Prop :=
  ∃ place, o.place? log path = some place ∧ place.isNullable = true ∧
    (place.IsNull ∨ ∃ e ∈ errors, ¬ Scope.IsMissingFragment e ∧ o.Governs log path e.path)

/-- Every error but those of unknown fragments shows as a null at the nearest position that may be
null or above it, and every null is one that was handed out or the nearest one to some error. -/
structure NullsExact (o : Opening) (log : List Event) (data : Value)
    (errors : List ExecutionError) : Prop where
  shown : ∀ e ∈ errors, ¬ Scope.IsMissingFragment e → (∃ place, o.place? log e.path = some place) ∧
    ∃ q, o.Governs log q e.path ∧ ∃ path, path <+: q ∧ data.follow? path = some .null
  accounted : ∀ path, data.follow? path = some .null → o.NullAt log errors path

variable {o : Opening} {log : List Event}

/-- Below every position that may be null there is a nearest one. -/
theorem exists_governs {path : Path} {q : Path} (hq : q <+: path) (hnull : o.Nullable log q) :
    ∃ nearest, o.Governs log nearest path ∧ q <+: nearest := by
  induction hn : path.length - q.length using Nat.strong_induction_on generalizing q with
  | _ n ih =>
    by_cases hlongest : ∀ other, other <+: path → o.Nullable log other → other <+: q
    · exact ⟨q, ⟨hq, hnull, hlongest⟩, List.prefix_rfl⟩
    · push Not at hlongest
      obtain ⟨other, hother, hnullable, hnot⟩ := hlongest
      have hbelow : q <+: other := (List.prefix_or_prefix_of_prefix hq hother).resolve_right hnot
      have hlength : q.length < other.length := by
        apply Nat.lt_of_le_of_ne hbelow.length_le
        intro he
        exact hnot (hbelow.eq_of_length he ▸ List.prefix_rfl)
      have hle := hother.length_le
      obtain ⟨nearest, hgoverns, hnearest⟩ := ih (path.length - other.length) (by omega) hother
        hnullable rfl
      exact ⟨nearest, hgoverns, hbelow.trans hnearest⟩

/-- No position from one path to another may be null. -/
def Bare (o : Opening) (log : List Event) (top path : Path) : Prop :=
  ∀ q, top <+: q → q <+: path → ¬ o.Nullable log q

theorem Bare.prefix_of_step {top path : Path} {step : PathSegment}
    (h : o.Bare log (top ++ [step]) path) (hpath : top ++ [step] <+: path) {q : Path}
    (hq : q <+: path) (hnull : o.Nullable log q) : q <+: top := by
  rcases List.prefix_or_prefix_of_prefix hq hpath with hup | hdown
  · rcases List.prefix_concat_iff.mp hup with rfl | hup
    · exact absurd hnull (h _ List.prefix_rfl hq)
    · exact hup
  · exact absurd hnull (h q hdown hq)

/-- What a position settles to, as far as nulls and errors go. -/
structure Nulled (o : Opening) (log : List Event) (path : Path) (s : Settled) : Prop where
  below : ∀ e ∈ Event.errors s.events, path <+: e.path
  placed : ∀ e ∈ Event.errors s.events, ¬ Scope.IsMissingFragment e →
    ∃ place, o.place? log e.path = some place
  failed : s.result = none → ∃ e ∈ Event.errors log, ¬ Scope.IsMissingFragment e ∧
    path <+: e.path ∧ o.Bare log path e.path
  covered : ∀ value, s.result = some value → ∀ e ∈ Event.errors s.events,
    ¬ Scope.IsMissingFragment e → ∃ q, o.Governs log q e.path ∧
      ∃ rest, path ++ rest <+: q ∧ value.follow? rest = some .null
  nulls : ∀ value, s.result = some value → ∀ rest, value.follow? rest = some .null →
    o.NullAt log (Event.errors log) (path ++ rest)

/-- A position that is null accounts for all errors below it. -/
theorem Nulled.of_null {path : Path} {events : List Event}
    (hbelow : ∀ e ∈ Event.errors events, path <+: e.path)
    (hplaced : ∀ e ∈ Event.errors events, ¬ Scope.IsMissingFragment e →
      ∃ place, o.place? log e.path = some place)
    (hnull : o.NullAt log (Event.errors log) path) : o.Nulled log path ⟨some .null, events⟩ where
  below := hbelow
  placed := hplaced
  failed h := by cases h
  covered value hvalue e he hkind := by
    cases hvalue
    obtain ⟨place, hplace, hnullable, -⟩ := hnull
    obtain ⟨q, hgoverns, hq⟩ := exists_governs (hbelow e he) ⟨place, hplace, hnullable⟩
    exact ⟨q, hgoverns, [], by rwa [List.append_nil], rfl⟩
  nulls value hvalue rest hrest := by
    cases hvalue
    cases rest with
    | nil => rwa [List.append_nil]
    | cons step rest => cases step <;> cases hrest

/-- A position that failed, because of an error of which no position below it may be null. -/
theorem Nulled.of_absent {path : Path} {place : Place} {events : List Event} {e : ExecutionError}
    (hplace : o.place? log path = some place)
    (hbelow : ∀ e ∈ Event.errors events, path <+: e.path)
    (hplaced : ∀ e ∈ Event.errors events, ¬ Scope.IsMissingFragment e →
      ∃ place, o.place? log e.path = some place)
    (he : e ∈ Event.errors log) (hkind : ¬ Scope.IsMissingFragment e) (hpath : path <+: e.path)
    (hup : ∀ q, q <+: e.path → o.Nullable log q → q <+: path) :
    o.Nulled log path ⟨place.absent, events⟩ := by
  cases hnullable : place.isNullable with
  | true =>
    rw [Place.absent, if_pos hnullable]
    refine .of_null hbelow hplaced ⟨place, hplace, hnullable, .inr ⟨e, he, hkind, hpath, ?_, hup⟩⟩
    exact ⟨place, hplace, hnullable⟩
  | false =>
    rw [Place.absent, if_neg (Bool.eq_false_iff.mp hnullable)]
    refine ⟨hbelow, hplaced, fun _ => ⟨e, he, hkind, hpath, ?_⟩, fun _ h => (by cases h),
      fun _ h => (by cases h)⟩
    rintro q hdown hq hnull
    obtain rfl : q = path := (hup q hq hnull).eq_of_length_le hdown.length_le
    obtain ⟨other, hother, hisNull⟩ := hnull
    cases hplace.symm.trans hother
    cases hnullable.symm.trans hisNull

theorem Nulled.parts {path : Path} {steps : List PathSegment} {each : List Settled}
    (hparts : List.Forall₂ (fun step s => o.Nulled log (path ++ [step]) s) steps each) :
    ∀ e ∈ Event.errors (each.flatMap (·.events)), path <+: e.path ∧
      (¬ Scope.IsMissingFragment e → ∃ place, o.place? log e.path = some place) := by
  induction hparts with
  | nil => simp
  | @cons step s _ _ hpart _ ih =>
    intro e he
    rw [List.flatMap_cons, Event.errors_append] at he
    rcases List.mem_append.mp he with he | he
    · exact ⟨(List.prefix_append path [step]).trans (hpart.below e he), hpart.placed e he⟩
    · exact ih e he

/-- A value that parts make up accounts for what its parts account for. -/
theorem Nulled.composed {path : Path} {place : Place} {steps : List PathSegment} {value : Value}
    {parts : List (Value × List Event)}
    (hcomposes : o.scope.Composes place steps (parts.map (·.1)) value)
    (hparts : List.Forall₂ (fun step part => o.Nulled log (path ++ [step]) (.valued part)) steps
      parts) : o.Nulled log path ⟨some value, parts.flatMap (·.2)⟩ := by
  have herrors := Nulled.parts (List.forall₂_map_right_iff.mpr hparts)
  rw [List.flatMap_map] at herrors
  refine ⟨fun e he => (herrors e he).1, fun e he => (herrors e he).2, fun h => (by cases h),
    fun _ h e he hkind => ?_, fun _ h rest hrest => ?_⟩
  · cases h
    obtain ⟨event, hevent, hreported⟩ := List.mem_filterMap.mp he
    obtain ⟨part, hpart, hin⟩ := List.mem_flatMap.mp hevent
    obtain ⟨step, hstep, hnulled⟩ := hcomposes.exists_step hparts hpart
    obtain ⟨q, hgoverns, rest, hq, hrest⟩ := hnulled.covered part.1 rfl e
      (List.mem_filterMap.mpr ⟨event, hin, hreported⟩) hkind
    refine ⟨q, hgoverns, step :: rest, by simpa using hq, ?_⟩
    rw [Value.follow?_cons, hstep, Option.bind_some, hrest]
  · cases h
    cases rest with
    | nil => exact absurd (Option.some.inj hrest) hcomposes.ne_null
    | cons step rest =>
      obtain ⟨w, hstep, hnull⟩ := Option.bind_eq_some_iff.mp hrest
      obtain ⟨part, -, rfl, hnulled⟩ := hcomposes.exists_part hparts hstep
      have hat := hnulled.nulls part.1 rfl rest hnull
      rwa [List.append_assoc] at hat

/-- Nulls and errors keep accounting for each other, whichever way a position comes to its value. -/
theorem keeps_nulled (o : Opening) (log : List Event) : Keeps o log (o.Nulled log) where
  quiet {path s} events hevents h := by
    have herrors : Event.errors (s.after events).events = Event.errors s.events := by
      rw [Settled.after, Event.errors_append, hevents, List.nil_append]
    refine ⟨?_, ?_, h.failed, ?_, h.nulls⟩
    · exact fun e he => h.below e (herrors ▸ he)
    · exact fun e he => h.placed e (herrors ▸ he)
    · exact fun value hvalue e he => h.covered value hvalue e (herrors ▸ he)
  missing spread h := by
    refine ⟨fun e he => ?_, fun e he hkind => ?_, h.failed, fun value hvalue e he hkind => ?_,
      h.nulls⟩
    · rcases List.mem_cons.mp he with rfl | he
      · exact List.prefix_rfl
      · exact h.below e he
    · rcases List.mem_cons.mp he with rfl | he
      · exact absurd ⟨spread.2, rfl⟩ hkind
      · exact h.placed e he hkind
    · rcases List.mem_cons.mp he with rfl | he
      · exact absurd ⟨spread.2, rfl⟩ hkind
      · exact h.covered value hvalue e he hkind
  leaf {path place value} hplace hleaf := by
    refine ⟨by simp, by simp, fun h => (by cases h), by simp, fun other hother rest hrest => ?_⟩
    cases hother
    obtain rfl := hleaf.eq_nil hrest
    cases hrest
    cases hleaf with
    | null hnullable =>
      rw [List.append_nil]
      exact ⟨_, hplace, by rw [Place.isNullable, hnullable]; rfl, .inl rfl⟩
  failed {path place e kind} location hplace hfailure hlog := by
    have hmem : ⟨location, path, e, kind⟩ ∈ Event.errors log :=
      List.mem_filterMap.mpr ⟨_, hlog, rfl⟩
    refine .of_absent hplace ?_ ?_ hmem (hfailure.not_missingFragment location path)
      List.prefix_rfl fun q hq _ => hq
    · simp
    · simp [hplace]
  composed _ hcomposes hparts := .composed hcomposes hparts
  broken {path place steps each} hplace _ hparts hfailed := by
    obtain ⟨s, hs, hnone⟩ := hfailed
    obtain ⟨step, hpart⟩ : ∃ step, o.Nulled log (path ++ [step]) s := by
      obtain ⟨i, hi, rfl⟩ := List.getElem_of_mem hs
      exact ⟨_, hparts.get (hparts.length_eq ▸ hi) hi⟩
    obtain ⟨e, he, hkind, hbelow, hbare⟩ := hpart.failed hnone
    have herrors := Nulled.parts hparts
    exact .of_absent hplace (fun e he => (herrors e he).1) (fun e he => (herrors e he).2) he hkind
      ((List.prefix_append path [step]).trans hbelow)
      fun q hq hnull => hbare.prefix_of_step hbelow hq hnull

theorem Nulled.exists_data {s : Settled} (h : o.Nulled log [] s) :
    ∃ data, s.result = some data := by
  cases hresult : s.result with
  | some data => exact ⟨data, rfl⟩
  | none =>
    obtain ⟨e, -, -, -, hbare⟩ := h.failed hresult
    exact absurd ⟨_, o.place?_nil log, rfl⟩ (hbare [] List.prefix_rfl List.nil_prefix)

end Opening

namespace Schema

variable {s : Schema}

theorem nullsExact_of_reaches {r : Request} {o : Opening} (ho : s.opening r = .ok o) {depth : Nat}
    {log : List Event} {result : Option Value} (hrun : (o.agenda depth).Reaches log (.ended result)) :
    o.NullsExact log (Agenda.recorded log result).1 (Agenda.recorded log result).2 := by
  obtain ⟨t, ht, rfl, hperm⟩ := (o.keeps_nulled log).of_reaches hrun (nodup_marks ho hrun)
  obtain ⟨data, hdata⟩ := ht.exists_data
  have herrors {e : ExecutionError} : e ∈ Event.errors t.events ↔ e ∈ Event.errors log :=
    (hperm.filterMap _).mem_iff
  constructor
  · intro e he hkind
    rw [Agenda.mem_recorded, ← herrors] at he
    refine ⟨ht.placed e he hkind, ?_⟩
    obtain ⟨q, hgoverns, path, hq, hnull⟩ := ht.covered data hdata e he hkind
    exact ⟨q, hgoverns, path, hq, by rwa [Agenda.recorded, hdata]⟩
  · intro path hnull
    rw [Agenda.recorded, hdata] at hnull
    obtain ⟨place, hplace, hnullable, hcause⟩ := ht.nulls data hdata path hnull
    refine ⟨place, hplace, hnullable, hcause.imp_right ?_⟩
    rintro ⟨e, he, hrest⟩
    exact ⟨e, Agenda.mem_recorded.mpr he, hrest⟩

/-- Whatever the resolvers of a schema do, an error makes the nearest position null that may be null,
unless a position above it became null as well, and nothing else becomes null. This holds of every
run of a request to its end, and so of what workers answer. -/
theorem nulls_exact {r : Request} {o : Opening} (ho : s.opening r = .ok o) (depth : Nat) :
    (∀ log result, (o.agenda depth).Reaches log (.ended result) →
      o.NullsExact log (Agenda.recorded log result).1 (Agenda.recorded log result).2) ∧
    ∀ workers outcome rest, s.executeOn? workers depth r = some (.ok outcome, rest) →
      ∃ log result, (o.agenda depth).Reaches log (.ended result) ∧
        o.NullsExact log outcome.data outcome.errors := by
  have hruns (log : List Event) (result : Option Value)
      (hrun : (o.agenda depth).Reaches log (.ended result)) :
      o.NullsExact log (Agenda.recorded log result).1 (Agenda.recorded log result).2 :=
    nullsExact_of_reaches ho hrun
  exact ⟨hruns, fun workers outcome rest h => exists_reaches_of_outcome ho hruns h⟩

theorem nulls_exact_sample : Sample.schema.opening Sample.request = .ok Sample.opening ∧
    Sample.data.follow? [.field "latest"] = some .null ∧
    ∃ log result, (Sample.opening.agenda 2).Reaches log (.ended result) ∧
      Sample.opening.NullsExact log Sample.data Sample.errors := by
  refine ⟨Sample.opening_request, rfl, ?_⟩
  obtain ⟨log, result, hrun, hrecorded⟩ :=
    Agenda.exists_reaches_of_sequential Sample.sequential_opening
  have hexact := (Sample.schema.nulls_exact Sample.opening_request 2).1 log result hrun
  rw [hrecorded] at hexact
  exact ⟨log, result, hrun, hexact⟩

end Schema

end Trellis
