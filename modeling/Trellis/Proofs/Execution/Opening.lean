import Trellis.Proofs.Execution.ErrorOrder
import Trellis.Proofs.Execution.Laying

/-!
Runs of requests.

What a request lays out keeps to the paths of its response, so nothing that is seen of a run takes
place twice. An execution on workers is one of these runs.
-/

namespace Trellis

namespace Agenda

/-- What is recorded of a run: its data and its sorted errors. A root that failed is null. -/
def recorded (log : List Event) (result : Option Value) : Value × List ExecutionError :=
  (result.getD .null, ExecutionError.sort (Event.errors log))

theorem mem_recorded {log : List Event} {result : Option Value} {e : ExecutionError} :
    e ∈ (recorded log result).2 ↔ e ∈ Event.errors log :=
  (List.mergeSort_perm ..).mem_iff

/-- An agenda that keeps to the paths of its response, with calls of some kind. -/
def Fits (a : Agenda) (call : Action → Prop) : Prop := a.plan.Fits call [] []

theorem Fits.nodup_marks {a : Agenda} {call : Action → Prop} (h : a.Fits call) {log : List Event}
    {result : Option Value} (hrun : a.Reaches log (.ended result)) : (Event.marks log).Nodup := by
  obtain ⟨s, hs, -, hperm⟩ := hrun.settles
  exact (hperm.map _).nodup_iff.mp (h.spread hs).nodup

/-- The errors of a run to the end differ in path or message. -/
theorem Fits.nodup_errors {a : Agenda} {call : Action → Prop} (h : a.Fits call) {log : List Event}
    {result : Option Value} (hrun : a.Reaches log (.ended result)) :
    ((Event.errors log).map ExecutionError.signature).Nodup := by
  have hmarks := h.nodup_marks hrun
  clear hrun
  induction log with
  | nil => exact List.nodup_nil
  | cons event log ih =>
    obtain ⟨hnew, hrest⟩ := List.nodup_cons.mp hmarks
    cases event with
    | answered | transformed => exact ih hrest
    | reported e =>
      rw [Event.errors_reported, List.map_cons]
      refine List.nodup_cons.mpr ⟨fun hmem => hnew ?_, ih hrest⟩
      obtain ⟨other, hother, hsignature⟩ := List.mem_map.mp hmem
      obtain ⟨event, hevent, herror⟩ := List.mem_filterMap.mp hother
      cases event with
      | answered | transformed => cases herror
      | reported other' =>
        cases herror
        refine List.mem_map.mpr ⟨_, hevent, ?_⟩
        obtain ⟨hpath, hmessage⟩ := Prod.mk.inj hsignature
        simp only [Event.mark, hpath, hmessage]

end Agenda

namespace Schema

variable {s : Schema}

theorem opening_eq {r : Request} {o : Opening} (h : s.opening r = .ok o) :
    s.root? o.operation.kind = some o.root ∧ o.scope.graph = s.graph := by
  rw [opening] at h
  cases hselect : selectOperation r.document r.operation with
  | error e => simp [hselect, bind, Except.bind] at h
  | ok operation =>
    simp only [hselect, bind, Except.bind] at h
    split at h
    · cases h
    · rename_i root hroot
      split at h
      · cases h
      · cases h
        exact ⟨hroot, rfl⟩

theorem root?_type? {kind : Document.OperationKind} {root : ObjectType}
    (h : s.root? kind = some root) : ∃ name, s.graph.type? name = some (.object root) := by
  have hobject {node : TypeNode} {o : ObjectType} (ho : node.object? = some o) :
      node = .object o := by
    cases node <;> cases ho
    rfl
  cases kind with
  | query =>
    obtain ⟨node, hnode, hroot⟩ := Option.bind_eq_some_iff.mp h
    exact ⟨_, hobject hroot ▸ hnode⟩
  | mutation =>
    obtain ⟨name, -, hbind⟩ := Option.bind_eq_some_iff.mp h
    obtain ⟨node, hnode, hroot⟩ := Option.bind_eq_some_iff.mp hbind
    exact ⟨name, hobject hroot ▸ hnode⟩
  | subscription => cases h

/-- What a request lays out keeps to its paths, with calls that the schema allows. -/
theorem fits_agenda {r : Request} {o : Opening} (h : s.opening r = .ok o) {call : Action → Prop}
    (hs : s.graph.Does call) (depth : Nat) : (o.agenda depth).Fits call := by
  obtain ⟨hroot, hgraph⟩ := opening_eq h
  obtain ⟨name, hname⟩ := root?_type? hroot
  exact Scope.fits_planObject (hgraph ▸ hs) (depth + 1) o.root none o.operation.selections [] true
    [] (hs name o.root hname) Plan.silent_nil

theorem cutOff?_ne_ok (workers : Workers) (a : Agenda) (outcome : Outcome) (rest : Workers) :
    s.cutOff? workers a ≠ some (.ok outcome, rest) := by
  intro h
  obtain ⟨limit, -, hlimit⟩ := Option.bind_eq_some_iff.mp h
  obtain ⟨begun, -, hbegun⟩ := Option.bind_eq_some_iff.mp hlimit
  dsimp only at hbegun
  split at hbegun <;> cases hbegun

/-- An execution on workers is a run of what was laid out. -/
theorem exists_reaches_of_executeOn {workers rest : Workers} {depth : Nat} {r : Request}
    {outcome : Outcome} (h : s.executeOn? workers depth r = some (.ok outcome, rest)) :
    ∃ o, s.opening r = .ok o ∧ ∃ log result, (o.agenda depth).Reaches log (.ended result) ∧
      Agenda.recorded log result = (outcome.data, outcome.errors) := by
  rw [executeOn?] at h
  split at h
  · cases h
  · rename_i o ho
    refine ⟨o, ho, ?_⟩
    have hrecord {e : Ended} {ranking : Ranking} (he : (o.agenda depth).run ranking = some e)
        (hends : ¬ Call.anyEndless e.calls = true) :
        ∃ log result, (o.agenda depth).Reaches log (.ended result) ∧ Agenda.recorded log result =
          ((Outcome.ofEnded e).data, (Outcome.ofEnded e).errors) := by
      obtain ⟨log, hreaches, herrors⟩ :=
        Agenda.reaches_of_run he (Bool.eq_false_iff.mpr hends)
      exact ⟨log, e.result, hreaches, by rw [Agenda.recorded, Outcome.ofEnded, herrors]⟩
    rw [finish?] at h
    split at h
    · exact absurd h (cutOff?_ne_ok workers _ outcome rest)
    · dsimp only at h
      split at h
      · split at h
        · obtain ⟨e, he, hends⟩ := Option.bind_eq_some_iff.mp h
          split at hends
          · cases hends
          · rename_i hfinite
            cases hends
            exact hrecord he hfinite
        · cases h
      · split at h
        · cases h
        · obtain ⟨e, he, hends⟩ := Option.bind_eq_some_iff.mp h
          split at hends
          · cases hends
          · rename_i hfinite
            cases hends
            exact hrecord he hfinite

/-- What holds of the records of all runs holds of every outcome on workers. -/
theorem exists_reaches_of_outcome {P : List Event → Value → List ExecutionError → Prop}
    {r : Request} {o : Opening} (ho : s.opening r = .ok o) {depth : Nat}
    (h : ∀ log result, (o.agenda depth).Reaches log (.ended result) →
      P log (Agenda.recorded log result).1 (Agenda.recorded log result).2)
    {workers rest : Workers} {outcome : Outcome}
    (hrun : s.executeOn? workers depth r = some (.ok outcome, rest)) :
    ∃ log result, (o.agenda depth).Reaches log (.ended result) ∧
      P log outcome.data outcome.errors := by
  obtain ⟨other, hother, log, result, hreaches, hrecorded⟩ := exists_reaches_of_executeOn hrun
  obtain rfl : o = other := Except.ok.inj (ho.symm.trans hother)
  have hP := h log result hreaches
  rw [hrecorded] at hP
  exact ⟨log, result, hreaches, hP⟩

theorem nodup_marks {r : Request} {o : Opening} (ho : s.opening r = .ok o) {depth : Nat}
    {log : List Event} {result : Option Value}
    (hrun : (o.agenda depth).Reaches log (.ended result)) : (Event.marks log).Nodup :=
  (fits_agenda ho (TypeGraph.does_anything _) depth).nodup_marks hrun

end Schema

end Trellis
