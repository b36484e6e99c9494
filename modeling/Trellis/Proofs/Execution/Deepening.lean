import Trellis.Proofs.Execution.ScheduleIndependence

/-!
Laying out deeper and deeper.

What is nested too deep is missing from a plan, and a plan with something missing cannot be carried
out. Plans that are laid out deeper and deeper halt if from some depth on nothing is missing that is
reached, so that carrying them out comes to one and the same end. Everything that plans are made of
keeps this, and the order of parts depends on no depth.
-/

namespace Trellis

/-- An action comes to its end, whatever the journal holds. -/
def Action.Returns (action : Action) : Prop := ∀ journal, action.perform? journal ≠ none

namespace Runner

/-- Runners of deeper and deeper plans that halt: whatever was written before, from some depth on they
come to the same end, and all calls that are made end. -/
def Halts (runners : Nat → Runner) : Prop :=
  ∀ progress, ∃ e, Call.anyEndless e.calls = false ∧
    ∃ depth, ∀ deeper ≥ depth, runners deeper progress = some e

/-- The order in which parts are taken is the same at every depth. -/
theorem exists_inOrder (ranks : List Nat) (parts : List (Nat → Runner)) :
    ∃ order : List (Nat × (Nat → Runner)), (∀ part ∈ order, part.2 ∈ parts) ∧
      ∀ depth, inOrder ranks (parts.map (· depth)) =
        order.map fun part => (part.1, part.2 depth) := by
  refine ⟨((ranks.zip parts.zipIdx).mergeSort fun a b => a.1 ≤ b.1).map
    fun (_, part, i) => (i, part), ?_, ?_⟩
  · intro entry hentry
    obtain ⟨⟨rank, part, i⟩, hranked, rfl⟩ := List.mem_map.mp hentry
    have hzip := List.of_mem_zip (List.mem_mergeSort.mp hranked)
    exact List.fst_mem_of_mem_zipIdx hzip.2
  · intro depth
    have hsort := List.map_mergeSort (r := fun a b => decide (a.1 ≤ b.1))
      (s := fun a b => decide (a.1 ≤ b.1)) (f := Prod.map id (Prod.map (· depth) id))
      (l := ranks.zip parts.zipIdx) fun _ _ _ _ => rfl
    rw [inOrder, List.zipIdx_map, List.zip_map_right, ← hsort, List.map_map, List.map_map]
    rfl

/-- Parts that halt are gathered to one and the same end. -/
theorem gather_halts {order : List (Nat × (Nat → Runner))} (h : ∀ part ∈ order, Halts part.2)
    (g : Gathered) (hg : Call.anyEndless g.calls = false) :
    ∃ g', Call.anyEndless g'.calls = false ∧ ∃ depth, ∀ deeper ≥ depth,
      gather (order.map fun part => (part.1, part.2 deeper)) g = some g' := by
  induction order generalizing g with
  | nil => exact ⟨g, hg, 0, fun _ _ => rfl⟩
  | cons part order ih =>
    obtain ⟨e, hcalls, first, hfirst⟩ := h part List.mem_cons_self g.progress
    have hadd : Call.anyEndless (g.add part.1 e).calls = false := by
      rw [Gathered.calls_add, Call.anyEndless_append, Call.anyEndless_reverse, hcalls, hg]
      rfl
    obtain ⟨g', hcalls', second, hsecond⟩ :=
      ih (fun other hother => h other (List.mem_cons_of_mem _ hother)) (g.add part.1 e) hadd
    refine ⟨g', hcalls', max first second, fun deeper hdeeper => ?_⟩
    rw [List.map_cons, gather, hfirst deeper (le_trans (le_max_left ..) hdeeper)]
    exact hsecond deeper (le_trans (le_max_right ..) hdeeper)

theorem assemble_halts (frame : Frame) (ranks : List Nat) {parts : List (Nat → Runner)}
    (h : ∀ part ∈ parts, Halts part) :
    Halts fun depth => assemble frame (inOrder ranks (parts.map (· depth))) := by
  obtain ⟨order, hmem, horder⟩ := exists_inOrder ranks parts
  intro progress
  obtain ⟨g, hcalls, depth, hdepth⟩ := gather_halts (fun part hpart => h part.2 (hmem part hpart))
    (.start order.length progress) rfl
  refine ⟨⟨g.tray.assemble frame, g.calls.reverse, g.progress⟩,
    (Call.anyEndless_reverse _).trans hcalls, depth, fun deeper hdeeper => ?_⟩
  dsimp only
  rw [horder, assemble, List.length_map, hdepth deeper hdeeper]
  rfl

end Runner

namespace Plan

/-- Deeper and deeper plans that start with the same call and halt in whatever ranking. -/
structure Halts (plans : Nat → Plan) : Prop where
  entry : ∀ depth, Plan.entry? (plans depth) = Plan.entry? (plans 0)
  ends : ∀ ranking, Runner.Halts fun depth => (plans depth).run ranking

theorem entry?_reportAll (errors : List ExecutionError) (rest : Plan) :
    Plan.entry? (reportAll errors rest) = rest.entry? := by
  induction errors with
  | nil => rfl
  | cons error errors ih => exact ih

theorem halts_done (result : Option Value) : Halts fun _ => .done result where
  entry _ := rfl
  ends _ progress := ⟨⟨result, [], progress⟩, rfl, 0, fun _ _ => rfl⟩

namespace Halts

variable {plans : Nat → Plan}

theorem report (h : Halts plans) (error : ExecutionError) :
    Halts fun depth => .report error (plans depth) where
  entry := h.entry
  ends ranking progress := h.ends ranking { progress with errors := error :: progress.errors }

theorem reportAll (h : Halts plans) (errors : List ExecutionError) :
    Halts fun depth => Plan.reportAll errors (plans depth) := by
  induction errors with
  | nil => exact h
  | cons error errors ih => exact ih.report error

theorem transformed (h : Halts plans) (path : Path) (index : Nat) :
    Halts fun depth => .transformed path index (plans depth) where
  entry := h.entry
  ends := h.ends

/-- The first depth counts no more than any other. -/
theorem of_deeper (h : Halts fun depth => plans (depth + 1))
    (hentry : Plan.entry? (plans 1) = Plan.entry? (plans 0)) : Halts plans where
  entry
    | 0 => rfl
    | depth + 1 => (h.entry depth).trans hentry
  ends ranking progress := by
    obtain ⟨e, hcalls, depth, hdepth⟩ := h.ends ranking progress
    refine ⟨e, hcalls, depth + 1, fun deeper hdeeper => ?_⟩
    obtain ⟨deeper, rfl⟩ := Nat.exists_eq_add_of_le' (le_trans (Nat.le_add_left 1 depth) hdeeper)
    exact hdepth deeper (Nat.le_of_succ_le_succ hdeeper)

end Halts

theorem halts_fail (type : TypeLiteral) (location : Position) (path : Path) (error : FieldError)
    (kind : ErrorKind) : Halts fun _ => .fail type location path error kind :=
  (halts_done (nullFor type)).report _

/-- A call that returns halts if what is made of all its answers does. -/
theorem halts_invoke {action : Action} (haction : action.Returns) (path : Path)
    (mode : ResolverMode) {next : Nat → Except FieldError Output → Plan}
    (h : ∀ journal ending, action.perform? journal = some ending →
      Halts fun depth => next depth ending.result) :
    Halts fun depth => .invoke path mode action (next depth) where
  entry _ := rfl
  ends ranking progress := by
    obtain ⟨ending, hending⟩ := Option.ne_none_iff_exists'.mp (haction progress.journal)
    obtain ⟨e, hcalls, depth, hdepth⟩ :=
      (h _ ending hending).ends ranking { progress with journal := ending.journal }
    let call : Call := ⟨path, mode, some ending.elapsed, action.writesAfter?, e.calls⟩
    refine ⟨{ e with calls := [call] }, ?_, depth, fun deeper hdeeper => ?_⟩
    · simp [call, Call.anyEndless, Call.isEndless, hcalls]
    · simp only [run, hending, hdepth deeper hdeeper]
      rfl

/-- Parts that halt make up a whole that halts. -/
theorem halts_together (frame : Frame) {parts : List (Nat → Plan)} (h : ∀ part ∈ parts, Halts part) :
    Halts fun depth => .together frame (parts.map (· depth)) where
  entry _ := rfl
  ends ranking := by
    have hranks (depth : Nat) : (parts.map (· depth)).map (rank ranking) =
        (parts.map (· 0)).map (rank ranking) := by
      rw [List.map_map, List.map_map]
      refine List.map_congr_left fun part hpart => ?_
      rw [Function.comp_apply, Function.comp_apply, rank, rank, (h part hpart).entry depth]
    have hrunners (depth : Nat) : runAll ranking (parts.map (· depth)) =
        (parts.map fun part depth => (part depth).run ranking).map (· depth) := by
      rw [runAll_eq_map, List.map_map, List.map_map]
      rfl
    simp only [run, hranks, hrunners]
    refine Runner.assemble_halts frame _ fun runner hrunner => ?_
    obtain ⟨part, hpart, rfl⟩ := List.mem_map.mp hrunner
    exact (h part hpart).ends ranking

end Plan

/-- An agenda whose parts halt is carried out to one and the same end. -/
theorem Agenda.exists_run {agendas : Nat → Agenda} {errors : List ExecutionError}
    {keys : List String} {serial : Bool} {parts : List (Nat → Plan)}
    (hagendas : ∀ depth, agendas depth = ⟨errors, keys, parts.map (· depth), serial⟩)
    (h : ∀ part ∈ parts, Plan.Halts part) (ranking : Ranking) :
    ∃ e, Call.anyEndless e.calls = false ∧
      ∃ depth, ∀ deeper ≥ depth, (agendas deeper).run ranking = some e := by
  cases serial with
  | false =>
    obtain ⟨e, hcalls, depth, hdepth⟩ :=
      (Plan.halts_together ⟨.object keys, true⟩ h).ends ranking ⟨[], errors.reverse⟩
    refine ⟨e, hcalls, depth, fun deeper hdeeper => ?_⟩
    rw [hagendas, ← hdepth deeper hdeeper]
    rfl
  | true =>
    have hrunners (part) (hpart : part ∈ parts.map fun part depth => (part depth).run ranking) :
        Runner.Halts part := by
      obtain ⟨part, hin, rfl⟩ := List.mem_map.mp hpart
      exact (h part hin).ends ranking
    obtain ⟨e, hcalls, depth, hdepth⟩ := Runner.assemble_halts ⟨.object keys, true⟩
      (parts.map fun _ => 0) hrunners ⟨[], errors.reverse⟩
    refine ⟨e, hcalls, depth, fun deeper hdeeper => ?_⟩
    rw [← hdepth deeper hdeeper, hagendas, run]
    dsimp only
    rw [if_pos rfl, ← Runner.inOrder_zero, Plan.runAll_eq_map]
    simp only [List.map_map, Function.comp_def]

/-! ### What is carried out is laid out -/

namespace Runner

theorem exists_of_gather {order : List (Nat × Runner)} {g g' : Gathered}
    (h : gather order g = some g') :
    ∀ part ∈ order, ∃ progress e, part.2 progress = some e := by
  induction order generalizing g with
  | nil => exact nofun
  | cons part order ih =>
    obtain ⟨e, he, hrest⟩ := Option.bind_eq_some_iff.mp h
    exact List.forall_mem_cons.mpr ⟨⟨_, e, he⟩, ih hrest⟩

end Runner

namespace Plan

/-- A plan that is carried out in some ranking, whatever was written before. -/
def Runs (plan : Plan) : Prop := ∃ ranking progress e, plan.run ranking progress = some e

theorem Runs.of_transformed {path : Path} {index : Nat} {rest : Plan}
    (h : (transformed path index rest).Runs) : rest.Runs := h

theorem Runs.of_invoke {path : Path} {mode : ResolverMode} {action : Action}
    {next : Except FieldError Output → Plan} (h : (invoke path mode action next).Runs)
    (hreturns : action.Returns) (hsteady : action.Steady) {journal : List String}
    {ending : Action.Ending} (hending : action.perform? journal = some ending) :
    (next ending.result).Runs := by
  obtain ⟨ranking, progress, e, he⟩ := h
  obtain ⟨other, hother⟩ := Option.ne_none_iff_exists'.mp (hreturns progress.journal)
  simp only [run, hother] at he
  obtain ⟨inner, hinner, -⟩ := Option.bind_eq_some_iff.mp he
  rw [hsteady.result_eq hending hother]
  exact ⟨ranking, _, inner, hinner⟩

/-- The parts of what is carried out are carried out, in whatever order they are taken. -/
theorem runs_of_assemble {ranking : Ranking} {frame : Frame} {parts : List Plan}
    {order : List (Nat × Plan)} (hperm : order.Perm (Job.numbered parts 0)) {progress : Progress}
    {e : Ended} (h : Runner.assemble frame (runners ranking order) progress = some e) :
    ∀ part ∈ parts, part.Runs := by
  obtain ⟨g, hg, -⟩ := Option.bind_eq_some_iff.mp h
  intro part hpart
  obtain ⟨i, hi⟩ := List.mem_iff_getElem?.mp hpart
  have hmem : (i, part) ∈ order := hperm.mem_iff.mpr <| by
    refine List.mem_map.mpr ⟨(part, i), ?_, rfl⟩
    exact List.mem_zipIdx_iff_getElem?.mpr hi
  obtain ⟨before, inner, hinner⟩ :=
    Runner.exists_of_gather hg _ (List.mem_map_of_mem (f := fun part => (part.1, part.2.run ranking)) hmem)
  exact ⟨ranking, before, inner, hinner⟩

theorem Runs.of_together {frame : Frame} {parts : List Plan} (h : (together frame parts).Runs) :
    ∀ part ∈ parts, part.Runs := by
  obtain ⟨ranking, progress, e, he⟩ := h
  obtain ⟨order, horder, hperm⟩ := exists_order ranking parts
  rw [run, horder] at he
  exact runs_of_assemble hperm he

end Plan

end Trellis
