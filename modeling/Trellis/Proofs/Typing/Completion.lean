import Trellis.Proofs.Execution.Completion
import Trellis.Proofs.Typing.Graphs

/-!
Completion with types.

An output that fits a description has the shape that the type literal of the description asks for,
except where the description is that of a union. So typed outputs are completed without failures
elsewhere, and objects are laid out for values of their own host types.
-/

namespace Trellis

open Document

/-- All errors that a plan reports on its ways to the events of a log have a property. -/
def Plan.Reports (P : ExecutionError → Prop) (log : List Event) (plan : Plan) : Prop :=
  ∀ s, plan.Settles s → s.events ⊆ log → ∀ e ∈ Event.errors s.events, P e

namespace Plan.Reports

variable {P : ExecutionError → Prop} {log : List Event}

theorem done (result : Option Value) : (Plan.done result).Reports P log := by
  rintro _ rfl _
  exact nofun

theorem report {e : ExecutionError} {rest : Plan} (he : P e) (h : rest.Reports P log) :
    (Plan.report e rest).Reports P log := by
  rintro _ ⟨s, hs, rfl⟩ hlog
  exact List.forall_mem_cons.mpr ⟨he, h s hs (List.append_subset.mp hlog).2⟩

theorem fail {type : TypeLiteral} {location : Position} {path : Path} {e : FieldError}
    {kind : ErrorKind} (he : P ⟨location, path, e, kind⟩) :
    (Plan.fail type location path e kind).Reports P log := report he (done _)

theorem reportAll {errors : List ExecutionError} {rest : Plan} (herrors : ∀ e ∈ errors, P e)
    (h : rest.Reports P log) : (Plan.reportAll errors rest).Reports P log := by
  induction errors with
  | nil => exact h
  | cons e errors ih =>
    rw [List.forall_mem_cons] at herrors
    exact report herrors.1 (ih herrors.2)

theorem invoke {path : Path} {mode : ResolverMode} {action : Action}
    {next : Except FieldError Output → Plan}
    (h : ∀ journal ending, action.perform? journal = some ending →
      Event.answered path ending.result ∈ log → (next ending.result).Reports P log) :
    (Plan.invoke path mode action next).Reports P log := by
  rintro _ ⟨journal, ending, s, hperform, hs, rfl⟩ hlog
  obtain ⟨hanswered, hrest⟩ := List.append_subset.mp hlog
  exact h journal ending hperform (hanswered List.mem_cons_self) s hs hrest

theorem transformed {path : Path} {index : Nat} {rest : Plan}
    (h : Event.transformed path index ∈ log → rest.Reports P log) :
    (Plan.transformed path index rest).Reports P log := by
  rintro _ ⟨s, hs, rfl⟩ hlog
  obtain ⟨htransformed, hrest⟩ := List.append_subset.mp hlog
  exact h (htransformed List.mem_cons_self) s hs hrest

theorem together (frame : Frame) {parts : List Plan} (h : ∀ part ∈ parts, part.Reports P log) :
    (Plan.together frame parts).Reports P log := by
  intro s hs hlog e he
  obtain ⟨each, heach, rfl⟩ := settles_together.mp hs
  simp only [Tray.settle, flatMap_numbered] at hlog he
  clear hs
  induction heach with
  | nil => cases he
  | cons hpart _ ih =>
    rw [List.forall_mem_cons] at h
    rw [List.flatMap_cons] at hlog he
    rw [Event.errors_append] at he
    obtain ⟨hfirst, hrest⟩ := List.append_subset.mp hlog
    rcases List.mem_append.mp he with he | he
    · exact h.1 _ hpart hfirst e he
    · exact ih h.2 hrest he

end Plan.Reports

namespace Universe

variable {u : Universe} {g : TypeGraph}

theorem Presents.of_null {ref : TypeRef} (h : u.Presents ref .null) {name : String}
    (hname : g.ShowsAs ref.innermost name) (hnonNull : (ref.literal name).isNonNull = true) :
    ∃ nonNull t, ref.literal name = .named name nonNull ∧ g.type? name = some (.union t) := by
  generalize houtput : Output.null = output at h
  cases h with
  | scalar | enumeration | object | list => cases houtput
  | union =>
    obtain ⟨t, ht⟩ := hname
    exact ⟨true, t, rfl, ht⟩
  | absent | present => simp [TypeRef.literal] at hnonNull

/-- A list is handed out for a type of lists of what its items fit, or by a member of a union. -/
theorem Presents.of_list {ref : TypeRef} {items : List Output} (h : u.Presents ref (.list items))
    {name : String} (hname : g.ShowsAs ref.innermost name) :
    (∃ inner nonNull, ref.literal name = .list (inner.literal name) nonNull ∧
      inner.innermost = ref.innermost ∧ ∀ item ∈ items, u.Presents inner item) ∨
    ∃ nonNull t, ref.literal name = .named name nonNull ∧ g.type? name = some (.union t) := by
  generalize houtput : Output.list items = output at h
  induction h with
  | scalar | enumeration | object | absent => cases houtput
  | union =>
    obtain ⟨t, ht⟩ := hname
    exact .inr ⟨true, t, rfl, ht⟩
  | @list _ inner _ hitems =>
    cases houtput
    exact .inl ⟨inner, true, rfl, rfl, hitems⟩
  | present _ ih =>
    rcases ih hname houtput with ⟨inner, _, hliteral, hinner, hitems⟩ | ⟨_, t, hliteral, ht⟩
    · exact .inl ⟨inner, false, by rw [TypeRef.literal, hliteral]; rfl, hinner, hitems⟩
    · exact .inr ⟨false, t, by rw [TypeRef.literal, hliteral]; rfl, ht⟩

/-- A type with a name is what values of a host type are completed as. -/
inductive Completes (g : TypeGraph) (name : String) (host : HostType) : Prop
  | scalar {t : ScalarType} : g.type? name = some (.scalar t) → t.coercion.host = host →
    Completes g name host
  | enumeration {t : EnumType} : g.type? name = some (.enumeration t) → t.host = host →
    Completes g name host
  | object {t : ObjectType} : g.type? name = some (.object t) → t.host = some host →
    Completes g name host
  | union {t : UnionType} : g.type? name = some (.union t) → Completes g name host

/-- A single value is handed out for a named type that its host type is completed as. -/
theorem Presents.of_single {ref : TypeRef} {host : HostType} {v : HostValue}
    (h : u.Presents ref (.single host v)) {name : String} (hname : g.ShowsAs ref.innermost name) :
    u.HasType host v ∧ Completes g name host ∧
      ∃ nonNull, ref.literal name = .named name nonNull := by
  generalize houtput : Output.single host v = output at h
  induction h with
  | scalar hv =>
    cases houtput
    obtain ⟨-, t, ht, hhost⟩ := hname
    exact ⟨hv, .scalar ht hhost, true, rfl⟩
  | enumeration hv =>
    cases houtput
    obtain ⟨-, t, ht, hhost⟩ := hname
    exact ⟨hv, .enumeration ht hhost, true, rfl⟩
  | object hv =>
    cases houtput
    obtain ⟨-, t, ht, hhost⟩ := hname
    exact ⟨hv, .object ht hhost, true, rfl⟩
  | union hv =>
    obtain ⟨t, ht⟩ := hname
    exact ⟨hv.of_erase houtput.symm, .union ht, true, rfl⟩
  | list | absent => cases houtput
  | present _ ih =>
    obtain ⟨hv, hcompletes, _, hliteral⟩ := ih hname houtput
    exact ⟨hv, hcompletes, false, by rw [TypeRef.literal, hliteral]; rfl⟩

end Universe

end Trellis
