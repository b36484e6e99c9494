import Mathlib.Data.List.Induction
import Trellis.Proofs.Schema.Reordering

/-!
Calls of a builder.

A builder collects what it is called with. All calls of a kind are kept in their order, apart from
customizations: those of one host type are put together, so only their order among each other counts.
-/

namespace Trellis

/-- An entry may be renewed at the end. -/
theorem Entries.lookup_refresh {κ α : Type} [DecidableEq κ] (entries : List (κ × α)) (key other : κ)
    (value : α) : (entries.filter (·.1 ≠ key) ++ [(key, value)]).lookup other =
      if other = key then some value else entries.lookup other := by
  rw [List.lookup_append]
  split
  · rename_i he
    have hnone : (entries.filter (·.1 ≠ key)).lookup other = none :=
      lookup_of_notMem fun hmem => by
        obtain ⟨entry, hentry, hkey⟩ := List.mem_map.mp hmem
        exact absurd (hkey.trans he) (by simpa using (List.mem_filter.mp hentry).2)
    rw [hnone, he]
    simp
  · rename_i hne
    rw [lookup_filter_ne hne, List.lookup_cons, beq_false_of_ne hne]
    simp

/-- A customization of an object type. It leaves alone which type is customized. -/
structure Customization where
  change : TypeDeclaration → TypeDeclaration
  keeps : ∀ declaration, (change declaration).type = declaration.type

/-- A call that declares something. -/
inductive BuilderCall where
  | query (d : PropertyDeclaration)
  | mutation (d : PropertyDeclaration)
  | type (ref : TypeRef) (customization : Customization)
  | enumeration (ref : TypeRef) (name description : Option String)
  | union (name : String) (d : UnionDeclaration)
  | scalar (d : ScalarDeclaration)
  | input (ref : TypeRef)

namespace BuilderCall

/-- The host type that a call customizes. -/
def customized? : BuilderCall → Option HostType
  | .type ref _ | .enumeration ref _ _ => some ref.host
  | _ => none

def query? : BuilderCall → Option PropertyDeclaration
  | .query d => some d
  | _ => none

def mutation? : BuilderCall → Option PropertyDeclaration
  | .mutation d => some d
  | _ => none

def union? : BuilderCall → Option (String × UnionDeclaration)
  | .union name d => some (name, d)
  | _ => none

def scalar? : BuilderCall → Option ScalarType
  | .scalar d => d.complete.toOption
  | _ => none

def input? : BuilderCall → Option TypeRef
  | .input ref => some ref
  | _ => none

/-- Whether nothing is wrong with a call by itself. -/
def Sane : BuilderCall → Prop
  | .type ref _ => ∃ host outline, ref = .object host outline
  | .enumeration ref _ _ => ∃ host shape, ref = .enumeration host shape
  | .scalar d => ∃ s, d.complete = .ok s
  | _ => True

end BuilderCall

namespace SchemaBuilder

def call (b : SchemaBuilder) : BuilderCall → SchemaBuilder
  | .query d => b.query d
  | .mutation d => b.mutation d
  | .type ref customization => b.type ref customization.change
  | .enumeration ref name description => b.enumeration ref name description
  | .union name d => b.union name d
  | .scalar d => b.scalar d
  | .input ref => b.input ref

def ofCalls (calls : List BuilderCall) : SchemaBuilder := calls.foldl call .new

theorem ofCalls_concat (calls : List BuilderCall) (c : BuilderCall) :
    ofCalls (calls ++ [c]) = (ofCalls calls).call c := by
  rw [ofCalls, List.foldl_append]
  rfl

theorem ofCalls_filterMap {α : Type} {field : Declarations → List α} {entry : BuilderCall → Option α}
    (hnew : field .empty = [])
    (hcall : ∀ b c, field (call b c).declarations = field b.declarations ++ (entry c).toList)
    (calls : List BuilderCall) : field (ofCalls calls).declarations = calls.filterMap entry := by
  induction calls using List.reverseRecOn with
  | nil => exact hnew
  | append_singleton calls c ih =>
    rw [ofCalls_concat, hcall, ih, List.filterMap_append]
    cases hentry : entry c <;> simp [hentry]

variable (b : SchemaBuilder) (c : BuilderCall)

/-- What a call adds to the lists that no call of another kind touches. -/
theorem lists_call :
    (b.call c).declarations.queries = b.declarations.queries ++ c.query?.toList ∧
    (b.call c).declarations.mutations = b.declarations.mutations ++ c.mutation?.toList ∧
    (b.call c).declarations.scalars = b.declarations.scalars ++ c.scalar?.toList ∧
    (b.call c).declarations.inputs = b.declarations.inputs ++ c.input?.toList := by
  -- A call that adds nothing to a list leaves it alone.
  have hkept {α : Type} (list : List α) : list = list ++ [] := (List.append_nil list).symm
  cases c with
  | query => exact ⟨rfl, hkept _, hkept _, hkept _⟩
  | mutation => exact ⟨hkept _, rfl, hkept _, hkept _⟩
  | input => exact ⟨hkept _, hkept _, hkept _, rfl⟩
  | type ref => cases ref <;> exact ⟨hkept _, hkept _, hkept _, hkept _⟩
  | enumeration ref => cases ref <;> exact ⟨hkept _, hkept _, hkept _, hkept _⟩
  | union =>
    rw [call, union]
    split <;> exact ⟨hkept _, hkept _, hkept _, hkept _⟩
  | scalar d =>
    rw [call, scalar, BuilderCall.scalar?]
    cases d.complete with
    | ok s => exact ⟨hkept _, hkept _, rfl, hkept _⟩
    | error e => exact ⟨hkept _, hkept _, hkept _, hkept _⟩

theorem queries_ofCalls (calls : List BuilderCall) :
    (ofCalls calls).declarations.queries = calls.filterMap (·.query?) :=
  ofCalls_filterMap rfl (fun b c => (lists_call b c).1) calls

theorem mutations_ofCalls (calls : List BuilderCall) :
    (ofCalls calls).declarations.mutations = calls.filterMap (·.mutation?) :=
  ofCalls_filterMap rfl (fun b c => (lists_call b c).2.1) calls

theorem scalars_ofCalls (calls : List BuilderCall) :
    (ofCalls calls).declarations.scalars = calls.filterMap (·.scalar?) :=
  ofCalls_filterMap rfl (fun b c => (lists_call b c).2.2.1) calls

theorem inputs_ofCalls (calls : List BuilderCall) :
    (ofCalls calls).declarations.inputs = calls.filterMap (·.input?) :=
  ofCalls_filterMap rfl (fun b c => (lists_call b c).2.2.2) calls

/-! ### Refusals -/

/-- A call is refused if something is wrong with it, or if it declares a union again. -/
theorem errors_call (b : SchemaBuilder) (c : BuilderCall) :
    (b.call c).errors = [] ↔ b.errors = [] ∧ c.Sane ∧
      ∀ union, c.union? = some union → b.declarations.unions.lookup union.1 = none := by
  cases c with
  | query | mutation | input => simp [call, query, mutation, input, declare, BuilderCall.Sane,
      BuilderCall.union?]
  | type ref =>
    cases ref <;> simp [call, type, declare, refuse, BuilderCall.Sane, BuilderCall.union?]
  | enumeration ref =>
    cases ref <;> simp [call, enumeration, declare, refuse, BuilderCall.Sane, BuilderCall.union?]
  | union name d =>
    rw [call, union]
    cases hlookup : b.declarations.unions.lookup name with
    | none => exact ⟨fun h => ⟨h, trivial, fun _ he => by cases he; exact hlookup⟩, fun h => h.1⟩
    | some found =>
      refine ⟨fun h => absurd h (by simp [refuse]), fun h => ?_⟩
      cases hlookup.symm.trans (h.2.2 _ rfl)
  | scalar d =>
    cases hcomplete : d.complete <;>
      simp [call, scalar, declare, refuse, BuilderCall.Sane, BuilderCall.union?, hcomplete]

/-- A union that is not refused is kept. -/
theorem unions_call {b : SchemaBuilder} {c : BuilderCall} (h : (b.call c).errors = []) :
    (b.call c).declarations.unions = b.declarations.unions ++ c.union?.toList := by
  have hfresh := ((errors_call b c).mp h).2.2
  cases c with
  | query | mutation | input => exact (List.append_nil _).symm
  | type ref => cases ref <;> exact (List.append_nil _).symm
  | enumeration ref => cases ref <;> exact (List.append_nil _).symm
  | union name d =>
    have hlookup := hfresh _ rfl
    simp [call, union, declare, BuilderCall.union?, hlookup]
  | scalar d =>
    cases hcomplete : d.complete <;>
      simp [call, scalar, declare, refuse, BuilderCall.union?, hcomplete]

/-- Nothing is wrong with any of the calls, and no union is declared twice. -/
def Sane (calls : List BuilderCall) : Prop :=
  (∀ c ∈ calls, c.Sane) ∧ ((calls.filterMap (·.union?)).map (·.1)).Nodup

theorem Sane.perm {calls calls' : List BuilderCall} (hperm : calls.Perm calls') (h : Sane calls) :
    Sane calls' :=
  ⟨fun c hc => h.1 c (hperm.mem_iff.mpr hc),
    ((hperm.filterMap _).map _).nodup_iff.mp h.2⟩

theorem sane_concat {calls : List BuilderCall} {c : BuilderCall} :
    Sane (calls ++ [c]) ↔ Sane calls ∧ c.Sane ∧
      ∀ union, c.union? = some union → union.1 ∉ (calls.filterMap (·.union?)).map (·.1) := by
  rw [Sane, Sane, List.forall_mem_append, List.forall_mem_singleton, List.filterMap_append]
  cases hunion : c.union? with
  | none => simp [hunion, and_right_comm]
  | some union =>
    have hsingle : [c].filterMap (·.union?) = [union] := by simp [hunion]
    rw [hsingle, List.map_append, List.map_singleton, ← List.concat_eq_append, List.nodup_concat]
    simp only [Option.some.injEq, forall_eq']
    tauto

/-- No call is refused exactly if nothing is wrong; then all unions are kept. -/
theorem errors_ofCalls (calls : List BuilderCall) :
    ((ofCalls calls).errors = [] ↔ Sane calls) ∧
      (Sane calls → (ofCalls calls).declarations.unions = calls.filterMap (·.union?)) := by
  induction calls using List.reverseRecOn with
  | nil => exact ⟨iff_of_true rfl ⟨by simp, by simp⟩, fun _ => rfl⟩
  | append_singleton calls c ih =>
    have hiff : (ofCalls (calls ++ [c])).errors = [] ↔ Sane (calls ++ [c]) := by
      rw [ofCalls_concat, errors_call, ih.1, sane_concat]
      refine and_congr_right fun hcalls => and_congr_right fun _ => forall₂_congr fun union _ => ?_
      rw [ih.2 hcalls]
      exact ⟨Entries.notMem_of_lookup, Entries.lookup_of_notMem⟩
    refine ⟨hiff, fun hsane => ?_⟩
    have herrors := hiff.mpr hsane
    rw [ofCalls_concat] at herrors ⊢
    rw [unions_call herrors, ih.2 (sane_concat.mp hsane).1, List.filterMap_append]
    cases hunion : c.union? <;> simp [hunion]

/-! ### Customizations -/

/-- Two builders have the same customization of a host type. -/
structure Matches (host : HostType) (b b' : SchemaBuilder) : Prop where
  types : b.declarations.types.lookup host = b'.declarations.types.lookup host
  enums : b.declarations.enums.lookup host = b'.declarations.enums.lookup host

variable {host : HostType} {b b' : SchemaBuilder}

/-- Calls that customize other host types make no difference. -/
theorem matches_call {c : BuilderCall} (h : c.customized? ≠ some host) :
    Matches host (b.call c) b := by
  cases c with
  | query | mutation | input => exact ⟨rfl, rfl⟩
  | type ref customization =>
    cases ref with
    | object key outline =>
      have hne : host ≠ key := fun he => h (congrArg some he.symm)
      refine ⟨?_, rfl⟩
      rw [call, type, declare, Entries.lookup_refresh, if_neg hne]
    | scalar | enumeration | inputObject | union | list | nullable | function | generic =>
      exact ⟨rfl, rfl⟩
  | enumeration ref name description =>
    cases ref with
    | enumeration key shape =>
      have hne : host ≠ key := fun he => h (congrArg some he.symm)
      refine ⟨rfl, ?_⟩
      rw [call, enumeration, declare, Entries.lookup_put, if_neg hne]
    | scalar | object | inputObject | union | list | nullable | function | generic =>
      exact ⟨rfl, rfl⟩
  | union name d =>
    rw [call, union]
    split <;> exact ⟨rfl, rfl⟩
  | scalar d =>
    rw [call, scalar]
    split <;> exact ⟨rfl, rfl⟩

/-- A call customizes a host type in the same way wherever it was customized in the same way. -/
theorem Matches.call (h : Matches host b b') (c : BuilderCall) :
    Matches host (b.call c) (b'.call c) := by
  by_cases hc : c.customized? = some host
  · cases c with
    | query | mutation | union | scalar | input => cases hc
    | type ref customization =>
      cases ref with
      | object key outline =>
        obtain rfl : key = host := Option.some.inj hc
        refine ⟨?_, h.enums⟩
        rw [SchemaBuilder.call, SchemaBuilder.call, type, type, declare, declare,
          Entries.lookup_refresh, Entries.lookup_refresh, if_pos rfl, if_pos rfl, h.types]
      | scalar | enumeration | inputObject | union | list | nullable | function | generic =>
        exact ⟨h.types, h.enums⟩
    | enumeration ref name description =>
      cases ref with
      | enumeration key shape =>
        obtain rfl : key = host := Option.some.inj hc
        refine ⟨h.types, ?_⟩
        rw [SchemaBuilder.call, SchemaBuilder.call, enumeration, enumeration, declare, declare,
          Entries.lookup_put, Entries.lookup_put, if_pos rfl, if_pos rfl]
      | scalar | object | inputObject | union | list | nullable | function | generic =>
        exact ⟨h.types, h.enums⟩
  · have hb := matches_call (b := b) hc
    have hb' := matches_call (b := b') hc
    exact ⟨hb.types.trans (h.types.trans hb'.types.symm),
      hb.enums.trans (h.enums.trans hb'.enums.symm)⟩

theorem Matches.foldl (h : Matches host b b') (calls : List BuilderCall) :
    Matches host (calls.foldl SchemaBuilder.call b)
      ((calls.filter (·.customized? = some host)).foldl SchemaBuilder.call b') := by
  induction calls generalizing b b' with
  | nil => exact h
  | cons c calls ih =>
    by_cases hc : c.customized? = some host
    · rw [List.filter_cons_of_pos (by simpa using hc)]
      exact ih (h.call c)
    · rw [List.filter_cons_of_neg (by simpa using hc)]
      have hb := matches_call (b := b) hc
      exact ih ⟨hb.types.trans h.types, hb.enums.trans h.enums⟩

/-- Declarations stay proper. -/
theorem proper_call (h : b.declarations.Proper) (c : BuilderCall) :
    (b.call c).declarations.Proper := by
  cases c with
  | query | mutation | input => exact ⟨h.types, h.enums, h.typeHosts, h.enumHosts, h.unionNames⟩
  | type ref customization =>
    cases ref with
    | object key outline =>
      refine ⟨fun host declaration hmem => ?_, h.enums, ?_, h.enumHosts, h.unionNames⟩
      · rcases List.mem_append.mp hmem with hmem | hmem
        · exact h.types host declaration (List.mem_filter.mp hmem).1
        · obtain ⟨rfl, rfl⟩ := Prod.mk.inj (List.mem_singleton.mp hmem)
          rw [customization.keeps]
          cases hlookup : b.declarations.types.lookup host with
          | none => exact ⟨outline, rfl⟩
          | some earlier => exact h.types host earlier (Entries.mem_of_lookup hlookup)
      · have hkept : (b.declarations.types.filter (·.1 ≠ key)).Sublist b.declarations.types :=
          List.filter_sublist
        refine Entries.nodup_concat (h.typeHosts.sublist (hkept.map _)) (fun hmem => ?_) _
        obtain ⟨entry, hentry, hkey⟩ := List.mem_map.mp hmem
        exact absurd hkey (by simpa using (List.mem_filter.mp hentry).2)
    | scalar | enumeration | inputObject | union | list | nullable | function | generic => exact h
  | enumeration ref name description =>
    cases ref with
    | enumeration key shape =>
      refine ⟨h.types, fun host declaration hmem => ?_, h.typeHosts, ?_, h.unionNames⟩
      · rcases Entries.mem_of_mem_put hmem with he | hmem
        · obtain ⟨rfl, rfl⟩ := Prod.mk.inj he
          exact ⟨shape, rfl⟩
        · exact h.enums host declaration hmem
      · have hkeys := Entries.keys_put key ⟨.enumeration key shape, name, description⟩
          b.declarations.enums
        change (Entries.keys (Entries.put key _ _)).Nodup
        rw [hkeys]
        split
        · exact h.enumHosts
        · rename_i hnew
          rw [← List.concat_eq_append]
          exact h.enumHosts.concat hnew
    | scalar | object | inputObject | union | list | nullable | function | generic => exact h
  | union name d =>
    rw [call, union]
    cases hlookup : b.declarations.unions.lookup name with
    | none => exact ⟨h.types, h.enums, h.typeHosts, h.enumHosts,
        Entries.nodup_concat h.unionNames (Entries.notMem_of_lookup hlookup) _⟩
    | some found => exact h
  | scalar d =>
    rw [call, scalar]
    split <;> exact ⟨h.types, h.enums, h.typeHosts, h.enumHosts, h.unionNames⟩

theorem proper_ofCalls (calls : List BuilderCall) : (ofCalls calls).declarations.Proper := by
  induction calls using List.reverseRecOn with
  | nil => exact ⟨nofun, nofun, List.nodup_nil, List.nodup_nil, List.nodup_nil⟩
  | append_singleton calls c ih =>
    rw [ofCalls_concat]
    exact proper_call ih c

/-- Calls in another order declare the same in another order, as long as the customizations of each
host type stay in theirs. -/
theorem reordered_ofCalls {calls calls' : List BuilderCall} (hperm : calls.Perm calls')
    (horder : ∀ host, calls.filter (·.customized? = some host) =
      calls'.filter (·.customized? = some host)) (hsane : Sane calls) :
    (ofCalls calls).declarations.Reordered (ofCalls calls').declarations := by
  have hp := proper_ofCalls calls
  have hp' := proper_ofCalls calls'
  have hmatches (host : HostType) : Matches host (ofCalls calls) (ofCalls calls') := by
    have hnew : Matches host new new := ⟨rfl, rfl⟩
    have hcalls := hnew.foldl calls
    have hcalls' := hnew.foldl calls'
    rw [← horder host] at hcalls'
    exact ⟨hcalls.types.trans hcalls'.types.symm, hcalls.enums.trans hcalls'.enums.symm⟩
  refine ⟨?_, ?_, Entries.perm_of_lookup hp.typeHosts hp'.typeHosts fun host => (hmatches host).types,
    Entries.perm_of_lookup hp.enumHosts hp'.enumHosts fun host => (hmatches host).enums, ?_, ?_, ?_⟩
  · rw [queries_ofCalls, queries_ofCalls]
    exact hperm.filterMap _
  · rw [mutations_ofCalls, mutations_ofCalls]
    exact hperm.filterMap _
  · rw [(errors_ofCalls calls).2 hsane, (errors_ofCalls calls').2 (hsane.perm hperm)]
    exact hperm.filterMap _
  · rw [scalars_ofCalls, scalars_ofCalls]
    exact hperm.filterMap _
  · rw [inputs_ofCalls, inputs_ofCalls]
    exact hperm.filterMap _

/-! ### Builders of a program -/

/-- A builder that a program can have: it begins with a new one, calls and configures it, and goes on
with what a build leaves of it. -/
inductive Arises (catalogue : Catalogue) : SchemaBuilder → Prop
  | new : Arises catalogue .new
  | call {b : SchemaBuilder} (c : BuilderCall) : Arises catalogue b → Arises catalogue (b.call c)
  | configure {b : SchemaBuilder} (change : Configuration → Configuration) :
    Arises catalogue b → Arises catalogue (b.configure change)
  | build {b : SchemaBuilder} : Arises catalogue b → Arises catalogue (b.build catalogue).2

theorem arises_ofCalls (catalogue : Catalogue) (calls : List BuilderCall) :
    Arises catalogue (ofCalls calls) := by
  induction calls using List.reverseRecOn with
  | nil => exact .new
  | append_singleton calls c ih =>
    rw [ofCalls_concat]
    exact ih.call c

theorem declarations_build (b : SchemaBuilder) (catalogue : Catalogue) :
    (b.build catalogue).2.declarations = b.declarations ∨
      (b.build catalogue).2.declarations = .empty := by
  unfold build
  cases b.errors with
  | cons e errors => exact .inl rfl
  | nil =>
    cases b.declarations.register catalogue with
    | error stop => exact .inr rfl
    | ok graph => exact .inr rfl

/-- What a build makes is what the declarations are registered as. -/
theorem register_of_build {b : SchemaBuilder} {catalogue : Catalogue} {s : Schema}
    (h : (b.build catalogue).1 = .ok s) : b.declarations.register catalogue = .ok s.graph := by
  rw [build] at h
  cases herrors : b.errors with
  | cons e errors =>
    rw [herrors] at h
    cases h
  | nil =>
    rw [herrors] at h
    cases hregister : b.declarations.register catalogue with
    | error stop =>
      rw [hregister] at h
      cases h
    | ok graph =>
      rw [hregister] at h
      cases h
      rfl

theorem Arises.proper {catalogue : Catalogue} {b : SchemaBuilder} (h : Arises catalogue b) :
    b.declarations.Proper := by
  have hempty : Declarations.empty.Proper :=
    ⟨nofun, nofun, List.nodup_nil, List.nodup_nil, List.nodup_nil⟩
  induction h with
  | new => exact hempty
  | call c _ ih => exact proper_call ih c
  | configure _ _ ih => exact ih
  | @build b _ ih =>
    rcases declarations_build b catalogue with h | h
    · exact h ▸ ih
    · exact h ▸ hempty

end SchemaBuilder

end Trellis
