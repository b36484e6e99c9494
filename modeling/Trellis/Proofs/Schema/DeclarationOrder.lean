import Trellis.Proofs.Schema.BuilderCalls

/-!
The order of declarations does not matter.

Two sequences of calls that are permutations of each other, and that customize each host type in the
same order, either both make up a schema or neither does. The two schemas have the same types.
-/

namespace Trellis

namespace Declarations

namespace Reordered

variable {d d' : Declarations} {catalogue : Catalogue}

/-- What is registered for one order is registered for the other one. -/
theorem register (h : d.Reordered d') (hd : d.Coherent catalogue) (hp : d.Proper) {g : TypeGraph}
    (hg : d.register catalogue = .ok g) :
    ∃ g', d'.register catalogue = .ok g' ∧ g.Agrees g' := by
  have htransfers := h.transfers hd hp
  have hback := h.symm.transfers htransfers.coherent htransfers.proper
  have hmutations : d.mutations.isEmpty = d'.mutations.isEmpty := by
    rw [Bool.eq_iff_iff, List.isEmpty_iff, List.isEmpty_iff]
    exact ⟨fun hnil => List.nil_perm.mp (hnil ▸ h.mutations),
      fun hnil => List.perm_nil.mp (hnil ▸ h.mutations)⟩
  obtain ⟨r, r', mutation, rfl, hg', hr, hr', hnames, htypes⟩ :=
    htransfers.register hback hmutations hg
  refine ⟨_, hg', ?_, htypes, congrFun (congrArg Names.outputs hnames),
    congrFun (congrArg Names.inputs hnames), congrFun (congrArg Names.scalars hnames), rfl, rfl⟩
  refine (List.perm_ext_iff_of_nodup (hr.faithful.sound.graph_names mutation)
    (hr'.faithful.sound.graph_names mutation)).mpr fun name => ?_
  have hfound := isSome_eq_of_rel (htypes name)
  rw [TypeGraph.type?, TypeGraph.type?] at hfound
  rw [← Entries.isSome_lookup_iff, hfound, Entries.isSome_lookup_iff]

end Reordered

end Declarations

namespace SchemaBuilder

section

variable {catalogue : Catalogue} {calls calls' : List BuilderCall}

theorem configuration_ofCalls (calls : List BuilderCall) :
    (ofCalls calls).configuration = .default := by
  induction calls using List.reverseRecOn with
  | nil => rfl
  | append_singleton calls c ih =>
    rw [ofCalls_concat, ← ih]
    cases c with
    | query | mutation | input => rfl
    | type ref => cases ref <;> rfl
    | enumeration ref => cases ref <;> rfl
    | union | scalar =>
      simp only [call, union, scalar]
      split <;> rfl

/-- Calls make up a schema if nothing is wrong with them and what they declare is registered. -/
theorem build_eq_ok {s : Schema} : ((ofCalls calls).build catalogue).1 = .ok s ↔
    Sane calls ∧ (ofCalls calls).declarations.register catalogue = .ok s.graph ∧
      s.configuration = .default := by
  rw [← (errors_ofCalls calls).1, build]
  cases herrors : (ofCalls calls).errors with
  | cons e errors => simp
  | nil =>
    cases hregister : (ofCalls calls).declarations.register catalogue with
    | error stop => simp
    | ok g =>
      constructor
      · intro h
        cases h
        exact ⟨rfl, rfl, configuration_ofCalls calls⟩
      · rintro ⟨-, hg, hconfiguration⟩
        cases hg
        rcases s with ⟨_, _⟩
        dsimp only at hconfiguration
        rw [hconfiguration, ← configuration_ofCalls calls]

theorem build_of_reordered (hperm : calls.Perm calls')
    (horder : ∀ host, calls.filter (·.customized? = some host) =
      calls'.filter (·.customized? = some host))
    (hd : (ofCalls calls).declarations.Coherent catalogue) {s : Schema}
    (hs : ((ofCalls calls).build catalogue).1 = .ok s) :
    ∃ s', ((ofCalls calls').build catalogue).1 = .ok s' ∧ s.graph.Agrees s'.graph ∧
      s.configuration = s'.configuration := by
  obtain ⟨hsane, hg, hconfiguration⟩ := build_eq_ok.mp hs
  obtain ⟨g', hg', hagrees⟩ :=
    (reordered_ofCalls hperm horder hsane).register hd (proper_ofCalls calls) hg
  exact ⟨⟨g', .default⟩, build_eq_ok.mpr ⟨hsane.perm hperm, hg', rfl⟩, hagrees, hconfiguration⟩

/-- The order of declarations does not matter. If calls are permuted, while those that customize one
host type stay in their order, and each host type is always described in the same way, then either
both sequences of calls make up a schema or neither does. Both schemas have types of the same names,
and the types of a name are equal, properties, arguments, fields, members and host types included; at
most the properties of the roots are in another order. -/
theorem build_perm (hperm : calls.Perm calls')
    (horder : ∀ host, calls.filter (·.customized? = some host) =
      calls'.filter (·.customized? = some host))
    (hd : (ofCalls calls).declarations.Coherent catalogue) :
    ((∃ s, ((ofCalls calls).build catalogue).1 = .ok s) ↔
      ∃ s, ((ofCalls calls').build catalogue).1 = .ok s) ∧
    ∀ s s', ((ofCalls calls).build catalogue).1 = .ok s →
      ((ofCalls calls').build catalogue).1 = .ok s' →
        s.graph.Agrees s'.graph ∧ s.configuration = s'.configuration := by
  refine ⟨⟨fun ⟨s, hs⟩ => ?_, fun ⟨s', hs'⟩ => ?_⟩, fun s s' hs hs' => ?_⟩
  · obtain ⟨s', hs', -⟩ := build_of_reordered hperm horder hd hs
    exact ⟨s', hs'⟩
  · have hsane := (build_eq_ok.mp hs').1.perm hperm.symm
    have hd' := (reordered_ofCalls hperm horder hsane).coherent hd
    obtain ⟨s, hs, -⟩ := build_of_reordered hperm.symm (fun host => (horder host).symm) hd' hs'
    exact ⟨s, hs⟩
  · obtain ⟨other, hother, hagrees⟩ := build_of_reordered hperm horder hd hs
    cases hother.symm.trans hs'
    exact hagrees

end

namespace Sample

open Declarations.Sample

/-- Calls that declare films, with a customization and a union of them. -/
def calls : List BuilderCall :=
  [.query films, .query latest,
    .type (.object film film)
      ⟨fun t => { t with transformations := t.transformations ++ [styled] }, fun _ => rfl⟩,
    .enumeration genre (some "FilmGenre") none, .union "Media" ⟨none, [.object film film]⟩]

/-- Only genres are enums, films are objects, and filters are input objects. -/
def Expected : TypeRef → Prop
  | .enumeration host shape => .enumeration host shape = genre
  | .object host outline => host = film ∧ outline = film
  | .inputObject host outline => host = filter ∧ outline = filter
  | .list _ inner | .nullable _ inner => Expected inner
  | _ => True

theorem expected {ref : TypeRef} (h : (ofCalls calls).declarations.Describes catalogue ref) :
    Expected ref := by
  induction h with
  | mention hmem =>
    have hmentions : (ofCalls calls).declarations.mentions = [.list (.sequence film)
        (.object film film), .inputObject filter filter, .nullable (.optional .member)
        (.union .member), .object film film, genre, .object film film] := rfl
    rw [hmentions] at hmem
    simp only [List.mem_cons, List.not_mem_nil, or_false] at hmem
    rcases hmem with rfl | rfl | rfl | rfl | rfl | rfl <;> simp [Expected, genre]
  | customized hmem =>
    obtain ⟨-, rfl⟩ := Prod.mk.inj (List.mem_singleton.mp hmem)
    rfl
  | nullable _ ih => exact ih
  | list _ ih => exact ih
  | field _ hf ih =>
    obtain ⟨rfl, rfl⟩ := ih
    simp only [catalogue, Catalogue.object, List.lookup_cons_self, Option.getD_some, List.mem_cons,
      List.not_mem_nil, or_false] at hf
    rcases hf with rfl | rfl
    · trivial
    · exact ⟨rfl, rfl⟩
  | inputField _ hf ih =>
    obtain ⟨rfl, rfl⟩ := ih
    simp only [catalogue, Catalogue.input, List.lookup_cons_self, Option.getD_some, List.mem_cons,
      List.not_mem_nil, or_false] at hf
    rcases hf with rfl | rfl
    · rfl
    · exact ⟨rfl, rfl⟩

theorem coherent : (ofCalls calls).declarations.Coherent catalogue where
  object host shape outline henum hobject := by
    have hhost := (TypeRef.enumeration.inj (expected henum)).1.symm.trans (expected hobject).1
    simp [film] at hhost
  inputObject host shape outline henum hinput := by
    have hhost := (TypeRef.enumeration.inj (expected henum)).1.symm.trans (expected hinput).1
    simp [filter] at hhost
  shapes host shape other hshape hother :=
    (TypeRef.enumeration.inj ((expected hshape).trans (expected hother).symm)).2
  outlines host outline other houtline hother :=
    (expected houtline).2.trans (expected hother).2.symm
  inputOutlines host outline other houtline hother :=
    (expected houtline).2.trans (expected hother).2.symm

theorem filter_reverse (host : HostType) : calls.filter (·.customized? = some host) =
    calls.reverse.filter (·.customized? = some host) := by
  by_cases hfilm : film = host
  · subst hfilm
    rfl
  · by_cases hgenre : HostType.named "studio::Genre" = host
    · subst hgenre
      rfl
    · have hnone (c : BuilderCall) (hc : c ∈ calls) : c.customized? ≠ some host := by
        simp only [calls, List.mem_cons, List.not_mem_nil, or_false] at hc
        rcases hc with rfl | rfl | rfl | rfl | rfl <;>
          simp [BuilderCall.customized?, TypeRef.host, genre, hfilm, hgenre]
      rw [List.filter_eq_nil_iff.mpr fun c hc => by simpa using hnone c hc,
        List.filter_eq_nil_iff.mpr fun c hc => by simpa using hnone c (List.mem_reverse.mp hc)]

theorem exists_schema : ∃ s, ((ofCalls calls).build catalogue).1 = .ok s := ⟨_, rfl⟩

end Sample

theorem build_perm_sample : ∃ s s',
    ((ofCalls Sample.calls).build Declarations.Sample.catalogue).1 = .ok s ∧
    ((ofCalls Sample.calls.reverse).build Declarations.Sample.catalogue).1 = .ok s' ∧
      s.graph.Agrees s'.graph := by
  obtain ⟨hiff, hagrees⟩ := build_perm Sample.calls.reverse_perm.symm Sample.filter_reverse
    Sample.coherent
  obtain ⟨s, hs⟩ := Sample.exists_schema
  obtain ⟨s', hs'⟩ := hiff.mp ⟨s, hs⟩
  exact ⟨s, s', hs, hs', (hagrees s s' hs hs').1⟩

end SchemaBuilder

end Trellis
