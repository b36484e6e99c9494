import Trellis.Proofs.Schema.Settling
import Trellis.Proofs.Schema.Tables

/-!
Registration keeps a ledger.

Every name is written down with the identity of the type that it is reserved for, and stays there. A
registry can be read off its ledger at every moment, also where a host type is described in several
ways: if it is met as an enum after it was met as an input object, the enum takes its place among the
types of arguments, but the ledger has both.
-/

namespace Trellis

theorem Entries.lookup_enter_iff {κ α : Type} [DecidableEq κ] {entries : List (κ × α)} {key other : κ}
    {value found : α} (hnew : entries.lookup key = none) :
    (entries ++ [(key, value)]).lookup other = some found ↔
      entries.lookup other = some found ∨ other = key ∧ found = value := by
  rw [List.lookup_append, Option.or_eq_some_iff]
  refine or_congr_right ⟨fun ⟨_, hlast⟩ => ?_, ?_⟩
  · exact Prod.mk.inj (List.mem_singleton.mp (mem_of_lookup hlast))
  · rintro ⟨rfl, rfl⟩
    exact ⟨hnew, List.lookup_cons_self⟩

/-- A name has a type. -/
def Registry.Filled (r : Registry) (name : String) : Prop := ∃ node, (name, some node) ∈ r.types

namespace Declarations

variable (d : Declarations) (catalogue : Catalogue)

/-- A ledger has what a registry holds: all names in order, and for every type its identity. A host
type leads to the object or the enum that is written down for it; as the type of an argument, to the
enum, or else to the input object. -/
structure Records (L : Ledger) (r : Registry) : Prop where
  names : r.types.map (·.1) = L.map (·.1)
  nodup : (L.map (·.1)).Nodup
  nodes : ∀ {name node}, (name, some node) ∈ r.types →
    node.name = name ∧ (name, node.identity) ∈ L
  objects : ∀ {name o}, (name, some (.object o)) ∈ r.types → d.Tabled catalogue L o
  outputs : ∀ {host name}, r.outputs.lookup host = some name ↔
    (name, .object (some host)) ∈ L ∨ (name, .enumeration host) ∈ L
  inputs : ∀ {host name}, r.inputs.lookup host = some name ↔ (name, .enumeration host) ∈ L ∨
    (name, .inputObject host) ∈ L ∧ ∀ other, (other, .enumeration host) ∉ L
  scalarNames : ∀ {host name}, r.scalarNames.lookup host = some name ↔ (name, .scalar host) ∈ L
  enums : ∀ {host name}, (name, .enumeration host) ∈ L →
    ∃ shape, d.Describes catalogue (.enumeration host shape)
  unspent : d.Unspent r
  typeDeclarations : r.typeDeclarations ⊆ d.types
  enumDeclarations : r.enumDeclarations ⊆ d.enums
  unionNames : r.unionNames = d.unions.map (·.1)

/-- From one moment to a later one the ledger grows, types stay, and every new name gets its type. -/
structure Proceeds (L : Ledger) (r : Registry) (L' : Ledger) (s : Registry) : Prop where
  grows : L ⊆ L'
  records : d.Records catalogue L' s
  stays : ∀ {name}, r.Filled name → s.Filled name
  fills : ∀ {entry}, entry ∈ L' → entry ∈ L ∨ s.Filled entry.1

variable {d catalogue} {L L' L'' : Ledger} {r s t : Registry}

namespace Proceeds

theorem refl (h : d.Records catalogue L r) : d.Proceeds catalogue L r L r :=
  ⟨List.Subset.refl _, h, id, .inl⟩

theorem trans (h : d.Proceeds catalogue L r L' s) (h' : d.Proceeds catalogue L' s L'' t) :
    d.Proceeds catalogue L r L'' t where
  grows := List.Subset.trans h.grows h'.grows
  records := h'.records
  stays hname := h'.stays (h.stays hname)
  fills hentry := by
    rcases h'.fills hentry with hentry | hfilled
    · exact (h.fills hentry).imp_right h'.stays
    · exact .inr hfilled

end Proceeds

namespace Records

theorem start (d : Declarations) (catalogue : Catalogue) : d.Records catalogue [] (.start d) where
  names := rfl
  nodup := List.nodup_nil
  nodes hmem := absurd hmem List.not_mem_nil
  objects hmem := absurd hmem List.not_mem_nil
  outputs := by simp [Registry.start]
  inputs := by simp [Registry.start]
  scalarNames := by simp [Registry.start]
  enums hmem := absurd hmem List.not_mem_nil
  unspent := .start d
  typeDeclarations := List.Subset.refl _
  enumDeclarations := List.Subset.refl _
  unionNames := rfl

theorem identity_unique (h : d.Records catalogue L r) {name : String} {i j : Identity}
    (hi : (name, i) ∈ L) (hj : (name, j) ∈ L) : i = j :=
  (Prod.mk.inj (List.inj_on_of_nodup_map h.nodup hi hj rfl)).2

/-- A free name is written down once a registry has it. -/
theorem enter (h : d.Records catalogue L r) {name : String} (hfree : name ∉ r.types.map (·.1))
    {i : Identity} (htypes : s.types = r.types ++ [(name, none)])
    (houtputs : ∀ {host found}, s.outputs.lookup host = some found ↔
      (found, .object (some host)) ∈ L ++ [(name, i)] ∨ (found, .enumeration host) ∈ L ++ [(name, i)])
    (hinputs : ∀ {host found}, s.inputs.lookup host = some found ↔
      (found, .enumeration host) ∈ L ++ [(name, i)] ∨ (found, .inputObject host) ∈ L ++ [(name, i)] ∧
        ∀ other, (other, .enumeration host) ∉ L ++ [(name, i)])
    (hscalars : ∀ {host found}, s.scalarNames.lookup host = some found ↔
      (found, .scalar host) ∈ L ++ [(name, i)])
    (henum : ∀ {host}, i = .enumeration host →
      ∃ shape, d.Describes catalogue (.enumeration host shape))
    (hunspent : d.Unspent s) (htypeDeclarations : s.typeDeclarations ⊆ r.typeDeclarations)
    (henumDeclarations : s.enumDeclarations ⊆ r.enumDeclarations)
    (hunions : s.unionNames = r.unionNames) : d.Records catalogue (L ++ [(name, i)]) s where
  names := by
    rw [htypes, List.map_append, List.map_append, h.names]
    rfl
  nodup := by
    rw [h.names] at hfree
    exact Entries.nodup_concat h.nodup hfree i
  nodes hmem := by
    rw [htypes] at hmem
    rcases List.mem_append.mp hmem with hmem | hmem
    · exact (h.nodes hmem).imp_right (List.mem_append_left _)
    · cases List.mem_singleton.mp hmem
  objects hmem := by
    rw [htypes] at hmem
    rcases List.mem_append.mp hmem with hmem | hmem
    · exact (h.objects hmem).mono (List.subset_append_left _ _)
    · cases List.mem_singleton.mp hmem
  outputs := houtputs
  inputs := hinputs
  scalarNames := hscalars
  enums hmem := by
    rcases List.mem_append.mp hmem with hmem | hmem
    · exact h.enums hmem
    · exact henum (Prod.mk.inj (List.mem_singleton.mp hmem)).2.symm
  unspent := hunspent
  typeDeclarations := List.Subset.trans htypeDeclarations h.typeDeclarations
  enumDeclarations := List.Subset.trans henumDeclarations h.enumDeclarations
  unionNames := hunions.trans h.unionNames

/-- A type may be put under a name that is written down for its identity. -/
theorem fill (h : d.Records catalogue L r) {node : TypeNode} (hnode : (node.name, node.identity) ∈ L)
    (hobject : ∀ o, node = .object o → d.Tabled catalogue L o) :
    d.Records catalogue L (r.filled node) :=
  { h with
    names := by rw [Registry.filled, Tidy.map_fst_fill, h.names]
    nodes := fun hmem => by
      rcases Tidy.mem_fill.mp hmem with ⟨rfl, hslot, -⟩ | ⟨-, hmem⟩
      · cases hslot
        exact ⟨rfl, hnode⟩
      · exact h.nodes hmem
    objects := fun hmem => by
      rcases Tidy.mem_fill.mp hmem with ⟨rfl, hslot, -⟩ | ⟨-, hmem⟩
      · exact hobject _ (Option.some.inj hslot).symm
      · exact h.objects hmem
    unspent := ⟨h.unspent.types, h.unspent.enums⟩ }

end Records

/-- What is entered first and filled in last has its type at the end, with all that is met between. -/
theorem Proceeds.close {name : String} {i : Identity} (node : TypeNode)
    (hs : d.Records catalogue (L ++ [(name, i)]) s) (htypes : s.types = r.types ++ [(name, none)])
    (h : d.Proceeds catalogue (L ++ [(name, i)]) s L' t) (hname : node.name = name)
    (hidentity : node.identity = i) (hobject : ∀ o, node = .object o → d.Tabled catalogue L' o) :
    d.Proceeds catalogue L r L' (t.filled node) := by
  subst hname hidentity
  have hmem : (node.name, node.identity) ∈ L' := h.grows (List.mem_append_right _ List.mem_cons_self)
  have hstays {name : String} (hfilled : t.Filled name) : (t.filled node).Filled name := by
    obtain ⟨other, hother⟩ := hfilled
    by_cases hname : name = node.name
    · exact ⟨node, Tidy.mem_fill.mpr (.inl ⟨hname, rfl, List.mem_map_of_mem hother⟩)⟩
    · exact ⟨other, Tidy.mem_fill.mpr (.inr ⟨hname, hother⟩)⟩
  refine ⟨List.Subset.trans (List.subset_append_left _ _) h.grows, h.records.fill hmem hobject,
    fun ⟨other, hother⟩ => hstays (h.stays ⟨other, ?_⟩), fun hentry => ?_⟩
  · rw [htypes]
    exact List.mem_append_left _ hother
  · rcases h.fills hentry with hentry | hfilled
    · rcases List.mem_append.mp hentry with hentry | hentry
      · exact .inl hentry
      · cases List.mem_singleton.mp hentry
        refine .inr ⟨node, Tidy.mem_fill.mpr (.inl ⟨rfl, rfl, ?_⟩)⟩
        rw [h.records.names]
        exact List.mem_map_of_mem hmem
    · exact .inr (hstays hfilled)

end Declarations

namespace Registering

open Declarations

variable {d : Declarations} {catalogue : Catalogue} {L : Ledger} {r s : Registry} {α β : Type}

/-- A step, taken with some ledger, leads to a later one with a result that is right by it. -/
def Leads (d : Declarations) (catalogue : Catalogue) (L : Ledger) (op : Registering α)
    (Q : Ledger → α → Prop) : Prop :=
  ∀ r a s, Runs op r a s → d.Records catalogue L r → ∃ L', d.Proceeds catalogue L r L' s ∧ Q L' a

namespace Leads

variable {op : Registering α} {Q : Ledger → α → Prop} {R : Ledger → β → Prop}

theorem pure {a : α} (h : Q L a) : Leads d catalogue L (Pure.pure a) Q := by
  intro r b s hruns hr
  obtain ⟨rfl, rfl⟩ := runs_pure.mp hruns
  exact ⟨L, .refl hr, h⟩

theorem refuse (e : SchemaError) : Leads d catalogue L (Registering.refuse e : Registering α) Q :=
  fun _ _ _ hruns _ => absurd hruns not_runs_refuse

theorem bind {next : α → Registering β} (h : Leads d catalogue L op Q)
    (hnext : ∀ L' a, L ⊆ L' → Q L' a → Leads d catalogue L' (next a) R) :
    Leads d catalogue L (op >>= next) R := by
  intro r b s hruns hr
  obtain ⟨a, t, hop, hrest⟩ := runs_bind.mp hruns
  obtain ⟨L', hfirst, ha⟩ := h r a t hop hr
  obtain ⟨L'', hlast, hb⟩ := hnext L' a hfirst.grows ha t b s hrest hfirst.records
  exact ⟨L'', hfirst.trans hlast, hb⟩

theorem map (f : α → β) (h : Leads d catalogue L op Q) (hf : ∀ L' a, Q L' a → R L' (f a)) :
    Leads d catalogue L (f <$> op) R := by
  rw [map_eq_pure_bind]
  exact h.bind fun L' a _ ha => .pure (hf L' a ha)

theorem optional {c : Prop} [Decidable c] {first : Registering Unit} {P : Prop}
    (h : Leads d catalogue L first fun _ _ => P)
    (hop : ∀ {L'}, (c → P) → Leads d catalogue L' op Q) :
    Leads d catalogue L (if c then first >>= fun _ => op else op) Q := by
  split
  · exact h.bind fun _ _ _ hP => hop fun _ => hP
  · rename_i hc
    exact hop fun hc' => absurd hc' hc

/-- What a fold comes to is told step by step, with the items that are done. -/
theorem foldlM {f : β → α → Registering β} {R : Ledger → List α → β → Prop} {items : List α} {b : β}
    (hb : R L [] b) (h : ∀ L' done item b, L ⊆ L' → item ∈ items → R L' done b →
      Leads d catalogue L' (f b item) fun L'' b => R L'' (done ++ [item]) b) :
    Leads d catalogue L (items.foldlM f b) fun L' b => R L' items b := by
  suffices hfrom : ∀ done, R L done b →
      Leads d catalogue L (items.foldlM f b) fun L' b => R L' (done ++ items) b from hfrom [] hb
  clear hb
  induction items generalizing L b with
  | nil =>
    intro done hb
    rw [List.append_nil]
    exact .pure hb
  | cons item items ih =>
    intro done hb
    rw [List.foldlM_cons]
    refine (h L done item b (List.Subset.refl _) List.mem_cons_self hb).bind
      fun L' b' hgrows hb' => ?_
    have hrest := ih (L := L') (b := b') (fun L'' done item b hgrows' hmem => h L'' done item b
      (List.Subset.trans hgrows hgrows') (List.mem_cons_of_mem _ hmem)) (done ++ [item]) hb'
    rwa [List.append_assoc] at hrest

theorem mapM {f : α → Registering β} {items : List α}
    (h : ∀ L', L ⊆ L' → ∀ item ∈ items, Leads d catalogue L' (f item) fun _ _ => True) :
    Leads d catalogue L (items.mapM f) fun _ _ => True := by
  induction items generalizing L with
  | nil => exact .pure trivial
  | cons item items ih =>
    rw [List.mapM_cons]
    refine (h L (List.Subset.refl _) item List.mem_cons_self).bind fun L' _ hgrows _ =>
      Leads.bind (ih fun L'' hgrows' other hmem => ?_) fun _ _ _ _ => .pure trivial
    exact h L'' (List.Subset.trans hgrows hgrows') other (List.mem_cons_of_mem _ hmem)

/-- What every item of a loop comes to, the last ones leave as it is. -/
theorem forM {f : α → Registering Unit} {items : List α}
    (hmono : ∀ L L' item, L ⊆ L' → Q L item → Q L' item)
    (h : ∀ L', L ⊆ L' → ∀ item ∈ items, Leads d catalogue L' (f item) fun L'' _ => Q L'' item) :
    Leads d catalogue L (items.forM f) fun L' _ => ∀ item ∈ items, Q L' item := by
  induction items generalizing L with
  | nil => exact .pure fun _ hmem => absurd hmem List.not_mem_nil
  | cons item items ih =>
    refine (h L (List.Subset.refl _) item List.mem_cons_self).bind fun L' _ hgrows hitem => ?_
    have hrest := ih fun L'' hgrows' other hmem =>
      h L'' (List.Subset.trans hgrows hgrows') other (List.mem_cons_of_mem _ hmem)
    intro r u s hruns hr
    obtain ⟨L'', hproceeds, hitems⟩ := hrest r u s hruns hr
    exact ⟨L'', hproceeds, List.forall_mem_cons.mpr ⟨hmono _ _ _ hproceeds.grows hitem, hitems⟩⟩

end Leads

theorem leads_scalarName (host : HostType) :
    Leads d catalogue L (scalarName host) fun L' name => L'.Knows name (.scalar host) := by
  intro r name s hruns hr
  rw [scalarName, runs_get_bind] at hruns
  split at hruns
  · rename_i found hfound
    obtain ⟨rfl, rfl⟩ := runs_pure.mp hruns
    exact ⟨L, .refl hr, .scalar host, hr.scalarNames.mp hfound, rfl⟩
  · exact absurd hruns not_runs_refuse

theorem knows_output (hr : d.Records catalogue L r) {host : HostType} {name : String}
    (hmet : r.outputs.lookup host = some name) :
    (∀ outline, L.Knows name (.object host outline)) ∧
      ∀ shape, L.Knows name (.enumeration host shape) := by
  rcases hr.outputs.mp hmet with hmem | hmem
  · exact ⟨fun _ => ⟨_, hmem, rfl⟩, fun _ => ⟨_, hmem, rfl⟩⟩
  · exact ⟨fun _ => ⟨_, hmem, rfl⟩, fun _ => ⟨_, hmem, rfl⟩⟩

theorem leads_registerEnum {host : HostType} {shape : EnumShape}
    (hdescribes : d.Describes catalogue (.enumeration host shape)) :
    Leads d catalogue L (registerEnum host shape) fun L' name =>
      L'.Knows name (.enumeration host shape) := by
  intro r name s hruns hr
  cases hmet : r.outputs.lookup host with
  | some found =>
    obtain ⟨rfl, rfl⟩ := (runs_registerEnum_met hmet).mp hruns
    exact ⟨L, .refl hr, (knows_output hr hmet).2 shape⟩
  | none =>
    obtain ⟨hname, hfree, rfl⟩ := (runs_registerEnum hmet hr.unspent).mp hruns
    have hnone {other : String} :
        (other, .object (some host)) ∉ L ∧ (other, .enumeration host) ∉ L := by
      rw [← not_or, ← hr.outputs, hmet]
      exact nofun
    -- The registry before the enum itself is put under its name.
    have hentered : d.Records catalogue (L ++ [(name, .enumeration host)])
        { r with
          enumDeclarations := r.enumDeclarations.filter (·.1 ≠ host)
          types := r.types ++ [(name, none)]
          outputs := r.outputs ++ [(host, name)]
          inputs := Entries.put host name r.inputs } := by
      refine hr.enter hfree rfl ?_ ?_ ?_ (fun he => ?_) ?_ (List.Subset.refl _)
        (List.filter_subset_self _) rfl
      · intro other found
        rw [Entries.lookup_enter_iff hmet, hr.outputs]
        simp
        grind
      · intro other found
        rw [Entries.lookup_put]
        split
        · simp
          grind
        · rw [hr.inputs]
          simp
          grind
      · intro other found
        rw [hr.scalarNames]
        simp
      · cases he
        exact ⟨shape, hdescribes⟩
      · have hunspent := unspent_withEnum hr.unspent (d.enumeration host shape)
        rw [hname]
        exact ⟨hunspent.types, hunspent.enums⟩
    subst hname
    have hproceeds := Proceeds.close (.enumeration (d.enumeration host shape)) hentered rfl
      (.refl hentered) rfl rfl nofun
    exact ⟨_, hproceeds, .enumeration host, List.mem_append_right _ List.mem_cons_self, rfl⟩

/-- The type of an argument stands for its description. -/
theorem leads_inputType {walk : HostType → HostType → Registering String}
    (hwalk : ∀ L host outline, d.Describes catalogue (.inputObject host outline) →
      Leads d catalogue L (walk host outline) fun L' name => L'.Knows name (.inputObject host outline))
    {ref : TypeRef} (hdescribes : d.Describes catalogue ref) :
    Leads d catalogue L (inputType walk ref) fun L' type => L'.Takes ref type := by
  induction ref with
  | nullable _ inner ih =>
    exact .map _ (ih hdescribes.nullable) fun _ _ ⟨hinput, name, htype, hknows⟩ =>
      ⟨hinput, name, htype ▸ rfl, hknows⟩
  | list _ inner ih =>
    exact .map _ (ih hdescribes.list) fun _ _ ⟨hinput, name, htype, hknows⟩ =>
      ⟨hinput, name, htype ▸ rfl, hknows⟩
  | scalar host => exact .map _ (leads_scalarName host) fun _ name hknows => ⟨rfl, name, rfl, hknows⟩
  | enumeration host shape =>
    exact .map _ (leads_registerEnum hdescribes) fun _ name hknows => ⟨rfl, name, rfl, hknows⟩
  | inputObject host outline =>
    exact .map _ (hwalk L host outline hdescribes) fun _ name hknows => ⟨rfl, name, rfl, hknows⟩
  | object | union | function | generic => exact .refuse _

theorem records_withInput (hr : d.Records catalogue L r) {host : HostType} {name : String}
    (hnew : r.inputs.lookup host = none) (hfree : name ∉ r.types.map (·.1)) :
    d.Records catalogue (L ++ [(name, .inputObject host)]) (withInput r host name) := by
  have hnone {other : String} : (other, .enumeration host) ∉ L := fun hmem =>
    nomatch hnew.symm.trans (hr.inputs.mpr (.inl hmem))
  refine hr.enter hfree rfl ?_ ?_ ?_ nofun (unspent_withInput hr.unspent host name)
    (List.Subset.refl _) (List.Subset.refl _) rfl
  · intro other found
    rw [withInput, hr.outputs]
    simp
  · intro other found
    rw [withInput, Entries.lookup_enter_iff hnew, hr.inputs]
    simp
    grind
  · intro other found
    rw [withInput, hr.scalarNames]
    simp

theorem leads_registerInput (depth : Nat) (L : Ledger) (host outline : HostType)
    (hdescribes : d.Describes catalogue (.inputObject host outline)) :
    Leads d catalogue L (registerInput catalogue depth host outline) fun L' name =>
      L'.Knows name (.inputObject host outline) := by
  induction depth generalizing L host outline with
  | zero => exact fun _ _ _ hruns => absurd hruns not_runs_throw
  | succ depth ih =>
    intro r name s hruns hr
    cases hmet : r.inputs.lookup host with
    | some found =>
      obtain ⟨rfl, rfl⟩ := (runs_registerInput_met hmet).mp hruns
      refine ⟨L, .refl hr, ?_⟩
      rcases hr.inputs.mp hmet with hmem | ⟨hmem, -⟩
      · exact ⟨_, hmem, rfl⟩
      · exact ⟨_, hmem, rfl⟩
    | none =>
      obtain ⟨-, hfree, fields, t, hfields, rfl⟩ := (runs_registerInput hmet).mp hruns
      have hentered := records_withInput hr hmet hfree
      have hwalked : Leads d catalogue (L ++ [(name, .inputObject host)])
          ((catalogue.input outline).fields.mapM fun field => do
            pure (field.name, ← inputType (registerInput catalogue depth) field.type))
          fun _ _ => True :=
        .mapM fun L' _ field hfield =>
          (leads_inputType ih (hdescribes.inputField hfield)).bind fun _ _ _ _ => .pure trivial
      obtain ⟨L', hproceeds, -⟩ := hwalked _ _ _ hfields hentered
      refine ⟨L', .close _ hentered rfl hproceeds rfl rfl nofun, .inputObject host, ?_, rfl⟩
      exact hproceeds.grows (List.mem_append_right _ List.mem_cons_self)

/-- Arguments that were shared among some functions are shared with one more, or the types differ. -/
theorem leads_mergeArguments {depth : Nat} {owner property : String}
    {declared before : List (String × TypeRef)} {arguments : List Argument}
    (hdescribes : ∀ argument ∈ declared, d.Describes catalogue argument.2)
    (hbefore : L.Shares arguments before) :
    Leads d catalogue L (mergeArguments catalogue depth owner property arguments declared)
      fun L' merged => L'.Shares merged (before ++ declared) := by
  induction declared generalizing L before arguments with
  | nil =>
    rw [List.append_nil]
    exact .pure hbefore
  | cons argument declared ih =>
    obtain ⟨hargument, hrest⟩ := List.forall_mem_cons.mp hdescribes
    rcases argument with ⟨name, ref⟩
    have hsplit : before ++ (name, ref) :: declared = before ++ [(name, ref)] ++ declared := by simp
    rw [hsplit]
    refine (leads_inputType (leads_registerInput depth) hargument).bind fun L' type hgrows htakes => ?_
    split
    · rename_i hnone
      refine ih hrest ((hbefore.mono hgrows).add (fun hmem => ?_) htakes)
      obtain ⟨a, ha, hname⟩ := List.mem_map.mp hmem
      simpa [hname] using List.find?_eq_none.mp hnone a ha
    · rename_i existing hexisting
      split
      · rename_i hsame
        obtain rfl : existing.name = name := by simpa using List.find?_some hexisting
        rw [← hsame] at htakes
        exact ih hrest ((hbefore.mono hgrows).share (List.mem_of_find?_eq_some hexisting) htakes)
      · exact .refuse _

end Registering

end Trellis
