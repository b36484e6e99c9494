import Trellis.Proofs.Execution.Expansion

/-!
Fields grouped by response key.

There is one group for every response key, in the order in which the keys occur first, and it holds
the fields with its key in their order. Collecting comes to the groups of the fields that selections
expand to. These are the fields that are selected, and the fragments that are noted as missing are
those that are met and that the document lacks.
-/

namespace Trellis

open Document

section Firsts

variable {α : Type*}

theorem nodup_insertLast {l : List α} (h : l.Nodup) (x : α) : (insertLast l x).Nodup := by
  by_cases hx : x ∈ l
  · rwa [insertLast_of_mem hx]
  · rw [insertLast, if_neg hx]
    simpa [List.nodup_append, h] using fun a ha (he : a = x) => hx (he ▸ ha)

theorem nodup_firsts (l : List α) : (firsts l).Nodup := by
  induction l using List.reverseRecOn with
  | nil => exact List.nodup_nil
  | append_singleton l x ih =>
    rw [firsts_append]
    exact nodup_insertLast ih x

end Firsts

/-- The groups of fields by response key. -/
structure Grouped (fields : List Field) (groups : List FieldGroup) : Prop where
  keys : groups.map (·.key) = firsts (fields.map (·.key))
  fields : ∀ group ∈ groups, group.first :: group.rest = fields.filter (·.key = group.key)

namespace Collected

/-- Groups that are not those of a field stay as they are. -/
theorem mem_addTo {f : Field} {groups : List FieldGroup} (h : (groups.map (·.key)).Nodup)
    {group : FieldGroup} (hgroup : group ∈ addTo f groups) :
    group ∈ groups ∧ group.key ≠ f.key ∨
      (∃ before ∈ groups, before.key = f.key ∧
        group = { before with rest := before.rest ++ [f] }) ∨
      f.key ∉ groups.map (·.key) ∧ group = ⟨f.key, f, []⟩ := by
  induction groups with
  | nil => exact .inr (.inr ⟨List.not_mem_nil, List.mem_singleton.mp hgroup⟩)
  | cons first groups ih =>
    obtain ⟨hnew, hrest⟩ := List.nodup_cons.mp h
    rw [addTo] at hgroup
    by_cases hkey : first.key = f.key
    · rw [if_pos hkey] at hgroup
      rcases List.mem_cons.mp hgroup with rfl | hin
      · exact .inr (.inl ⟨first, List.mem_cons_self, hkey, rfl⟩)
      · refine .inl ⟨List.mem_cons_of_mem _ hin, fun he => hnew ?_⟩
        exact List.mem_map.mpr ⟨group, hin, he.trans hkey.symm⟩
    · rw [if_neg hkey] at hgroup
      rcases List.mem_cons.mp hgroup with rfl | hin
      · exact .inl ⟨List.mem_cons_self, hkey⟩
      · rcases ih hrest hin with ⟨hmem, hne⟩ | ⟨before, hbefore, he, rfl⟩ | ⟨hnot, rfl⟩
        · exact .inl ⟨List.mem_cons_of_mem _ hmem, hne⟩
        · exact .inr (.inl ⟨before, List.mem_cons_of_mem _ hbefore, he, rfl⟩)
        · refine .inr (.inr ⟨fun hin => ?_, rfl⟩)
          rcases List.mem_cons.mp hin with he | hin
          · exact hkey he.symm
          · exact hnot hin

theorem grouped_addTo {fields : List Field} {groups : List FieldGroup} (h : Grouped fields groups)
    (f : Field) : Grouped (fields ++ [f]) (addTo f groups) where
  keys := by
    rw [keys_addTo, h.keys, List.map_append, firsts_append]
    by_cases hin : f.key ∈ firsts (fields.map (·.key)) <;> simp [insertLast, hin]
  fields group hgroup := by
    have hnodup : (groups.map (·.key)).Nodup := h.keys ▸ nodup_firsts _
    rw [List.filter_append]
    rcases mem_addTo hnodup hgroup with ⟨hmem, hne⟩ | ⟨before, hbefore, hkey, rfl⟩ | ⟨hnot, rfl⟩
    · simp [h.fields group hmem, hne.symm]
    · have hfields := h.fields before hbefore
      rw [hkey] at hfields
      simp [← hfields, hkey]
    · -- A key that is new to the groups is new to the fields as well.
      have hnone : ∀ g ∈ fields, g.key ≠ f.key := by
        intro g hg he
        apply hnot
        rw [h.keys, mem_firsts]
        exact List.mem_map.mpr ⟨g, hg, he⟩
      simpa using hnone

theorem grouped_grouping (fields : List Field) : Grouped fields (grouping fields []) := by
  induction fields using List.reverseRecOn with
  | nil => exact ⟨rfl, nofun⟩
  | append_singleton fields f ih =>
    rw [grouping, List.foldl_append]
    exact grouped_addTo ih f

theorem addTo_append {f : Field} {groups : List FieldGroup} (h : f.key ∉ groups.map (·.key))
    (more : List FieldGroup) : addTo f (groups ++ more) = groups ++ addTo f more := by
  induction groups with
  | nil => rfl
  | cons group groups ih =>
    rw [List.map_cons, List.mem_cons, not_or] at h
    rw [List.cons_append, addTo, if_neg (Ne.symm h.1), ih h.2, List.cons_append]

theorem grouping_groups_append {fields : List Field} {groups : List FieldGroup}
    (h : ∀ f ∈ fields, f.key ∉ groups.map (·.key)) (more : List FieldGroup) :
    grouping fields (groups ++ more) = groups ++ grouping fields more := by
  induction fields generalizing more with
  | nil => rfl
  | cons f fields ih =>
    obtain ⟨hf, hfields⟩ := List.forall_mem_cons.mp h
    have hcons (groups : List FieldGroup) :
        grouping (f :: fields) groups = grouping fields (addTo f groups) := rfl
    rw [hcons, hcons, addTo_append hf, ih hfields]

theorem grouping_append {fields more : List Field}
    (h : ∀ f ∈ fields, ∀ g ∈ more, f.key ≠ g.key) :
    grouping (fields ++ more) [] = grouping fields [] ++ grouping more [] := by
  have hnew (g : Field) (hg : g ∈ more) : g.key ∉ (grouping fields []).map (·.key) := by
    rw [(grouped_grouping fields).keys, mem_firsts, List.mem_map]
    rintro ⟨f, hf, he⟩
    exact h f hf g hg he
  have hgroups := grouping_groups_append hnew []
  rw [List.append_nil] at hgroups
  rw [← hgroups]
  exact List.foldl_append

end Collected

namespace Scope

variable (scope : Scope) (object : ObjectType)

/-- A fragment is met when its name is spread among the selections, or inside an inline fragment or a
fragment that is spread there and applies to the object, and no directive on the way excludes it. -/
inductive Meets : List Selection → String → Prop
  | spread {L : List Selection} {start : Position} {name : String} {directives : List Directive} :
    .spread start name directives ∈ L → scope.isExcluded directives = false → Meets L name
  | entered {L : List Selection} {start : Position} {other name : String}
    {directives : List Directive} {fragment : Fragment} : .spread start other directives ∈ L →
    scope.isExcluded directives = false → scope.document.fragment? other = some fragment →
    scope.applies fragment.condition object = true → Meets fragment.selections name → Meets L name
  | inline {L : List Selection} {start : Position} {condition : Option String}
    {directives : List Directive} {selections : List Selection} {name : String} :
    .inlineFragment start condition directives selections ∈ L →
    scope.isExcluded directives = false → condition.all (scope.applies · object) = true →
    Meets selections name → Meets L name

variable {scope object} {L : List Selection} {met met' : List String} {T : List Item}

theorem Meets.mono {M : List Selection} {name : String} (h : scope.Meets object L name)
    (hsub : L ⊆ M) : scope.Meets object M name := by
  cases h with
  | spread hmem hin => exact .spread (hsub hmem) hin
  | entered hmem hin hsome happlies hrest => exact .entered (hsub hmem) hin hsome happlies hrest
  | inline hmem hin happlies hrest => exact .inline (hsub hmem) hin happlies hrest

/-- Once collecting began with nothing, every fragment that is met was met. -/
theorem Collects.met_of_meets {c : Collected} (h : scope.Collects object L .empty c) {name : String}
    {M : List Selection} (hname : scope.Meets object M name) (hM : scope.CoversAll object c M) :
    name ∈ c.visited := by
  induction hname with
  | spread hmem hin =>
    have hcovers := coversAll_iff.mp hM _ hmem
    rw [Covers] at hcovers
    exact hcovers hin
  | entered hmem hin hsome happlies _ ih =>
    have hcovers := coversAll_iff.mp hM _ hmem
    rw [Covers] at hcovers
    exact ih ((h.closed _ (hcovers hin)).resolve_left List.not_mem_nil _ hsome happlies)
  | inline hmem hin happlies _ ih =>
    have hcovers := coversAll_iff.mp hM _ hmem
    rw [Covers] at hcovers
    exact ih (hcovers hin happlies)

namespace Expands

/-- What is missing was met, and the document lacks it. -/
theorem meets_of_missing (h : scope.Expands object L met T met') {start : Position} {name : String}
    (hmissing : .missing start name ∈ T) :
    scope.Meets object L name ∧ scope.document.Lacks name := by
  induction h with
  | nil => cases hmissing
  | excluded _ _ ih | inlineApart _ _ _ ih | again _ _ _ ih | apart _ _ _ _ _ ih =>
    exact (ih hmissing).imp_left (·.mono (List.subset_cons_self _ _))
  | field _ _ ih =>
    rcases List.mem_cons.mp hmissing with he | hrest
    · cases he
    · exact (ih hrest).imp_left (·.mono (List.subset_cons_self _ _))
  | inline hin happlies _ _ ih ih' =>
    rcases List.mem_append.mp hmissing with hinner | hrest
    · exact (ih hinner).imp_left (.inline List.mem_cons_self hin happlies)
    · exact (ih' hrest).imp_left (·.mono (List.subset_cons_self _ _))
  | missing hin _ hnone _ ih =>
    rcases List.mem_cons.mp hmissing with he | hrest
    · cases he
      exact ⟨.spread List.mem_cons_self hin, hnone⟩
    · exact (ih hrest).imp_left (·.mono (List.subset_cons_self _ _))
  | entered hin _ hsome happlies _ _ ih ih' =>
    rcases List.mem_append.mp hmissing with hinner | hrest
    · exact (ih hinner).imp_left (.entered List.mem_cons_self hin hsome happlies)
    · exact (ih' hrest).imp_left (·.mono (List.subset_cons_self _ _))

/-- A fragment that the document lacks is noted as missing when it is met. -/
theorem exists_missing (h : scope.Expands object L met T met') {name : String}
    (hlacks : scope.document.Lacks name) (hname : name ∈ met') :
    name ∈ met ∨ ∃ start, .missing start name ∈ T := by
  induction h with
  | nil => exact .inl hname
  | excluded _ _ ih | inlineApart _ _ _ ih | again _ _ _ ih => exact ih hname
  | field _ _ ih =>
    exact (ih hname).imp_right fun ⟨start, hin⟩ => ⟨start, List.mem_cons_of_mem _ hin⟩
  | inline _ _ _ _ ih ih' =>
    rcases ih' hname with hinner | ⟨start, hin⟩
    · exact (ih hinner).imp_right fun ⟨start, hin⟩ => ⟨start, List.mem_append_left _ hin⟩
    · exact .inr ⟨start, List.mem_append_right _ hin⟩
  | @missing start other _ _ _ _ _ _ _ _ _ ih =>
    rcases ih hname with hmet | ⟨start, hin⟩
    · rcases List.mem_cons.mp hmet with rfl | hmet
      · exact .inr ⟨start, List.mem_cons_self⟩
      · exact .inl hmet
    · exact .inr ⟨start, List.mem_cons_of_mem _ hin⟩
  | entered _ _ hsome _ _ _ ih ih' =>
    rcases ih' hname with hinner | ⟨start, hin⟩
    · rcases ih hinner with hmet | ⟨start, hin⟩
      · rcases List.mem_cons.mp hmet with rfl | hmet
        · cases hsome.symm.trans hlacks
        · exact .inl hmet
      · exact .inr ⟨start, List.mem_append_left _ hin⟩
    · exact .inr ⟨start, List.mem_append_right _ hin⟩
  | apart _ _ hsome _ _ ih =>
    rcases ih hname with hmet | hin
    · rcases List.mem_cons.mp hmet with rfl | hmet
      · cases hsome.symm.trans hlacks
      · exact .inl hmet
    · exact .inr hin

end Expands

variable (scope object) in
/-- What is collected for an object, by way of the expansion of selections to items. The expansion
is there and is the only one; its fields are those that are selected, and they are grouped. What is
noted as missing are the fragments that are met and that the document lacks, once each. Following
fragments deeper inside each other changes nothing. -/
structure CollectsAs (L : List Selection) (T : List Item) (met : List String) : Prop where
  expands : scope.Expands object L [] T met
  unique : ∀ U other, scope.Expands object L [] U other → U = T ∧ other = met
  selected : ∀ f, .field f ∈ T ↔ scope.Selects object L f
  grouped : Grouped (T.filterMap Item.field?) (scope.collect object L).groups
  missing : (scope.collect object L).missing = T.filterMap Item.missing?
  noted : ∀ name, name ∈ (scope.collect object L).missing.map (·.2) ↔
    scope.Meets object L name ∧ scope.document.Lacks name
  once : ((scope.collect object L).missing.map (·.2)).Nodup
  deeper : ∀ depth, scope.document.fragments.length ≤ depth →
    scope.collectWithin object depth L .empty = scope.collect object L

theorem mem_of_grouped {fields : List Field} {c : Collected} (h : Grouped fields c.groups) (f : Field) :
    f ∈ fields ↔ c.Has f := by
  constructor
  · intro hf
    have hkey : f.key ∈ c.groups.map (·.key) := by
      rw [h.keys, mem_firsts]
      exact List.mem_map_of_mem hf
    obtain ⟨group, hgroup, he⟩ := List.mem_map.mp hkey
    exact ⟨group, hgroup, he, by simp [h.fields group hgroup, hf, he]⟩
  · rintro ⟨group, hgroup, -, hmem⟩
    rw [h.fields group hgroup] at hmem
    exact List.mem_of_mem_filter hmem

variable (scope object) in
theorem exists_collectsAs (L : List Selection) : ∃ T met, scope.CollectsAs object L T met := by
  obtain ⟨T, met, hexpands, hcollect⟩ := exists_expands scope object L
  have hcollects := collect_collects scope object L
  rw [hcollect] at hcollects
  have hgrouped : Grouped (T.filterMap Item.field?) (scope.collect object L).groups := by
    rw [hcollect]
    exact Collected.grouped_grouping _
  have hmissing : (scope.collect object L).missing = T.filterMap Item.missing? := by
    rw [hcollect]
    exact List.nil_append _
  refine ⟨T, met, hexpands, fun U other h => h.unique hexpands, fun f => ?_, hgrouped, hmissing,
    fun name => ?_, (scope.tidy_collect object L).missing, fun depth => collectWithin_eq_collect L⟩
  · rw [← has_collect_iff, ← mem_of_grouped hgrouped, Item.mem_fields]
  · rw [hmissing, List.mem_map]
    constructor
    · rintro ⟨⟨start, name⟩, hin, rfl⟩
      exact hexpands.meets_of_missing (Item.mem_missing.mp hin)
    · rintro ⟨hmeets, hlacks⟩
      have hmet : name ∈ met := hcollects.met_of_meets hmeets hcollects.covers
      obtain ⟨start, hin⟩ := (hexpands.exists_missing hlacks hmet).resolve_left List.not_mem_nil
      exact ⟨(start, name), Item.mem_missing.mpr hin, rfl⟩

end Scope

end Trellis
