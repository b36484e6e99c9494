import Mathlib.Data.List.Forall2

/-!
Lists that are compared item by item.
-/

namespace Trellis

variable {α β γ : Type}

theorem exists_of_forall₂ {R : α → β → Prop} {as : List α} {bs : List β}
    (h : List.Forall₂ R as bs) {a : α} (ha : a ∈ as) : ∃ b ∈ bs, R a b := by
  induction h with
  | nil => cases ha
  | cons hfirst _ ih =>
    rcases List.mem_cons.mp ha with rfl | ha
    · exact ⟨_, List.mem_cons_self, hfirst⟩
    · obtain ⟨b, hb, hab⟩ := ih ha
      exact ⟨b, List.mem_cons_of_mem _ hb, hab⟩

/-- One entry of a list may be replaced by another one to which the same is related. -/
theorem forall₂_replace {R : α → β → Prop} {as : List α} {before after : List β} {b b' : β}
    (h : List.Forall₂ R as (before ++ b :: after)) (hb : ∀ a, R a b → R a b') :
    List.Forall₂ R as (before ++ b' :: after) := by
  induction before generalizing as with
  | nil =>
    cases h with
    | cons hfirst hrest => exact .cons (hb _ hfirst) hrest
  | cons first before ih =>
    cases h with
    | cons hfirst hrest => exact .cons hfirst (ih hrest)

theorem forall₂_append {R : α → β → Prop} {before after : List α} {parts : List β} :
    List.Forall₂ R (before ++ after) parts ↔
      ∃ first second, List.Forall₂ R before first ∧ List.Forall₂ R after second ∧
        parts = first ++ second := by
  induction before generalizing parts with
  | nil => simp
  | cons part before ih =>
    simp only [List.cons_append, List.forall₂_cons_left_iff, ih]
    constructor
    · rintro ⟨s, _, hs, ⟨first, second, hf, hsec, rfl⟩, rfl⟩
      exact ⟨s :: first, second, ⟨s, first, hs, hf, rfl⟩, hsec, rfl⟩
    · rintro ⟨_, second, ⟨s, first, hs, hf, rfl⟩, hsec, rfl⟩
      exact ⟨s, first ++ second, hs, ⟨first, second, hf, hsec, rfl⟩, rfl⟩

theorem map_eq_map_iff_forall₂ {f : α → γ} {g : β → γ} {l : List α} {l' : List β} :
    l.map f = l'.map g ↔ List.Forall₂ (fun a b => f a = g b) l l' := by
  rw [← List.forall₂_eq_eq_eq, List.forall₂_map_left_iff, List.forall₂_map_right_iff]

/-- Two options have the same image if there is nothing in either, or the same image of what is in
them. -/
theorem none_or_some_of_map_eq {f : α → γ} {g : β → γ} {a : Option α}
    {b : Option β} (h : a.map f = b.map g) :
    a = none ∧ b = none ∨ ∃ x y, a = some x ∧ b = some y ∧ f x = g y := by
  cases a with
  | none => exact .inl ⟨rfl, Option.map_eq_none_iff.mp h.symm⟩
  | some x =>
    obtain ⟨y, hb, hy⟩ := Option.map_eq_some_iff.mp h.symm
    exact .inr ⟨x, y, rfl, hb, hy.symm⟩

theorem map_concat_congr {f : α → β} {l l' : List α} (h : l.map f = l'.map f)
    {a a' : α} (ha : f a = f a') : (l ++ [a]).map f = (l' ++ [a']).map f := by
  rw [List.map_append, List.map_append, h, List.map_singleton, List.map_singleton, ha]

theorem mapM_eq_some_iff_forall₂ {f : α → Option β} {l : List α} {l' : List β} :
    l.mapM f = some l' ↔ List.Forall₂ (fun a b => f a = some b) l l' := by
  induction l generalizing l' with
  | nil => simp [eq_comm]
  | cons a l ih =>
    simp only [List.mapM_cons, Option.pure_def, Option.bind_eq_bind, Option.bind_eq_some_iff,
      Option.some.injEq, List.forall₂_cons_left_iff, ih]
    constructor
    · rintro ⟨b, hb, rest, hrest, rfl⟩
      exact ⟨b, rest, hb, hrest, rfl⟩
    · rintro ⟨b, rest, hb, hrest, rfl⟩
      exact ⟨b, hb, rest, hrest, rfl⟩

theorem exists_of_mapM {f : α → Option β} {items : List α} {results : List β}
    (h : items.mapM f = some results) {b : β} (hb : b ∈ results) : ∃ a ∈ items, f a = some b :=
  exists_of_forall₂ (mapM_eq_some_iff_forall₂.mp h).flip hb

theorem exists_of_mem_mapM {f : α → Option β} {items : List α} {results : List β}
    (h : items.mapM f = some results) {a : α} (ha : a ∈ items) : ∃ b ∈ results, f a = some b :=
  exists_of_forall₂ (mapM_eq_some_iff_forall₂.mp h) ha

theorem exists_mapM {f : α → Option β} {items : List α}
    (h : ∀ a ∈ items, ∃ b, f a = some b) : ∃ results, items.mapM f = some results := by
  induction items with
  | nil => exact ⟨[], rfl⟩
  | cons item items ih =>
    obtain ⟨⟨first, hfirst⟩, hitems⟩ := List.forall_mem_cons.mp h
    obtain ⟨rest, hrest⟩ := ih hitems
    exact ⟨first :: rest, by rw [List.mapM_cons, hfirst, hrest]; rfl⟩

end Trellis
