import Trellis.Schema.Registration

/-!
Steps of a registration.

A registration that ends well is a sequence of steps that do. Each way of putting steps together has
one lemma that takes it apart again.
-/

namespace Trellis

namespace Registering

/-- A step that ends well, from a registry to a result and another registry. -/
def Runs {α : Type} (op : Registering α) (r : Registry) (a : α) (r' : Registry) : Prop :=
  op.run r = .ok (a, r')

variable {α β : Type} {r r' : Registry}

theorem runs_pure {a b : α} : Runs (pure a) r b r' ↔ b = a ∧ r' = r := by
  constructor
  · intro h
    cases h
    exact ⟨rfl, rfl⟩
  · rintro ⟨rfl, rfl⟩
    rfl

theorem runs_bind {op : Registering α} {next : α → Registering β} {b : β} :
    Runs (op >>= next) r b r' ↔ ∃ a s, Runs op r a s ∧ Runs (next a) s b r' := by
  have hbind : (op >>= next).run r = (op.run r).bind fun done => (next done.1).run done.2 := rfl
  constructor
  · intro h
    rw [Runs, hbind] at h
    cases hop : op.run r with
    | error stop =>
      rw [hop] at h
      cases h
    | ok done =>
      rw [hop] at h
      exact ⟨done.1, done.2, hop, h⟩
  · rintro ⟨a, s, hop, hnext⟩
    rw [Runs] at hop
    rw [Runs, hbind, hop]
    exact hnext

theorem runs_map {op : Registering α} {f : α → β} {b : β} :
    Runs (f <$> op) r b r' ↔ ∃ a, Runs op r a r' ∧ b = f a := by
  rw [map_eq_pure_bind, runs_bind]
  constructor
  · rintro ⟨a, s, hop, hpure⟩
    obtain ⟨rfl, rfl⟩ := runs_pure.mp hpure
    exact ⟨a, hop, rfl⟩
  · rintro ⟨a, hop, rfl⟩
    exact ⟨a, r', hop, runs_pure.mpr ⟨rfl, rfl⟩⟩

theorem runs_modify {change : Registry → Registry} {u : Unit} :
    Runs (modify change) r u r' ↔ r' = change r := by
  constructor
  · intro h
    cases h
    rfl
  · rintro rfl
    rfl

theorem runs_get_bind {next : Registry → Registering β} {b : β} :
    Runs (get >>= next) r b r' ↔ Runs (next r) r b r' := Iff.rfl

theorem runs_modify_bind {change : Registry → Registry} {next : Unit → Registering β} {b : β} :
    Runs (modify change >>= next) r b r' ↔ Runs (next ()) (change r) b r' := Iff.rfl

theorem runs_optional {c : Prop} [Decidable c] {op : Registering Unit} {next : Registering β} {b : β}
    (h : Runs (if c then op >>= fun _ => next else next) r b r') :
    ∃ u s, Runs (if c then op else pure ()) r u s ∧ Runs next s b r' := by
  split
  · rename_i hc
    rw [if_pos hc] at h
    exact runs_bind.mp h
  · rename_i hc
    rw [if_neg hc] at h
    exact ⟨(), r, runs_pure.mpr ⟨rfl, rfl⟩, h⟩

theorem not_runs_refuse {e : SchemaError} {a : α} : ¬ Runs (refuse e) r a r' := by
  intro h
  cases h

theorem not_runs_throw {stop : Stop} {a : α} : ¬ Runs (throw stop) r a r' := by
  intro h
  cases h

theorem foldlM_invariant {f : β → α → Registering β} {P : Registry → β → Prop} {items : List α}
    (hstep : ∀ item ∈ items, ∀ {b b' : β} {r r' : Registry}, Runs (f b item) r b' r' → P r b →
      P r' b') {b b' : β} (h : Runs (items.foldlM f b) r b' r') (hb : P r b) : P r' b' := by
  induction items generalizing b r with
  | nil =>
    obtain ⟨rfl, rfl⟩ := runs_pure.mp h
    exact hb
  | cons item items ih =>
    rw [List.foldlM_cons] at h
    obtain ⟨next, s, hitem, hrest⟩ := runs_bind.mp h
    exact ih (fun item hmem => hstep item (List.mem_cons_of_mem _ hmem)) hrest
      (hstep item List.mem_cons_self hitem hb)

/-- What every result that is added to a list keeps holds of the whole list. -/
theorem mapM_invariant {f : α → Registering β} {P : Registry → List β → Prop} {items : List α}
    (hstep : ∀ item ∈ items, ∀ {done : List β} {b : β} {r r' : Registry}, Runs (f item) r b r' →
      P r done → P r' (done ++ [b])) {bs : List β} (h : Runs (items.mapM f) r bs r')
    (hstart : P r []) : P r' bs := by
  suffices hfrom : ∀ done, P r done → P r' (done ++ bs) from hfrom [] hstart
  clear hstart
  induction items generalizing bs r with
  | nil =>
    rw [List.mapM_nil] at h
    obtain ⟨rfl, rfl⟩ := runs_pure.mp h
    intro done hdone
    rwa [List.append_nil]
  | cons item items ih =>
    rw [List.mapM_cons] at h
    obtain ⟨b, s, hitem, hrest⟩ := runs_bind.mp h
    obtain ⟨rest, s', hrest, hpure⟩ := runs_bind.mp hrest
    obtain ⟨rfl, rfl⟩ := runs_pure.mp hpure
    intro done hdone
    have hlast := ih (fun item hmem => hstep item (List.mem_cons_of_mem _ hmem)) hrest
      (done ++ [b]) (hstep item List.mem_cons_self hitem hdone)
    rwa [List.append_assoc] at hlast

/-- What every step of a loop keeps, with the items that are left, holds at its end. -/
theorem forM_invariant {f : α → Registering Unit} {P : List α → Registry → Prop} {items : List α}
    (hstep : ∀ {item : α} {rest : List α} {u : Unit} {r r' : Registry}, item ∈ items →
      Runs (f item) r u r' → P (item :: rest) r → P rest r') {u : Unit}
    (h : Runs (items.forM f) r u r') (hitems : P items r) : P [] r' := by
  induction items generalizing r with
  | nil =>
    obtain ⟨-, rfl⟩ := runs_pure.mp h
    exact hitems
  | cons item items ih =>
    obtain ⟨_, s, hitem, hrest⟩ := runs_bind.mp h
    exact ih (fun hmem => hstep (List.mem_cons_of_mem _ hmem)) hrest
      (hstep List.mem_cons_self hitem hitems)

end Registering

end Trellis
