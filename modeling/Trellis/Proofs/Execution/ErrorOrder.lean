import Mathlib.Data.List.Nodup
import Trellis.Execution.Error

/-!
The order of errors.

Comparing errors by location, path and message is a total preorder, and errors that compare as equal
agree on path and message. So errors of which no two agree on both have one sorted list only,
however they came up.
-/

namespace Trellis

open Std

namespace PathSegment

instance : TransCmp compare where
  eq_swap {a b} := by
    cases a with
    | field x =>
      cases b with
      | field y =>
        change Ord.compare x y = (Ord.compare y x).swap
        exact OrientedCmp.eq_swap
      | index j => rfl
    | index i =>
      cases b with
      | field y => rfl
      | index j =>
        change Ord.compare i j = (Ord.compare j i).swap
        exact OrientedCmp.eq_swap
  isLE_trans {a b c} hab hbc := by
    cases a with
    | field x =>
      cases c with
      | field z =>
        cases b with
        | field y => exact @TransCmp.isLE_trans _ Ord.compare _ _ _ _ hab hbc
        | index j => cases hbc
      | index k => rfl
    | index i =>
      cases b with
      | field y => cases hab
      | index j =>
        cases c with
        | field z => cases hbc
        | index k => exact @TransCmp.isLE_trans _ Ord.compare _ _ _ _ hab hbc

instance : LawfulEqCmp compare where
  compare_self {a} := by
    cases a with
    | field x => exact ReflCmp.compare_self
    | index i => exact ReflCmp.compare_self
  eq_of_compare {a b} h := by
    cases a with
    | field x =>
      cases b with
      | field y =>
        change Ord.compare x y = .eq at h
        exact congrArg _ (LawfulEqCmp.eq_of_compare h)
      | index j => cases h
    | index i =>
      cases b with
      | field y => cases h
      | index j =>
        change Ord.compare i j = .eq at h
        exact congrArg _ (LawfulEqCmp.eq_of_compare h)

end PathSegment

theorem Path.compare_eq_compareLex (p q : Path) :
    Path.compare p q = List.compareLex PathSegment.compare p q := by
  induction p generalizing q with
  | nil => cases q <;> rfl
  | cons a p ih =>
    cases q with
    | nil => rfl
    | cons b q => rw [Path.compare, ih, List.compareLex_cons_cons]

instance : TransCmp Path.compare := by
  have h : Path.compare = List.compareLex PathSegment.compare :=
    funext fun p => funext fun q => Path.compare_eq_compareLex p q
  rw [h]
  infer_instance

theorem Path.eq_of_compare {p q : Path} (h : Path.compare p q = .eq) : p = q := by
  rw [Path.compare_eq_compareLex] at h
  exact LawfulEqCmp.eq_of_compare h

namespace ExecutionError

instance : TransCmp compareLocation := by
  have h : compareLocation = compareLex (compareOn Position.line) (compareOn Position.column) := rfl
  rw [h]
  infer_instance

/-- A comparison of images is as good as the comparison of what they are images of. -/
theorem transCmp_on {α β : Type} (cmp : β → β → Ordering) [TransCmp cmp] (f : α → β) :
    TransCmp fun a b => cmp (f a) (f b) where
  eq_swap := OrientedCmp.eq_swap
  isLE_trans := TransCmp.isLE_trans

instance : TransCmp compare := by
  have hlocation := transCmp_on compareLocation ExecutionError.location
  have hpath := transCmp_on Path.compare ExecutionError.path
  have hmessage := transCmp_on Ord.compare fun e : ExecutionError => e.error.message
  have h : compare = compareLex (fun a b => compareLocation a.location b.location)
      (compareLex (fun a b => Path.compare a.path b.path)
        fun a b => Ord.compare a.error.message b.error.message) := rfl
  rw [h]
  infer_instance

theorem swap_compare (a b : ExecutionError) : compare a b = (compare b a).swap :=
  OrientedCmp.eq_swap

/-- What tells errors apart: their paths and messages. -/
def signature (e : ExecutionError) : Path × String := (e.path, e.error.message)

theorem signature_eq_of_compare {a b : ExecutionError} (h : compare a b = .eq) :
    a.signature = b.signature := by
  rw [compare, Ordering.then_eq_eq, Ordering.then_eq_eq] at h
  exact Prod.ext (Path.eq_of_compare h.2.1) (LawfulEqCmp.eq_of_compare h.2.2)

theorem pairwise_sort (errors : List ExecutionError) :
    (sort errors).Pairwise fun a b => (compare a b).isLE := by
  apply List.pairwise_mergeSort
  · exact fun a b c => TransCmp.isLE_trans
  · intro a b
    rw [swap_compare b a]
    cases compare a b <;> rfl

/-- Errors that all differ in path or message have one sorted list. -/
theorem sort_eq_of_perm {first second : List ExecutionError} (hperm : first.Perm second)
    (hnodup : (first.map signature).Nodup) : sort first = sort second := by
  have hfirst := List.mergeSort_perm first fun a b => (compare a b).isLE
  have hsecond := List.mergeSort_perm second fun a b => (compare a b).isLE
  apply List.Perm.eq_of_pairwise _ (pairwise_sort first) (pairwise_sort second)
    (hfirst.trans (hperm.trans hsecond.symm))
  intro a b ha hb hab hba
  have hsignature : a.signature = b.signature := by
    apply signature_eq_of_compare
    rw [swap_compare b a] at hba
    cases hcompare : compare a b <;> simp_all
  have hina : a ∈ first := hfirst.mem_iff.mp ha
  have hinb : b ∈ first := hperm.mem_iff.mpr (hsecond.mem_iff.mp hb)
  exact List.inj_on_of_nodup_map hnodup hina hinb hsignature

end ExecutionError

end Trellis
