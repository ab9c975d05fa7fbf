/-
**The difference and the intersection of two sorted ranges.**

`set_difference` of the C++ library walks along two sorted ranges at once and copies to its output
what it finds in the first range only, `set_intersection` what it finds in both.  On sorted ranges
these are the difference and the intersection of multisets, whatever the elements are and however
often they occur.

Nothing here mentions a particular program.

Main definitions:

* `SortedDifference.setDifference`, `SortedDifference.setIntersection` — the algorithms;
* `SortedDifference.written` — an array after some output was written to its beginning.

Main results:

* `SortedDifference.setDifference_eq_diff`, `SortedDifference.setIntersection_eq_bagInter` — **the
  algorithms compute the difference and the intersection**;
* `SortedDifference.setDifference_sort_congr` — after sorting, the order of the inputs is lost;
* `SortedDifference.setDifference_sort_perm` — without repetitions it filters the first input.
-/

import Mathlib.Data.List.Lattice
import Mathlib.Data.List.Sort

set_option relaxedAutoImplicit false
set_option autoImplicit false

namespace SortedDifference

open scoped List

variable {α : Type*}

/-- The first cells of an array, overwritten with `out`. -/
def written {n : ℕ} (result : Fin n → α) (out : List α) : Fin n → α := fun i =>
  out[(i : ℕ)]?.getD (result i)

variable [LinearOrder α]

/-- `set_difference`, with its output. -/
def setDifference : List α → List α → List α
  | [], _ => []
  | a :: l₁, [] => a :: l₁
  | a :: l₁, b :: l₂ =>
    if a < b then a :: setDifference l₁ (b :: l₂)
    else if b < a then setDifference (a :: l₁) l₂
    else setDifference l₁ l₂
  termination_by l₁ l₂ => l₁.length + l₂.length

theorem not_mem_of_lt {a b : α} {l : List α} (hl : (b :: l).Pairwise (· ≤ ·)) (hab : a < b) :
    a ∉ b :: l := by
  intro ha
  rcases List.mem_cons.1 ha with rfl | ha
  · exact lt_irrefl a hab
  · exact absurd (List.rel_of_pairwise_cons hl ha) (not_le.2 hab)

/-- **On sorted ranges the algorithm computes the difference.** -/
theorem setDifference_eq_diff (l₁ l₂ : List α) (h₁ : l₁.Pairwise (· ≤ ·))
    (h₂ : l₂.Pairwise (· ≤ ·)) : setDifference l₁ l₂ = l₁.diff l₂ := by
  induction l₁, l₂ using setDifference.induct with
  | case1 l₂ => rw [setDifference, List.nil_diff]
  | case2 a l₁ => rw [setDifference, List.diff_nil]
  | case3 a l₁ b l₂ hab ih =>
      have ha := not_mem_of_lt h₂ hab
      rw [setDifference, if_pos hab, ih h₁.of_cons h₂, List.cons_diff_of_not_mem ha]
  | case4 a l₁ b l₂ hab hba ih =>
      have hb := not_mem_of_lt h₁ hba
      rw [setDifference, if_neg hab, if_pos hba, ih h₁ h₂.of_cons, List.diff_cons,
        List.erase_of_not_mem hb]
  | case5 a l₁ b l₂ hab hba ih =>
      obtain rfl : a = b := le_antisymm (not_lt.1 hba) (not_lt.1 hab)
      rw [setDifference, if_neg hab, if_neg hba, ih h₁.of_cons h₂.of_cons, List.diff_cons,
        List.erase_cons_head]

/-- Sorted ranges that are permutations of each other are equal. -/
theorem insertionSort_congr {l l' : List α} (h : l ~ l') :
    l.insertionSort (· ≤ ·) = l'.insertionSort (· ≤ ·) :=
  have hperm : l.insertionSort (· ≤ ·) ~ l'.insertionSort (· ≤ ·) :=
    ((List.perm_insertionSort _ l).trans h).trans (List.perm_insertionSort _ l').symm
  hperm.eq_of_pairwise' (List.pairwise_insertionSort _ l) (List.pairwise_insertionSort _ l')

/-- After sorting, the order of the inputs is lost. -/
theorem setDifference_sort_congr {l₁ l₁' l₂ l₂' : List α} (h₁ : l₁ ~ l₁') (h₂ : l₂ ~ l₂') :
    setDifference (l₁.insertionSort (· ≤ ·)) (l₂.insertionSort (· ≤ ·)) =
      setDifference (l₁'.insertionSort (· ≤ ·)) (l₂'.insertionSort (· ≤ ·)) := by
  rw [insertionSort_congr h₁, insertionSort_congr h₂]

/-- **Without repetitions** the sorted difference has the elements of the first input that are not
in the second one. -/
theorem setDifference_sort_perm {l₁ : List α} (h : l₁.Nodup) (l₂ : List α) :
    setDifference (l₁.insertionSort (· ≤ ·)) (l₂.insertionSort (· ≤ ·)) ~
      l₁.filter (· ∉ l₂) := by
  rw [setDifference_eq_diff _ _ (List.pairwise_insertionSort _ _) (List.pairwise_insertionSort _ _),
    ← h.sdiff_eq_filter]
  exact (List.perm_insertionSort _ l₁).diff (List.perm_insertionSort _ l₂)

/-! ### The intersection -/

/-- `set_intersection`, with its output. -/
def setIntersection : List α → List α → List α
  | [], _ => []
  | _ :: _, [] => []
  | a :: l₁, b :: l₂ =>
    if a < b then setIntersection l₁ (b :: l₂)
    else if b < a then setIntersection (a :: l₁) l₂
    else a :: setIntersection l₁ l₂
  termination_by l₁ l₂ => l₁.length + l₂.length

/-- **On sorted ranges the algorithm computes the intersection.** -/
theorem setIntersection_eq_bagInter (l₁ l₂ : List α) (h₁ : l₁.Pairwise (· ≤ ·))
    (h₂ : l₂.Pairwise (· ≤ ·)) : setIntersection l₁ l₂ = l₁.bagInter l₂ := by
  induction l₁, l₂ using setIntersection.induct with
  | case1 l₂ => rw [setIntersection, List.nil_bagInter]
  | case2 a l₁ => rw [setIntersection, List.bagInter_nil]
  | case3 a l₁ b l₂ hab ih =>
      have ha := not_mem_of_lt h₂ hab
      rw [setIntersection, if_pos hab, ih h₁.of_cons h₂, List.cons_bagInter_of_not_mem _ ha]
  | case4 a l₁ b l₂ hab hba ih =>
      have hb := not_mem_of_lt h₁ hba
      rw [setIntersection, if_neg hab, if_pos hba, ih h₁ h₂.of_cons,
        List.bagInter_cons_of_not_mem _ hb]
  | case5 a l₁ b l₂ hab hba ih =>
      obtain rfl : a = b := le_antisymm (not_lt.1 hba) (not_lt.1 hab)
      rw [setIntersection, if_neg hab, if_neg hba, ih h₁.of_cons h₂.of_cons,
        List.cons_bagInter_of_mem _ List.mem_cons_self, List.erase_cons_head]

/-- The output of `set_difference` is sorted. -/
theorem pairwise_setDifference {l₁ l₂ : List α} (h₁ : l₁.Pairwise (· ≤ ·))
    (h₂ : l₂.Pairwise (· ≤ ·)) : (setDifference l₁ l₂).Pairwise (· ≤ ·) := by
  rw [setDifference_eq_diff l₁ l₂ h₁ h₂]
  exact h₁.sublist (List.diff_sublist l₁ l₂)

/-- The output of `set_intersection` is sorted. -/
theorem pairwise_setIntersection {l₁ l₂ : List α} (h₁ : l₁.Pairwise (· ≤ ·))
    (h₂ : l₂.Pairwise (· ≤ ·)) : (setIntersection l₁ l₂).Pairwise (· ≤ ·) := by
  rw [setIntersection_eq_bagInter l₁ l₂ h₁ h₂]
  exact h₁.sublist List.bagInter_sublist_left

end SortedDifference
