/-
**Set operations on ranges of indices.**

Two programs have the same templates for the difference and the intersection of two ranges.  They
copy the ranges into new vectors, sort these, and let the library write the result behind the
elements that the result vector has already; the count that they return is the size of that vector.
The version of `c++new-features` clears the vector first, the one of `tini_trimesh` does not.

The ranges may have other elements than the result; their elements are converted.

Main definitions:

* `SetOperations.setOpIndices` — the common template, for vectors;
* `SetOperations.TiniTrimesh.diffIndicesRange`, `SetOperations.NewFeatures.diffIndicesRange` and the
  two versions of `intersectIndicesRange`;
* `SetOperations.Delivers`, `SetOperations.DeliverBoth` — what the calls are expected to return.

Main results:

* `SetOperations.delivers_append_iff` — the previous contents for which a call delivers a multiset;
* `SetOperations.NewFeatures.deliverBoth` — the version that clears the vector delivers for all;
* `SetOperations.TiniTrimesh.deliverBoth_iff` — **the previous contents for which the other version
  delivers**.
-/

import CppSamples.OppositeVertex
import Mathlib.Data.Multiset.UnionInter

set_option relaxedAutoImplicit false
set_option autoImplicit false

namespace SetOperations

open SortedDifference

variable {α β τ : Type*} [LinearOrder τ] (fromA : α → τ) (fromB : β → τ)

/-! ### The templates -/

/-- `append(cont)` of a vector, with everything that is written through the inserter. -/
def append (cont : List τ) (written : List τ) : List τ := cont ++ written

/-- `dist(cont, it)` of a vector -/
def dist (cont : List τ) : ℕ := cont.length

/-- `setOpIndices`: the result vector and the count. -/
def setOpIndices (setOp : List τ → List τ → List τ) (result : List τ) (a : List α) (b : List β) :
    List τ × ℤ :=
  let contAcopy := append [] (a.map fromA)
  let contBcopy := append [] (b.map fromB)
  let contAcopy := contAcopy.insertionSort (· ≤ ·)
  let contBcopy := contBcopy.insertionSort (· ≤ ·)
  let result := append result (setOp contAcopy contBcopy)
  (result, sizeToInt (dist result))

/-- `diffIndices` -/
def diffIndices (result : List τ) (a : List α) (b : List β) : List τ × ℤ :=
  setOpIndices fromA fromB setDifference result a b

/-- `intersectIndices` -/
def intersectIndices (result : List τ) (a : List α) (b : List β) : List τ × ℤ :=
  setOpIndices fromA fromB setIntersection result a b

namespace TiniTrimesh

/-- `diffIndicesRange` of `tini_trimesh/spec.cpp` -/
def diffIndicesRange (result : List τ) (a : List α) (b : List β) : List τ × ℤ :=
  diffIndices fromA fromB result a b

/-- `intersectIndicesRange` of `tini_trimesh/spec.cpp` -/
def intersectIndicesRange (result : List τ) (a : List α) (b : List β) : List τ × ℤ :=
  intersectIndices fromA fromB result a b

end TiniTrimesh

namespace NewFeatures

/-- `diffIndicesRange` of `c++new-features/spec.cpp`, which begins with `result.clear()` -/
def diffIndicesRange (_result : List τ) (a : List α) (b : List β) : List τ × ℤ :=
  diffIndices fromA fromB [] a b

/-- `intersectIndicesRange` of `c++new-features/spec.cpp`, which begins with `result.clear()` -/
def intersectIndicesRange (_result : List τ) (a : List α) (b : List β) : List τ × ℤ :=
  intersectIndices fromA fromB [] a b

end NewFeatures

/-! ### What a call delivers -/

/-- **The multiset `m`**, in ascending order, and the number of its elements. -/
structure Delivers (r : List τ × ℤ) (m : Multiset τ) : Prop where
  count : r.2 = m.card
  elements : (r.1 : Multiset τ) = m
  sorted : r.1.Pairwise (· ≤ ·)

/-- Only the sizes that an `int` can hold are converted to themselves. -/
theorem sizeToInt_eq_iff {v : ℕ} : sizeToInt v = v ↔ v < 2 ^ 31 := by
  constructor
  · intro h
    have hlt : (BitVec.ofNat 32 v).toInt < 2 ^ 31 := BitVec.toInt_lt
    rw [← sizeToInt, h] at hlt
    exact_mod_cast hlt
  · exact sizeToInt_of_lt

/-- A sorted output that is written behind the previous content. -/
theorem delivers_append_iff {result out : List τ} (hout : out.Pairwise (· ≤ ·)) :
    Delivers (append result out, sizeToInt (dist (append result out))) (out : Multiset τ) ↔
      result = [] ∧ out.length < 2 ^ 31 := by
  constructor
  · intro h
    have hlength := congrArg Multiset.card h.elements
    rw [append, Multiset.coe_card, Multiset.coe_card, List.length_append] at hlength
    have hnil : result = [] := List.length_eq_zero_iff.1 (by omega)
    have hcount := h.count
    rw [hnil, append, List.nil_append, dist, Multiset.coe_card] at hcount
    exact ⟨hnil, sizeToInt_eq_iff.1 hcount⟩
  · rintro ⟨rfl, hlt⟩
    exact ⟨sizeToInt_eq_iff.2 hlt, rfl, hout⟩

/-- The multiset of a converted range. -/
def elements (f : α → τ) (a : List α) : Multiset τ := (a.map f : List τ)

theorem coe_sort (f : α → τ) (a : List α) :
    ((append [] (a.map f)).insertionSort (· ≤ ·) : Multiset τ) = elements f a :=
  Multiset.coe_eq_coe.2 (List.perm_insertionSort _ _)

/-- **The calls that deliver the difference.** -/
theorem diffIndices_delivers_iff (result : List τ) (a : List α) (b : List β) :
    Delivers (diffIndices fromA fromB result a b) (elements fromA a - elements fromB b) ↔
      result = [] ∧ (elements fromA a - elements fromB b).card < 2 ^ 31 := by
  have hA := List.pairwise_insertionSort (· ≤ · : τ → τ → Prop) (append [] (a.map fromA))
  have hB := List.pairwise_insertionSort (· ≤ · : τ → τ → Prop) (append [] (b.map fromB))
  have hsub : elements fromA a - elements fromB b =
      (setDifference ((append [] (a.map fromA)).insertionSort (· ≤ ·))
        ((append [] (b.map fromB)).insertionSort (· ≤ ·)) : List τ) := by
    rw [setDifference_eq_diff _ _ hA hB, ← Multiset.coe_sub, coe_sort, coe_sort]
  rw [hsub]
  exact delivers_append_iff (pairwise_setDifference hA hB)

/-- **The calls that deliver the intersection.** -/
theorem intersectIndices_delivers_iff (result : List τ) (a : List α) (b : List β) :
    Delivers (intersectIndices fromA fromB result a b) (elements fromA a ∩ elements fromB b) ↔
      result = [] ∧ (elements fromA a ∩ elements fromB b).card < 2 ^ 31 := by
  have hA := List.pairwise_insertionSort (· ≤ · : τ → τ → Prop) (append [] (a.map fromA))
  have hB := List.pairwise_insertionSort (· ≤ · : τ → τ → Prop) (append [] (b.map fromB))
  have hinter : elements fromA a ∩ elements fromB b =
      (setIntersection ((append [] (a.map fromA)).insertionSort (· ≤ ·))
        ((append [] (b.map fromB)).insertionSort (· ≤ ·)) : List τ) := by
    rw [setIntersection_eq_bagInter _ _ hA hB, ← Multiset.coe_inter, coe_sort, coe_sort]
  rw [hinter]
  exact delivers_append_iff (pairwise_setIntersection hA hB)

/-- **The two operations on the same ranges**: each delivers its multiset, and the counts add up to
the size of the first range. -/
structure DeliverBoth (d i : List τ × ℤ) (a : List α) (b : List β) : Prop where
  diff : Delivers d (elements fromA a - elements fromB b)
  inter : Delivers i (elements fromA a ∩ elements fromB b)
  total : d.2 + i.2 = a.length

/-- What is delivered adds up. -/
theorem total_eq {d i : List τ × ℤ} {a : List α} {b : List β}
    (hdiff : Delivers d (elements fromA a - elements fromB b))
    (hinter : Delivers i (elements fromA a ∩ elements fromB b)) : d.2 + i.2 = a.length := by
  have hcard := congrArg Multiset.card
    (Multiset.sub_add_inter (elements fromA a) (elements fromB b))
  have hsize : (elements fromA a).card = a.length := by
    rw [elements, Multiset.coe_card, List.length_map]
  rw [Multiset.card_add, hsize] at hcard
  rw [hdiff.count, hinter.count]
  exact_mod_cast hcard

/-- The version that clears the vector delivers for every previous content. -/
theorem NewFeatures.deliverBoth (result result' : List τ) {a : List α} {b : List β}
    (hdiff : (elements fromA a - elements fromB b).card < 2 ^ 31)
    (hinter : (elements fromA a ∩ elements fromB b).card < 2 ^ 31) :
    DeliverBoth fromA fromB (NewFeatures.diffIndicesRange fromA fromB result a b)
      (NewFeatures.intersectIndicesRange fromA fromB result' a b) a b := by
  have hd := (diffIndices_delivers_iff fromA fromB [] a b).2 ⟨rfl, hdiff⟩
  have hi := (intersectIndices_delivers_iff fromA fromB [] a b).2 ⟨rfl, hinter⟩
  exact ⟨hd, hi, total_eq fromA fromB hd hi⟩

/-- **The previous contents on which the version of `tini_trimesh` does not depend.** -/
theorem TiniTrimesh.deliverBoth_iff (result result' : List τ) (a : List α) (b : List β) :
    DeliverBoth fromA fromB (TiniTrimesh.diffIndicesRange fromA fromB result a b)
        (TiniTrimesh.intersectIndicesRange fromA fromB result' a b) a b ↔
      (result = [] ∧ (elements fromA a - elements fromB b).card < 2 ^ 31) ∧
      result' = [] ∧ (elements fromA a ∩ elements fromB b).card < 2 ^ 31 := by
  rw [← diffIndices_delivers_iff fromA fromB, ← intersectIndices_delivers_iff fromA fromB]
  constructor
  · exact fun h => ⟨h.diff, h.inter⟩
  · exact fun h => ⟨h.1, h.2, total_eq fromA fromB h.1 h.2⟩

/-- A vector with an element. -/
theorem TiniTrimesh.diffIndicesRange_counts_twice :
    ¬∀ (result result' a b : List ℤ), a.length < 2 ^ 31 →
      DeliverBoth id id (TiniTrimesh.diffIndicesRange id id result a b)
        (TiniTrimesh.intersectIndicesRange id id result' a b) a b := by
  intro h
  have hdiff := (h [5] [] [1] [] (by decide)).diff
  exact absurd ((diffIndices_delivers_iff id id [5] [1] []).1 hdiff).1 (by decide)

end SetOperations
