/-
**Loops with a grid stride.**

The `S` threads of a grid share a loop over the indices below `n`.  Each thread begins at its own
number and goes on in steps of `S`, so that it visits its residue class.  In what order the threads
take their turns is left open.

At every moment the indices that have been visited are those below the cursor of their own thread.
Hence no index is visited twice, and none is left out by threads that have come to the end, whether
or not `n` is a multiple of `S`.

Nothing here mentions a particular program.

Main definitions:

* `GridStride.Covered` — what holds of the cursors and of the visited indices.

Main results:

* `GridStride.covered_start`, `GridStride.Covered.visit` — it holds at the beginning and is kept;
* `GridStride.Covered.length_le` — no more than `n` visits are made;
* `GridStride.Covered.countP_eq` — **the visits of threads that have come to the end**;
* `GridStride.Covered.perm_range` — at the end **every index has been visited exactly once**.
-/

import Mathlib.Algebra.BigOperators.Fin
import Mathlib.Algebra.Order.BigOperators.Group.Finset
import Mathlib.Data.List.Nodup
import Mathlib.Data.List.Perm.Basic
import Mathlib.Data.Nat.ModEq
import Mathlib.Logic.Equiv.Defs

set_option relaxedAutoImplicit false
set_option autoImplicit false

namespace GridStride

open Function

variable {θ : Type*} {S : ℕ}

/-- An index less than one stride from another one of its residue class is that one. -/
theorem eq_of_mod_eq {i j : ℕ} (hmod : i % S = j % S) (hle : j ≤ i) (hlt : i < j + S) : i = j := by
  have hzero : (i - j) % S = 0 := Nat.sub_mod_eq_zero_of_mod_eq hmod
  rw [Nat.mod_eq_of_lt (by omega)] at hzero
  omega

/-- A measure of all threads that one of them decreases. -/
theorem sum_lt_of_lt_at [Fintype θ] {f g : θ → ℕ} {a : θ} (hlt : g a < f a)
    (hne : ∀ b, b ≠ a → g b = f b) : ∑ b, g b < ∑ b, f b := by
  refine Finset.sum_lt_sum (fun b _ => ?_) ⟨a, Finset.mem_univ a, hlt⟩
  by_cases hb : b = a
  · rw [hb]
    exact hlt.le
  · exact (hne b hb).le

/-- **The state of the loop**: every cursor is in the residue class of its thread, and the visited
indices, each of them visited once, are those below `n` and below the cursor of their thread. -/
structure Covered (number : θ ≃ Fin S) (n : ℕ) (cursor : θ → ℕ) (visits : List ℕ) : Prop where
  residue : ∀ a, cursor a % S = number a
  nodup : visits.Nodup
  mem_iff : ∀ i a, i % S = number a → (i ∈ visits ↔ i < n ∧ i < cursor a)

variable {number : θ ≃ Fin S} {n : ℕ} {cursor : θ → ℕ} {visits : List ℕ}

/-- Every index has a thread. -/
theorem exists_owner (number : θ ≃ Fin S) (hS : 0 < S) (i : ℕ) : ∃ a, i % S = number a :=
  ⟨number.symm ⟨i % S, Nat.mod_lt i hS⟩, by simp⟩

/-- At the beginning nothing has been visited. -/
theorem covered_start (number : θ ≃ Fin S) (n : ℕ) :
    Covered number n (fun a => (number a : ℕ)) [] where
  residue a := Nat.mod_eq_of_lt (number a).isLt
  nodup := List.nodup_nil
  mem_iff i a hi := by
    have hle : i % S ≤ i := Nat.mod_le i S
    constructor
    · exact fun h => absurd h List.not_mem_nil
    · rintro ⟨-, h⟩
      omega

namespace Covered

/-- The index at a cursor has not been visited. -/
theorem cursor_not_mem (h : Covered number n cursor visits) (a : θ) : cursor a ∉ visits := by
  rw [h.mem_iff (cursor a) a (h.residue a)]
  omega

/-- **A thread visits the index at its cursor.** -/
theorem visit [DecidableEq θ] (h : Covered number n cursor visits) {a : θ} (ha : cursor a < n) :
    Covered number n (update cursor a (cursor a + S)) (visits ++ [cursor a]) where
  residue b := by
    by_cases hb : b = a
    · subst hb
      rw [update_self, Nat.add_mod_right, h.residue]
    · rw [update_of_ne hb, h.residue]
  nodup := by
    rw [List.nodup_append]
    refine ⟨h.nodup, List.nodup_singleton _, fun i hi j hj => ?_⟩
    rw [List.mem_singleton] at hj
    rintro rfl
    exact h.cursor_not_mem a (hj ▸ hi)
  mem_iff i b hi := by
    rw [List.mem_append, List.mem_singleton, h.mem_iff i b hi]
    by_cases hb : b = a
    · subst hb
      rw [update_self]
      constructor
      · rintro (⟨hn, hlt⟩ | rfl)
        · exact ⟨hn, by omega⟩
        · have hpos : 0 < S := (Nat.zero_le _).trans_lt (number b).isLt
          exact ⟨ha, by omega⟩
      · rintro ⟨hn, hlt⟩
        by_cases hle : cursor b ≤ i
        · exact .inr (eq_of_mod_eq (hi.trans (h.residue b).symm) hle hlt)
        · exact .inl ⟨hn, by omega⟩
    · -- the visited index belongs to another thread
      have hne : i ≠ cursor a := by
        rintro rfl
        rw [h.residue a] at hi
        exact hb (number.injective (Fin.ext hi)).symm
      rw [update_of_ne hb]
      simp [hne]

theorem lt_of_mem (h : Covered number n cursor visits) (hS : 0 < S) {i : ℕ} (hi : i ∈ visits) :
    i < n := by
  obtain ⟨a, ha⟩ := exists_owner number hS i
  exact ((h.mem_iff i a ha).mp hi).1

/-- No more than `n` visits are made. -/
theorem length_le (h : Covered number n cursor visits) (hS : 0 < S) : visits.length ≤ n := by
  have hsub : visits ⊆ List.range n := fun i hi => List.mem_range.mpr (h.lt_of_mem hS hi)
  simpa using (List.subperm_of_subset h.nodup hsub).length_le

/-- **The visits of threads that have come to the end**: when they own all indices with a property,
as many of these have been visited as there are. -/
theorem countP_eq (h : Covered number n cursor visits) (hS : 0 < S) (p : ℕ → Bool)
    (hp : ∀ i a, i % S = number a → p i = true → n ≤ cursor a) :
    visits.countP p = (List.range n).countP p := by
  rw [List.countP_eq_length_filter, List.countP_eq_length_filter]
  refine List.Perm.length_eq ((List.perm_ext_iff_of_nodup (h.nodup.filter _)
    (List.nodup_range.filter _)).mpr fun i => ?_)
  obtain ⟨a, ha⟩ := exists_owner number hS i
  rw [List.mem_filter, List.mem_filter, List.mem_range, h.mem_iff i a ha]
  constructor
  · rintro ⟨⟨hn, -⟩, hi⟩
    exact ⟨hn, hi⟩
  · rintro ⟨hn, hi⟩
    exact ⟨⟨hn, hn.trans_le (hp i a ha hi)⟩, hi⟩

/-- At the end **every index has been visited exactly once**. -/
theorem perm_range (h : Covered number n cursor visits) (hS : 0 < S) (hend : ∀ a, n ≤ cursor a) :
    visits.Perm (List.range n) := by
  refine (List.perm_ext_iff_of_nodup h.nodup List.nodup_range).mpr fun i => ?_
  obtain ⟨a, ha⟩ := exists_owner number hS i
  rw [h.mem_iff i a ha, List.mem_range]
  exact and_iff_left_of_imp fun hn => hn.trans_le (hend a)

end Covered

end GridStride
