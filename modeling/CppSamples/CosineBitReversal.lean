/-
**The bit-reversal loop of `cosfft1`.**

The loop visits the pairs of cells in increasing order and keeps in `j` the position of the
bit-reversed pair, stepped by a carry that runs from the highest bit down.  Its invariant is that
a pair has been exchanged with its partner as soon as either of the two has been visited; at the
end every pair has.

Main results:

* `Chebyshev.FCT.reverseCarry_bitRev` — the carry steps the bit-reversed counter;
* `Chebyshev.FCT.bitReverse_apply` — the loop performs the bit-reversal permutation of the pairs;
* `Chebyshev.FCT.bitReverse_of_le` — and leaves the cells from `n` on alone.
-/

import CppSamples.CosineTransform
import CppSamples.BitReversal

set_option relaxedAutoImplicit false
set_option autoImplicit false

namespace Chebyshev.FCT

open CountedLoop BitReversal Function

variable {K : Type*}

/-! ### The reversed counter -/

/-- **The carry steps the bit-reversed counter.** -/
theorem reverseCarry_bitRev {q c : ℕ} (hc : c + 1 < 2 ^ q) :
    reverseCarry (2 ^ q) (2 * bitRev q c + 1) = 2 * bitRev q (c + 1) + 1 := by
  induction q generalizing c with
  | zero => simp at hc
  | succ q ih =>
      have hpow : 2 ^ (q + 1) = 2 * 2 ^ q := pow_succ' 2 q
      have hlt := bitRev_lt q (c / 2)
      obtain ⟨b, rfl | rfl⟩ := Nat.even_or_odd' c
      · -- the highest bit is clear: it is set, and the carry stops
        rw [bitRev_two_mul, bitRev_two_mul_add_one, reverseCarry]
        have hb : 2 * b / 2 = b := by omega
        rw [hb] at hlt
        rw [if_neg (by omega)]
        omega
      · -- the highest bit is set: it is cleared, and the carry goes on below it
        have hb : (2 * b + 1) / 2 = b := by omega
        rw [hb] at hlt
        have hnext : 2 * b + 1 + 1 = 2 * (b + 1) := by ring
        have hhalf : 2 ^ (q + 1) / 2 = 2 ^ q := by omega
        have hrest : 2 * (2 ^ q + bitRev q b) + 1 - 2 ^ (q + 1) = 2 * bitRev q b + 1 := by omega
        rw [bitRev_two_mul_add_one, hnext, bitRev_two_mul, reverseCarry, if_pos (by omega), hhalf,
          hrest]
        exact ih (by omega)

/-! ### The permutation -/

/-- The state of the loop before it visits pair `t`: the counter `j` names the reversed pair, and
the pairs with a visited member have been exchanged. -/
structure Reversed (q : ℕ) (data : ℕ → K) (t : ℕ) (s : ℕ × (ℕ → K)) : Prop where
  /-- The counter is the odd cell of the reversed pair. -/
  counter : t < 2 ^ q → s.1 = 2 * bitRev q t + 1
  /-- A pair with a visited member holds its partner. -/
  visited : ∀ x e, x < 2 ^ q → e < 2 → x < t ∨ bitRev q x < t →
    s.2 (2 * x + e) = data (2 * bitRev q x + e)
  /-- The other pairs are untouched. -/
  waiting : ∀ x e, x < 2 ^ q → e < 2 → t ≤ x → t ≤ bitRev q x → s.2 (2 * x + e) = data (2 * x + e)
  /-- So are the cells beyond the pairs. -/
  beyond : ∀ y, 2 ^ (q + 1) ≤ y → s.2 y = data y

theorem Reversed.start (q : ℕ) (data : ℕ → K) : Reversed q data 0 (1, data) where
  counter _ := by simp [bitRev_of_zero]
  visited _ _ _ _ h := by omega
  waiting _ _ _ _ _ _ := rfl
  beyond _ _ := rfl

/-- Reading a cell after a pair of cells has been exchanged with another pair. -/
theorem swap_swap_apply (d : ℕ → K) {x y z e : ℕ} (he : e < 2) :
    swap (swap d (2 * y) (2 * x)) (2 * y + 1) (2 * x + 1) (2 * z + e) =
      if z = x then d (2 * y + e) else if z = y then d (2 * x + e) else d (2 * z + e) := by
  have heven : ∀ a b : ℕ, 2 * a ≠ 2 * b + 1 := by omega
  have hodd : ∀ a b : ℕ, 2 * a + 1 ≠ 2 * b := by omega
  have hsucc : ∀ a b : ℕ, 2 * a + 1 = 2 * b + 1 ↔ a = b := by omega
  obtain rfl | rfl : e = 0 ∨ e = 1 := by omega
  · simp only [swap, update_apply, add_zero, heven, hodd, if_false, mul_right_inj' two_ne_zero]
  · simp only [swap, update_apply, hodd, hsucc, if_false]

/-- Pair `t` is exchanged with the reversed pair when it is the first of the two. -/
def visit (q t : ℕ) (d : ℕ → K) : ℕ → K :=
  if t < bitRev q t then
    swap (swap d (2 * bitRev q t) (2 * t)) (2 * bitRev q t + 1) (2 * t + 1) else d

/-- The visit in the words of the loop. -/
theorem visit_eq (q t : ℕ) (d : ℕ → K) :
    (if 1 + 2 * t < 2 * bitRev q t + 1 then
      swap (swap d (2 * bitRev q t + 1 - 1) (1 + 2 * t - 1)) (2 * bitRev q t + 1) (1 + 2 * t)
      else d) = visit q t d := by
  have hiff : 1 + 2 * t < 2 * bitRev q t + 1 ↔ t < bitRev q t := by omega
  have hj : 2 * bitRev q t + 1 - 1 = 2 * bitRev q t := rfl
  have hi : 1 + 2 * t - 1 = 2 * t := by omega
  rw [visit, if_congr hiff rfl rfl, hj, hi, add_comm 1 (2 * t)]

/-- A visit reaches the pair and its partner only. -/
theorem visit_of_ne {q t x e : ℕ} (d : ℕ → K) (he : e < 2) (hxt : x ≠ t) (hxr : x ≠ bitRev q t) :
    visit q t d (2 * x + e) = d (2 * x + e) := by
  rw [visit]
  split
  · rw [swap_swap_apply d he, if_neg hxt, if_neg hxr]
  · rfl

theorem visit_of_le {q t y : ℕ} (ht : t < 2 ^ q) (d : ℕ → K) (hy : 2 ^ (q + 1) ≤ y) :
    visit q t d y = d y := by
  have hrt : bitRev q t < 2 ^ q := bitRev_lt q t
  rw [pow_succ'] at hy
  rw [visit]
  split
  · simp only [swap, update_apply]
    rw [if_neg (by omega), if_neg (by omega), if_neg (by omega), if_neg (by omega)]
  · rfl

/-- The pairs after the visit of pair `t`. -/
theorem Reversed.visit_apply {q t j x e : ℕ} {data d : ℕ → K} (ht : t < 2 ^ q)
    (h : Reversed q data t (j, d)) (hx : x < 2 ^ q) (he : e < 2) :
    visit q t d (2 * x + e) = if x < t + 1 ∨ bitRev q x < t + 1 then data (2 * bitRev q x + e)
      else data (2 * x + e) := by
  have hrt : bitRev q t < 2 ^ q := bitRev_lt q t
  have hrr : bitRev q (bitRev q t) = t := bitRev_bitRev ht
  have hrx : bitRev q (bitRev q x) = x := bitRev_bitRev hx
  have hvisited : ∀ x, x < 2 ^ q → x < t ∨ bitRev q x < t →
      d (2 * x + e) = data (2 * bitRev q x + e) := fun x hx => h.visited x e hx he
  have hwaiting : ∀ x, x < 2 ^ q → t ≤ x → t ≤ bitRev q x →
      d (2 * x + e) = data (2 * x + e) := fun x hx => h.waiting x e hx he
  by_cases hxt : x = t
  · -- the visited pair itself
    subst hxt
    rw [visit, if_pos (Or.inl x.lt_succ_self)]
    rcases Nat.lt_trichotomy x (bitRev q x) with hlt | heq | hgt
    · rw [if_pos hlt, swap_swap_apply d he, if_pos rfl, hwaiting _ hrt hlt.le (by omega)]
    · rw [if_neg (by omega), hwaiting x hx le_rfl heq.le, ← heq]
    · rw [if_neg (by omega), hvisited x hx (Or.inr hgt)]
  · by_cases hxr : x = bitRev q t
    · -- its partner
      rw [hxr, hrr, visit, if_pos (Or.inr t.lt_succ_self)]
      rcases Nat.lt_or_ge t (bitRev q t) with hlt | hge
      · rw [if_pos hlt, swap_swap_apply d he, if_neg (by omega), if_pos rfl,
          hwaiting t ht le_rfl hlt.le]
      · rw [if_neg (by omega), hvisited _ hrt (Or.inl (by omega)), hrr]
    · -- any other pair
      have hne : bitRev q x ≠ t := fun heq => hxr (by rw [← heq, hrx])
      rw [visit_of_ne d he hxt hxr]
      by_cases hvis : x < t + 1 ∨ bitRev q x < t + 1
      · rw [if_pos hvis]
        exact hvisited x hx (by omega)
      · rw [if_neg hvis]
        exact hwaiting x hx (by omega) (by omega)

/-- One visit of the loop. -/
theorem Reversed.step {q : ℕ} {data : ℕ → K} {t : ℕ} (ht : t < 2 ^ q) {s : ℕ × (ℕ → K)}
    (h : Reversed q data t s) :
    Reversed q data (t + 1) (reverseCarry (2 ^ q) s.1,
      if 1 + 2 * t < s.1 then
        swap (swap s.2 (s.1 - 1) (1 + 2 * t - 1)) s.1 (1 + 2 * t) else s.2) := by
  obtain ⟨j, d⟩ := s
  obtain rfl : j = 2 * bitRev q t + 1 := h.counter ht
  dsimp only
  rw [visit_eq]
  constructor
  · intro hlast
    exact reverseCarry_bitRev hlast
  · intro x e hx he hvis
    exact (h.visit_apply ht hx he).trans (if_pos hvis)
  · intro x e hx he h₁ h₂
    exact (h.visit_apply ht hx he).trans (if_neg (by omega))
  · intro y hy
    exact (visit_of_le ht d hy).trans (h.beyond y hy)

theorem bitReverse_reversed (q : ℕ) (data : ℕ → K) :
    ∃ j, Reversed q data (2 ^ q) (j, bitReverse (2 ^ (q + 1)) data) := by
  have hcount : steps 2 1 (2 ^ (q + 1) + 1) = 2 ^ q := by
    rw [steps, pow_succ']
    omega
  have hhalf : 2 ^ (q + 1) / 2 = 2 ^ q := by
    rw [pow_succ']
    omega
  rw [bitReverse, forUpToBy, forBelowBy, hcount, hhalf]
  exact ⟨_, forBelow_inv (Nat.zero_le _) (Reversed q data) (Reversed.start q data)
    fun t _ ht s hs => hs.step ht⟩

/-- **The loop performs the bit-reversal permutation of the pairs.** -/
theorem bitReverse_apply {q x e : ℕ} (hx : x < 2 ^ q) (he : e < 2) (data : ℕ → K) :
    bitReverse (2 ^ (q + 1)) data (2 * x + e) = data (2 * bitRev q x + e) := by
  obtain ⟨j, h⟩ := bitReverse_reversed q data
  exact h.visited x e hx he (Or.inl hx)

/-- The cells from `n` on are left alone. -/
theorem bitReverse_of_le {q y : ℕ} (hy : 2 ^ (q + 1) ≤ y) (data : ℕ → K) :
    bitReverse (2 ^ (q + 1)) data y = data y := by
  obtain ⟨j, h⟩ := bitReverse_reversed q data
  exact h.beyond y hy

end Chebyshev.FCT
