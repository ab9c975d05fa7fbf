/-
**Bit reversal of bounded naturals.**

`bitRev r b` reads the low `r` bits of `b` in the opposite order.  The recursion peels the lowest
bit off `b` and makes it the highest bit of the result; the dual recursion, which peels the
highest bit, gives that reversing twice is the identity.

Main results:

* `BitReversal.bitRev_lt` — the result has `r` bits;
* `BitReversal.bitRev_bitRev` — reversal is an involution below `2 ^ r`;
* `BitReversal.bitRev_two_mul`, `BitReversal.bitRev_two_mul_add_one` — the value on even and odd
  numbers;
* `BitReversal.testBit_bitRev` — the bits of the result are those of the argument, mirrored;
* `BitReversal.toNat_reverse` — reversal of a word;
* `BitReversal.getLsbD_exchange` — one stage of a network that exchanges neighbouring blocks.
-/

import Mathlib.Data.BitVec
import Mathlib.Data.Nat.Bitwise
import Mathlib.Tactic.Ring

set_option relaxedAutoImplicit false
set_option autoImplicit false

namespace BitReversal

/-- The low `r` bits of `b` in reverse order. -/
def bitRev : ℕ → ℕ → ℕ
  | 0, _ => 0
  | r + 1, b => b % 2 * 2 ^ r + bitRev r (b / 2)

@[simp] theorem bitRev_zero (b : ℕ) : bitRev 0 b = 0 := rfl

theorem bitRev_succ (r b : ℕ) : bitRev (r + 1) b = b % 2 * 2 ^ r + bitRev r (b / 2) := rfl

theorem bitRev_two_mul (r b : ℕ) : bitRev (r + 1) (2 * b) = bitRev r b := by
  have hmod : 2 * b % 2 = 0 := by omega
  have hdiv : 2 * b / 2 = b := by omega
  rw [bitRev_succ, hmod, hdiv, zero_mul, zero_add]

theorem bitRev_two_mul_add_one (r b : ℕ) :
    bitRev (r + 1) (2 * b + 1) = 2 ^ r + bitRev r b := by
  have hmod : (2 * b + 1) % 2 = 1 := by omega
  have hdiv : (2 * b + 1) / 2 = b := by omega
  rw [bitRev_succ, hmod, hdiv, one_mul]

theorem bitRev_of_zero (r : ℕ) : bitRev r 0 = 0 := by
  induction r with
  | zero => rfl
  | succ r ih => simpa [ih] using bitRev_succ r 0

theorem bitRev_lt (r b : ℕ) : bitRev r b < 2 ^ r := by
  induction r generalizing b with
  | zero => simp
  | succ r ih =>
      have hlow := ih (b / 2)
      have htop : b % 2 * 2 ^ r ≤ 2 ^ r := by
        simpa using Nat.mul_le_mul_right (2 ^ r) (show b % 2 ≤ 1 by omega)
      rw [bitRev_succ, pow_succ]
      omega

/-- The dual recursion: the highest bit of the argument becomes the lowest bit. -/
theorem bitRev_add_high {r c e : ℕ} (hc : c < 2 ^ r) (he : e < 2) :
    bitRev (r + 1) (e * 2 ^ r + c) = 2 * bitRev r c + e := by
  induction r generalizing c with
  | zero =>
      obtain rfl : c = 0 := by simpa using hc
      simp [bitRev_succ, Nat.mod_eq_of_lt he]
  | succ r ih =>
      have hmod : (e * 2 ^ (r + 1) + c) % 2 = c % 2 := by
        rw [pow_succ, ← mul_assoc]; omega
      have hdiv : (e * 2 ^ (r + 1) + c) / 2 = e * 2 ^ r + c / 2 := by
        rw [pow_succ, ← mul_assoc]; omega
      have hhalf : c / 2 < 2 ^ r := by rw [pow_succ] at hc; omega
      rw [bitRev_succ (r + 1), hmod, hdiv, ih hhalf, bitRev_succ r c, pow_succ]
      ring

/-- **Reversing twice is the identity** on the numbers of `r` bits. -/
theorem bitRev_bitRev {r b : ℕ} (hb : b < 2 ^ r) : bitRev r (bitRev r b) = b := by
  induction r generalizing b with
  | zero =>
      obtain rfl : b = 0 := by simpa using hb
      rfl
  | succ r ih =>
      have hhalf : b / 2 < 2 ^ r := by rw [pow_succ] at hb; omega
      rw [bitRev_succ r b, bitRev_add_high (bitRev_lt _ _) (Nat.mod_lt _ two_pos), ih hhalf]
      omega

/-- **Every bit moves to the mirrored place.** -/
theorem testBit_bitRev {r k : ℕ} (hk : k < r) (b : ℕ) :
    (bitRev r b).testBit k = b.testBit (r - 1 - k) := by
  induction r generalizing k b with
  | zero => omega
  | succ r ih =>
      rw [bitRev_succ, mul_comm, Nat.testBit_two_pow_mul_add _ (bitRev_lt r _)]
      rcases Nat.lt_or_ge k r with hlow | hhigh
      · have hplace : r + 1 - 1 - k = r - 1 - k + 1 := by omega
        rw [if_pos hlow, ih hlow, hplace, Nat.testBit_succ]
      · -- the highest bit is the lowest one of the argument
        obtain rfl : k = r := by omega
        rw [if_neg (lt_irrefl k), Nat.sub_self, Nat.add_sub_cancel, Nat.sub_self]
        simp

/-! ### Words -/

/-- Reversal of a word is reversal of its bits. -/
theorem toNat_reverse {w : ℕ} (x : BitVec w) : x.reverse.toNat = bitRev w x.toNat := by
  refine Nat.eq_of_testBit_eq fun i => ?_
  by_cases hi : i < w
  · rw [testBit_bitRev hi, BitVec.testBit_toNat, BitVec.testBit_toNat, BitVec.getLsbD_reverse,
      BitVec.getMsbD_eq_getLsbD, decide_eq_true hi, Bool.true_and]
  · have hpow : 2 ^ w ≤ 2 ^ i := Nat.pow_le_pow_right two_pos (not_lt.1 hi)
    rw [Nat.testBit_lt_two_pow (lt_of_lt_of_le x.reverse.isLt hpow),
      Nat.testBit_lt_two_pow (lt_of_lt_of_le (bitRev_lt _ _) hpow)]

/-- The other one of two indices that differ in bit `k`. -/
def partner (k i : ℕ) : ℕ := if i.testBit k then i - 2 ^ k else i + 2 ^ k

/-- Neighbouring blocks of `2 ^ k` bits change places; `m` has the lower block of each pair. -/
def exchange {w : ℕ} (k : ℕ) (m x : BitVec w) : BitVec w :=
  ((x >>> 2 ^ k) &&& m) ||| ((x &&& m) <<< 2 ^ k)

theorem exchange_comm {w : ℕ} (k : ℕ) (m x : BitVec w) :
    exchange k m x = ((x &&& m) <<< 2 ^ k) ||| ((x >>> 2 ^ k) &&& m) := BitVec.or_comm _ _

/-- **A stage of a network**: every bit moves to the other block of its pair. -/
theorem getLsbD_exchange {w k : ℕ} {m : BitVec w} (hm : ∀ i < w, m.getLsbD i = !i.testBit k)
    (x : BitVec w) {i : ℕ} (hi : i < w) :
    (exchange k m x).getLsbD i = x.getLsbD (partner k i) := by
  -- an index of an upper block, and the index of the lower block below it
  have hbelow : ∀ {j : ℕ}, 2 ^ k ≤ j → j < w → m.getLsbD (j - 2 ^ k) = j.testBit k := by
    intro j hle hj
    obtain ⟨l, rfl⟩ := Nat.exists_eq_add_of_le hle
    rw [Nat.add_sub_cancel_left, hm l (lt_of_le_of_lt (Nat.le_add_left l _) hj),
      Nat.testBit_two_pow_add_eq]
  simp only [exchange, partner, BitVec.getLsbD_or, BitVec.getLsbD_and, BitVec.getLsbD_ushiftRight,
    BitVec.getLsbD_shiftLeft, hm i hi, decide_eq_true hi, Bool.true_and]
  cases hbit : i.testBit k with
  | false =>
      rcases Nat.lt_or_ge i (2 ^ k) with hlt | hge
      · simp [hlt, Nat.add_comm]
      · simp [hbelow hge hi, hbit, Nat.add_comm]
  | true =>
      have hge : 2 ^ k ≤ i := Nat.ge_two_pow_of_testBit hbit
      simp [hbelow hge hi, hbit, not_lt.2 hge]

end BitReversal
