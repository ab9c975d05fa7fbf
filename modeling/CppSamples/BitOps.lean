/-
**The bit operations of `lru`, and what its cache sees of an address.**

`bitops.hpp` has the logarithm of a power of two, the reversal of the bits of a word, and a template
for slices of a word, which the cache cuts the tag of an address out with.  The logarithm and the
reversal are the usual networks of masks and shifts.

Main definitions:

* `Lru.bitrev16`, `Lru.bitrev32` — the two overloads of `bitrev`;
* `Lru.Log2Long` — the second overload of `Log2`; the first one is part of the cache;
* `Lru.slice`, `Lru.shlLsb` — a slice of an address, and the slice in its place.

Main results:

* `Lru.bitrev_spec` — **the networks reverse the bits**;
* `Lru.Log2_spec` — **what the logarithms return**;
* `Lru.shlLsb_or_shlLsb`, `Lru.and_page_mask` — slices that lie side by side, and pages;
* `Lru.new_eq_ok_iff` — the number of sets and the bits of a set index;
* `Lru.agree_spec` — **which addresses the cache tells apart**.
-/

import CppSamples.BitReversal
import CppSamples.LruRefinement
import Mathlib.Tactic.IntervalCases

set_option relaxedAutoImplicit false
set_option autoImplicit false

namespace Lru

open BitReversal

/-! ### Reversal -/

/-- `bitrev` of 16 bits. -/
def bitrev16 (x : BitVec 16) : BitVec 16 :=
  let x := ((x >>> 1) &&& 0x5555#16) ||| ((x &&& 0x5555#16) <<< 1)
  let x := ((x >>> 2) &&& 0x3333#16) ||| ((x &&& 0x3333#16) <<< 2)
  let x := ((x >>> 4) &&& 0x0F0F#16) ||| ((x &&& 0x0F0F#16) <<< 4)
  ((x >>> 8) &&& 0x00FF#16) ||| ((x &&& 0x00FF#16) <<< 8)

/-- `bitrev` of 32 bits. -/
def bitrev32 (x : BitVec 32) : BitVec 32 :=
  let x := ((x &&& 0x55555555#32) <<< 1) ||| ((x >>> 1) &&& 0x55555555#32)
  let x := ((x &&& 0x33333333#32) <<< 2) ||| ((x >>> 2) &&& 0x33333333#32)
  let x := ((x &&& 0x0F0F0F0F#32) <<< 4) ||| ((x >>> 4) &&& 0x0F0F0F0F#32)
  (x <<< 24) ||| ((x &&& 0xFF00#32) <<< 8) ||| ((x >>> 8) &&& 0xFF00#32) ||| (x >>> 24)

/-- The network for 16 bits. -/
theorem bitrev16_eq (x : BitVec 16) :
    bitrev16 x = exchange 3 0x00FF#16
      (exchange 2 0x0F0F#16 (exchange 1 0x3333#16 (exchange 0 0x5555#16 x))) := rfl

/-- The bytes of a word in the opposite order. -/
def swapBytes (x : BitVec 32) : BitVec 32 :=
  (x <<< 24) ||| ((x &&& 0xFF00#32) <<< 8) ||| ((x >>> 8) &&& 0xFF00#32) ||| (x >>> 24)

/-- The network for 32 bits. -/
theorem bitrev32_eq (x : BitVec 32) :
    bitrev32 x = swapBytes
      (exchange 2 0x0F0F0F0F#32 (exchange 1 0x33333333#32 (exchange 0 0x55555555#32 x))) := by
  rw [exchange_comm, exchange_comm, exchange_comm]
  rfl

/-- The last stage for 32 bits exchanges bytes and pairs of bytes. -/
theorem getLsbD_swapBytes (x : BitVec 32) {i : ℕ} (hi : i < 32) :
    (swapBytes x).getLsbD i = x.getLsbD (partner 3 (partner 4 i)) := by
  interval_cases i <;> simp [swapBytes, partner, Nat.testBit]

theorem getLsbD_bitrev16 (x : BitVec 16) {i : ℕ} (hi : i < 16) :
    (bitrev16 x).getLsbD i = x.getLsbD (15 - i) := by
  have h3 : ∀ j < 16, (0x00FF#16).getLsbD j = !j.testBit 3 := by decide
  have h2 : ∀ j < 16, (0x0F0F#16).getLsbD j = !j.testBit 2 := by decide
  have h1 : ∀ j < 16, (0x3333#16).getLsbD j = !j.testBit 1 := by decide
  have h0 : ∀ j < 16, (0x5555#16).getLsbD j = !j.testBit 0 := by decide
  have hmirror : ∀ j < 16, partner 3 j < 16 ∧ partner 2 (partner 3 j) < 16 ∧
      partner 1 (partner 2 (partner 3 j)) < 16 ∧
      partner 0 (partner 1 (partner 2 (partner 3 j))) = 15 - j := by decide
  obtain ⟨hi3, hi2, hi1, hlast⟩ := hmirror i hi
  rw [bitrev16_eq, getLsbD_exchange h3 _ hi, getLsbD_exchange h2 _ hi3, getLsbD_exchange h1 _ hi2,
    getLsbD_exchange h0 _ hi1, hlast]

theorem getLsbD_bitrev32 (x : BitVec 32) {i : ℕ} (hi : i < 32) :
    (bitrev32 x).getLsbD i = x.getLsbD (31 - i) := by
  have h2 : ∀ j < 32, (0x0F0F0F0F#32).getLsbD j = !j.testBit 2 := by decide
  have h1 : ∀ j < 32, (0x33333333#32).getLsbD j = !j.testBit 1 := by decide
  have h0 : ∀ j < 32, (0x55555555#32).getLsbD j = !j.testBit 0 := by decide
  have hmirror : ∀ j < 32, partner 3 (partner 4 j) < 32 ∧ partner 2 (partner 3 (partner 4 j)) < 32 ∧
      partner 1 (partner 2 (partner 3 (partner 4 j))) < 32 ∧
      partner 0 (partner 1 (partner 2 (partner 3 (partner 4 j)))) = 31 - j := by decide
  obtain ⟨hi3, hi2, hi1, hlast⟩ := hmirror i hi
  rw [bitrev32_eq, getLsbD_swapBytes _ hi, getLsbD_exchange h2 _ hi3, getLsbD_exchange h1 _ hi2,
    getLsbD_exchange h0 _ hi1, hlast]

/-- **`bitrev` reverses the bits** of a word, for both widths. -/
theorem bitrev_spec : (∀ x, (bitrev16 x).toNat = bitRev 16 x.toNat ∧ bitrev16 (bitrev16 x) = x) ∧
    ∀ x, (bitrev32 x).toNat = bitRev 32 x.toNat ∧ bitrev32 (bitrev32 x) = x := by
  have h16 : ∀ x, bitrev16 x = x.reverse := fun x => BitVec.eq_of_getLsbD_eq fun i hi => by
    rw [getLsbD_bitrev16 x hi, BitVec.getLsbD_reverse, BitVec.getMsbD_eq_getLsbD,
      decide_eq_true hi, Bool.true_and]
  have h32 : ∀ x, bitrev32 x = x.reverse := fun x => BitVec.eq_of_getLsbD_eq fun i hi => by
    rw [getLsbD_bitrev32 x hi, BitVec.getLsbD_reverse, BitVec.getMsbD_eq_getLsbD,
      decide_eq_true hi, Bool.true_and]
  refine ⟨fun x => ?_, fun x => ?_⟩
  · rw [h16, h16, toNat_reverse, BitVec.reverse_reverse_eq]
    exact ⟨rfl, rfl⟩
  · rw [h32, h32, toNat_reverse, BitVec.reverse_reverse_eq]
    exact ⟨rfl, rfl⟩

/-! ### Logarithms -/

/-- A power of two as a word, and the mask of the bits below it. -/
def Exp2 (x : ℕ) : BitVec 64 := 1#64 <<< x

def Mask (x : ℕ) : BitVec 64 := Exp2 x - 1#64

theorem toNat_Exp2 {x : ℕ} (hx : x < 64) : (Exp2 x).toNat = 2 ^ x := by
  rw [Exp2, BitVec.toNat_shiftLeft, BitVec.toNat_one (by decide), Nat.one_shiftLeft,
    Nat.mod_eq_of_lt (Nat.pow_lt_pow_right one_lt_two hx)]

theorem toNat_Mask {x : ℕ} (hx : x < 64) : (Mask x).toNat = 2 ^ x - 1 := by
  have hle : 1#64 ≤ Exp2 x := by
    rw [BitVec.le_def, toNat_Exp2 hx]
    exact Nat.one_le_two_pow
  rw [Mask, BitVec.toNat_sub_of_le hle, toNat_Exp2 hx]
  rfl

/-- `Log2` of an `unsigned long`. -/
def Log2Long (x : ℕ) : Except String ℕ :=
  if x &&& (x - 1) ≠ 0 then .error "x is not 2^n"
  else
    let (n, x) := if x &&& 0xFFFFFFFF = 0 then (1 + 32, x >>> 32) else (1, x)
    let (n, x) := if x &&& 0xFFFF = 0 then (n + 16, x >>> 16) else (n, x)
    let (n, x) := if x &&& 0xFF = 0 then (n + 8, x >>> 8) else (n, x)
    let (n, x) := if x &&& 0xF = 0 then (n + 4, x >>> 4) else (n, x)
    let (n, x) := if x &&& 0x3 = 0 then (n + 2, x >>> 2) else (n, x)
    .ok (n - (x &&& 1))

/-- The test of both logarithms. -/
theorem and_sub_one_eq_zero_iff {x : ℕ} : x &&& (x - 1) = 0 ↔ x = 0 ∨ ∃ k, x = 2 ^ k := by
  rcases Nat.eq_zero_or_pos x with rfl | hx
  · simp
  · rw [Nat.and_sub_one_eq_zero_iff_isPowerOfTwo hx.ne']
    exact ⟨.inr, fun h => h.resolve_left hx.ne'⟩

/-- A stage of the logarithm halves the range of the exponent. -/
theorem narrow {s k : ℕ} (hk : k < 2 * s) (n : ℕ) :
    (if 2 ^ k &&& (2 ^ s - 1) = 0 then (n + s, 2 ^ k >>> s) else (n, 2 ^ k)) =
      (n + k / s * s, 2 ^ (k % s)) := by
  rw [Nat.and_two_pow_sub_one_eq_mod]
  rcases Nat.lt_or_ge k s with hlt | hge
  · rw [Nat.mod_eq_of_lt (Nat.pow_lt_pow_right one_lt_two hlt), if_neg (Nat.two_pow_pos k).ne',
      Nat.div_eq_of_lt hlt, Nat.mod_eq_of_lt hlt, zero_mul, add_zero]
  · have hdiv : k / s = 1 := Nat.div_eq_of_lt_le (by omega) (by omega)
    have hmod : k % s = k - s := by rw [Nat.mod_eq_sub_mod hge, Nat.mod_eq_of_lt (by omega)]
    rw [Nat.mod_eq_zero_of_dvd (pow_dvd_pow 2 hge), if_pos rfl, hdiv, hmod, one_mul,
      Nat.shiftRight_eq_div_pow, Nat.pow_div hge two_pos]

/-- The end of the logarithm: one or two is left. -/
theorem two_pow_and_one {k : ℕ} (hk : k < 2) : 2 ^ k &&& 1 = 1 - k := by
  interval_cases k <;> rfl

/-- The stages the two logarithms share. -/
theorem narrow_sixteen {k n : ℕ} (hk : k < 16) (hn : 0 < n) :
    (let (n, x) := if 2 ^ k &&& 0xFF = 0 then (n + 8, 2 ^ k >>> 8) else (n, 2 ^ k)
     let (n, x) := if x &&& 0xF = 0 then (n + 4, x >>> 4) else (n, x)
     let (n, x) := if x &&& 0x3 = 0 then (n + 2, x >>> 2) else (n, x)
     n - (x &&& 1)) = n + k - 1 := by
  have h8 := narrow (s := 8) hk n
  have h4 := narrow (s := 4) (Nat.mod_lt k (by decide : 0 < 8)) (n + k / 8 * 8)
  have h2 := narrow (s := 2) (Nat.mod_lt (k % 8) (by decide : 0 < 4))
    (n + k / 8 * 8 + k % 8 / 4 * 4)
  have h1 := two_pow_and_one (Nat.mod_lt (k % 8 % 4) two_pos)
  norm_num only at h8 h4 h2
  simp only [h8, h4, h2, h1]
  omega

theorem Log2_two_pow {k : ℕ} (hk : k < 32) : Log2 (2 ^ k) = .ok k := by
  have hpow := and_sub_one_eq_zero_iff.2 (.inr ⟨k, rfl⟩)
  have h16 := narrow (s := 16) hk 1
  have hrest := narrow_sixteen (n := 1 + k / 16 * 16) (Nat.mod_lt k (by decide)) (by omega)
  norm_num only at h16
  simp only at hrest
  simp only [Log2, hpow, h16, hrest, ne_eq, not_true_eq_false, if_false]
  congr 1
  omega

theorem Log2Long_two_pow {k : ℕ} (hk : k < 64) : Log2Long (2 ^ k) = .ok k := by
  have hpow := and_sub_one_eq_zero_iff.2 (.inr ⟨k, rfl⟩)
  have h32 := narrow (s := 32) hk 1
  have h16 := narrow (s := 16) (Nat.mod_lt k (by decide : 0 < 32)) (1 + k / 32 * 32)
  have hrest := narrow_sixteen (n := 1 + k / 32 * 32 + k % 32 / 16 * 16)
    (Nat.mod_lt (k % 32) (by decide)) (by omega)
  norm_num only at h32 h16
  simp only at hrest
  simp only [Log2Long, hpow, h32, h16, hrest, ne_eq, not_true_eq_false, if_false]
  congr 1
  omega

/-- A logarithm is known by its values at zero, at the powers of two, and at the rest. -/
theorem eq_ok_iff {f : ℕ → Except String ℕ} {w m : ℕ} (hzero : f 0 = .ok m)
    (hpow : ∀ k < w, f (2 ^ k) = .ok k)
    (hrest : ∀ x, x &&& (x - 1) ≠ 0 → f x = .error "x is not 2^n") {x : ℕ} (hx : x < 2 ^ w)
    (n : ℕ) : f x = .ok n ↔ x = 2 ^ n ∨ x = 0 ∧ n = m := by
  by_cases hand : x &&& (x - 1) = 0
  · rcases and_sub_one_eq_zero_iff.1 hand with rfl | ⟨k, rfl⟩
    · simp [hzero, eq_comm, (Nat.two_pow_pos n).ne]
    · rw [hpow k ((Nat.pow_lt_pow_iff_right one_lt_two).1 hx)]
      simp
  · rw [hrest x hand]
    refine iff_of_false nofun ?_
    rw [and_sub_one_eq_zero_iff] at hand
    rintro (h | ⟨h, -⟩)
    · exact hand (.inr ⟨n, h⟩)
    · exact hand (.inl h)

theorem Log2_eq_ok_iff {x : ℕ} (hx : x < 2 ^ 32) (n : ℕ) :
    Log2 x = .ok n ↔ x = 2 ^ n ∨ x = 0 ∧ n = 31 :=
  eq_ok_iff (f := Log2) rfl (fun _ => Log2_two_pow) (fun _ h => by rw [Log2, if_pos h]) hx n

/-- **What `Log2` returns**, for both widths: the exponent of a power of two, an error for any other
argument, except that zero passes the test and gives the largest exponent. -/
theorem Log2_spec :
    (∀ x < 2 ^ 32, ∀ n, Log2 x = .ok n ↔ x = 2 ^ n ∨ x = 0 ∧ n = 31) ∧
      ∀ x < 2 ^ 64, ∀ n, Log2Long x = .ok n ↔ x = 2 ^ n ∨ x = 0 ∧ n = 63 :=
  ⟨fun _ => Log2_eq_ok_iff, fun _ =>
    eq_ok_iff (f := Log2Long) rfl (fun _ => Log2Long_two_pow) fun _ h => by rw [Log2Long, if_pos h]⟩

theorem Log2_spec_top : Log2 (2 ^ 31) = .ok 31 ∧ Log2Long (2 ^ 63) = .ok 63 :=
  ⟨(Log2_spec.1 _ (by decide) 31).2 (.inl rfl), (Log2_spec.2 _ (by decide) 63).2 (.inl rfl)⟩

/-! ### Slices -/

/-- A slice of a word, the bits from `MSB` down to `LSB`. -/
def slice (MSB LSB : ℕ) (val : BitVec 64) : BitVec (MSB - LSB + 1) :=
  (val >>> LSB).setWidth (MSB - LSB + 1) &&& BitVec.allOnes (MSB - LSB + 1)

/-- The slice in its place. -/
def shlLsb (MSB LSB : ℕ) (val : BitVec 64) : BitVec 64 :=
  (slice MSB LSB val).setWidth 64 <<< LSB

/-- The mask as it is created in C. -/
def cmask (MSB LSB : ℕ) : BitVec (MSB - LSB + 1) :=
  (1#64 <<< (MSB - LSB + 1) - 1#64).setWidth (MSB - LSB + 1)

/-- The page of an address, for pages of 4k and of 64k. -/
def page4kMask : BitVec 64 := 0xFFFFFFF000#64

def page64kMask : BitVec 64 := 0xFFFFFF0000#64

example : slice 28 12 0xFEE0DDF00D#64 = 0xDDF#17 := by decide

variable {MSB LSB : ℕ}

theorem getLsbD_slice (val : BitVec 64) (i : ℕ) :
    (slice MSB LSB val).getLsbD i = (decide (i < MSB - LSB + 1) && val.getLsbD (LSB + i)) := by
  by_cases hi : i < MSB - LSB + 1 <;> simp [slice, hi]

/-- **A slice in its place has the bits of the word between its ends**, and no others. -/
theorem getLsbD_shlLsb (hle : LSB ≤ MSB) (val : BitVec 64) (i : ℕ) :
    (shlLsb MSB LSB val).getLsbD i = (decide (LSB ≤ i ∧ i ≤ MSB) && val.getLsbD i) := by
  rcases Nat.lt_or_ge i LSB with hlt | hge
  · simp [shlLsb, hlt, not_le.2 hlt]
  · obtain ⟨j, rfl⟩ := Nat.exists_eq_add_of_le hge
    have hspan : j < MSB - LSB + 1 ↔ LSB + j ≤ MSB := by omega
    by_cases hw : LSB + j < 64
    · have hj : j < 64 := by omega
      simp [shlLsb, getLsbD_slice, hw, hspan]
    · simp [shlLsb, BitVec.getLsbD_of_ge _ _ (not_lt.1 hw)]

/-- Slices that lie side by side make one slice. -/
theorem shlLsb_or_shlLsb {m : ℕ} (hlow : LSB ≤ m) (hhigh : m < MSB) (val : BitVec 64) :
    shlLsb m LSB val ||| shlLsb MSB (m + 1) val = shlLsb MSB LSB val := by
  refine BitVec.eq_of_getLsbD_eq fun i _ => ?_
  rw [BitVec.getLsbD_or, getLsbD_shlLsb hlow, getLsbD_shlLsb hhigh,
    getLsbD_shlLsb (hlow.trans hhigh.le), ← Bool.and_or_distrib_right, ← Bool.decide_or]
  congr 2
  simp only [eq_iff_iff]
  omega

/-- The two masks are equal. -/
theorem cmask_eq (hspan : MSB - LSB + 1 < 64) : cmask MSB LSB = BitVec.allOnes _ := by
  apply BitVec.eq_of_toNat_eq
  have hmask : (1#64 <<< (MSB - LSB + 1) - 1#64).toNat = 2 ^ (MSB - LSB + 1) - 1 := toNat_Mask hspan
  rw [cmask, BitVec.toNat_setWidth, hmask, BitVec.toNat_allOnes]
  exact Nat.mod_eq_of_lt (Nat.sub_lt (Nat.two_pow_pos _) one_pos)

/-- The page of an address is a slice in its place. -/
theorem and_page_mask (val : BitVec 64) : val &&& page4kMask = shlLsb 39 12 val ∧
    val &&& page64kMask = shlLsb 39 16 val := by
  have h4 : ∀ i < 64, page4kMask.getLsbD i = decide (12 ≤ i ∧ i ≤ 39) := by decide
  have h64 : ∀ i < 64, page64kMask.getLsbD i = decide (16 ≤ i ∧ i ≤ 39) := by decide
  constructor
  · refine BitVec.eq_of_getLsbD_eq fun i hi => ?_
    rw [BitVec.getLsbD_and, getLsbD_shlLsb (by decide), h4 i hi, Bool.and_comm]
  · refine BitVec.eq_of_getLsbD_eq fun i hi => ?_
    rw [BitVec.getLsbD_and, getLsbD_shlLsb (by decide), h64 i hi, Bool.and_comm]

/-! ### What the cache sees of an address -/

/-- The tag of an address. -/
def tag (MSB LSB : ℕ) (addr : ℕ) : BitVec (MSB - LSB + 1) := slice MSB LSB (BitVec.ofNat 64 addr)

/-- Two addresses agree on the bits of the set index and on the slice. -/
def Agree (set_bits_ MSB LSB : ℕ) (a b : BitVec 64) : Prop :=
  ∀ i, i < set_bits_ ∨ LSB ≤ i ∧ i ≤ MSB → a.getLsbD i = b.getLsbD i

theorem tag_eq_iff (hle : LSB ≤ MSB) (a b : BitVec 64) : tag MSB LSB a.toNat = tag MSB LSB b.toNat ↔
    ∀ i, LSB ≤ i ∧ i ≤ MSB → a.getLsbD i = b.getLsbD i := by
  simp only [tag, BitVec.ofNat_toNat, BitVec.setWidth_eq]
  constructor
  · rintro h i ⟨hlow, hhigh⟩
    obtain ⟨j, rfl⟩ := Nat.exists_eq_add_of_le hlow
    have hj : j < MSB - LSB + 1 := by omega
    have hbit : (slice MSB LSB a).getLsbD j = (slice MSB LSB b).getLsbD j := by rw [h]
    rwa [getLsbD_slice, getLsbD_slice, decide_eq_true hj, Bool.true_and, Bool.true_and] at hbit
  · refine fun h => BitVec.eq_of_getLsbD_eq fun j hj => ?_
    rw [getLsbD_slice, getLsbD_slice, h (LSB + j) (by omega)]

variable {NSETS NWAYS : ℕ} {D : Type} [NeZero NSETS] [NeZero NWAYS]

omit [NeZero NWAYS] in
/-- **A fresh cache** exists for a power of two, and has the logarithm. -/
theorem new_eq_ok_iff [Inhabited D] {T : Type} [Inhabited T] (hsets : NSETS < 2 ^ 32)
    {c : Cache NSETS NWAYS T D} :
    Cache.new = .ok c ↔ NSETS = 2 ^ c.set_bits_ ∧ c.sets_ = fun _ => .new := by
  have hzero : NSETS ≠ 0 := NeZero.ne NSETS
  unfold Cache.new
  split
  · next n h =>
    have hn : NSETS = 2 ^ n := ((Log2_eq_ok_iff hsets n).1 h).resolve_right fun h => hzero h.1
    constructor
    · intro hc
      cases hc
      exact ⟨hn, rfl⟩
    · rintro ⟨hpow, hsets⟩
      obtain ⟨m, sets_⟩ := c
      obtain rfl : n = m := Nat.pow_right_injective le_rfl (hn.symm.trans hpow)
      rw [← hsets]
  · next e h =>
    refine iff_of_false nofun ?_
    rintro ⟨hpow, -⟩
    rw [(Log2_eq_ok_iff hsets c.set_bits_).2 (.inl hpow)] at h
    cases h

theorem val_setOf (addr : ℕ) : (Cache.setOf addr : Fin NSETS).val = addr % NSETS := by
  unfold Cache.setOf
  split
  · rfl
  · next h =>
    have hone : NSETS = 1 := by
      have := Nat.pos_of_neZero NSETS
      omega
    rw [Fin.val_zero, hone, Nat.mod_one]

theorem setOf_eq_iff {set_bits_ : ℕ} (hpow : NSETS = 2 ^ set_bits_) (a b : BitVec 64) :
    (Cache.setOf a.toNat : Fin NSETS) = Cache.setOf b.toNat ↔
      ∀ i < set_bits_, a.getLsbD i = b.getLsbD i := by
  rw [Fin.ext_iff, val_setOf, val_setOf, hpow]
  constructor
  · intro h i hi
    have hbit : (a.toNat % 2 ^ set_bits_).testBit i = (b.toNat % 2 ^ set_bits_).testBit i := by
      rw [h]
    rwa [Nat.testBit_mod_two_pow, Nat.testBit_mod_two_pow, decide_eq_true hi, Bool.true_and,
      Bool.true_and, BitVec.testBit_toNat, BitVec.testBit_toNat] at hbit
  · refine fun h => Nat.eq_of_testBit_eq fun i => ?_
    rw [Nat.testBit_mod_two_pow, Nat.testBit_mod_two_pow, BitVec.testBit_toNat,
      BitVec.testBit_toNat]
    by_cases hi : i < set_bits_
    · rw [h i hi]
    · rw [decide_eq_false hi, Bool.false_and, Bool.false_and]

/-- The set is the number made of the low bits of the address. -/
theorem val_setOf_eq_mask {set_bits_ : ℕ} (hpow : NSETS = 2 ^ set_bits_) (hbits : set_bits_ < 64)
    (a : BitVec 64) : (Cache.setOf a.toNat : Fin NSETS).val = (a &&& Mask set_bits_).toNat := by
  rw [val_setOf, BitVec.toNat_and, toNat_Mask hbits, Nat.and_two_pow_sub_one_eq_mod, hpow]

theorem agree_iff {set_bits_ : ℕ} (hpow : NSETS = 2 ^ set_bits_) (hle : LSB ≤ MSB)
    (a b : BitVec 64) : Agree set_bits_ MSB LSB a b ↔
      (Cache.setOf a.toNat : Fin NSETS) = Cache.setOf b.toNat ∧
        tag MSB LSB a.toNat = tag MSB LSB b.toNat := by
  rw [setOf_eq_iff hpow, tag_eq_iff hle, Agree]
  simp only [or_imp, forall_and]

omit [NeZero NWAYS] in
/-- The only valid line of a set. -/
theorem resident_fill_iff {T : Type} {s : CacheSet NWAYS T D} (hs : ∀ way, (s.line way).valid = false)
    (way : Fin NWAYS) (t u : T) (data : D) : (s.fill way t data).Resident u ↔ t = u := by
  constructor
  · rintro ⟨w, hvalid, htag⟩
    by_cases hw : w = way
    · subst hw
      simpa [CacheSet.fill] using htag
    · simp [CacheSet.fill, hw, hs] at hvalid
  · rintro rfl
    exact ⟨way, by simp [CacheSet.fill], by simp [CacheSet.fill]⟩

/-- The only valid line of a cache that was fresh. -/
theorem resident_fill_new_iff {T : Type} [DecidableEq T] [Inhabited T] [Inhabited D] {TAG : ℕ → T}
    {c : Cache NSETS NWAYS T D} (hnew : c.sets_ = fun _ => .new) (addr : ℕ) (data : D)
    (set : Fin NSETS) (t : T) :
    (c.fill TAG addr data).Resident set t ↔ Cache.setOf addr = set ∧ TAG addr = t := by
  have hinvalid : ∀ set way, ((c.sets_ set).line way).valid = false := by
    intro set way
    rw [hnew]
    rfl
  have hnot : ∀ set t, ¬c.Resident set t := by
    rintro set t ⟨way, hvalid, -⟩
    rw [hinvalid] at hvalid
    cases hvalid
  rw [fill_of_not_resident TAG (hnot _ _)]
  by_cases hset : Cache.setOf addr = set
  · subst hset
    simp [Cache.Resident, resident_fill_iff (hinvalid _)]
  · simp only [hset, false_and, iff_false]
    simpa [Cache.Resident, Ne.symm hset] using hnot set t

omit [NeZero NSETS] in
theorem findWay_congr {T : Type} [DecidableEq T] {TAG : ℕ → T} {s : CacheSet NWAYS T D} {a b : ℕ}
    (h : TAG a = TAG b) : s.findWay TAG a = s.findWay TAG b := by
  simp only [CacheSet.findWay, h]

/-- **Which addresses the cache tells apart**: in a fresh cache that was filled for one address,
another one hits exactly when they agree on the low `set_bits_` bits and on the slice of the tag;
and two addresses that agree are the same to every cache. -/
theorem agree_spec [Inhabited D] (hsets : NSETS < 2 ^ 32) (hle : LSB ≤ MSB)
    {c : Cache NSETS NWAYS (BitVec (MSB - LSB + 1)) D} (hnew : Cache.new = .ok c) (a b : BitVec 64) :
    (∀ data way set, ((c.fill (tag MSB LSB) a.toNat data).lookup (tag MSB LSB) b.toNat way set).1.1 ↔
        Agree c.set_bits_ MSB LSB a b) ∧
      (Agree c.set_bits_ MSB LSB a b → ∀ c' : Cache NSETS NWAYS (BitVec (MSB - LSB + 1)) D,
        (∀ way set, c'.lookup (tag MSB LSB) a.toNat way set =
          c'.lookup (tag MSB LSB) b.toNat way set) ∧
        ∀ data, c'.fill (tag MSB LSB) a.toNat data = c'.fill (tag MSB LSB) b.toNat data) := by
  obtain ⟨hpow, hfresh⟩ := (new_eq_ok_iff hsets).1 hnew
  rw [agree_iff hpow hle]
  refine ⟨fun data way set => ?_, ?_⟩
  · rw [lookup_eq_true_iff, resident_fill_new_iff hfresh]
  · rintro ⟨hset, htag⟩ c'
    constructor
    · intro way set
      simp only [Cache.lookup, hset, findWay_congr htag]
    · intro data
      simp only [Cache.fill, hset, findWay_congr htag, htag]

theorem agree_spec_page : ∃ c : Cache 8 4 (BitVec (39 - 12 + 1)) ℕ, Cache.new = .ok c ∧
    ∀ a b data way set, ((c.fill (tag 39 12) (a : BitVec 64).toNat data).lookup (tag 39 12)
      (b : BitVec 64).toNat way set).1.1 ↔ Agree c.set_bits_ 39 12 a b :=
  ⟨⟨3, fun _ => .new⟩, rfl, fun a b => (agree_spec (by decide) (by decide) rfl a b).1⟩

end Lru
