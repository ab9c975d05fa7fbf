/-
**The binary gap.**

`zero_gap` writes an integer as a string of its bits and scans the string once.  It looks for the
first one, and from there on it counts the zeros of the run that it is in; a run is closed, and its
length compared with the longest one so far, when the next one comes.  A run that is not closed
before the end does not count.

The loop that looks for the first one reads the string at every index and then goes on by one, so
in a string without ones it reads the terminator of the string.

Main definitions:

* `BinaryGap.charAt` — an access to a string with a terminator;
* `BinaryGap.skipZeros`, `BinaryGap.pass`, `BinaryGap.scan`, `BinaryGap.zeroGap` — the function;
* `BinaryGap.IsGap` — the gaps of a list of bits.

Main results:

* `BinaryGap.skipZeros_spec` — the first loop ends behind the first one;
* `BinaryGap.Invariant.pass` — what one pass of the second loop keeps;
* `BinaryGap.scan_spec` — **the scan returns the length of the longest gap**.
-/

import CppSamples.CheckedArray
import Mathlib.Order.Bounds.Defs

set_option relaxedAutoImplicit false
set_option autoImplicit false

namespace BinaryGap

open CheckedArray CountedLoop

/-! ### The function -/

/-- `s[i]` of a `std::string`, which has a terminator behind its last character. -/
def charAt (s : List Char) (i : ℕ) : Checked Char :=
  if h : i < s.length then .ok s[i]
  else if i = s.length then .ok (Char.ofNat 0)
  else .error .outOfBounds

/-- `while (bit_repr[start++] == '0') ;` -/
def skipZeros (bit_repr : List Char) (start : ℕ) : Checked ℕ :=
  match h : charAt bit_repr start with
  | .error e => .error e
  | .ok c => if hc : c = '0' then skipZeros bit_repr (start + 1) else .ok (start + 1)
  termination_by bit_repr.length - start
  decreasing_by
    unfold charAt at h
    split_ifs at h with hlt hend
    · omega
    · obtain rfl := Except.ok.inj h
      exact absurd hc (by decide)

/-- The variables of the second loop. -/
structure Scan where
  max_gap : ℕ
  cur_gap : ℕ
  gap : Bool

/-- The body of the second loop. -/
def pass (c : Char) (t : Scan) : Scan :=
  if c = '0' then
    if !t.gap then { t with gap := true, cur_gap := 1 }
    else { t with cur_gap := t.cur_gap + 1 }
  else
    let t := { t with gap := false }
    if t.max_gap < t.cur_gap then { t with max_gap := t.cur_gap } else t

/-- One pass of the second loop. -/
def passAt (bit_repr : List Char) (i : ℕ) (t : Scan) : Checked Scan := do
  return pass (← charAt bit_repr i) t

/-- What `zero_gap` does with the string. -/
def scan (bit_repr : List Char) : Checked ℕ := do
  let start ← skipZeros bit_repr 0
  let t ← forBelowM start bit_repr.length ⟨0, 0, false⟩ (passAt bit_repr)
  return t.max_gap

/-- The digit of a bit. -/
def digit (b : Bool) : Char := if b then '1' else '0'

/-- `bs.to_string()` of a `std::bitset<32>` -/
def bitString (val : BitVec 32) : List Bool := (List.range 32).map val.getMsbD

/-- **`zero_gap`**: what it prints and what it returns. -/
def zeroGap (val : BitVec 32) : Checked (List Char × ℤ) := do
  let bit_repr := (bitString val).map digit
  let max_gap ← scan bit_repr
  return (bit_repr ++ ['\n'], (BitVec.ofNat 32 max_gap).toInt)

/-! ### Gaps -/

/-- A run of `n` zeros behind the one at index `i`, with a one behind the run. -/
structure IsGap (bits : List Bool) (i n : ℕ) : Prop where
  before : bits[i]? = some true
  zeros : ∀ k < n, bits[i + 1 + k]? = some false
  after : bits[i + 1 + n]? = some true

/-- The lengths of the gaps, and zero. -/
def gaps (bits : List Bool) : Set ℕ := {n | n = 0 ∨ ∃ i, IsGap bits i n}

/-! ### The first loop -/

variable {bits : List Bool}

theorem charAt_digit {i : ℕ} {b : Bool} (h : bits[i]? = some b) :
    charAt (bits.map digit) i = .ok (digit b) := by
  obtain ⟨hi, hb⟩ := List.getElem?_eq_some_iff.1 h
  rw [charAt, dif_pos (by rwa [List.length_map]), List.getElem_map, hb]

theorem charAt_length : charAt (bits.map digit) bits.length = .ok (Char.ofNat 0) := by
  rw [charAt, dif_neg (by rw [List.length_map]; omega), if_pos (by rw [List.length_map])]

theorem skipZeros_of_zero {s : List Char} {i : ℕ} (h : charAt s i = .ok '0') :
    skipZeros s i = skipZeros s (i + 1) := by
  rw [skipZeros]
  split
  · simp_all
  · rename_i c hc
    obtain rfl := Except.ok.inj (h.symm.trans hc)
    exact dif_pos rfl

theorem skipZeros_of_ne {s : List Char} {i : ℕ} {c : Char} (h : charAt s i = .ok c) (hc : c ≠ '0') :
    skipZeros s i = .ok (i + 1) := by
  rw [skipZeros]
  split
  · simp_all
  · rename_i c' hc'
    obtain rfl := Except.ok.inj (h.symm.trans hc')
    exact dif_neg hc

/-- **The first loop** ends behind the first one, or behind the terminator. -/
theorem skipZeros_spec {i : ℕ} (hi : i ≤ bits.length) :
    ∃ j, skipZeros (bits.map digit) i = .ok (j + 1) ∧ i ≤ j ∧
      (∀ k, i ≤ k → k < j → bits[k]? = some false) ∧
      (j = bits.length ∨ bits[j]? = some true) := by
  induction hn : bits.length - i generalizing i with
  | zero =>
      obtain rfl : i = bits.length := by omega
      exact ⟨bits.length, skipZeros_of_ne charAt_length (by decide), le_rfl,
        fun k h₁ h₂ => absurd h₂ (by omega), .inl rfl⟩
  | succ n ih =>
      have hbit : bits[i]? = some bits[i] := List.getElem?_eq_getElem (by omega)
      cases hb : bits[i] with
      | true =>
          rw [hb] at hbit
          exact ⟨i, skipZeros_of_ne (charAt_digit hbit) (by decide), le_rfl,
            fun k h₁ h₂ => absurd h₂ (by omega), .inr hbit⟩
      | false =>
          rw [hb] at hbit
          obtain ⟨j, hrun, hij, hzeros, hend⟩ := ih (i := i + 1) (by omega) (by omega)
          refine ⟨j, (skipZeros_of_zero (charAt_digit hbit)).trans hrun, by omega, ?_, hend⟩
          intro k hk hkj
          obtain rfl | hk := hk.eq_or_lt
          · exact hbit
          · exact hzeros k hk hkj

/-! ### The second loop -/

/-- What holds before the pass with the counter `i`: the longest of the gaps that end before `i` is
known, and the run of zeros in front of `i` is the current one. -/
structure Invariant (bits : List Bool) (i : ℕ) (t : Scan) : Prop where
  le_max : ∀ p n, IsGap bits p n → p + 1 + n < i → n ≤ t.max_gap
  max_mem : t.max_gap ∈ gaps bits
  closed : t.gap = false → t.cur_gap ≤ t.max_gap ∧ 0 < i ∧ bits[i - 1]? = some true
  opened : t.gap = true → ∃ p, p + 1 + t.cur_gap = i ∧ bits[p]? = some true ∧
    ∀ k < t.cur_gap, bits[p + 1 + k]? = some false

section Pass

variable {i : ℕ} {t : Scan}

/-- A zero does not end a gap. -/
theorem Invariant.pass_zero (h : Invariant bits i t) (hbit : bits[i]? = some false) :
    Invariant bits (i + 1) (pass '0' t) := by
  have hle : ∀ p n, IsGap bits p n → p + 1 + n < i + 1 → n ≤ t.max_gap := by
    intro p n hgap hend
    rcases Nat.lt_or_ge (p + 1 + n) i with hlt | hge
    · exact h.le_max p n hgap hlt
    · have hafter := hgap.after
      have hi : p + 1 + n = i := by omega
      rw [hi, hbit] at hafter
      cases hafter
  cases hgap : t.gap with
  | false =>
      obtain ⟨-, hpos, hone⟩ := h.closed hgap
      have hpass : pass '0' t = { t with gap := true, cur_gap := 1 } := by simp [pass, hgap]
      rw [hpass]
      refine ⟨hle, h.max_mem, nofun, fun _ => ⟨i - 1, ?_, hone, ?_⟩⟩
      · show i - 1 + 1 + 1 = i + 1
        omega
      · intro k hk
        have hk : k < 1 := hk
        have hi : i - 1 + 1 + k = i := by omega
        rw [hi, hbit]
  | true =>
      obtain ⟨p, hp, hone, hzeros⟩ := h.opened hgap
      have hpass : pass '0' t = { t with cur_gap := t.cur_gap + 1 } := by simp [pass, hgap]
      rw [hpass]
      refine ⟨hle, h.max_mem, fun hclosed => ?_, fun _ => ⟨p, ?_, hone, ?_⟩⟩
      · rw [hgap] at hclosed
        cases hclosed
      · show p + 1 + (t.cur_gap + 1) = i + 1
        omega
      · intro k hk
        have hk : k < t.cur_gap + 1 := hk
        rcases Nat.lt_or_ge k t.cur_gap with hlt | hge
        · exact hzeros k hlt
        · have hi : p + 1 + k = i := by omega
          rw [hi, hbit]

theorem pass_one_eq (t : Scan) : pass '1' t = ⟨max t.max_gap t.cur_gap, t.cur_gap, false⟩ := by
  rcases Nat.lt_or_ge t.max_gap t.cur_gap with h | h
  · simp [pass, h, Nat.max_eq_right h.le]
  · simp [pass, Nat.not_lt.2 h, Nat.max_eq_left h]

/-- Two ones with nothing but zeros between each of them and `i`. -/
theorem eq_of_zeros {p q n m : ℕ} (hp : p + 1 + n = i) (hq : q + 1 + m = i)
    (hpone : bits[p]? = some true) (hqone : bits[q]? = some true)
    (hpzeros : ∀ k < n, bits[p + 1 + k]? = some false)
    (hqzeros : ∀ k < m, bits[q + 1 + k]? = some false) : n = m := by
  rcases Nat.lt_trichotomy p q with hlt | heq | hlt
  · have hzero := hpzeros (q - p - 1) (by omega)
    have hindex : p + 1 + (q - p - 1) = q := by omega
    rw [hindex, hqone] at hzero
    cases hzero
  · omega
  · have hzero := hqzeros (p - q - 1) (by omega)
    have hindex : q + 1 + (p - q - 1) = p := by omega
    rw [hindex, hpone] at hzero
    cases hzero

/-- **A one ends the current run**, which is a gap. -/
theorem Invariant.pass_one (h : Invariant bits i t) (hbit : bits[i]? = some true) :
    Invariant bits (i + 1) (pass '1' t) := by
  have hclosed : 0 < i + 1 ∧ bits[i + 1 - 1]? = some true := ⟨Nat.succ_pos i, hbit⟩
  rw [pass_one_eq]
  cases hgap : t.gap with
  | false =>
      obtain ⟨hcur, hpos, hone⟩ := h.closed hgap
      rw [Nat.max_eq_left hcur]
      refine ⟨?_, h.max_mem, fun _ => ⟨hcur, hclosed⟩, nofun⟩
      intro p n hn hend
      rcases Nat.lt_or_ge (p + 1 + n) i with hlt | hge
      · exact h.le_max p n hn hlt
      · -- the one in front of `i` leaves no room for zeros
        obtain rfl : n = 0 := eq_of_zeros (i := i) (by omega) (by omega) hn.before hone hn.zeros
          (fun k hk => absurd hk (Nat.not_lt_zero k))
        exact Nat.zero_le _
  | true =>
      obtain ⟨q, hq, hone, hzeros⟩ := h.opened hgap
      have hrun : IsGap bits q t.cur_gap := ⟨hone, hzeros, by rw [hq, hbit]⟩
      refine ⟨?_, ?_, fun _ => ⟨Nat.le_max_right _ _, hclosed⟩, nofun⟩
      · intro p n hn hend
        rcases Nat.lt_or_ge (p + 1 + n) i with hlt | hge
        · exact (h.le_max p n hn hlt).trans (Nat.le_max_left _ _)
        · obtain rfl : n = t.cur_gap :=
            eq_of_zeros (i := i) (by omega) hq hn.before hone hn.zeros hzeros
          exact Nat.le_max_right _ _
      · rcases Nat.le_total t.max_gap t.cur_gap with hle | hle
        · rw [Nat.max_eq_right hle]
          exact .inr ⟨q, hrun⟩
        · rw [Nat.max_eq_left hle]
          exact h.max_mem

/-- **One pass.** -/
theorem Invariant.pass {b : Bool} (h : Invariant bits i t) (hbit : bits[i]? = some b) :
    Invariant bits (i + 1) (pass (digit b) t) := by
  cases b with
  | false => exact h.pass_zero hbit
  | true => exact h.pass_one hbit

end Pass

/-- Behind the first one no gap has ended yet. -/
theorem Invariant.start {j : ℕ} (hzeros : ∀ k < j, bits[k]? = some false)
    (hone : bits[j]? = some true) : Invariant bits (j + 1) ⟨0, 0, false⟩ where
  le_max p n hgap hend := by
    have hzero := hzeros p (by omega)
    rw [hgap.before] at hzero
    cases hzero
  max_mem := .inl rfl
  closed _ := ⟨le_rfl, Nat.succ_pos j, hone⟩
  opened := nofun

/-- The second loop, from behind the first one. -/
theorem forBelowM_passAt {j : ℕ} (hj : j < bits.length) (hzeros : ∀ k < j, bits[k]? = some false)
    (hone : bits[j]? = some true) :
    ∃ t, forBelowM (j + 1) (bits.map digit).length ⟨0, 0, false⟩ (passAt (bits.map digit)) = .ok t ∧
      Invariant bits bits.length t := by
  obtain ⟨g, hg⟩ : ∃ g : ℕ → Scan → Scan, g = fun i => pass (digit (bits[i]?.getD false)) :=
    ⟨_, rfl⟩
  have hbit : ∀ i < bits.length, bits[i]? = some (bits[i]?.getD false) := by
    intro i hi
    rw [List.getElem?_eq_getElem hi, Option.getD_some]
  refine ⟨forBelow (j + 1) bits.length ⟨0, 0, false⟩ g, ?_, ?_⟩
  · rw [List.length_map]
    refine forBelowM_eq id ?_
    intro i hji hi t
    rw [hg]
    exact bind_eq (charAt_digit (hbit i hi)) rfl
  · refine forBelow_inv hj (Invariant bits) (.start hzeros hone) ?_
    intro i hji hi t ht
    rw [hg]
    exact ht.pass (hbit i hi)

/-- The gaps are inside the string. -/
theorem IsGap.lt_length {p n : ℕ} (h : IsGap bits p n) : p + 1 + n < bits.length :=
  (List.getElem?_eq_some_iff.1 h.after).1

/-- **The scan of a string of bits** stays inside it and returns the length of the longest gap. -/
theorem scan_greatest (bits : List Bool) :
    ∃ r, scan (bits.map digit) = .ok r ∧ IsGreatest (gaps bits) r := by
  obtain ⟨j, hskip, -, hzeros, hend⟩ := skipZeros_spec (Nat.zero_le bits.length)
  have hzeros : ∀ k < j, bits[k]? = some false := fun k hk => hzeros k (Nat.zero_le k) hk
  have hrun : ∀ t, forBelowM (j + 1) (bits.map digit).length ⟨0, 0, false⟩
      (passAt (bits.map digit)) = .ok t → scan (bits.map digit) = .ok t.max_gap := by
    intro t ht
    rw [scan, hskip, ok_bind]
    exact bind_eq ht rfl
  rcases hend with rfl | hone
  · -- no one at all
    refine ⟨0, hrun ⟨0, 0, false⟩ ?_, .inl rfl, ?_⟩
    · rw [List.length_map, forBelowM, Nat.sub_eq_zero_of_le (Nat.le_succ _), passesM]
    · rintro n (rfl | ⟨p, hgap⟩)
      · exact le_rfl
      · have hlength := hgap.lt_length
        have hzero := hzeros p (by omega)
        rw [hgap.before] at hzero
        cases hzero
  · have hj : j < bits.length := (List.getElem?_eq_some_iff.1 hone).1
    obtain ⟨t, ht, hinv⟩ := forBelowM_passAt hj hzeros hone
    refine ⟨t.max_gap, hrun t ht, hinv.max_mem, ?_⟩
    rintro n (rfl | ⟨p, hgap⟩)
    · exact Nat.zero_le _
    · exact hinv.le_max p n hgap hgap.lt_length

/-- A gap is shorter than its string. -/
theorem lt_of_mem_gaps {n : ℕ} (hbits : bits ≠ []) (hn : n ∈ gaps bits) : n < bits.length := by
  rcases hn with rfl | ⟨p, hgap⟩
  · exact List.length_pos_iff.2 hbits
  · have hlength := hgap.lt_length
    omega

/-- **Binary gap**: the scan of any string of bits, and `zero_gap`. -/
theorem scan_spec :
    (∀ bits : List Bool, ∃ r, scan (bits.map digit) = .ok r ∧ IsGreatest (gaps bits) r) ∧
    ∀ val : BitVec 32, ∃ r : ℕ, zeroGap val = .ok ((bitString val).map digit ++ ['\n'], r) ∧
      IsGreatest (gaps (bitString val)) r := by
  refine ⟨scan_greatest, ?_⟩
  intro val
  obtain ⟨r, hr, hgreatest⟩ := scan_greatest (bitString val)
  refine ⟨r, ?_, hgreatest⟩
  have hlength : (bitString val).length = 32 := by
    rw [bitString, List.length_map, List.length_range]
  have hlt : r < 32 := hlength ▸ lt_of_mem_gaps (List.ne_nil_of_length_pos (by omega)) hgreatest.1
  have hint : (BitVec.ofNat 32 r).toInt = r := by
    have hr' : (BitVec.ofNat 32 r).toNat = r := by
      rw [BitVec.toNat_ofNat, Nat.mod_eq_of_lt (by omega)]
    rw [BitVec.toInt_eq_toNat_of_lt (by omega), hr']
  simp only [zeroGap, hr, ok_bind, hint, pure_eq_ok]

end BinaryGap
