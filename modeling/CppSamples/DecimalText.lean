/-
**Text with decimal numbers.**

The reading of an unsigned number by `strtoumax` of the C library, with its white space, its sign
and its limit, and the writing of a number as a signed one by the conversion `%ld`.  A number of 64
bits that is written as a signed one, whatever its sign, is read back as it was.

Nothing here mentions a particular program.

Main definitions:

* `DecimalText.isSpace` — white space;
* `DecimalText.strtoumax` — the number at the beginning of a text;
* `DecimalText.formatLong` — the text of a number.

Main results:

* `DecimalText.strtoumax_formatLong` — **a number that was written is read back**;
* `DecimalText.strtoumax_nonNumeric` — a text without a number is read as zero.
-/

import Mathlib.Algebra.GroupWithZero.Nat
import Mathlib.Data.List.TakeWhile
import Mathlib.Tactic.Common

set_option relaxedAutoImplicit false
set_option autoImplicit false

namespace DecimalText

/-- `isspace` -/
def isSpace (c : Char) : Bool := c = ' ' || (9 ≤ c.toNat && c.toNat ≤ 13)

/-- The number of the digits at the beginning of a text. -/
def leadingNumber (s : List Char) : ℕ := Nat.ofDigitChars 10 (s.takeWhile Char.isDigit) 0

/-- `UINTMAX_MAX` -/
def uintmaxMax : BitVec 64 := BitVec.allOnes 64

/-- A magnitude with its sign, as an unsigned number; a magnitude that is too large gives the
largest one. -/
def clamp (negative : Bool) (v : ℕ) : BitVec 64 :=
  if 2 ^ 64 ≤ v then uintmaxMax
  else if negative then -BitVec.ofNat 64 v
  else BitVec.ofNat 64 v

/-- `strtoumax(s, nullptr, 10)` -/
def strtoumax (s : List Char) : BitVec 64 :=
  match s.dropWhile isSpace with
  | '-' :: s => clamp true (leadingNumber s)
  | '+' :: s => clamp false (leadingNumber s)
  | s => clamp false (leadingNumber s)

/-- A number as a `long`, in decimal digits. -/
def formatLong (val : BitVec 64) : List Char :=
  if val.toInt < 0 then '-' :: Nat.toDigits 10 val.toInt.natAbs
  else Nat.toDigits 10 val.toNat

/-- The digits are the characters from 48 to 57. -/
theorem toNat_of_isDigit {c : Char} (h : c.isDigit = true) : 48 ≤ c.toNat ∧ c.toNat ≤ 57 := by
  rw [Char.isDigit, Bool.and_eq_true, decide_eq_true_eq, decide_eq_true_eq] at h
  exact ⟨UInt32.le_iff_toNat_le.1 h.1, UInt32.le_iff_toNat_le.1 h.2⟩

theorem not_isSpace_of_isDigit {c : Char} (h : c.isDigit = true) : isSpace c = false := by
  have hc := toNat_of_isDigit h
  have hne : c ≠ ' ' := by
    rintro rfl
    exact absurd hc.1 (by decide)
  have hlt : ¬c.toNat ≤ 13 := by omega
  simp [isSpace, hne, hlt]

/-- A text that begins with a digit. -/
theorem strtoumax_of_isDigit {c : Char} {s : List Char} (h : c.isDigit = true) :
    strtoumax (c :: s) = clamp false (leadingNumber (c :: s)) := by
  have hminus : c ≠ '-' := by
    rintro rfl
    exact absurd h (by decide)
  have hplus : c ≠ '+' := by
    rintro rfl
    exact absurd h (by decide)
  rw [strtoumax, List.dropWhile_cons_of_neg (by simp [not_isSpace_of_isDigit h])]
  split
  · simp_all
  · simp_all
  · rfl

theorem clamp_false {v : ℕ} (hv : v < 2 ^ 64) : clamp false v = BitVec.ofNat 64 v := by
  rw [clamp, if_neg (by omega)]
  rfl

theorem clamp_true {v : ℕ} (hv : v < 2 ^ 64) : clamp true v = -BitVec.ofNat 64 v := by
  rw [clamp, if_neg (by omega)]
  rfl

/-- A text without a number: behind the white space and a sign there is a character that is no
digit. -/
def NonNumeric (s : List Char) : Prop :=
  ∃ c t, s.dropWhile isSpace = c :: t ∧ c.isDigit = false ∧
    (c = '-' ∨ c = '+' → ∃ c' t', t = c' :: t' ∧ c'.isDigit = false)

theorem leadingNumber_of_not_isDigit {c : Char} (h : c.isDigit = false) (s : List Char) :
    leadingNumber (c :: s) = 0 := by
  rw [leadingNumber, List.takeWhile_cons_of_neg (by simp [h]), Nat.ofDigitChars_nil]

/-- **A text without a number** is read as zero, whatever is behind it. -/
theorem strtoumax_nonNumeric {s : List Char} (h : NonNumeric s) (rest : List Char) :
    strtoumax (s ++ rest) = 0 := by
  obtain ⟨c, t, hdrop, hc, hsign⟩ := h
  have hrest : (s ++ rest).dropWhile isSpace = c :: (t ++ rest) := by
    rw [List.dropWhile_append, hdrop]
    rfl
  unfold strtoumax
  rw [hrest]
  split
  · rename_i u heq
    obtain ⟨rfl, rfl⟩ := List.cons.inj heq
    obtain ⟨c', t', rfl, hc'⟩ := hsign (.inl rfl)
    rw [List.cons_append, leadingNumber_of_not_isDigit hc']
    rfl
  · rename_i u heq
    obtain ⟨rfl, rfl⟩ := List.cons.inj heq
    obtain ⟨c', t', rfl, hc'⟩ := hsign (.inr rfl)
    rw [List.cons_append, leadingNumber_of_not_isDigit hc']
    rfl
  · rw [leadingNumber_of_not_isDigit hc]
    rfl

/-- The digits of a number begin with a digit. -/
theorem toDigits_eq_cons (n : ℕ) : ∃ c cs, Nat.toDigits 10 n = c :: cs ∧ c.isDigit = true := by
  cases hdigits : Nat.toDigits 10 n with
  | nil => exact absurd hdigits Nat.toDigits_ne_nil
  | cons c cs =>
    refine ⟨c, cs, rfl, Nat.isDigit_of_mem_toDigits (b := 10) (n := n) (by decide) (by decide) ?_⟩
    rw [hdigits]
    exact List.mem_cons_self

variable {rest : List Char} (hrest : ∀ c, rest.head? = some c → c.isDigit = false)

include hrest

/-- The digits of a number, and what is behind them. -/
theorem takeWhile_toDigits (n : ℕ) :
    (Nat.toDigits 10 n ++ rest).takeWhile Char.isDigit = Nat.toDigits 10 n := by
  have hrest' : rest.takeWhile Char.isDigit = [] := by
    cases rest with
    | nil => rfl
    | cons c rest => rw [List.takeWhile_cons_of_neg (by simp [hrest c rfl])]
  rw [List.takeWhile_append_of_pos, hrest', List.append_nil]
  exact fun c hc => Nat.isDigit_of_mem_toDigits (by decide) (by decide) hc

theorem dropWhile_toDigits (n : ℕ) :
    (Nat.toDigits 10 n ++ rest).dropWhile Char.isDigit = rest := by
  have hsplit := List.takeWhile_append_dropWhile (p := Char.isDigit)
    (l := Nat.toDigits 10 n ++ rest)
  rw [takeWhile_toDigits hrest] at hsplit
  exact List.append_cancel_left hsplit

theorem leadingNumber_toDigits (n : ℕ) : leadingNumber (Nat.toDigits 10 n ++ rest) = n := by
  rw [leadingNumber, takeWhile_toDigits hrest, Nat.ofDigitChars_ten_toDigits]

/-- An unsigned number that is not too large. -/
theorem strtoumax_toDigits {n : ℕ} (hn : n < 2 ^ 64) :
    strtoumax (Nat.toDigits 10 n ++ rest) = BitVec.ofNat 64 n := by
  have hnumber := leadingNumber_toDigits hrest n
  obtain ⟨c, cs, hdigits, hc⟩ := toDigits_eq_cons n
  rw [hdigits, List.cons_append] at hnumber
  rw [hdigits, List.cons_append, strtoumax_of_isDigit hc, hnumber, clamp_false hn]

/-- **A number that was written is read back.** -/
theorem strtoumax_formatLong (val : BitVec 64) : strtoumax (formatLong val ++ rest) = val := by
  have hlt := val.isLt
  have hint := BitVec.toInt_eq_toNat_cond val
  unfold formatLong
  split_ifs with hneg
  · -- the magnitude is the distance to the next power of two
    have hlarge : ¬2 * val.toNat < 2 ^ 64 := by
      intro h
      rw [if_pos h] at hint
      omega
    rw [if_neg hlarge] at hint
    have habs : val.toInt.natAbs = 2 ^ 64 - val.toNat := by omega
    have hminus : strtoumax ('-' :: (Nat.toDigits 10 (2 ^ 64 - val.toNat) ++ rest)) =
        clamp true (leadingNumber (Nat.toDigits 10 (2 ^ 64 - val.toNat) ++ rest)) := rfl
    rw [habs, List.cons_append, hminus, leadingNumber_toDigits hrest, clamp_true (by omega)]
    refine BitVec.eq_of_toNat_eq ?_
    rw [BitVec.toNat_neg, BitVec.toNat_ofNat]
    omega
  · rw [strtoumax_toDigits hrest hlt, BitVec.ofNat_toNat, BitVec.setWidth_eq]

end DecimalText
