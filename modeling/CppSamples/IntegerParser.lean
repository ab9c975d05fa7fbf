/-
**Integers in `cxxopts.hpp`: `integer_parser`.**

The function reads the digits of a text into an unsigned number of the width of the type, and stops
with an exception where a step makes the number smaller.  The range of the type and the sign come
afterwards.  A text stands for a number that has no width; the number that the function gives is
that one, as long as the digits alone fit into the width.

Main definitions:

* `Cxxopts.accumulate` — the loop over the digits;
* `Cxxopts.integerParser` — the function, for either of the two scanners;
* `Cxxopts.numeral` — the number that digits stand for;
* `Cxxopts.valueOf` — the number that the bits of a type stand for.

Main results:

* `Cxxopts.integerParser_agree` — **the two scanners lead to the same integers**;
* `Cxxopts.integerParser_iff` — **what is read is what is written**, for digits that fit;
* `Cxxopts.integerParser_modulo` — whatever is read is right modulo the width;
* `Cxxopts.integerParser_overflow` — **the test for an overflow misses some**, for every width.
-/

import CppSamples.OptionScanners
import Mathlib.Data.BitVec
import Mathlib.Data.Int.ModEq
import Mathlib.Tactic.Ring

set_option relaxedAutoImplicit false
set_option autoImplicit false

namespace Cxxopts

/-! ### The function -/

/-- The digit that a character stands for. -/
def digitOf (base : ℕ) (ch : Char) : Option ℕ :=
  if '0' ≤ ch ∧ ch ≤ '9' then some (ch.toNat - '0'.toNat)
  else if base = 16 ∧ 'a' ≤ ch ∧ ch ≤ 'f' then some (ch.toNat - 'a'.toNat + 10)
  else if base = 16 ∧ 'A' ≤ ch ∧ ch ≤ 'F' then some (ch.toNat - 'A'.toNat + 10)
  else none

variable {w : ℕ}

/-- The loop over the digits; a number that gets smaller has overflowed. -/
def accumulate (base : ℕ) (text : Text) : BitVec w → Text → Except Error (BitVec w)
  | result, [] => .ok result
  | result, ch :: rest =>
    match digitOf base ch with
    | none => .error (.argument_incorrect_type text)
    | some digit =>
      let next := result * BitVec.ofNat w base + BitVec.ofNat w digit
      if next < result then .error (.argument_incorrect_type text)
      else accumulate base text next rest

/-- `check_signed_range` -/
def check_signed_range (is_signed negative : Bool) (u : BitVec w) (text : Text) :
    Except Error Unit :=
  if is_signed then
    if negative then
      if BitVec.intMin w < u then .error (.argument_incorrect_type text) else .ok ()
    else
      if BitVec.intMax w < u then .error (.argument_incorrect_type text) else .ok ()
  else .ok ()

/-- `checked_negate` -/
def checked_negate (is_signed : Bool) (t : BitVec w) (text : Text) : Except Error (BitVec w) :=
  if is_signed then .ok (-(t - 1) - 1) else .error (.argument_incorrect_type text)

/-- `integer_parser`, for a type with `w` bits. -/
def integerParser (SplitInteger : Text → Except Error IntegerDesc) (w : ℕ) (is_signed : Bool)
    (text : Text) : Except Error (BitVec w) := do
  let int_desc ← SplitInteger text
  let negative := decide (0 < int_desc.negative.length)
  let base := if 0 < int_desc.base.length then 16 else 10
  let result ← accumulate base text 0 int_desc.value
  check_signed_range is_signed negative result text
  if negative then checked_negate is_signed result text else .ok result

/-! ### Numbers without a width -/

/-- The number that digits stand for, behind those that have been read. -/
def numeral (base : ℕ) : ℕ → Text → Option ℕ
  | n, [] => some n
  | n, ch :: rest => (digitOf base ch).bind fun digit => numeral base (n * base + digit) rest

/-- The number that the bits of a type stand for. -/
def valueOf (is_signed : Bool) (r : BitVec w) : ℤ := if is_signed then r.toInt else r.toNat

theorem numeral_le {base n m : ℕ} {s : Text} (hbase : 0 < base) (h : numeral base n s = some m) :
    n ≤ m := by
  induction s generalizing n with
  | nil => exact (Option.some.inj h).le
  | cons ch rest ih =>
      obtain ⟨digit, -, hrest⟩ := Option.bind_eq_some_iff.1 h
      exact (Nat.le_mul_of_pos_right n hbase).trans ((Nat.le_add_right _ _).trans (ih hrest))

/-- One step of the loop, on the bits of a number. -/
theorem next_ofNat (base n digit : ℕ) :
    BitVec.ofNat w n * BitVec.ofNat w base + BitVec.ofNat w digit =
      BitVec.ofNat w (n * base + digit) := by
  rw [BitVec.ofNat_add, BitVec.ofNat_mul]

/-- **The loop stays right modulo the width.** -/
theorem accumulate_ok {base n : ℕ} {text s : Text} {r : BitVec w}
    (h : accumulate base text (BitVec.ofNat w n) s = .ok r) :
    ∃ m, numeral base n s = some m ∧ r = BitVec.ofNat w m := by
  induction s generalizing n with
  | nil => exact ⟨n, rfl, (Except.ok.inj h).symm⟩
  | cons ch rest ih =>
      rw [accumulate] at h
      cases hdigit : digitOf base ch with
      | none =>
          rw [hdigit] at h
          cases h
      | some digit =>
          simp only [hdigit, next_ofNat] at h
          split_ifs at h
          obtain ⟨m, hm, hr⟩ := ih h
          exact ⟨m, by rw [numeral, hdigit]; exact hm, hr⟩

/-- Digits that fit are read to their end. -/
theorem accumulate_of_lt {base n m : ℕ} {text s : Text} (hbase : 0 < base)
    (hm : numeral base n s = some m) (hfit : m < 2 ^ w) :
    accumulate base text (BitVec.ofNat w n) s = .ok (BitVec.ofNat w m) := by
  induction s generalizing n with
  | nil =>
      rw [Option.some.inj hm]
      rfl
  | cons ch rest ih =>
      obtain ⟨digit, hdigit, hrest⟩ := Option.bind_eq_some_iff.1 hm
      have hnext : n * base + digit ≤ m := numeral_le hbase hrest
      have hn : n ≤ n * base + digit :=
        (Nat.le_mul_of_pos_right n hbase).trans (Nat.le_add_right _ _)
      -- the number does not get smaller
      have hlt : ¬BitVec.ofNat w (n * base + digit) < BitVec.ofNat w n := by
        rw [BitVec.lt_def, BitVec.toNat_ofNat, BitVec.toNat_ofNat,
          Nat.mod_eq_of_lt (by omega : n * base + digit < 2 ^ w), Nat.mod_eq_of_lt (by omega)]
        omega
      rw [accumulate, hdigit]
      simp only [next_ofNat, if_neg hlt]
      exact ih hrest

/-- The only exception of the loop. -/
theorem accumulate_error {base : ℕ} {text s : Text} {result : BitVec w} {e : Error}
    (h : accumulate base text result s = .error e) : e = .argument_incorrect_type text := by
  induction s generalizing result with
  | nil => cases h
  | cons ch rest ih =>
      rw [accumulate] at h
      cases hdigit : digitOf base ch with
      | none =>
          rw [hdigit] at h
          exact (Except.error.inj h).symm
      | some digit =>
          simp only [hdigit] at h
          split_ifs at h
          · exact (Except.error.inj h).symm
          · exact ih h

/-! ### What is read -/

/-- The base of a number. -/
def IntegerDesc.radix (d : IntegerDesc) : ℕ := if 0 < d.base.length then 16 else 10

/-- The number that a text stands for, if the digits are `m`. -/
def IntegerDesc.signed (d : IntegerDesc) (m : ℕ) : ℤ := if 0 < d.negative.length then -m else m

theorem IntegerDesc.radix_pos (d : IntegerDesc) : 0 < d.radix := by
  rw [IntegerDesc.radix]
  split_ifs <;> decide

variable {SplitInteger : Text → Except Error IntegerDesc} {is_signed : Bool} {text : Text}
  {d : IntegerDesc} {m : ℕ}

theorem integerParser_eq (hsplit : SplitInteger text = .ok d) :
    integerParser SplitInteger w is_signed text =
      (accumulate d.radix text (0 : BitVec w) d.value).bind fun result =>
        (check_signed_range is_signed (decide (0 < d.negative.length)) result text).bind fun _ =>
          if decide (0 < d.negative.length) then checked_negate is_signed result text
          else .ok result := by
  rw [integerParser, hsplit]
  rfl

/-- What is done with the digits. -/
theorem integerParser_of_accumulate {u : BitVec w} (hsplit : SplitInteger text = .ok d)
    (hu : accumulate d.radix text (0 : BitVec w) d.value = .ok u) :
    integerParser SplitInteger w is_signed text =
      if 0 < d.negative.length then
        if is_signed ∧ ¬BitVec.intMin w < u then .ok (-u)
        else .error (.argument_incorrect_type text)
      else if is_signed ∧ BitVec.intMax w < u then .error (.argument_incorrect_type text)
      else .ok u := by
  have hnegate : -(u - 1) - 1 = -u := by ring
  rw [integerParser_eq hsplit, hu, Except.bind, check_signed_range, checked_negate, hnegate]
  cases is_signed with
  | false => by_cases hneg : 0 < d.negative.length <;> simp [hneg, Except.bind]
  | true =>
      by_cases hneg : 0 < d.negative.length
      · by_cases hrange : BitVec.intMin w < u
        · simp [hneg, hrange, Except.bind]
        · simp [hneg, hrange, Except.bind]
      · by_cases hrange : BitVec.intMax w < u
        · simp [hneg, hrange, Except.bind]
        · simp [hneg, hrange, Except.bind]

theorem integerParser_of_error {e : Error} (hsplit : SplitInteger text = .ok d)
    (hu : accumulate d.radix text (0 : BitVec w) d.value = .error e) :
    integerParser SplitInteger w is_signed text = .error (.argument_incorrect_type text) := by
  rw [integerParser_eq hsplit, hu, Except.bind, accumulate_error hu]

theorem two_pow_eq (hw : 0 < w) : 2 ^ w = 2 * 2 ^ (w - 1) := by
  rw [← pow_succ', Nat.sub_add_cancel hw]

/-- The bits of a type stand for different numbers. -/
theorem valueOf_inj {r r' : BitVec w} (h : valueOf is_signed r = valueOf is_signed r') :
    r = r' := by
  cases is_signed with
  | false => exact BitVec.eq_of_toNat_eq (Int.ofNat.inj h)
  | true => exact BitVec.eq_of_toInt_eq h

/-- The bits of a number that is not above the range. -/
theorem toInt_of_le {u : BitVec w} (hw : 0 < w) (h : ¬BitVec.intMax w < u) :
    u.toInt = u.toNat := by
  have hpos : 0 < 2 ^ (w - 1) := Nat.two_pow_pos _
  rw [BitVec.lt_def, BitVec.toNat_intMax] at h
  rw [BitVec.toInt_eq_toNat_cond, two_pow_eq hw, if_pos (by omega)]

/-- The bits of a number with a sign. -/
theorem toInt_neg_of_le {u : BitVec w} (hw : 0 < w) (h : ¬BitVec.intMin w < u) :
    (-u).toInt = -(u.toNat : ℤ) := by
  have hpos : 0 < 2 ^ (w - 1) := Nat.two_pow_pos _
  rw [BitVec.lt_def, BitVec.toNat_intMin_of_pos hw] at h
  rw [BitVec.toInt_eq_toNat_cond, BitVec.toNat_neg, two_pow_eq hw]
  cases hu : u.toNat with
  | zero =>
      rw [Nat.sub_zero, Nat.mod_self]
      simp
  | succ n =>
      rw [hu] at h
      rw [Nat.mod_eq_of_lt (by omega), if_neg (by omega)]
      generalize 2 ^ (w - 1) = half at *
      omega

/-- **What is read is what is written.** -/
theorem integerParser_iff (hw : 0 < w) (hsplit : SplitInteger text = .ok d)
    (hm : numeral d.radix 0 d.value = some m) (hfit : m < 2 ^ w) (r : BitVec w) :
    integerParser SplitInteger w is_signed text = .ok r ↔
      (0 < d.negative.length → is_signed = true) ∧ valueOf is_signed r = d.signed m := by
  have hread : accumulate d.radix text (0 : BitVec w) d.value = .ok (BitVec.ofNat w m) :=
    accumulate_of_lt d.radix_pos hm hfit
  have hnat : (BitVec.ofNat w m).toNat = m := by rw [BitVec.toNat_ofNat, Nat.mod_eq_of_lt hfit]
  rw [integerParser_of_accumulate hsplit hread, IntegerDesc.signed]
  by_cases hneg : 0 < d.negative.length
  · rw [if_pos hneg, if_pos hneg]
    split_ifs with hrange
    · -- the sign is allowed, and the number is in the range
      have hvalue : valueOf is_signed (-BitVec.ofNat w m) = -(m : ℤ) := by
        rw [valueOf, if_pos hrange.1, toInt_neg_of_le hw hrange.2, hnat]
      constructor
      · intro h
        rw [← Except.ok.inj h]
        exact ⟨fun _ => hrange.1, hvalue⟩
      · rintro ⟨-, h⟩
        rw [valueOf_inj (hvalue.trans h.symm)]
    · constructor
      · intro h
        cases h
      · rintro ⟨hsigned, h⟩
        exfalso
        apply hrange
        refine ⟨hsigned hneg, ?_⟩
        rw [valueOf, if_pos (hsigned hneg)] at h
        have hlow : (m : ℤ) ≤ ((2 ^ (w - 1) : ℕ) : ℤ) := by
          have hr := BitVec.le_toInt r
          rw [h] at hr
          push_cast
          omega
        rw [BitVec.lt_def, BitVec.toNat_intMin_of_pos hw, hnat]
        omega
  · rw [if_neg hneg, if_neg hneg]
    split_ifs with hrange
    · constructor
      · intro h
        cases h
      · rintro ⟨-, h⟩
        exfalso
        rw [valueOf, if_pos hrange.1] at h
        have hhigh : (m : ℤ) < ((2 ^ (w - 1) : ℕ) : ℤ) := by
          have hr := @BitVec.toInt_lt w r
          rw [h] at hr
          push_cast
          exact hr
        have hover := hrange.2
        rw [BitVec.lt_def, BitVec.toNat_intMax, hnat] at hover
        omega
    · have hvalue : valueOf is_signed (BitVec.ofNat w m) = m := by
        rw [valueOf]
        split_ifs with hsigned
        · rw [toInt_of_le hw fun hover => hrange ⟨hsigned, hover⟩, hnat]
        · rw [hnat]
      constructor
      · intro h
        rw [← Except.ok.inj h]
        exact ⟨fun h => absurd h hneg, hvalue⟩
      · rintro ⟨-, h⟩
        rw [valueOf_inj (hvalue.trans h.symm)]

/-- The least number of eight bits. -/
theorem integerParser_iff_least :
    integerParser ByRegex.SplitInteger 8 true ['-', '1', '2', '8'] = .ok 128 :=
  (@integerParser_iff 8 ByRegex.SplitInteger true _ ⟨['-'], [], ['1', '2', '8']⟩ 128 (by decide) rfl
    rfl (by decide) 128).2 ⟨fun _ => rfl, rfl⟩

/-- The bits of a number stand for it modulo the width. -/
theorem valueOf_ofInt (z : ℤ) : valueOf is_signed (BitVec.ofInt w z) ≡ z [ZMOD 2 ^ w] := by
  rw [valueOf]
  split_ifs
  · rw [BitVec.toInt_ofInt, Int.ModEq]
    exact_mod_cast Int.bmod_emod
  · have hpos : ((2 ^ w : ℕ) : ℤ) ≠ 0 := Int.natCast_ne_zero.2 (Nat.two_pow_pos w).ne'
    rw [BitVec.toNat_ofInt, Int.toNat_of_nonneg (Int.emod_nonneg _ hpos)]
    push_cast
    exact Int.mod_modEq z _

/-- **Whatever is read is right modulo the width.** -/
theorem integerParser_modulo {r : BitVec w} (hsplit : SplitInteger text = .ok d)
    (h : integerParser SplitInteger w is_signed text = .ok r) :
    ∃ m, numeral d.radix 0 d.value = some m ∧
      valueOf is_signed r ≡ d.signed m [ZMOD 2 ^ w] := by
  cases hu : accumulate d.radix text (0 : BitVec w) d.value with
  | error e =>
      rw [integerParser_of_error hsplit hu] at h
      cases h
  | ok u =>
      obtain ⟨m, hm, rfl⟩ := accumulate_ok hu
      refine ⟨m, hm, ?_⟩
      have hr : r = BitVec.ofInt w (d.signed m) := by
        rw [integerParser_of_accumulate hsplit hu] at h
        rw [IntegerDesc.signed]
        split_ifs at h ⊢ with hneg
        · rw [← Except.ok.inj h, BitVec.ofInt_neg, BitVec.ofInt_natCast]
        · rw [← Except.ok.inj h, BitVec.ofInt_natCast]
      rw [hr]
      exact valueOf_ofInt _

/-! ### The two scanners -/

theorem isalnum_of_digitOf {base digit : ℕ} {ch : Char} (h : digitOf base ch = some digit) :
    isalnum ch = true := by
  rw [digitOf] at h
  have hclass : (ch.isUpper = true ∨ ch.isLower = true) ∨ ch.isDigit = true → isalnum ch = true :=
    fun hch => Bool.or_eq_true_iff.2 (hch.imp_left Bool.or_eq_true_iff.2)
  apply hclass
  split_ifs at h with hdigit hlower hupper
  · right
    exact Bool.and_eq_true_iff.2 ⟨decide_eq_true hdigit.1, decide_eq_true hdigit.2⟩
  · left
    right
    have hlast : ch ≤ 'z' := Char.le_trans hlower.2.2 (show 'f' ≤ 'z' by decide)
    exact Bool.and_eq_true_iff.2 ⟨decide_eq_true hlower.2.1, decide_eq_true hlast⟩
  · left
    left
    have hlast : ch ≤ 'Z' := Char.le_trans hupper.2.2 (show 'F' ≤ 'Z' by decide)
    exact decide_eq_true ⟨hupper.2.1, hlast⟩

/-- Digits that are no digits are not read. -/
theorem integerParser_of_not_digits (hsplit : SplitInteger text = .ok d)
    (hnone : numeral d.radix 0 d.value = none) :
    integerParser SplitInteger w is_signed text = .error (.argument_incorrect_type text) := by
  cases hu : accumulate d.radix text (0 : BitVec w) d.value with
  | error e => exact integerParser_of_error hsplit hu
  | ok u =>
      obtain ⟨m, hm, -⟩ := accumulate_ok hu
      rw [hnone] at hm
      cases hm

theorem numeral_none {base n : ℕ} {s : Text} (h : s.all isalnum = false) :
    numeral base n s = none := by
  induction s generalizing n with
  | nil => cases h
  | cons ch rest ih =>
      rw [numeral]
      cases hdigit : digitOf base ch with
      | none => rfl
      | some digit =>
          rw [List.all_cons, isalnum_of_digitOf hdigit, Bool.true_and] at h
          exact ih h

/-- **The two scanners lead to the same integers.** -/
theorem integerParser_agree {text : Text} (h : '\x00' ∉ text) (w : ℕ) (is_signed : Bool) :
    integerParser ByRegex.SplitInteger w is_signed text =
      integerParser ByHand.SplitInteger w is_signed text := by
  have herror {split : Text → Except Error IntegerDesc}
      (hsplit : split text = .error (.argument_incorrect_type text)) :
      integerParser split w is_signed text = .error (.argument_incorrect_type text) := by
    rw [integerParser, hsplit]
    rfl
  have hregex := splitInteger_regex text
  have hhand := splitInteger_hand h
  by_cases hdigits : (signOf text).2 ≠ [] ∧ (signOf text).2.all isalnum
  · rw [if_pos hdigits] at hregex
    by_cases hstart : ['0', 'x'].isPrefixOf (signOf text).2 = true
    · rw [if_pos hstart] at hhand
      by_cases hrest : (signOf text).2.drop 2 ≠ []
      · rw [if_pos ⟨hstart, hrest⟩] at hregex
        rw [if_pos hrest] at hhand
        rw [integerParser, integerParser, hregex, hhand]
      · -- nothing behind the base: a digit `x` for the one, no digit for the other
        rw [if_neg fun h => hrest h.2] at hregex
        rw [if_neg hrest] at hhand
        have htwo : (signOf text).2 = ['0', 'x'] := by
          obtain ⟨t, ht⟩ := List.isPrefixOf_iff_prefix.1 hstart
          rw [← ht] at hrest ⊢
          have hnil : t = [] := not_not.1 hrest
          rw [hnil]
          rfl
        rw [herror hhand]
        refine integerParser_of_not_digits hregex ?_
        rw [htwo]
        rfl
    · rw [if_neg fun h => hstart h.1] at hregex
      rw [if_neg hstart, if_pos hdigits.1] at hhand
      rw [integerParser, integerParser, hregex, hhand]
  · rw [if_neg hdigits] at hregex
    rw [herror hregex]
    have hbad : (signOf text).2 ≠ [] → (signOf text).2.all isalnum = false := fun hnil =>
      Bool.eq_false_iff.2 fun hall => hdigits ⟨hnil, hall⟩
    by_cases hstart : ['0', 'x'].isPrefixOf (signOf text).2 = true
    · rw [if_pos hstart] at hhand
      by_cases hrest : (signOf text).2.drop 2 ≠ []
      · rw [if_pos hrest] at hhand
        refine (integerParser_of_not_digits hhand (numeral_none ?_)).symm
        obtain ⟨t, ht⟩ := List.isPrefixOf_iff_prefix.1 hstart
        rw [← ht] at hbad ⊢
        exact hbad (List.cons_ne_nil _ _)
      · rw [if_neg hrest] at hhand
        rw [herror hhand]
    · rw [if_neg hstart] at hhand
      by_cases hnil : (signOf text).2 ≠ []
      · rw [if_pos hnil] at hhand
        exact (integerParser_of_not_digits hhand (numeral_none (hbad hnil))).symm
      · rw [if_neg hnil] at hhand
        rw [herror hhand]

/-- A base without digits. -/
theorem integerParser_agree_base :
    integerParser ByRegex.SplitInteger 32 true ['-', '0', 'x'] =
      integerParser ByHand.SplitInteger 32 true ['-', '0', 'x'] :=
  integerParser_agree (by decide) 32 true

/-! ### Overflows that are not seen -/

theorem accumulate_append {base : ℕ} (result : BitVec w) (s t : Text) :
    accumulate base text result (s ++ t) =
      (accumulate base text result s).bind fun u => accumulate base text u t := by
  induction s generalizing result with
  | nil => rfl
  | cons ch rest ih =>
      rw [List.cons_append, accumulate, accumulate]
      cases digitOf base ch with
      | none => rfl
      | some digit =>
          simp only
          split_ifs
          · rfl
          · exact ih _

theorem numeral_zeros (base n k : ℕ) :
    numeral base n (List.replicate k '0') = some (n * base ^ k) := by
  induction k generalizing n with
  | zero => rw [pow_zero, mul_one]; rfl
  | succ k ih =>
      rw [List.replicate_succ, numeral]
      have hzero : digitOf base '0' = some 0 := rfl
      rw [hzero, Option.bind_some, ih, add_zero, mul_assoc, ← pow_succ']

/-- A number that is too large for `4 * (k + 2)` bits. -/
def tooLarge (k : ℕ) : Text := ['0', 'x', '1', '2'] ++ List.replicate (k + 1) '0'

theorem split_tooLarge (k : ℕ) :
    ByRegex.SplitInteger (tooLarge k) =
      .ok ⟨[], ['0', 'x'], ['1', '2'] ++ List.replicate (k + 1) '0'⟩ := by
  have hsign : signOf (tooLarge k) = ([], tooLarge k) := rfl
  have hdigits : (tooLarge k).all isalnum = true := by
    rw [tooLarge, List.all_append, List.all_replicate, if_neg (Nat.succ_ne_zero k)]
    decide
  have hstart : ['0', 'x'].isPrefixOf (tooLarge k) = true := rfl
  rw [splitInteger_regex, hsign, if_pos ⟨List.cons_ne_nil _ _, hdigits⟩,
    if_pos ⟨hstart, List.cons_ne_nil _ _⟩]
  rfl

theorem numeral_tooLarge (k : ℕ) :
    numeral 16 0 (['1', '2'] ++ List.replicate k '0') = some (18 * 16 ^ k) :=
  numeral_zeros 16 18 k

/-- The last step starts over, at a number that is not smaller. -/
theorem accumulate_tooLarge (k : ℕ) :
    accumulate 16 text (0 : BitVec (4 * (k + 2))) (['1', '2'] ++ List.replicate (k + 1) '0') =
      .ok (BitVec.ofNat _ (2 * 16 ^ (k + 1))) := by
  have hwidth : 2 ^ (4 * (k + 2)) = 16 * (16 * 16 ^ k) := by
    have hsixteen : 2 ^ 4 = 16 := rfl
    rw [pow_mul, hsixteen, pow_succ', pow_succ']
  have hpos : 0 < 16 ^ k := Nat.pow_pos (by decide)
  have hbefore : accumulate 16 text (0 : BitVec (4 * (k + 2)))
      (['1', '2'] ++ List.replicate k '0') = .ok (BitVec.ofNat _ (18 * 16 ^ k)) := by
    refine accumulate_of_lt (by decide) (numeral_tooLarge k) ?_
    rw [hwidth]
    omega
  have hlast : BitVec.ofNat (4 * (k + 2)) (18 * 16 ^ k * 16 + 0) =
      BitVec.ofNat _ (2 * 16 ^ (k + 1)) := by
    apply BitVec.eq_of_toNat_eq
    rw [BitVec.toNat_ofNat, BitVec.toNat_ofNat, hwidth, pow_succ']
    have hover : 18 * 16 ^ k * 16 + 0 = 2 * (16 * 16 ^ k) + 16 * (16 * 16 ^ k) := by ring
    rw [hover, Nat.add_mod_right]
  have hstep : ¬BitVec.ofNat (4 * (k + 2)) (2 * 16 ^ (k + 1)) < BitVec.ofNat _ (18 * 16 ^ k) := by
    rw [BitVec.lt_def, BitVec.toNat_ofNat, BitVec.toNat_ofNat, hwidth, pow_succ',
      Nat.mod_eq_of_lt (by omega), Nat.mod_eq_of_lt (by omega)]
    omega
  have hzero : digitOf 16 '0' = some 0 := rfl
  rw [List.replicate_succ', ← List.append_assoc, accumulate_append, hbefore, Except.bind,
    accumulate, hzero]
  simp only [next_ofNat, hlast, if_neg hstep]
  rfl

/-- **The test for an overflow misses some**, for every width. -/
theorem integerParser_overflow (k : ℕ) (is_signed : Bool) :
    numeral 16 0 ((tooLarge k).drop 2) = some (18 * 16 ^ (k + 1)) ∧
      2 ^ (4 * (k + 2)) ≤ 18 * 16 ^ (k + 1) ∧
      ∃ r, integerParser ByRegex.SplitInteger (4 * (k + 2)) is_signed (tooLarge k) = .ok r ∧
        valueOf is_signed r = 2 * 16 ^ (k + 1) := by
  have hpos : 0 < 16 ^ k := Nat.pow_pos (by decide)
  have hhalf : 2 ^ (4 * (k + 2) - 1) = 8 * (16 * 16 ^ k) := by
    have hsixteen : 2 ^ 4 = 16 := rfl
    have hexponent : 4 * (k + 2) - 1 = 4 * (k + 1) + 3 := by omega
    rw [hexponent, pow_add, pow_mul, hsixteen, pow_succ', mul_comm]
    rfl
  have hwidth : 2 ^ (4 * (k + 2)) = 2 * (8 * (16 * 16 ^ k)) := by
    rw [two_pow_eq (by omega), hhalf]
  have hnat : (BitVec.ofNat (4 * (k + 2)) (2 * 16 ^ (k + 1))).toNat = 2 * 16 ^ (k + 1) := by
    rw [BitVec.toNat_ofNat, hwidth, pow_succ', Nat.mod_eq_of_lt (by omega)]
  have hrange : ¬BitVec.intMax (4 * (k + 2)) < BitVec.ofNat _ (2 * 16 ^ (k + 1)) := by
    rw [BitVec.lt_def, hnat, BitVec.toNat_intMax, hhalf, pow_succ']
    omega
  refine ⟨numeral_tooLarge (k + 1), ?_, BitVec.ofNat _ (2 * 16 ^ (k + 1)), ?_, ?_⟩
  · rw [hwidth, pow_succ']
    omega
  · rw [integerParser_of_accumulate (split_tooLarge k) (accumulate_tooLarge k)]
    exact (if_neg (Nat.lt_irrefl 0)).trans (if_neg fun h => hrange h.2)
  · rw [valueOf]
    split_ifs
    · rw [toInt_of_le (by omega) hrange, hnat]
      push_cast
      rfl
    · rw [hnat]
      push_cast
      rfl

end Cxxopts
