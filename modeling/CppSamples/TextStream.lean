/-
**Streams of text.**

An input stream is in a good state or not, and has characters to come.  `getline` takes a line off
it and `>>` a floating-point number.  A stream that is no longer good gives empty lines and leaves
the variables of `>>` as they are, and so does one that has only white space to come.  A number that
begins and does not end well is stored as zero.

A program that reads its input by lines sees the list of its lines and no more.

Nothing here mentions a particular program.

Main definitions:

* `TextStream.Stream` — a stream;
* `TextStream.getline`, `TextStream.extract` — the two ways of reading it;
* `TextStream.Numeral`, `TextStream.scanNumeral`, `TextStream.Numeral.value` — the number at the
  beginning of a text;
* `TextStream.lines`, `TextStream.Stream.pending` — the lines of a text and those to come.

Main results:

* `TextStream.getline_fst`, `TextStream.pending_getline` — **the lines are read one by one**;
* `TextStream.pending_iterate_getline` — what is to come after some lines;
* `TextStream.extract_blank` — white space leaves the variable as it is;
* `TextStream.extract_toDigits` — a number in decimal digits is read.
-/

import CppSamples.DecimalText
import Mathlib.Algebra.Order.Field.Rat
import Mathlib.Algebra.Field.Rat

set_option relaxedAutoImplicit false
set_option autoImplicit false

namespace TextStream

open DecimalText

/-- An input stream: whether it is in a good state, and the characters to come. -/
structure Stream where
  good : Bool
  rest : List Char

/-- A stream on a text. -/
def Stream.on (text : List Char) : Stream := ⟨true, text⟩

/-- A stream that has failed. -/
def Stream.failed : Stream := ⟨false, []⟩

/-! ### Lines -/

/-- `std::getline` into an empty string. -/
def getline (s : Stream) : List Char × Stream :=
  if s.good then
    let line := s.rest.takeWhile (· ≠ '\n')
    match s.rest.dropWhile (· ≠ '\n') with
    | [] => (line, ⟨false, []⟩)
    | _ :: rest => (line, ⟨true, rest⟩)
  else ([], s)

/-- The lines of a text. -/
def lines : List Char → List (List Char)
  | [] => []
  | c :: text =>
    if c = '\n' then [] :: lines text
    else
      match lines text with
      | [] => [[c]]
      | line :: rest => (c :: line) :: rest

/-- The lines to come. -/
def Stream.pending (s : Stream) : List (List Char) := if s.good then lines s.rest else []

@[simp] theorem pending_on (text : List Char) : (Stream.on text).pending = lines text := rfl

theorem lines_cons (c : Char) (text : List Char) :
    lines (c :: text) =
      if c = '\n' then [] :: lines text
      else
        match lines text with
        | [] => [[c]]
        | line :: rest => (c :: line) :: rest := rfl

/-- The first line of a text, and the lines behind it. -/
theorem lines_eq {text : List Char} (h : text ≠ []) :
    lines text = text.takeWhile (· ≠ '\n') :: lines (text.dropWhile (· ≠ '\n')).tail := by
  induction text with
  | nil => exact absurd rfl h
  | cons c text ih =>
    rw [lines_cons]
    split_ifs with hc
    · rw [List.takeWhile_cons_of_neg (by simpa using hc),
        List.dropWhile_cons_of_neg (by simpa using hc), List.tail_cons]
    · rw [List.takeWhile_cons_of_pos (by simpa using hc),
        List.dropWhile_cons_of_pos (by simpa using hc)]
      cases text with
      | nil => rfl
      | cons c' text => rw [ih (List.cons_ne_nil _ _)]

/-- The line that is read from a good stream, and the lines behind it. -/
theorem getline_of_good {s : Stream} (h : s.good = true) :
    (getline s).1 = s.rest.takeWhile (· ≠ '\n') ∧
      (getline s).2.pending = lines (s.rest.dropWhile (· ≠ '\n')).tail := by
  unfold getline
  rw [if_pos h]
  cases s.rest.dropWhile (· ≠ '\n') with
  | nil => exact ⟨rfl, rfl⟩
  | cons c rest => exact ⟨rfl, rfl⟩

theorem getline_of_not_good {s : Stream} (h : s.good = false) : getline s = ([], s) := by
  unfold getline
  rw [if_neg (by simp [h])]

theorem pending_of_not_good {s : Stream} (h : s.good = false) : s.pending = [] := by
  unfold Stream.pending
  rw [if_neg (by simp [h])]

/-- **The lines are read one by one.** -/
theorem getline_fst (s : Stream) : (getline s).1 = s.pending.headD [] := by
  cases hgood : s.good with
  | false => rw [getline_of_not_good hgood, pending_of_not_good hgood]; rfl
  | true =>
    rw [(getline_of_good hgood).1, Stream.pending, if_pos hgood]
    cases s.rest with
    | nil => rfl
    | cons c rest => rw [lines_eq (List.cons_ne_nil c rest)]; rfl

/-- A line that is read is no longer to come. -/
theorem pending_getline (s : Stream) : (getline s).2.pending = s.pending.tail := by
  cases hgood : s.good with
  | false =>
    rw [getline_of_not_good hgood, pending_of_not_good hgood]
    rfl
  | true =>
    rw [(getline_of_good hgood).2, Stream.pending, if_pos hgood]
    cases s.rest with
    | nil => rfl
    | cons c rest => rw [lines_eq (List.cons_ne_nil c rest), List.tail_cons]

/-- What is to come after some lines. -/
theorem pending_iterate_getline (s : Stream) (n : ℕ) :
    ((fun s => (getline s).2)^[n] s).pending = s.pending.drop n := by
  induction n with
  | zero => simp
  | succ n ih => rw [Function.iterate_succ_apply', pending_getline, ih, List.tail_drop]

/-! ### Numbers -/

/-- The parts of a number as they are written. -/
structure Numeral where
  negative : Bool
  whole : List Char
  fraction : List Char
  exponent : Option (Bool × List Char)

/-- A sign. -/
def scanSign : List Char → Bool × List Char
  | '-' :: s => (true, s)
  | '+' :: s => (false, s)
  | s => (false, s)

/-- The digits behind a decimal point. -/
def scanFraction : List Char → List Char × List Char
  | '.' :: s => (s.takeWhile Char.isDigit, s.dropWhile Char.isDigit)
  | s => ([], s)

/-- An exponent, with its sign. -/
def scanExponent : List Char → Option (Bool × List Char) × List Char
  | c :: s =>
    if c = 'e' ∨ c = 'E' then
      let (negative, s) := scanSign s
      (some (negative, s.takeWhile Char.isDigit), s.dropWhile Char.isDigit)
    else (none, c :: s)
  | [] => (none, [])

/-- The characters that can belong to a number.  An exponent needs a digit before it. -/
def scanNumeral (s : List Char) : Numeral × List Char :=
  let (negative, s) := scanSign s
  let whole := s.takeWhile Char.isDigit
  let (fraction, s) := scanFraction (s.dropWhile Char.isDigit)
  if whole ++ fraction = [] then (⟨negative, [], [], none⟩, s)
  else
    let (exponent, s) := scanExponent s
    (⟨negative, whole, fraction, exponent⟩, s)

/-- A magnitude with its sign. -/
def signed (negative : Bool) (v : ℚ) : ℚ := if negative then -v else v

/-- The digits as a number. -/
def digitsValue (ds : List Char) : ℕ := Nat.ofDigitChars 10 ds 0

/-- The value of a number; none where digits are missing. -/
def Numeral.value (n : Numeral) : Option ℚ :=
  if n.whole ++ n.fraction = [] then none
  else
    let mantissa : ℚ := digitsValue (n.whole ++ n.fraction) / 10 ^ n.fraction.length
    match n.exponent with
    | none => some (signed n.negative mantissa)
    | some (_, []) => none
    | some (true, ds) => some (signed n.negative (mantissa / 10 ^ digitsValue ds))
    | some (false, ds) => some (signed n.negative (mantissa * 10 ^ digitsValue ds))

section Extract

variable {T : Type*} [Zero T]

/-- `is >> x` for a floating-point `x`: what is stored in `x`, if anything, and the stream.
`strtod` rounds a number and tells whether it is in range. -/
def extract (strtod : ℚ → T × Bool) (s : Stream) : Option T × Stream :=
  if s.good then
    match s.rest.dropWhile isSpace with
    | [] => (none, ⟨false, []⟩)
    | c :: rest =>
      let (numeral, rest) := scanNumeral (c :: rest)
      match numeral.value with
      | none => (some 0, ⟨false, rest⟩)
      | some v => (some (strtod v).1, ⟨(strtod v).2 && !rest.isEmpty, rest⟩)
  else (none, s)

variable (strtod : ℚ → T × Bool)

/-- White space leaves the variable as it is. -/
theorem extract_blank {s : List Char} (h : s.dropWhile isSpace = []) :
    extract strtod (Stream.on s) = (none, Stream.failed) := by
  have hrest : (Stream.on s).rest = s := rfl
  unfold extract
  rw [if_pos (by rfl), hrest, h]
  rfl

/-- A number without a sign, a fraction and an exponent. -/
theorem scanNumeral_toDigits (n : ℕ) {rest : List Char}
    (hrest : ∀ c, rest.head? = some c → c.isDigit = false ∧ c ≠ '.' ∧ c ≠ 'e' ∧ c ≠ 'E') :
    scanNumeral (Nat.toDigits 10 n ++ rest) = (⟨false, Nat.toDigits 10 n, [], none⟩, rest) := by
  have hdigit : ∀ c, rest.head? = some c → c.isDigit = false := fun c hc => (hrest c hc).1
  have hsign : scanSign (Nat.toDigits 10 n ++ rest) = (false, Nat.toDigits 10 n ++ rest) := by
    obtain ⟨c, cs, hdigits, hc⟩ := toDigits_eq_cons n
    rw [hdigits, List.cons_append]
    unfold scanSign
    split
    · rename_i heq
      rw [(List.cons.inj heq).1] at hc
      exact absurd hc (by decide)
    · rename_i heq
      rw [(List.cons.inj heq).1] at hc
      exact absurd hc (by decide)
    · rfl
  have hfraction : scanFraction rest = ([], rest) := by
    cases rest with
    | nil => rfl
    | cons c rest =>
      have hc := (hrest c rfl).2.1
      unfold scanFraction
      split
      · rename_i heq
        exact absurd (List.cons.inj heq).1 hc
      · rfl
  have hexponent : scanExponent rest = (none, rest) := by
    cases rest with
    | nil => rfl
    | cons c rest =>
      have hc := (hrest c rfl).2.2
      rw [scanExponent, if_neg (by simp [hc])]
  unfold scanNumeral
  simp only [hsign, takeWhile_toDigits hdigit, dropWhile_toDigits hdigit, hfraction, hexponent]
  rw [if_neg (by simp [Nat.toDigits_ne_nil])]

/-- **A number in decimal digits is read**, behind any white space. -/
theorem extract_toDigits (n : ℕ) {space rest : List Char} (hspace : ∀ c ∈ space, isSpace c = true)
    (hrest : ∀ c, rest.head? = some c → c.isDigit = false ∧ c ≠ '.' ∧ c ≠ 'e' ∧ c ≠ 'E') :
    extract strtod (Stream.on (space ++ (Nat.toDigits 10 n ++ rest))) =
      (some (strtod n).1, ⟨(strtod n).2 && !rest.isEmpty, rest⟩) := by
  have hdrop : (space ++ (Nat.toDigits 10 n ++ rest)).dropWhile isSpace =
      Nat.toDigits 10 n ++ rest := by
    obtain ⟨c, cs, hdigits, hc⟩ := toDigits_eq_cons n
    rw [List.dropWhile_append_of_pos hspace, hdigits, List.cons_append,
      List.dropWhile_cons_of_neg (by simp [not_isSpace_of_isDigit hc])]
  have hvalue : (Numeral.mk false (Nat.toDigits 10 n) [] none).value = some (n : ℚ) := by
    unfold Numeral.value
    rw [if_neg (by simp [Nat.toDigits_ne_nil])]
    simp [signed, digitsValue, Nat.ofDigitChars_ten_toDigits]
  have hscan := scanNumeral_toDigits n hrest
  unfold extract
  rw [if_pos (by rfl)]
  have htext : (Stream.on (space ++ (Nat.toDigits 10 n ++ rest))).rest.dropWhile isSpace =
      Nat.toDigits 10 n ++ rest := hdrop
  rw [htext]
  cases hnumber : Nat.toDigits 10 n ++ rest with
  | nil => exact absurd hnumber (by simp [Nat.toDigits_ne_nil])
  | cons c cs =>
    rw [hnumber] at hscan
    simp only [hscan, hvalue]

end Extract

end TextStream
