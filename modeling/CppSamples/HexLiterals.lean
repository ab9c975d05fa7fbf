/-
**Text with hexadecimal numbers.**

The value of a hexadecimal digit, and the reading of a text that lists bytes the way a `C` array
does: literals `0xHH` with commas between them, white space anywhere around them, and perhaps a
comma after the last one.

Nothing here mentions a particular program.

Main definitions:

* `HexLiterals.hexValue` — the value of a digit;
* `HexLiterals.readLiterals` — the bytes of a text.

Main results:

* `HexLiterals.readLiterals_cons` — **a literal and the rest of the text** are read one after the
  other.
-/

import Mathlib.Data.List.DropRight
import Mathlib.Data.Nat.Notation
import Mathlib.Tactic.Common

set_option relaxedAutoImplicit false
set_option autoImplicit false

namespace HexLiterals

/-! ### Digits -/

/-- The value of a hexadecimal digit. -/
def hexValue (c : Char) : Option ℕ :=
  if '0' ≤ c ∧ c ≤ '9' then some (c.toNat - '0'.toNat)
  else if 'a' ≤ c ∧ c ≤ 'f' then some (c.toNat - 'a'.toNat + 10)
  else if 'A' ≤ c ∧ c ≤ 'F' then some (c.toNat - 'A'.toNat + 10)
  else none

theorem ne_of_hexValue {c d : Char} {x : ℕ} (hc : hexValue c = some x) (hd : hexValue d = none) :
    c ≠ d := by
  rintro rfl
  rw [hd] at hc
  cases hc

theorem isWhitespace_of_hexValue {c : Char} {x : ℕ} (hc : hexValue c = some x) :
    c.isWhitespace = false := by
  have hspace : c ≠ ' ' := ne_of_hexValue hc rfl
  have htab : c ≠ '\t' := ne_of_hexValue hc rfl
  have hreturn : c ≠ '\r' := ne_of_hexValue hc rfl
  have hline : c ≠ '\n' := ne_of_hexValue hc rfl
  simp [Char.isWhitespace, hspace, htab, hreturn, hline]

/-! ### Lists of bytes -/

/-- A text without the white space around it. -/
def strip (text : List Char) : List Char :=
  (text.dropWhile Char.isWhitespace).rdropWhile Char.isWhitespace

/-- The byte of a literal. -/
def readLiteral : List Char → Option (BitVec 8)
  | ['0', 'x', h, l] => do return BitVec.ofNat 8 (16 * (← hexValue h) + (← hexValue l))
  | _ => none

/-- The bytes of the pieces between the commas; the last piece may be blank. -/
def readPieces : List (List Char) → Option (List (BitVec 8))
  | [] => some []
  | [piece] => if strip piece = [] then some [] else (readLiteral (strip piece)).map fun b => [b]
  | piece :: pieces => do return (← readLiteral (strip piece)) :: (← readPieces pieces)

/-- The bytes of a text. -/
def readLiterals (text : List Char) : Option (List (BitVec 8)) := readPieces (text.splitOn ',')

theorem readPieces_cons {piece : List Char} {pieces : List (List Char)} (h : pieces ≠ []) :
    readPieces (piece :: pieces) =
      (readLiteral (strip piece)).bind fun b => (readPieces pieces).map (b :: ·) := by
  cases pieces with
  | nil => exact absurd rfl h
  | cons piece' pieces =>
      simp only [Option.map_eq_bind]
      rfl

variable {w : List Char} (hw : ∀ c ∈ w, c.isWhitespace = true)

include hw

theorem strip_blank : strip w = [] := by
  rw [strip, List.dropWhile_eq_nil_iff.2 hw, List.rdropWhile_nil]

theorem comma_not_mem : ',' ∉ w := fun h => absurd (hw ',' h) (by decide)

/-- A text without literals. -/
theorem readLiterals_blank : readLiterals w = some [] := by
  rw [readLiterals, List.splitOn_eq_singleton (comma_not_mem hw), readPieces, if_pos (strip_blank hw)]

variable {h l : Char} {hi lo : ℕ} (hh : hexValue h = some hi) (hl : hexValue l = some lo)

include hl

theorem strip_literal : strip (w ++ ['0', 'x', h, l]) = ['0', 'x', h, l] := by
  have hlast : ¬l.isWhitespace = true := Bool.eq_false_iff.1 (isWhitespace_of_hexValue hl)
  have hsplit : ['0', 'x', h, l] = ['0', 'x', h] ++ [l] := rfl
  rw [strip, List.dropWhile_append_of_pos hw, List.dropWhile_cons_of_neg (by decide), hsplit,
    List.rdropWhile_concat_neg _ _ _ hlast]

include hh

/-- **A literal and the rest of the text.** -/
theorem readLiterals_cons (rest : List Char) :
    readLiterals (w ++ '0' :: 'x' :: h :: l :: ',' :: rest) =
      (readLiterals rest).map (BitVec.ofNat 8 (16 * hi + lo) :: ·) := by
  have hcomma : ',' ∉ w ++ ['0', 'x', h, l] := by
    have hh' : ',' ≠ h := (ne_of_hexValue hh rfl).symm
    have hl' : ',' ≠ l := (ne_of_hexValue hl rfl).symm
    simp [comma_not_mem hw, hh', hl']
  have hsplit : w ++ '0' :: 'x' :: h :: l :: ',' :: rest =
      (w ++ ['0', 'x', h, l]) ++ ',' :: rest := by simp
  rw [readLiterals, hsplit, List.splitOn_append_cons_self_of_not_mem hcomma,
    readPieces_cons (List.splitOn_ne_nil _ _), strip_literal hw hl]
  simp only [readLiteral, hh, hl]
  rfl

end HexLiterals
