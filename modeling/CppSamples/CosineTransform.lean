/-
**The fast cosine transform of `chebyshev_pseudospectral`.**

`FastCosineTransform.cpp` computes the cosine sums of `n + 1` values in place: it folds the vector
about its middle, runs a radix-2 complex transform of half the length over pairs of cells (bit
reversal, then rounds of butterflies), unpacks the transform of the real vector, rebuilds the odd
entries by prefix sums and corrects for the last sample.  This module translates `cosfft1` phase
by phase, in the order of the source, and `cft2` on top of it.

The vector is a function of the index; the arithmetic is that of a field with the library
functions `std::sin`, `std::cos` and the constant `M_PI`, so the code runs over any such field and
is reasoned about over the reals.

Main definitions:

* `Chebyshev.FCT.cosfft1` — the transform, in both directions;
* `Chebyshev.FCT.cft2` — the transform of every row, then of every column;
* `Chebyshev.FCT.gridSpan` — the Chebyshev grid.
-/

import CppSamples.CountedLoop
import CppSamples.Numerals
import Mathlib.Analysis.SpecialFunctions.Trigonometric.Basic

set_option relaxedAutoImplicit false
set_option autoImplicit false

namespace Chebyshev

/-- `M_PI`, `std::sin` and `std::cos` of an arithmetic. -/
class Trig (K : Type*) where
  /-- `M_PI` -/
  pi : K
  /-- `std::sin` -/
  sin : K → K
  /-- `std::cos` -/
  cos : K → K

noncomputable instance : Trig ℝ := ⟨Real.pi, Real.sin, Real.cos⟩

namespace FCT

open CountedLoop Function

/-- The direction of the transform. -/
inductive TransformType
  | forward
  | inverse
  deriving DecidableEq, Repr

variable {K : Type*} [Field K] [Trig K]

/-- The grid that spans `[min, max]`, denser at both ends. -/
def gridSpan (nodes : ℕ) (min max : K) : ℕ → K :=
  let a := 1 / 2 * (min - max)
  let b := 1 / 2 * (min + max)
  fun i => a * Trig.cos ((Trig.pi : K) * i / nodes) + b

/-! ### The phases of `cosfft1` -/

/-- The sum of the even entries less the sum of the odd ones. -/
def alternatingSum (n : ℕ) (data : ℕ → K) : K :=
  let sum := forUpToBy 2 0 n 0 fun j sum => sum + data j
  forUpToBy 2 1 n sum fun j sum => sum - data j

/-- The increment `wpr` of the trigonometric recurrence for the angle `theta`. -/
def wpr (theta : K) : K :=
  let wtemp := Trig.sin (1 / 2 * theta)
  (-2) * wtemp * wtemp

/-- One step of the trigonometric recurrence. -/
def rotate (wpr wpi : K) (w : K × K) : K × K :=
  (w.1 * wpr - w.2 * wpi + w.1, w.2 * wpr + w.1 * wpi + w.2)

/-- One pass of the folding loop, on the cells `j` and `n - j`. -/
def foldAt (n : ℕ) (w : K × K) (j : ℕ) (s : K × (ℕ → K)) : K × (ℕ → K) :=
  let (sum, data) := s
  let y1 := 1 / 2 * (data j + data (n - j))
  let y2 := data j - data (n - j)
  let data := update data j (y1 - w.2 * y2)
  let data := update data (n - j) (y1 + w.2 * y2)
  (sum + w.1 * y2, data)

/-- Folding the vector about its middle; the first component is the sum that becomes the entry of
degree one. -/
def foldMiddle (n : ℕ) (data : ℕ → K) : K × (ℕ → K) :=
  let theta := Trig.pi / (n : K)
  (forUpTo 1 (n / 2) ((1, 0), (data 0, data)) fun j s =>
    let w := rotate (wpr theta) (Trig.sin theta) s.1
    (w, foldAt n w j s.2)).2

/-- `std::swap(data[x], data[y])`. -/
def swap (data : ℕ → K) (x y : ℕ) : ℕ → K := update (update data x (data y)) y (data x)

/-- The next bit-reversed counter: `while (m >= 2 && j > m) { j -= m; m >>= 1; } j += m`. -/
def reverseCarry (m j : ℕ) : ℕ := if 2 ≤ m ∧ m < j then reverseCarry (m / 2) (j - m) else j + m
  termination_by m

/-- The pairs of cells in bit-reversed order. -/
def bitReverse (n : ℕ) (data : ℕ → K) : ℕ → K :=
  (forUpToBy 2 1 n (1, data) fun i s =>
    let (j, data) := s
    let data := if i < j then swap (swap data (j - 1) (i - 1)) j i else data
    (reverseCarry (n / 2) j, data)).2

/-- The butterfly on the pairs `(i - 1, i)` and `(j - 1, j)` with `j = i + mmax`. -/
def butterfly (mmax : ℕ) (w : K × K) (i : ℕ) (data : ℕ → K) : ℕ → K :=
  let j := i + mmax
  let tempr := w.1 * data (j - 1) - w.2 * data j
  let tempi := w.1 * data j + w.2 * data (j - 1)
  let data := update data (j - 1) (data (i - 1) - tempr)
  let data := update data j (data i - tempi)
  let data := update data (i - 1) (data (i - 1) + tempr)
  update data i (data i + tempi)

/-- One round of butterflies. -/
def round (n mmax : ℕ) (data : ℕ → K) : ℕ → K :=
  let istep := 2 * mmax
  let theta := 2 * Trig.pi / (mmax : K)
  (forUpToBy 2 1 mmax ((1, 0), data) fun m s =>
    (rotate (wpr theta) (Trig.sin theta) s.1,
      forUpToBy istep m n s.2 fun i data => butterfly mmax s.1 i data)).2

/-- The rounds, `while (n > mmax)`. -/
def rounds (n mmax : ℕ) (hmmax : 0 < mmax) (data : ℕ → K) : ℕ → K :=
  if mmax < n then rounds n (2 * mmax) (by omega) (round n mmax data) else data
  termination_by n - mmax

/-- One pass of the unpacking loop, on the pairs `(i1, i2)` and `(i3, i4)`. -/
def unpackAt (n : ℕ) (w : K × K) (i : ℕ) (data : ℕ → K) : ℕ → K :=
  let i1 := 2 * i
  let i2 := i1 + 1
  let i3 := n - i2 + 1
  let i4 := i3 + 1
  let h1r := 1 / 2 * (data i1 + data i3)
  let h1i := 1 / 2 * (data i2 - data i4)
  let h2r := 1 / 2 * (data i2 + data i4)
  let h2i := 1 / 2 * (data i3 - data i1)
  let data := update data i1 (h1r + w.1 * h2r - w.2 * h2i)
  let data := update data i2 (h1i + w.1 * h2i + w.2 * h2r)
  let data := update data i3 (h1r - w.1 * h2r + w.2 * h2i)
  update data i4 (-h1i + w.1 * h2i + w.2 * h2r)

/-- The transform of the real vector from that of its packing into pairs. -/
def unpack (n : ℕ) (data : ℕ → K) : ℕ → K :=
  let theta := Trig.pi / ((n / 2 : ℕ) : K)
  let wpi := Trig.sin theta
  let data := update data 0 (data 0 + data 1)
  (forUpTo 1 (n / 4) ((wpr theta + 1, wpi), data) fun i s =>
    (rotate (wpr theta) wpi s.1, unpackAt n s.1 i s.2)).2

/-- The odd entries by prefix sums that start with `sum`. -/
def oddPrefixSums (n : ℕ) (sum : K) (data : ℕ → K) : ℕ → K :=
  (forUpToBy 2 3 n (sum, update data 1 sum) fun j s =>
    let sum := s.1 + s.2 j
    (sum, update s.2 j sum)).2

/-- The correction for the last sample `temp`. -/
def addLast (n : ℕ) (temp : K) (data : ℕ → K) : ℕ → K :=
  forBelowBy 2 0 n data fun j data =>
    let data := update data j (data j + temp)
    update data (j + 1) (data (j + 1) - temp)

/-- The end-point corrections and the scaling of the inverse transform. -/
def scaleInverse (n : ℕ) (first last : K) (data : ℕ → K) : ℕ → K :=
  let data := forBelowBy 2 0 n data fun j data =>
    let data := update data j ((data j - (first + last)) * 2 / n)
    update data (j + 1) ((data (j + 1) - (first - last)) * 2 / n)
  let data := update data n ((data n - (first + last)) * 2 / n)
  let data := update data 0 (data 0 * (1 / 2))
  update data n (data n * (1 / 2))

/-- **The one-dimensional cosine transform**, in place on `data[0..n]`. -/
def cosfft1 (n : ℕ) (data : ℕ → K) (transformType : TransformType) : ℕ → K :=
  let temp := data n
  let first := 1 / 2 * data 0
  let last := 1 / 2 * temp
  let data := update data n (alternatingSum n data)
  let (sum, data) := foldMiddle n data
  let data := bitReverse n data
  let data := rounds n 2 (by omega) data
  let data := unpack n data
  let data := oddPrefixSums n sum data
  let data := addLast n temp data
  match transformType with
  | .forward => data
  | .inverse => scaleInverse n first last data

/-- The two-dimensional transform: every row, then every column. -/
def cft2 (m n : ℕ) (data : ℕ × ℕ → K) (transformType : TransformType) : ℕ × ℕ → K :=
  let data := forUpTo 0 m data fun i data =>
    let row := cosfft1 n (fun j => data (i, j)) transformType
    fun x => if x.1 = i ∧ x.2 ≤ n then row x.2 else data x
  forUpTo 0 n data fun i data =>
    let col := cosfft1 m (fun j => data (j, i)) transformType
    fun x => if x.2 = i ∧ x.1 ≤ m then col x.1 else data x

end FCT

end Chebyshev
