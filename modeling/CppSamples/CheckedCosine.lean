/-
**`cosfft1` and `cft2` with every access checked.**

The cells that a pass works on are computed from its counter by unsigned sums and differences, and
the counter of the bit reversal from its own last value.  In a vector of `n + 1` cells they are
indices when `n` is a power of two: then the blocks of a round of butterflies end with the vector.

Main definitions:

* `Chebyshev.FCT.Checked.cosfft1`, `Chebyshev.FCT.Checked.cft2` — the transforms;
* `Chebyshev.FCT.Checked.gridSpan` — the grid.

Main results:

* `Chebyshev.FCT.Checked.cosfft1_eq`, `Chebyshev.FCT.Checked.cft2_eq` — **no check fails** in them.
-/

import CppSamples.CheckedArray
import CppSamples.CosineBitReversal

set_option relaxedAutoImplicit false
set_option autoImplicit false

namespace Chebyshev.FCT.Checked

open CheckedArray BitReversal CountedLoop Function

variable {K : Type}

/-! ### The phases of `cosfft1` -/

/-- `std::swap(data[x], data[y])`. -/
def swap (data : Vec K) (x y : ℕ) : Checked (Vec K) := do
  let a ← data.get x
  let b ← data.get y
  let data ← data.set x b
  data.set y a

/-- The next bit-reversed counter. -/
def reverseCarry (m j : ℕ) : Checked ℕ :=
  if 2 ≤ m ∧ m < j then do
    let j ← sub j m
    reverseCarry (m / 2) j
  else .ok (j + m)
  termination_by m

/-- The pairs of cells in bit-reversed order. -/
def bitReverse (n : ℕ) (data : Vec K) : Checked (Vec K) := do
  let s ← forUpToByM 2 1 n (1, data) fun i s => do
    let (j, data) := s
    let data ← (if i < j then do
        let data ← swap data (← sub j 1) (← sub i 1)
        swap data j i
      else pure data)
    return (← reverseCarry (n / 2) j, data)
  return s.2

section Definitions

variable [Field K] [Trig K]

/-- The grid, in a vector of `nodes + 1` cells. -/
def gridSpan (nodes : ℕ) (min max : K) (grid : ℕ → K) : Checked (Vec K) :=
  let a := 1 / 2 * (min - max)
  let b := 1 / 2 * (min + max)
  forUpToM 0 nodes ⟨nodes + 1, grid⟩ fun i grid =>
    grid.set i (a * Trig.cos ((Trig.pi : K) * i / nodes) + b)

/-- The sum of the even entries less the sum of the odd ones. -/
def alternatingSum (n : ℕ) (data : Vec K) : Checked K := do
  let sum ← forUpToByM 2 0 n 0 fun j sum => do return sum + (← data.get j)
  forUpToByM 2 1 n sum fun j sum => do return sum - (← data.get j)

/-- One pass of the folding loop. -/
def foldAt (n : ℕ) (w : K × K) (j : ℕ) (s : K × Vec K) : Checked (K × Vec K) := do
  let (sum, data) := s
  let y1 := 1 / 2 * ((← data.get j) + (← data.get (← sub n j)))
  let y2 := (← data.get j) - (← data.get (← sub n j))
  let data ← data.set j (y1 - w.2 * y2)
  let data ← data.set (← sub n j) (y1 + w.2 * y2)
  return (sum + w.1 * y2, data)

/-- Folding the vector about its middle. -/
def foldMiddle (n : ℕ) (data : Vec K) : Checked (K × Vec K) := do
  let theta := Trig.pi / (n : K)
  let sum ← data.get 0
  let s ← forUpToM 1 (n / 2) ((1, 0), (sum, data)) fun j s => do
    let w := rotate (wpr theta) (Trig.sin theta) s.1
    return (w, ← foldAt n w j s.2)
  return s.2

/-- The butterfly on the pairs `(i - 1, i)` and `(j - 1, j)` with `j = i + mmax`. -/
def butterfly (mmax : ℕ) (w : K × K) (i : ℕ) (data : Vec K) : Checked (Vec K) := do
  let j := i + mmax
  let tempr := w.1 * (← data.get (← sub j 1)) - w.2 * (← data.get j)
  let tempi := w.1 * (← data.get j) + w.2 * (← data.get (← sub j 1))
  let data ← data.set (← sub j 1) ((← data.get (← sub i 1)) - tempr)
  let data ← data.set j ((← data.get i) - tempi)
  let data ← data.set (← sub i 1) ((← data.get (← sub i 1)) + tempr)
  data.set i ((← data.get i) + tempi)

/-- One round of butterflies. -/
def round (n mmax : ℕ) (data : Vec K) : Checked (Vec K) := do
  let istep := 2 * mmax
  let theta := 2 * Trig.pi / (mmax : K)
  let s ← forUpToByM 2 1 mmax ((1, 0), data) fun m s => do
    let data ← forUpToByM istep m n s.2 fun i data => butterfly mmax s.1 i data
    return (rotate (wpr theta) (Trig.sin theta) s.1, data)
  return s.2

/-- The rounds. -/
def rounds (n mmax : ℕ) (hmmax : 0 < mmax) (data : Vec K) : Checked (Vec K) :=
  if mmax < n then do
    let data ← round n mmax data
    rounds n (2 * mmax) (Nat.mul_pos Nat.two_pos hmmax) data
  else .ok data
  termination_by n - mmax

/-- One pass of the unpacking loop. -/
def unpackAt (n : ℕ) (w : K × K) (i : ℕ) (data : Vec K) : Checked (Vec K) := do
  let i1 := 2 * i
  let i2 := i1 + 1
  let i3 := (← sub n i2) + 1
  let i4 := i3 + 1
  let h1r := 1 / 2 * ((← data.get i1) + (← data.get i3))
  let h1i := 1 / 2 * ((← data.get i2) - (← data.get i4))
  let h2r := 1 / 2 * ((← data.get i2) + (← data.get i4))
  let h2i := 1 / 2 * ((← data.get i3) - (← data.get i1))
  let data ← data.set i1 (h1r + w.1 * h2r - w.2 * h2i)
  let data ← data.set i2 (h1i + w.1 * h2i + w.2 * h2r)
  let data ← data.set i3 (h1r - w.1 * h2r + w.2 * h2i)
  data.set i4 (-h1i + w.1 * h2i + w.2 * h2r)

/-- The transform of the real vector from that of its packing into pairs. -/
def unpack (n : ℕ) (data : Vec K) : Checked (Vec K) := do
  let theta := Trig.pi / ((n / 2 : ℕ) : K)
  let wpi := Trig.sin theta
  let data ← data.set 0 ((← data.get 0) + (← data.get 1))
  let s ← forUpToM 1 (n / 4) ((wpr theta + 1, wpi), data) fun i s => do
    return (rotate (wpr theta) wpi s.1, ← unpackAt n s.1 i s.2)
  return s.2

/-- The odd entries by prefix sums that start with `sum`. -/
def oddPrefixSums (n : ℕ) (sum : K) (data : Vec K) : Checked (Vec K) := do
  let data ← data.set 1 sum
  let s ← forUpToByM 2 3 n (sum, data) fun j s => do
    let sum := s.1 + (← s.2.get j)
    return (sum, ← s.2.set j sum)
  return s.2

/-- The correction for the last sample `temp`. -/
def addLast (n : ℕ) (temp : K) (data : Vec K) : Checked (Vec K) :=
  forBelowByM 2 0 n data fun j data => do
    let data ← data.set j ((← data.get j) + temp)
    data.set (j + 1) ((← data.get (j + 1)) - temp)

/-- The end-point corrections and the scaling of the inverse transform. -/
def scaleInverse (n : ℕ) (first last : K) (data : Vec K) : Checked (Vec K) := do
  let data ← forBelowByM 2 0 n data fun j data => do
    let data ← data.set j (((← data.get j) - (first + last)) * 2 / n)
    data.set (j + 1) (((← data.get (j + 1)) - (first - last)) * 2 / n)
  let data ← data.set n (((← data.get n) - (first + last)) * 2 / n)
  let data ← data.set 0 ((← data.get 0) * (1 / 2))
  data.set n ((← data.get n) * (1 / 2))

/-- **The one-dimensional cosine transform.** -/
def cosfft1 (n : ℕ) (data : Vec K) (transformType : TransformType) : Checked (Vec K) := do
  let temp ← data.get n
  let first := 1 / 2 * (← data.get 0)
  let last := 1 / 2 * temp
  let data ← data.set n (← alternatingSum n data)
  let (sum, data) ← foldMiddle n data
  let data ← bitReverse n data
  let data ← rounds n 2 Nat.two_pos data
  let data ← unpack n data
  let data ← oddPrefixSums n sum data
  let data ← addLast n temp data
  match transformType with
  | .forward => return data
  | .inverse => scaleInverse n first last data

/-- **The two-dimensional transform.** -/
def cft2 (m n : ℕ) (data : Grid K) (transformType : TransformType) : Checked (Grid K) := do
  let data ← forUpToM 0 m data fun i data => do
    let row ← cosfft1 n (← data.row i) transformType
    data.setRow i row
  forUpToM 0 n data fun i data => do
    let col ← cosfft1 m (← data.col i) transformType
    data.setCol i col

end Definitions

/-! ### No check fails -/

theorem reverseCarry_eq (m j : ℕ) : reverseCarry m j = .ok (FCT.reverseCarry m j) := by
  induction m using Nat.strong_induction_on generalizing j with
  | _ m ih =>
      rw [reverseCarry, FCT.reverseCarry]
      split_ifs with h
      · exact bind_eq (sub_ok h.2.le) (ih (m / 2) (by omega) (j - m))
      · rfl

theorem swap_eq {r x y : ℕ} (data : ℕ → K) (hx : x < r) (hy : y < r) :
    swap ⟨r, data⟩ x y = .ok ⟨r, FCT.swap data x y⟩ := by
  simp (disch := omega) only [swap, Vec.get_ok, Vec.set_ok, ok_bind]
  rfl

/-- The state of a loop over a vector of `r` cells. -/
def sized {α : Type} (r : ℕ) (s : α × (ℕ → K)) : α × Vec K := (s.1, ⟨r, s.2⟩)

/-- The bit reversal: the counter names a pair of cells below `n`. -/
theorem bitReverse_eq {q r : ℕ} (hr : 2 ^ (q + 1) < r) (data : ℕ → K) :
    bitReverse (2 ^ (q + 1)) ⟨r, data⟩ = .ok ⟨r, FCT.bitReverse (2 ^ (q + 1)) data⟩ := by
  have hpow : 2 ^ (q + 1) = 2 * 2 ^ q := pow_succ' 2 q
  have hhalf : 2 ^ (q + 1) / 2 = 2 ^ q := by omega
  refine bind_eq (forBelowByM_eq_inv (t := (1, data)) (sized r) Nat.two_pos
    (Reversed q data) (Reversed.start q data) fun k hk s hs => ⟨?_, ?_⟩) rfl
  · obtain ⟨j, d⟩ := s
    have hkq : k < 2 ^ q := by omega
    obtain rfl : j = 2 * bitRev q k + 1 := hs.counter hkq
    have hrev := bitRev_lt q k
    refine bind_eq (a := Vec.mk r (if 1 + 2 * k < 2 * bitRev q k + 1 then FCT.swap (FCT.swap d
      (2 * bitRev q k + 1 - 1) (1 + 2 * k - 1)) (2 * bitRev q k + 1) (1 + 2 * k) else d)) ?_ ?_
    · split_ifs
      · simp (disch := omega) only [sub_ok, swap_eq, ok_bind]
      · rfl
    · exact bind_eq (reverseCarry_eq _ _) rfl
  · rw [hhalf]
    exact hs.step (by omega)

section Phases

variable [Field K] {n r : ℕ} (data : ℕ → K)

theorem alternatingSum_eq (hr : n < r) :
    alternatingSum n ⟨r, data⟩ = .ok (FCT.alternatingSum n data) := by
  refine bind_eq (forUpToByM_eq (g := fun j sum => sum + data j) id Nat.two_pos
    fun j _ hj _ sum => ?_) (forUpToByM_eq id Nat.two_pos fun j _ hj _ sum => ?_)
  · exact bind_eq (Vec.get_ok data (by omega)) rfl
  · exact bind_eq (Vec.get_ok data (by omega)) rfl

theorem oddPrefixSums_eq (sum : K) (hn : 1 ≤ n) (hr : n < r) :
    oddPrefixSums n sum ⟨r, data⟩ = .ok ⟨r, FCT.oddPrefixSums n sum data⟩ := by
  refine bind_eq (Vec.set_ok data sum (by omega)) ?_
  refine bind_eq (forUpToByM_eq (t := (sum, update data 1 sum)) (sized r)
    Nat.two_pos fun j _ hj _ s => ?_) rfl
  refine bind_eq (Vec.get_ok s.2 (by omega)) ?_
  exact bind_eq (Vec.set_ok s.2 _ (by omega)) rfl

theorem addLast_eq (temp : K) (hn : 2 ∣ n) (hr : n < r) :
    addLast n temp ⟨r, data⟩ = .ok ⟨r, FCT.addLast n temp data⟩ := by
  refine forBelowByM_eq (Vec.mk r) Nat.two_pos ?_
  intro j _ hj _ data
  simp (disch := omega) only [Vec.get_ok, Vec.set_ok, ok_bind]

theorem scaleInverse_eq (first last : K) (hr : n < r) :
    scaleInverse n first last ⟨r, data⟩ = .ok ⟨r, FCT.scaleInverse n first last data⟩ := by
  refine bind_eq (forBelowByM_eq (Vec.mk r) Nat.two_pos (g := fun j data =>
    let data := update data j ((data j - (first + last)) * 2 / n)
    update data (j + 1) ((data (j + 1) - (first - last)) * 2 / n)) fun j _ hj _ data => ?_) ?_
  · simp (disch := omega) only [Vec.get_ok, Vec.set_ok, ok_bind]
  · simp (disch := omega) only [Vec.get_ok, Vec.set_ok, ok_bind]
    rfl

theorem foldAt_eq (w : K × K) {j : ℕ} (sum : K) (hj : j ≤ n) (hr : n < r) :
    foldAt n w j (sum, ⟨r, data⟩) =
      .ok ((FCT.foldAt n w j (sum, data)).1, ⟨r, (FCT.foldAt n w j (sum, data)).2⟩) := by
  simp (disch := omega) only [foldAt, sub_ok, Vec.get_ok, Vec.set_ok, ok_bind, pure_eq_ok]
  rfl

theorem butterfly_eq (w : K × K) {mmax i : ℕ} (hi : 1 ≤ i) (hn : i + mmax ≤ n) (hr : n < r) :
    butterfly mmax w i ⟨r, data⟩ = .ok ⟨r, FCT.butterfly mmax w i data⟩ := by
  simp (disch := omega) only [butterfly, sub_ok, Vec.get_ok, Vec.set_ok, ok_bind]
  rfl

theorem unpackAt_eq (w : K × K) {i : ℕ} (hi : 2 * i + 1 ≤ n) (hpos : 1 ≤ i) (hr : n < r) :
    unpackAt n w i ⟨r, data⟩ = .ok ⟨r, FCT.unpackAt n w i data⟩ := by
  simp (disch := omega) only [unpackAt, sub_ok, Vec.get_ok, Vec.set_ok, ok_bind]
  rfl

variable [Trig K]

theorem foldMiddle_eq (hr : n < r) : foldMiddle n ⟨r, data⟩ =
    .ok ((FCT.foldMiddle n data).1, ⟨r, (FCT.foldMiddle n data).2⟩) := by
  refine bind_eq (Vec.get_ok data (by omega)) ?_
  refine bind_eq (forUpToM_eq (t := ((1, 0), (data 0, data)))
    (fun s => (s.1, sized r s.2)) fun j _ hj s => ?_) rfl
  exact bind_eq (foldAt_eq s.2.2 _ s.2.1 (by omega) hr) rfl

theorem unpack_eq (hn : 2 ≤ n) (hr : n < r) :
    unpack n ⟨r, data⟩ = .ok ⟨r, FCT.unpack n data⟩ := by
  refine bind_eq (Vec.get_ok data (by omega)) (bind_eq (Vec.get_ok data (by omega)) ?_)
  refine bind_eq (Vec.set_ok data _ (by omega)) ?_
  refine bind_eq (forUpToM_eq (t := ((wpr (Trig.pi / ((n / 2 : ℕ) : K)) + 1,
    Trig.sin (Trig.pi / ((n / 2 : ℕ) : K))), update data 0 (data 0 + data 1))) (sized r)
    fun i hpos hi s => ?_) rfl
  exact bind_eq (unpackAt_eq s.2 s.1 (by omega) hpos hr) rfl

/-- A round: the blocks of `2 * mmax` cells end with the vector. -/
theorem round_eq {mmax : ℕ} (hpos : 0 < mmax) (hdvd : 2 * mmax ∣ n) (hr : n < r) :
    round n mmax ⟨r, data⟩ = .ok ⟨r, FCT.round n mmax data⟩ := by
  refine bind_eq (forUpToByM_eq (t := ((1, 0), data)) (sized r) Nat.two_pos
    fun m hm hmax _ s => ?_) rfl
  refine bind_eq (forUpToByM_eq (g := fun i data => FCT.butterfly mmax s.1 i data) (Vec.mk r)
    (Nat.mul_pos Nat.two_pos hpos) fun i hmi hi hstep data => ?_) rfl
  refine butterfly_eq data s.1 (by omega) ?_ hr
  -- the last block starts `2 * mmax` cells before the end
  obtain ⟨t, ht⟩ := hstep
  obtain ⟨c, rfl⟩ := hdvd
  have htc : t < c := by
    by_contra hct
    have hle : 2 * mmax * c ≤ 2 * mmax * t := Nat.mul_le_mul_left _ (Nat.le_of_not_lt hct)
    omega
  have hnext : 2 * mmax * (t + 1) ≤ 2 * mmax * c := Nat.mul_le_mul_left _ htc
  rw [Nat.mul_succ] at hnext
  omega

-- six is no power of two: the second block of the first round does not end with the vector
example : round 6 2 ⟨7, data⟩ = .error .outOfBounds := rfl

/-- The rounds: the last one joins two halves of the vector. -/
theorem rounds_eq {k mmax : ℕ} (hpos : 0 < mmax) (hn : n = mmax * 2 ^ k) (hr : n < r) :
    rounds n mmax hpos ⟨r, data⟩ = .ok ⟨r, FCT.rounds n mmax hpos data⟩ := by
  induction k generalizing mmax data with
  | zero =>
      have hle : ¬mmax < n := by omega
      rw [rounds, FCT.rounds, if_neg hle, if_neg hle]
  | succ k ih =>
      have hdouble : n = 2 * mmax * 2 ^ k := by
        rw [hn]
        ring
      have hlt : mmax < n := by
        have hle := Nat.mul_le_mul_left (2 * mmax) (Nat.one_le_two_pow (n := k))
        omega
      rw [rounds, FCT.rounds, if_pos hlt, if_pos hlt]
      exact bind_eq (round_eq data hpos ⟨2 ^ k, hdouble⟩ hr) (ih _ _ hdouble)

end Phases

section Transforms

/-- The grid sizes of the solver: the powers of two from four on. -/
def GridSize (n : ℕ) : Prop := ∃ q, 2 ≤ q ∧ n = 2 ^ q

theorem GridSize.four_le {n : ℕ} (h : GridSize n) : 4 ≤ n := by
  obtain ⟨q, hq, rfl⟩ := h
  exact Nat.pow_le_pow_right Nat.two_pos hq

variable [Field K] [Trig K] {m n r : ℕ}

/-- **No check fails in the transform** of a vector of `n + 1` cells, where `n` is a power of two,
two or more. -/
theorem cosfft1_pow_eq {q : ℕ} (hq : 1 ≤ q) (hr : 2 ^ q < r) (data : ℕ → K)
    (transformType : TransformType) :
    cosfft1 (2 ^ q) ⟨r, data⟩ transformType = .ok ⟨r, FCT.cosfft1 (2 ^ q) data transformType⟩ := by
  have htwo : 2 ≤ 2 ^ q := Nat.pow_le_pow_right Nat.two_pos hq
  have heven : 2 ∣ 2 ^ q := dvd_pow_self 2 (by omega)
  refine bind_eq (Vec.get_ok data hr) (bind_eq (Vec.get_ok data (by omega)) ?_)
  refine bind_eq (alternatingSum_eq data hr) (bind_eq (Vec.set_ok data _ hr) ?_)
  refine bind_eq (foldMiddle_eq _ hr) ?_
  obtain ⟨q, rfl⟩ : ∃ q', q = q' + 1 := ⟨q - 1, by omega⟩
  refine bind_eq (bitReverse_eq hr _) ?_
  refine bind_eq (rounds_eq _ Nat.two_pos (pow_succ' 2 q) hr) ?_
  refine bind_eq (unpack_eq _ htwo hr) ?_
  refine bind_eq (oddPrefixSums_eq _ _ (by omega) hr) ?_
  refine bind_eq (addLast_eq _ _ heven hr) ?_
  cases transformType with
  | forward => rfl
  | inverse => exact scaleInverse_eq _ _ _ hr

/-- The transform on the grids of the solver. -/
theorem cosfft1_eq (hn : GridSize n) (hr : n < r) (data : ℕ → K) (transformType : TransformType) :
    cosfft1 n ⟨r, data⟩ transformType = .ok ⟨r, FCT.cosfft1 n data transformType⟩ := by
  obtain ⟨q, hq, rfl⟩ := hn
  exact cosfft1_pow_eq (by omega) hr data transformType

/-- **No check fails in the transform** of an array of `m + 1` rows and `n + 1` columns. -/
theorem cft2_eq (hm : GridSize m) (hn : GridSize n) (data : ℕ × ℕ → K)
    (transformType : TransformType) : cft2 m n ⟨m + 1, n + 1, data⟩ transformType =
      .ok ⟨m + 1, n + 1, FCT.cft2 m n data transformType⟩ := by
  refine bind_eq (forUpToM_eq (Grid.mk _ _) fun i _ hi data => ?_) (forUpToM_eq (Grid.mk _ _)
    fun i _ hi data => ?_)
  · refine bind_eq (Grid.row_ok data (by omega)) ?_
    refine bind_eq (cosfft1_eq hn n.lt_succ_self _ transformType) ?_
    rw [Grid.setRow_ok data (by omega)]
    simp only [Nat.lt_succ_iff]
  · refine bind_eq (Grid.col_ok data (by omega)) ?_
    refine bind_eq (cosfft1_eq hm m.lt_succ_self _ transformType) ?_
    rw [Grid.setCol_ok data (by omega)]
    simp only [Nat.lt_succ_iff]

/-- The grid, up to its last cell. -/
theorem gridSpan_eq (nodes : ℕ) (min max : K) (grid : ℕ → K) : ∃ g,
    gridSpan nodes min max grid = .ok ⟨nodes + 1, g⟩ ∧
      ∀ i, i ≤ nodes → g i = FCT.gridSpan nodes min max i := by
  refine ⟨_, forUpToM_eq (g := fun i grid => update grid i (FCT.gridSpan nodes min max i))
    (Vec.mk (nodes + 1)) fun i _ hi grid => Vec.set_ok grid _ (by omega), fun i hi => ?_⟩
  refine (forBelow_layers id (FCT.gridSpan nodes min max) ?_ ?_ i).trans
    (if_pos ⟨Nat.zero_le i, Nat.lt_succ_of_le hi⟩)
  · intro k _ _ grid x hx
    exact update_of_ne hx _ grid
  · intro k _ _ grid _ x hx
    obtain rfl : x = k := hx
    exact update_self x _ grid

end Transforms

end Chebyshev.FCT.Checked
