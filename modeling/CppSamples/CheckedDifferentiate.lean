/-
**`spectral_differentiate` and `homogeneous_boundary` with every access checked.**

The recurrence runs down from `n - 3` by an unsigned counter and stops before zero; it and the
bounds of the boundary conditions need three intervals.

Main definitions:

* `Chebyshev.CS.Checked.spectralDifferentiate` — the coefficients of the derivative, in place;
* `Chebyshev.CS.Checked.homogeneousBoundary` — the boundary conditions;
* `Chebyshev.CS.Checked.secondDerivative` — the second derivative of every row.

Main results:

* `Chebyshev.CS.Checked.homogeneousBoundary_eq`, `Chebyshev.CS.Checked.secondDerivative_eq` — **no
  check fails** in them.
-/

import CppSamples.CheckedArray
import CppSamples.ChebyshevDifferentiate

set_option relaxedAutoImplicit false
set_option autoImplicit false

namespace Chebyshev.CS.Checked

open CheckedArray CountedLoop Function

variable {K : Type} [Field K]

/-- **The coefficients of the derivative**, in the same vector. -/
def spectralDifferentiate (n : ℕ) (inout : Vec K) (span : K) : Checked (Vec K) := do
  let temp1 ← inout.get (← sub n 1)
  let temp2 ← inout.get (← sub n 2)
  let out ← inout.set (← sub n 1) (2 * n * (← inout.get n) * span)
  let out ← out.set (← sub n 2) (2 * (← sub n 1) * temp1 * span)
  let (temp2, out) ← forDownToM (← sub n 3) 1 (temp2, out) fun j s => do
    let (temp2, out) := s
    let temp1 ← out.get j
    return (temp1, ← out.set j ((← out.get (j + 2)) + 2 * (j + 1 : ℕ) * temp2 * span))
  let out ← out.set 0 (1 / 2 * (← out.get 2) + temp2 * span)
  out.set n 0

/-- The sums of a line over the odd and the even places, both with a minus sign; `line` reads a
cell. -/
def negSums (bound : ℕ) (line : ℕ → Checked K) : Checked (K × K) :=
  forBelowByM 2 1 bound (0, 0) fun j s => do return (s.1 - (← line j), s.2 - (← line (j + 1)))

/-- The last two entries of row `i`. -/
def closeRow (n bound i : ℕ) (a : Grid K) : Checked (Grid K) := do
  let (odds, evens) ← negSums bound fun j => a.get i j
  let a ← a.set i (← sub n 1) odds
  a.set i n (evens - (← a.get i 0))

/-- The last two entries of column `i`. -/
def closeColumn (m bound i : ℕ) (a : Grid K) : Checked (Grid K) := do
  let (odds, evens) ← negSums bound fun j => a.get j i
  let a ← a.set (← sub m 1) i odds
  a.set m i (evens - (← a.get 0 i))

/-- **The boundary conditions.** -/
def homogeneousBoundary (m n : ℕ) (a : Grid K) : Checked (Grid K) := do
  let mBound ← sub m 2
  let nBound ← sub n 2
  let a ← forUpToM 0 mBound a fun i a => closeRow n (nBound + 1) i a
  let a ← forUpToM 0 nBound a fun i a => closeColumn m mBound i a
  let a ← closeRow n nBound (← sub m 1) a
  let (odds, evens) ← forBelowByM 2 0 m (0, 0) fun i s => do
    return (s.1 - (← a.get i (← sub n 1)), s.2 - (← a.get i n))
  let a ← a.set m (← sub n 1) odds
  a.set m n evens

/-- **The second derivative of every row**, after the boundary conditions. -/
def secondDerivative (m n : ℕ) (a : Grid K) : Checked (Grid K) := do
  let a ← homogeneousBoundary m n a
  forUpToM 0 m a fun i a => do
    let row ← spectralDifferentiate n (← a.row i) 1
    let row ← spectralDifferentiate n row 1
    a.setRow i row

/-! ### No check fails -/

variable {m n i bound r c : ℕ}

theorem spectralDifferentiate_eq (hn : 3 ≤ n) (hr : n < r) (inout : ℕ → K) (span : K) :
    spectralDifferentiate n ⟨r, inout⟩ span =
      .ok ⟨r, CS.spectralDifferentiateInPlace n inout span⟩ := by
  have hone : sub n 1 = .ok (n - 1) := sub_ok (by omega)
  have htwo : sub n 2 = .ok (n - 2) := sub_ok (by omega)
  refine bind_eq hone (bind_eq (Vec.get_ok inout (by omega)) ?_)
  refine bind_eq htwo (bind_eq (Vec.get_ok inout (by omega)) ?_)
  refine bind_eq hone (bind_eq (Vec.get_ok inout hr) (bind_eq (Vec.set_ok inout _ (by omega)) ?_))
  refine bind_eq htwo (bind_eq hone (bind_eq (Vec.set_ok _ _ (by omega)) ?_))
  refine bind_eq (sub_ok hn) (bind_eq (forDownToM_eq (t := (inout (n - 2), _))
    (g := fun j (s : K × (ℕ → K)) =>
      (s.2 j, update s.2 j (s.2 (j + 2) + 2 * (j + 1 : ℕ) * s.1 * span)))
    (fun s => (s.1, Vec.mk r s.2)) fun j _ hj s => ?_) ?_)
  · refine bind_eq (Vec.get_ok s.2 (by omega)) (bind_eq (Vec.get_ok s.2 (by omega)) ?_)
    exact bind_eq (Vec.set_ok s.2 _ (by omega)) rfl
  · refine bind_eq (Vec.get_ok _ (by omega)) (bind_eq (Vec.set_ok _ _ (by omega)) ?_)
    exact Vec.set_ok _ _ hr

/-- The sums of a line whose cells can be read up to `bound`. -/
theorem negSums_eq {line : ℕ → Checked K} {line' : ℕ → K}
    (hline : ∀ j, j ≤ bound → line j = .ok (line' j)) :
    negSums bound line = .ok (CS.negSums bound line') := by
  refine forBelowByM_eq id Nat.two_pos ?_
  intro j _ hj _ s
  exact bind_eq (hline j (by omega)) (bind_eq (hline (j + 1) hj) rfl)

theorem closeRow_eq (hn : 1 ≤ n) (hbound : bound ≤ n) (hi : i < r) (hc : n < c) (a : Mat K) :
    closeRow n bound i ⟨r, c, a⟩ = .ok ⟨r, c, CS.closeRow n bound i a⟩ := by
  refine bind_eq (negSums_eq fun j hj => Grid.get_ok a hi (by omega)) ?_
  refine bind_eq (sub_ok hn) (bind_eq (Grid.set_ok a _ hi (by omega)) ?_)
  refine bind_eq (Grid.get_ok _ hi (by omega)) ?_
  exact Grid.set_ok _ _ hi hc

theorem closeColumn_eq (hm : 1 ≤ m) (hbound : bound ≤ m) (hi : i < c) (hr : m < r) (a : Mat K) :
    closeColumn m bound i ⟨r, c, a⟩ = .ok ⟨r, c, CS.closeColumn m bound i a⟩ := by
  refine bind_eq (negSums_eq fun j hj => Grid.get_ok a (by omega) hi) ?_
  refine bind_eq (sub_ok hm) (bind_eq (Grid.set_ok a _ (by omega) hi) ?_)
  refine bind_eq (Grid.get_ok _ (by omega) hi) ?_
  exact Grid.set_ok _ _ hr hi

/-- **No check fails in the boundary conditions.** -/
theorem homogeneousBoundary_eq (hm : 2 ≤ m) (hn : 2 ≤ n) (hr : m < r) (hc : n < c) (a : Mat K) :
    homogeneousBoundary m n ⟨r, c, a⟩ = .ok ⟨r, c, CS.homogeneousBoundary m n a⟩ := by
  refine bind_eq (sub_ok hm) (bind_eq (sub_ok hn) ?_)
  refine bind_eq (forUpToM_eq (Grid.mk r c) fun i _ hi a =>
    closeRow_eq (by omega) (by omega) (by omega) hc a) ?_
  refine bind_eq (forUpToM_eq (Grid.mk r c) fun i _ hi a =>
    closeColumn_eq (by omega) (by omega) (by omega) hr a) ?_
  have hone : sub n 1 = .ok (n - 1) := sub_ok (by omega)
  refine bind_eq (sub_ok (by omega)) ?_
  refine bind_eq (closeRow_eq (by omega) (by omega) (by omega) hc _) ?_
  rw [CS.homogeneousBoundary]
  generalize (CS.closeRow n (n - 2) (m - 1) _ : Mat K) = a
  refine bind_eq (forBelowByM_eq (g := fun i s => (s.1 - a (i, n - 1), s.2 - a (i, n))) id
    Nat.two_pos fun i _ hi _ s => ?_) ?_
  · refine bind_eq hone (bind_eq (Grid.get_ok a (by omega) (by omega)) ?_)
    exact bind_eq (Grid.get_ok a (by omega) hc) rfl
  · refine bind_eq hone (bind_eq (Grid.set_ok a _ hr (by omega)) ?_)
    exact Grid.set_ok _ _ hr hc

/-- **No check fails in the second derivative.** -/
theorem secondDerivative_eq (hm : 2 ≤ m) (hn : 3 ≤ n) (hr : m < r) (a : Mat K) :
    secondDerivative m n ⟨r, n + 1, a⟩ = .ok ⟨r, n + 1, CS.secondDerivative m n a⟩ := by
  refine bind_eq (homogeneousBoundary_eq hm (by omega) hr n.lt_succ_self a) ?_
  refine forUpToM_eq (Grid.mk r (n + 1)) ?_
  intro i _ hi a
  refine bind_eq (Grid.row_ok a (by omega)) ?_
  refine bind_eq (spectralDifferentiate_eq hn n.lt_succ_self _ 1) ?_
  refine bind_eq (spectralDifferentiate_eq hn n.lt_succ_self _ 1) ?_
  rw [Grid.setRow_ok a (by omega)]
  simp only [Nat.lt_succ_iff]

end Chebyshev.CS.Checked
