/-
**The reduction to Hessenberg form as a whole.**

The two routines are taken with every division checked, and with the two arguments of `bckmlt` in
one array, as its comment allows.  Over the reals no divisor is zero: a pass over a column that is
not zero yet divides by its largest entry and by a number that vanishes with the length of the
column only.  And the reflection of a column is read before its cells are overwritten, so that the
orthogonal matrix is the same in the one array as in an array of its own.

Main definitions:

* `Chebyshev.BS.Guarded.hshldr`, `Chebyshev.BS.Guarded.bckmlt` — the routines with checked
  divisions;
* `Chebyshev.BS.bckmltInPlace` — `bckmlt` with one array for its two arguments;
* `Chebyshev.BS.hessenbergForm` — the matrix that `hshldr` leaves in `a`.

Main results:

* `Chebyshev.BS.Guarded.hshldr_eq`, `Chebyshev.BS.Guarded.bckmlt_eq` — no division by zero;
* `Chebyshev.BS.bckmltInPlace_eq` — **the two arguments may be one array**;
* `Chebyshev.BS.householder_reduction` — **the reduction**.
-/

import CppSamples.CheckedArray
import CppSamples.HouseholderProduct

set_option relaxedAutoImplicit false
set_option autoImplicit false

namespace Chebyshev.BS

open CountedLoop CheckedArray Function Finset Reflections ZeroTest Scalar
open scoped Matrix

/-! ### The routines with checked divisions -/

namespace Guarded

section Definitions

variable {K : Type} [Zero K] [One K] [Add K] [Sub K] [Mul K] [Div K] [Neg K] [DecidableEq K]

/-- Scaling column `l` below the diagonal by `max`. -/
def scaleColumn (n l : ℕ) (max : K) (a : Mat K) : Checked (K × Mat K) :=
  forUpToM (l + 1) n (0, a) fun i t => do
    let s ← div (t.2 (i, l)) max
    return (t.1 + s * s, update t.2 (i, l) s)

/-- The reflection with the vector in column `l` of `a`, applied to column `j` of `b`. -/
def reflectColumn (n l : ℕ) (a : Mat K) (j : ℕ) (b : Mat K) : Checked (Mat K) := do
  let sum := forUpTo (l + 1) n 0 fun i sum => sum + a (i, l) * b (i, j)
  let p ← div sum (a (n + 1, l))
  return forUpTo (l + 1) n b fun i b => update b (i, j) (b (i, j) - a (i, l) * p)

/-- The reflection with the vector in column `l`, applied to row `i`. -/
def reflectRow (n l i : ℕ) (a : Mat K) : Checked (Mat K) := do
  let sum := forUpTo (l + 1) n 0 fun j sum => sum + a (i, j) * a (j, l)
  let p ← div sum (a (n + 1, l))
  return forUpTo (l + 1) n a fun j a => update a (i, j) (a (i, j) - p * a (j, l))

variable [Scalar K]

/-- One pass of `hshldr`. -/
def hshldrAt (n l : ℕ) (a : Mat K) : Checked (Mat K) := do
  let max := columnMax n l a
  if isZero max then return update (update a (n + 1, l) 0) (l, n + 1) 0
  else
    let (sum, a) ← scaleColumn n l max a
    let s := copysign (Scalar.sqrt sum) (a (l + 1, l))
    let a := update a (l, n + 1) (-max * s)
    let p := a (l + 1, l) + s
    let a := update a (l + 1, l) p
    let a := update a (n + 1, l) (p * s)
    let a ← forUpToM (l + 1) n a fun j a => reflectColumn n l a j a
    forUpToM 0 n a fun i a => reflectRow n l i a

/-- **Reduction to Hessenberg form.** -/
def hshldr (n : ℕ) (a : Mat K) : Checked (Mat K) := do
  let a ← forUpToM 0 (n - 2) a (hshldrAt n)
  return update a (n - 1, n + 1) (a (n, n - 1))

/-- One pass of `bckmlt`. -/
def bckmltAt (n : ℕ) (a : Mat K) (l : ℕ) (u : Mat K) : Checked (Mat K) := do
  let u ← if isZero (a (n + 1, l)) then pure u
    else forUpToM (l + 1) n u fun j u => reflectColumn n l a j u
  let u := forUpTo (l + 1) n u fun i u => update (update u (l, i) 0) (i, l) 0
  return update u (l, l) 1

/-- **The orthogonal matrix of the reduction.** -/
def bckmlt (n : ℕ) (a u : Mat K) : Checked (Mat K) :=
  let u := update (update u (n - 1, n - 1) 1) (n, n) 1
  let u := update (update u (n, n - 1) 0) (n - 1, n) 0
  forDownToM (n - 2) 0 u (bckmltAt n a)

end Definitions

/-! ### No division by zero -/

section Divisions

variable {n l : ℕ} {a : Mat ℝ}

theorem scaleColumn_eq {max : ℝ} (h : max ≠ 0) (n l : ℕ) (a : Mat ℝ) :
    scaleColumn n l max a = .ok (BS.scaleColumn n l max a) := by
  refine forUpToM_eq id ?_
  intro i _ _ t
  rw [id, div_ok h]
  rfl

theorem reflectColumn_eq (h : a (n + 1, l) ≠ 0) (j : ℕ) (b : Mat ℝ) :
    reflectColumn n l a j b = .ok (BS.reflectColumn n l a j b) := by
  rw [reflectColumn, div_ok h]
  rfl

theorem reflectRow_eq (h : a (n + 1, l) ≠ 0) (i : ℕ) :
    reflectRow n l i a = .ok (BS.reflectRow n l i a) := by
  rw [reflectRow, div_ok h]
  rfl

/-- The divisor of a pass is out of reach of its reflections. -/
theorem reflectColumn_divisor (j : ℕ) (a : Mat ℝ) :
    BS.reflectColumn n l a j a (n + 1, l) = a (n + 1, l) := by
  rw [reflectColumn_apply, onRows_of_eq_zero (keptVector_eq_zero (by omega)), ite_self]

theorem reflectRow_divisor {i : ℕ} (hi : i ≤ n) (a : Mat ℝ) :
    BS.reflectRow n l i a (n + 1, l) = a (n + 1, l) := by
  rw [reflectRow_apply, if_neg (by simp only; omega)]

/-- The reflections of a pass, whose divisor is not zero. -/
theorem reflections_eq (hdivisor : a (n + 1, l) ≠ 0) :
    (forUpToM (l + 1) n a (fun j a => reflectColumn n l a j a) >>= fun a =>
      forUpToM 0 n a fun i a => reflectRow n l i a) =
      .ok (forUpTo 0 n (forUpTo (l + 1) n a fun j a => BS.reflectColumn n l a j a) fun i a =>
        BS.reflectRow n l i a) := by
  have hcolumn : ∀ j (b : Mat ℝ), b (n + 1, l) ≠ 0 →
      BS.reflectColumn n l b j b (n + 1, l) ≠ 0 := by
    intro j b hb
    rwa [reflectColumn_divisor]
  have hcolumns : forUpTo (l + 1) n a (fun j a => BS.reflectColumn n l a j a) (n + 1, l) ≠ 0 :=
    forBelow_inv_const (fun b : Mat ℝ => b (n + 1, l) ≠ 0) hdivisor fun j _ _ b => hcolumn j b
  refine bind_eq (forBelowM_eq_inv id (fun _ b => b (n + 1, l) ≠ 0) hdivisor ?_)
    (forBelowM_eq_inv id (fun _ b => b (n + 1, l) ≠ 0) hcolumns ?_)
  · intro j _ _ b hb
    exact ⟨reflectColumn_eq hb j b, hcolumn j b hb⟩
  · intro i _ hi b hb
    refine ⟨reflectRow_eq hb i, ?_⟩
    rwa [reflectRow_divisor (Nat.lt_succ_iff.1 hi)]

theorem hshldrAt_eq (hl : l < n) (a : Mat ℝ) : hshldrAt n l a = .ok (BS.hshldrAt n l a) := by
  by_cases hmax : columnMax n l a = 0
  · rw [hshldrAt_of_eq_zero hmax, hshldrAt, if_pos (by simpa [isZero_real] using hmax)]
    rfl
  · rw [hshldrAt_of_ne_zero hmax, hshldrAt, if_neg (by simpa [isZero_real] using hmax),
      scaleColumn_eq hmax]
    exact reflections_eq (keepColumn_divisor hl hmax)

/-- **No division by zero in `hshldr`.** -/
theorem hshldr_eq (hn : 2 ≤ n) (a : Mat ℝ) : hshldr n a = .ok (BS.hshldr n a) :=
  bind_eq (forUpToM_eq id fun _ _ hl b => hshldrAt_eq (by omega) b) rfl

theorem bckmltAt_eq (n : ℕ) (a : Mat ℝ) (l : ℕ) (u : Mat ℝ) :
    bckmltAt n a l u = .ok (BS.bckmltAt n a l u) := by
  rw [bckmltAt, BS.bckmltAt]
  by_cases hzero : a (n + 1, l) = 0
  · rw [if_pos (by simpa [isZero_real] using hzero), if_pos (by simpa [isZero_real] using hzero)]
    rfl
  · rw [if_neg (by simpa [isZero_real] using hzero), if_neg (by simpa [isZero_real] using hzero)]
    exact bind_eq (forUpToM_eq id fun j _ _ u => reflectColumn_eq hzero j u) rfl

/-- **No division by zero in `bckmlt`.** -/
theorem bckmlt_eq (n : ℕ) (a u : Mat ℝ) : bckmlt n a u = .ok (BS.bckmlt n a u) :=
  forDownToM_eq id fun l _ _ u => bckmltAt_eq n a l u

end Divisions

end Guarded

/-! ### `bckmlt` in one array -/

/-- The passes from `l` on have been made, in the array of the reflections on the left and in
another one on the right: they agree on the product so far, and the reflections of the other passes
are still in their place. -/
structure InStep {K : Type*} (n l : ℕ) (a v u : Mat K) : Prop where
  product : ∀ i ≤ n, ∀ j ≤ n, l ≤ i → l ≤ j → v (i, j) = u (i, j)
  history : ∀ i, ∀ j < l, v (i, j) = a (i, j)

/-- One cell that belongs to the product, or to neither part, is written. -/
theorem InStep.update {K : Type*} {n l : ℕ} {a v u : Mat K} (h : InStep n l a v u) (i : ℕ) {j : ℕ}
    (hj : l ≤ j) {z z' : K} (hz : z = z') :
    InStep n l a (update v (i, j) z) (update u (i, j) z') := by
  constructor
  · intro i' hi' j' hj' hli hlj
    rw [update_apply, update_apply, h.product i' hi' j' hj' hli hlj, hz]
  · intro i' j' hj'
    rw [update_of_ne (cell_ne (.inr (by omega))), h.history i' j' hj']

section InPlace

variable {K : Type*} [Zero K] [One K] [Add K] [Sub K] [Mul K] [Div K] [Neg K]

/-- The reflection with the vector in column `l` of the array that `read` gives, applied to column
`j`. -/
def reflectColumnOf (read : Mat K → Mat K) (n l j : ℕ) (u : Mat K) : Mat K :=
  let sum := forUpTo (l + 1) n 0 fun i sum => sum + read u (i, l) * u (i, j)
  let p := sum / read u (n + 1, l)
  forUpTo (l + 1) n u fun i u => update u (i, j) (u (i, j) - read u (i, l) * p)

variable [Scalar K]

/-- One pass of `bckmlt`, with the history of the reflections in the array that `read` gives. -/
def bckmltAtOf (read : Mat K → Mat K) (n l : ℕ) (u : Mat K) : Mat K :=
  let u := if isZero (read u (n + 1, l)) then u
    else forUpTo (l + 1) n u fun j u => reflectColumnOf read n l j u
  let u := forUpTo (l + 1) n u fun i u => update (update u (l, i) 0) (i, l) 0
  update u (l, l) 1

/-- `bckmlt`, with the history of the reflections in the array that `read` gives. -/
def bckmltOf (read : Mat K → Mat K) (n : ℕ) (u : Mat K) : Mat K :=
  let u := update (update u (n - 1, n - 1) 1) (n, n) 1
  let u := update (update u (n, n - 1) 0) (n - 1, n) 0
  forDownTo (n - 2) 0 u (bckmltAtOf read n)

/-- **`bckmlt` with one array for its two arguments.** -/
def bckmltInPlace (n : ℕ) (a : Mat K) : Mat K := bckmltOf id n a

omit [Neg K] in
/-- With the history in an array of its own this is `bckmlt`. -/
theorem bckmltOf_const (n : ℕ) (a u : Mat K) : bckmltOf (fun _ => a) n u = bckmlt n a u := rfl

variable {n l : ℕ} {a v u : Mat K}

omit [One K] [Neg K] [Scalar K] in
/-- The reflection of one column. -/
theorem InStep.reflectColumn (h : InStep n (l + 1) a v u) {j : ℕ} (hlj : l + 1 ≤ j) (hj : j ≤ n) :
    InStep n (l + 1) a (reflectColumnOf id n l j v) (reflectColumn n l a j u) := by
  have hsum : forUpTo (l + 1) n 0 (fun i sum => sum + v (i, l) * v (i, j)) =
      forUpTo (l + 1) n 0 fun i sum => sum + a (i, l) * u (i, j) := by
    refine forBelow_rel Eq rfl ?_
    intro i hlo hhi sum _ heq
    rw [heq, h.history i l l.lt_succ_self, h.product i (by omega) j hj hlo hlj]
  have hdivisor : v (n + 1, l) = a (n + 1, l) := h.history _ l l.lt_succ_self
  rw [reflectColumnOf, BS.reflectColumn]
  simp only [id, hsum, hdivisor]
  refine forBelow_rel (InStep n (l + 1) a) h ?_
  intro i hlo hhi v u h
  refine h.update i hlj ?_
  rw [h.history i l l.lt_succ_self, h.product i (by omega) j hj hlo hlj]

omit [Neg K] in
/-- **One pass**: the reflection of column `l` is read before its cells are overwritten. -/
theorem InStep.bckmltAt (hl : l < n) (h : InStep n (l + 1) a v u) :
    InStep n l a (bckmltAtOf id n l v) (bckmltAt n a l u) := by
  rw [bckmltAtOf, BS.bckmltAt, id, h.history (n + 1) l l.lt_succ_self]
  have hreflect : InStep n (l + 1) a
      (if isZero (a (n + 1, l)) then v
        else forUpTo (l + 1) n v fun j v => reflectColumnOf id n l j v)
      (if isZero (a (n + 1, l)) then u
        else forUpTo (l + 1) n u fun j u => BS.reflectColumn n l a j u) := by
    split_ifs
    · exact h
    · exact forBelow_rel (InStep n (l + 1) a) h fun j hlo hhi v u h =>
        h.reflectColumn hlo (Nat.lt_succ_iff.1 hhi)
  revert hreflect
  generalize (if isZero (a (n + 1, l)) then v
    else forUpTo (l + 1) n v fun j v => reflectColumnOf id n l j v) = v'
  generalize (if isZero (a (n + 1, l)) then u
    else forUpTo (l + 1) n u fun j u => BS.reflectColumn n l a j u) = u'
  intro h'
  constructor
  · intro i hi j hj hli hlj
    rw [update_apply, update_apply, clearCross_apply hl, clearCross_apply hl]
    split_ifs with hdiag hcross
    · rfl
    · rfl
    · rw [Prod.mk.injEq] at hdiag
      exact h'.product i hi j hj (by simp only at hcross; omega) (by simp only at hcross; omega)
  · intro i j hj
    rw [update_of_ne (cell_ne (.inr hj.ne)), clearCross_apply hl,
      if_neg (by simp only; omega), h'.history i j (by omega)]

omit [Neg K] in
/-- **The two arguments of `bckmlt` may be one array.** -/
theorem bckmltInPlace_eq (hn : 2 ≤ n) (a u : Mat K) :
    ∀ i ≤ n, ∀ j ≤ n, bckmltInPlace n a (i, j) = bckmlt n a u (i, j) := by
  have hrun := forBelow_rel_at (Nat.zero_le (n - 2 + 1 - 0))
    (f := fun t => bckmltAtOf id n (n - 2 - t)) (g := fun t => bckmltAt n a (n - 2 - t))
    (fun t v u => InStep n (n - 1 - t) a v u) (s := update (update (update (update a
      (n - 1, n - 1) 1) (n, n) 1) (n, n - 1) 0) (n - 1, n) 0) (t := update (update (update (update u
      (n - 1, n - 1) 1) (n, n) 1) (n, n - 1) 0) (n - 1, n) 0) ?_ ?_
  · have hzero : n - 1 - (n - 2 + 1 - 0) = 0 := by omega
    rw [hzero] at hrun
    exact fun i hi j hj => hrun.product i hi j hj i.zero_le j.zero_le
  · constructor
    · intro i hi j hj hli hlj
      simp only [update_apply, Prod.mk.injEq]
      split_ifs <;> first | rfl | omega
    · intro i j hj
      simp only [update_apply, Prod.mk.injEq]
      split_ifs <;> first | rfl | omega
  · intro t _ ht v u h
    have hl : n - 1 - t = n - 2 - t + 1 := by omega
    have hl' : n - 1 - (t + 1) = n - 2 - t := by omega
    rw [hl] at h
    rw [hl']
    exact h.bckmltAt (by omega)

end InPlace

/-! ### The reduction -/

/-- The matrix that `hshldr` leaves in `a`: on and above the diagonal it is in its place, and the
subdiagonal is in column `n + 1`. -/
def hessenbergForm {K : Type*} [Zero K] (n : ℕ) (a : Mat K) : Mat K := fun x =>
  if x.1 ≤ x.2 then a x else if x.1 = x.2 + 1 then a (x.2, n + 1) else 0

/-- It is what is left when the subdiagonal is brought back. -/
theorem block_hessenbergForm (n : ℕ) (a : Mat ℝ) :
    block n n (hess (restoreSubdiagonal n a)) = block n n (hessenbergForm n a) := by
  refine block_congr ?_
  intro i hi j hj
  simp only [hess, hessenbergForm, restoreSubdiagonal_apply]
  split_ifs <;> first | rfl | omega

/-- **Householder reduction**: `hshldr` and `bckmlt` leave an orthogonal matrix `U` and a Hessenberg
matrix `H` with `A U = U H`, divide by no zero, and may use one array for their two results. -/
theorem householder_reduction {n : ℕ} (hn : 2 ≤ n) (a u : Mat ℝ) :
    let a' := hshldr n a
    let U := block n n (bckmlt n a' u)
    Uᵀ * U = 1 ∧ block n n a * U = U * block n n (hessenbergForm n a') ∧
      Guarded.hshldr n a = .ok a' ∧ Guarded.bckmlt n a' u = .ok (bckmlt n a' u) ∧
      block n n (bckmltInPlace n a') = U := by
  intro a' U
  have hturns : Turns U (block n n a) (block n n (hess (restoreSubdiagonal n a'))) :=
    hshldr_bckmlt hn a u
  refine ⟨hturns.orthogonal, ?_, Guarded.hshldr_eq hn a, Guarded.bckmlt_eq n a' u,
    block_congr (bckmltInPlace_eq hn a' u)⟩
  rw [← block_hessenbergForm, hturns.turned, ← Matrix.mul_assoc, ← Matrix.mul_assoc,
    hturns.mul_transpose, Matrix.one_mul]

/-- A symmetric matrix of size three. -/
theorem householder_reduction_three :
    Guarded.hshldr 2 (fun x => (x.1 + x.2 : ℕ) : Mat ℝ) =
      .ok (hshldr 2 fun x => (x.1 + x.2 : ℕ)) :=
  (householder_reduction le_rfl (fun x => (x.1 + x.2 : ℕ)) (identity ℝ)).2.2.1

end Chebyshev.BS
