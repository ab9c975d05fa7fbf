/-
**The divisions of the QR iteration.**

The iteration is taken with every division checked.  It divides by the norm of the matrix, which has
been tested; by the size of a start vector, which is not zero where the subdiagonal is not; by the
size of the column that a bulge is chased from, which has been tested; and by the signed length of a
vector and by its sum with the first component, which do not vanish with a vector that is not zero.
So the iteration with checked divisions goes the same way as the one without, and its result is the
orthogonal similarity that the sweeps are.

Main definitions:

* `Chebyshev.BS.Guarded.schur` — the iteration with checked divisions.

Main results:

* `Chebyshev.BS.Guarded.sweep_eq`, `Chebyshev.BS.Guarded.schur_eq` — **no division by zero**;
* `Chebyshev.BS.schur_similarity` — **the QR iteration as a whole**.
-/

import CppSamples.CheckedArray
import CppSamples.SchurIteration

set_option relaxedAutoImplicit false
set_option autoImplicit false

namespace Chebyshev.BS

open CountedLoop CheckedArray Function Reflections ZeroTest Scalar
open scoped Matrix

namespace Guarded

/-! ### The iteration with checked divisions -/

section Definitions

variable {K : Type} [Zero K] [One K] [Add K] [Sub K] [Mul K] [Div K] [Neg K] [DecidableEq K]
  [Scalar K]

/-- The numbers `x`, `y` and `r` of the last two rows. -/
def lastRows (hn : K) (n : ℕ) (h : Mat K) : Checked (K × K × K) := do
  let na := n - 1
  let x ← div (h (n, n)) hn
  let y ← div (h (na, na)) hn
  let r₁ ← div (h (n, na)) hn
  let r₂ ← div (h (na, n)) hn
  return (x, y, r₁ * r₂)

/-- The sum and the product of the two shifts. -/
def shifts (hn : K) (n its : ℕ) (xyr : K × K × K) (h : Mat K) : Checked (K × K) := do
  let (x, y, r) := xyr
  let na := n - 1
  if its % 10 = 0 ∧ its ≠ 0 then
    let y ← div (fabs (h (n, na)) + fabs (h (na, na - 1))) hn
    return (threeHalves * y, y * y)
  else return (x + y, x * y - r)

/-- `p /= w; q /= w; r /= w;` -/
def scale (w : K) (v : Vec3 K) : Checked (Vec3 K) := do
  return ⟨← div v.p w, ← div v.q w, ← div v.r w⟩

/-- The first column of the shifted square of the block that starts at `m`, scaled. -/
def startVector (hn : K) (sy : K × K) (h : Mat K) (m : ℕ) : Checked (Vec3 K) := do
  let (s, y) := sy
  let x ← div (h (m, m)) hn
  let r ← div (h (m + 1, m)) hn
  let z ← div (h (m + 1, m + 1)) hn
  let p := x * (x - s) + y + r * (← div (h (m, m + 1)) hn)
  let v : Vec3 K := ⟨p, r * (x + z - s), r * (← div (h (m + 2, m + 1)) hn)⟩
  scale v.norm1 v

/-- The row `m` that a sweep starts at, from `m = n - 2` down to `l`, and its vector. -/
def startRow (hn test : K) (sy : K × K) (h : Mat K) (l : ℕ) : ℕ → Checked (ℕ × Vec3 K)
  | 0 => do return (0, ← startVector hn sy h 0)
  | m + 1 => do
    let v ← startVector hn sy h (m + 1)
    if m + 1 = l ∨ le (fabs (h (m + 1, m)) * (fabs v.q + fabs v.r)) (fabs v.p * test) then
      return (m + 1, v)
    else startRow hn test sy h l m

/-- `p += s; x = p/s; y = q/s; z = r/s; q /= p; r /= p;` -/
def reflector (v : Vec3 K) : Checked (Reflector K) := do
  let s := v.length
  let p := v.p + s
  return ⟨← div p s, ← div v.q s, ← div v.r s, ← div v.q p, ← div v.r p⟩

/-- One pass of a sweep that starts at row `m` with the vector `v` on the block from `l` to `n`. -/
def sweepAt (nn n l m : ℕ) (v : Vec3 K) (k : ℕ) (s : Mat K × Mat K) : Checked (Mat K × Mat K) := do
  if k = m then
    let h := if l ≠ m then update s.1 (k, k - 1) (-s.1 (k, k - 1)) else s.1
    return (← reflector v).apply nn n k (h, s.2)
  else
    let b := bulgeVector n k s.1
    let x := b.norm1
    if isZero x then return s
    else
      let b ← scale x b
      let h := update s.1 (k, k - 1) (-b.length * x)
      return (← reflector b).apply nn n k (h, s.2)

/-- A double QR sweep on the block from `l` to `n`. -/
def sweep (hn test : K) (nn n l its : ℕ) (xyr : K × K × K) (s : Mat K × Mat K) :
    Checked (Mat K × Mat K) := do
  let sy ← shifts hn n its xyr s.1
  let (m, v) ← startRow hn test sy s.1 l (n - 2)
  forUpToM m (n - 1) (clearBelow n m s.1, s.2) (sweepAt nn n l m v)

/-- The iterations on the block that ends at `n`. -/
def iterate (hn test : K) (nn n its : ℕ) (s : Mat K × Mat K) : Checked (Bool × Mat K × Mat K) :=
  if hn₀ : n = 0 then .ok (true, s)
  else
    let l := smallSubdiagonal test s.1 n
    let h := deflate l s.1
    if n - 1 ≤ l then iterate hn test nn (l - 1) 0 (h, s.2)
    else do
      let xyr ← lastRows hn n h
      if hits : maxIter ≤ its then return (false, h, s.2)
      else
        let s ← sweep hn test nn n l its xyr (h, s.2)
        iterate hn test nn n (its + 1) s
  termination_by (n, maxIter - its)
  decreasing_by
  · have hl := smallSubdiagonal_le test s.1 n
    exact Prod.Lex.left _ _ (by omega)
  · exact Prod.Lex.right _ (by omega)

/-- **The QR iteration.** -/
def schur (nn : ℕ) (eps : K) (h u : Mat K) : Checked (Bool × Mat K × Mat K) :=
  let hn := hessenbergNorm nn h
  let test := eps * hn
  if isZero hn then .ok (true, h, u) else iterate hn test nn nn 0 (h, u)

end Definitions

/-! ### No division by zero -/

section Divisions

variable {hn : ℝ}

theorem lastRows_eq (hhn : hn ≠ 0) (n : ℕ) (h : Mat ℝ) : lastRows hn n h =
    .ok (h (n, n) / hn, h (n - 1, n - 1) / hn, h (n, n - 1) / hn * (h (n - 1, n) / hn)) := by
  simp only [lastRows, div_ok hhn, ok_bind, pure_eq_ok]

theorem shifts_eq (hhn : hn ≠ 0) (n its : ℕ) (h : Mat ℝ) :
    shifts hn n its (h (n, n) / hn, h (n - 1, n - 1) / hn,
      h (n, n - 1) / hn * (h (n - 1, n) / hn)) h = .ok (BS.shifts hn n its h) := by
  rw [shifts, BS.shifts]
  split_ifs
  · rw [div_ok hhn]
    rfl
  · rfl

theorem scale_eq {w : ℝ} (hw : w ≠ 0) (v : Vec3 ℝ) : scale w v = .ok (v.scale w) := by
  simp only [scale, div_ok hw, ok_bind, pure_eq_ok]
  rfl

theorem reflector_eq {v : Vec3 ℝ} (h : v.length ≠ 0) : reflector v = .ok v.reflector := by
  have hp := Vec3.add_length_ne_zero h
  simp only [reflector, div_ok h, div_ok hp, ok_bind, pure_eq_ok]
  rfl

/-- The size of a start vector is not zero where the subdiagonal is not. -/
theorem startVector_eq (hhn : hn ≠ 0) (sy : ℝ × ℝ) {h : Mat ℝ} {m : ℕ} (h₁ : h (m + 1, m) ≠ 0)
    (h₂ : h (m + 2, m + 1) ≠ 0) : startVector hn sy h m = .ok (BS.startVector hn sy h m) := by
  simp only [startVector, div_ok hhn, ok_bind]
  refine scale_eq (fun hnorm => ?_) _
  have hr := (Vec3.norm1_eq_zero hnorm).2.2
  exact mul_ne_zero (div_ne_zero h₁ hhn) (div_ne_zero h₂ hhn) hr

theorem startRow_eq (hhn : hn ≠ 0) (sy : ℝ × ℝ) {h : Mat ℝ} {l n : ℕ}
    (hsub : ∀ i, l < i → i ≤ n → h (i, i - 1) ≠ 0) {m : ℕ} (hlm : l ≤ m) (hmn : m + 2 ≤ n) :
    startRow hn 0 sy h l m = .ok (BS.startRow hn 0 sy h l m) := by
  induction m with
  | zero =>
      rw [startRow, startVector_eq hhn sy (hsub 1 (by omega) (by omega))
        (hsub 2 (by omega) (by omega))]
      rfl
  | succ m ih =>
      rw [startRow, startVector_eq hhn sy (hsub (m + 2) (by omega) (by omega))
        (hsub (m + 3) (by omega) (by omega)), ok_bind, BS.startRow]
      split_ifs with hstop
      · rfl
      · exact ih (by omega) (by omega)

theorem sweepAt_eq (nn n l m : ℕ) {v : Vec3 ℝ} (hv : v.length ≠ 0) (k : ℕ) (s : Mat ℝ × Mat ℝ) :
    sweepAt nn n l m v k s = .ok (BS.sweepAt nn n l m v k s) := by
  rw [sweepAt, BS.sweepAt]
  by_cases hk : k = m
  · rw [if_pos hk, if_pos hk, reflector_eq hv]
    rfl
  · rw [if_neg hk, if_neg hk]
    simp only [isZero_real, decide_eq_true_eq]
    split_ifs with hnorm
    · rfl
    · rw [scale_eq hnorm, ok_bind, reflector_eq (Vec3.scale_length_ne_zero hnorm)]
      rfl

/-- **No division by zero in a sweep** on a block without zeros on its subdiagonal. -/
theorem sweep_eq (hhn : hn ≠ 0) (nn its : ℕ) {n l : ℕ} (hln : l + 2 ≤ n) {h : Mat ℝ} (u : Mat ℝ)
    (hsub : ∀ i, l < i → i ≤ n → h (i, i - 1) ≠ 0) :
    sweep hn 0 nn n l its (h (n, n) / hn, h (n - 1, n - 1) / hn,
      h (n, n - 1) / hn * (h (n - 1, n) / hn)) (h, u) = .ok (BS.sweep hn 0 nn n l its (h, u)) := by
  have hv : (BS.startVector hn (BS.shifts hn n its h) h l).length ≠ 0 :=
    Vec3.length_ne_zero (.inr (.inr (startVector_ne_zero hhn _ (hsub (l + 1) (by omega) (by omega))
      (hsub (l + 2) (by omega) (by omega)))))
  rw [sweep, BS.sweep, shifts_eq hhn, ok_bind, startRow_eq hhn _ hsub (by omega) (by omega),
    ok_bind, BS.startRow_eq hhn _ hsub (by omega) (by omega)]
  exact forUpToM_eq id fun k _ _ s => sweepAt_eq nn n l l hv k s

/-- **No division by zero in the iteration.** -/
theorem iterate_eq (hhn : hn ≠ 0) {nn n : ℕ} (its : ℕ) (s : Mat ℝ × Mat ℝ) :
    iterate hn 0 nn n its s = .ok (BS.iterate hn 0 nn n its s) := by
  fun_induction BS.iterate hn 0 nn n its s with
  | case1 its s => rw [iterate, dif_pos rfl]
  | case2 n its s hn₀ l h hl ih =>
      rw [iterate, dif_neg hn₀]
      exact (if_pos hl).trans ih
  | case3 n its s hn₀ l h hl hits =>
      rw [iterate, dif_neg hn₀]
      refine (if_neg hl).trans ?_
      rw [lastRows_eq hhn]
      exact dif_pos hits
  | case4 n its s hn₀ l h hl hits ih =>
      obtain ⟨hzero, hsub⟩ := smallSubdiagonal_spec s.1 n
      have hs : deflate (smallSubdiagonal 0 s.1 n) s.1 = s.1 := deflate_eq_self hzero
      rw [iterate, dif_neg hn₀]
      refine (if_neg hl).trans ?_
      rw [lastRows_eq hhn]
      refine (dif_neg hits).trans (bind_eq (sweep_eq hhn nn its (by omega) s.2 ?_) ih)
      rw [hs]
      exact hsub

/-- **No division by zero in `schur`.** -/
theorem schur_eq (nn : ℕ) (h u : Mat ℝ) : schur nn 0 h u = .ok (BS.schur nn 0 h u) := by
  rw [schur, BS.schur]
  simp only [isZero_real, decide_eq_true_eq, zero_mul]
  split_ifs with hzero
  · rfl
  · exact iterate_eq hzero 0 (h, u)

end Divisions

end Guarded

/-- **The QR iteration** with the threshold zero, started with an orthogonal matrix in `u`: in the
end `u` is orthogonal, it turns the Hessenberg part of `h` into the same matrix as in the beginning,
and there was no division by zero. -/
theorem schur_similarity (nn : ℕ) (h : Mat ℝ) {u : Mat ℝ}
    (hu : (block nn nn u)ᵀ * block nn nn u = 1) :
    let r := schur nn 0 h u
    (block nn nn r.2.2)ᵀ * block nn nn r.2.2 = 1 ∧
      block nn nn r.2.2 * block nn nn (hess r.2.1) * (block nn nn r.2.2)ᵀ =
        block nn nn u * block nn nn (hess h) * (block nn nn u)ᵀ ∧
      Guarded.schur nn 0 h u = .ok r := by
  intro r
  obtain ⟨Q, hQ, hcollect⟩ : Collects nn (h, u) r.2 := (schur_turns nn h u).1
  have htranspose : (block nn nn r.2.2)ᵀ = Qᵀ * (block nn nn u)ᵀ := by
    rw [hcollect, Matrix.transpose_mul]
  refine ⟨?_, ?_, Guarded.schur_eq nn h u⟩
  · calc (block nn nn r.2.2)ᵀ * block nn nn r.2.2
        = Qᵀ * ((block nn nn u)ᵀ * block nn nn u) * Q := by
          rw [htranspose, hcollect]
          simp only [Matrix.mul_assoc]
      _ = 1 := by rw [hu, Matrix.mul_one, hQ.orthogonal]
  · calc block nn nn r.2.2 * block nn nn (hess r.2.1) * (block nn nn r.2.2)ᵀ
        = block nn nn u * (Q * block nn nn (hess r.2.1) * Qᵀ) * (block nn nn u)ᵀ := by
          rw [htranspose, hcollect]
          simp only [Matrix.mul_assoc]
      _ = block nn nn u * block nn nn (hess h) * (block nn nn u)ᵀ := by rw [← hQ.eq_conj]

/-- A matrix of size three, started with the identity. -/
theorem schur_similarity_three :
    Guarded.schur 2 0 (fun x => (x.1 + x.2 : ℕ) : Mat ℝ) (identity ℝ) =
      .ok (schur 2 0 (fun x => (x.1 + x.2 : ℕ)) (identity ℝ)) := by
  have hidentity : (block 2 2 (identity ℝ))ᵀ * block 2 2 (identity ℝ) = 1 := by
    rw [block_identity, Matrix.transpose_one, Matrix.one_mul]
  exact (schur_similarity 2 (fun x => (x.1 + x.2 : ℕ)) hidentity).2.2

end Chebyshev.BS
