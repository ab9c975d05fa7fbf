/-
**One sweep of the QR iteration.**

A sweep of `schur` applies a reflection of three neighbouring rows to the Hessenberg matrix, which
makes a bulge below the subdiagonal, and chases the bulge out with one reflection after the other.
The array holds the matrix of the sweep only where the code will read it again: entries that have
become zero are not written, and rows and columns that the reflections would not change are left
out.  A pass is followed with the matrix itself, and the array is required to agree with it on a
mask that moves along with the bulge.

Main definitions:

* `Chebyshev.BS.chaseVector` — the vector of a reflection of three neighbouring rows;
* `Chebyshev.BS.Bulge` — the matrix with the bulge and the part of it that the array holds.

Main results:

* `Chebyshev.BS.Vec3.reflector_spec` — the five numbers of a reflection;
* `Chebyshev.BS.Reflector.apply_bulge` — a reflection that clears the column before it moves the
  bulge on;
* `Chebyshev.BS.sweepAt_bulge` — **one pass of a sweep is a reflection on both sides**.
-/

import CppSamples.HouseholderProduct

set_option relaxedAutoImplicit false
set_option autoImplicit false

namespace Chebyshev.BS

open CountedLoop Function Finset Reflections

/-! ### The numbers of a reflection -/

theorem le_real (x y : ℝ) : Scalar.le x y = decide (x ≤ y) := rfl

/-- The signed length has the square of the length. -/
theorem Vec3.length_mul_self (v : Vec3 ℝ) :
    v.length * v.length = v.p * v.p + v.q * v.q + v.r * v.r := by
  have hpos : 0 ≤ v.p * v.p + v.q * v.q + v.r * v.r := by nlinarith
  simp only [Vec3.length, sqrt_real]
  split_ifs
  · rw [neg_mul_neg, Real.mul_self_sqrt hpos]
  · rw [Real.mul_self_sqrt hpos]

/-- The signed length has the sign of the first component. -/
theorem Vec3.length_sign (v : Vec3 ℝ) : 0 ≤ v.p * v.length := by
  simp only [Vec3.length, sqrt_real, lt_real, decide_eq_true_eq]
  split_ifs with h
  · exact mul_nonneg_of_nonpos_of_nonpos h.le (neg_nonpos.2 (Real.sqrt_nonneg _))
  · exact mul_nonneg (not_lt.1 h) (Real.sqrt_nonneg _)

/-- Only the zero vector has no length. -/
theorem Vec3.length_ne_zero {v : Vec3 ℝ} (h : v.p ≠ 0 ∨ v.q ≠ 0 ∨ v.r ≠ 0) : v.length ≠ 0 := by
  intro hzero
  have hsq := v.length_mul_self
  rw [hzero, zero_mul] at hsq
  have hp : v.p = 0 := by nlinarith [mul_self_nonneg v.q, mul_self_nonneg v.r]
  have hq : v.q = 0 := by nlinarith [mul_self_nonneg v.p, mul_self_nonneg v.r]
  have hr : v.r = 0 := by nlinarith [mul_self_nonneg v.p, mul_self_nonneg v.q]
  rcases h with h | h | h
  · exact h hp
  · exact h hq
  · exact h hr

/-- The first component and the signed length do not cancel. -/
theorem Vec3.add_length_ne_zero {v : Vec3 ℝ} (h : v.length ≠ 0) : v.p + v.length ≠ 0 := by
  intro hzero
  have hpos := mul_self_pos.2 h
  have hsign := v.length_sign
  have hprod : (v.p + v.length) * v.length = 0 := by rw [hzero, zero_mul]
  nlinarith

/-- What makes five numbers those of the reflection `1 - x w wᵀ` with `w = (1, q, r)`. -/
structure Reflector.Valid (g : Reflector ℝ) : Prop where
  y : g.y = g.x * g.q
  z : g.z = g.x * g.r
  norm : g.x * (1 + g.q * g.q + g.r * g.r) = 2

/-- **The reflection of a vector** onto the first basis vector. -/
theorem Vec3.reflector_spec {v : Vec3 ℝ} (h : v.length ≠ 0) :
    v.reflector.Valid ∧ v.reflector.x * (v.p + v.reflector.q * v.q + v.reflector.r * v.r) =
        v.p + v.length ∧
      v.reflector.q * (v.p + v.length) = v.q ∧ v.reflector.r * (v.p + v.length) = v.r := by
  have hsq := v.length_mul_self
  have hps := Vec3.add_length_ne_zero h
  obtain ⟨s, hs⟩ : ∃ s, s = v.length := ⟨_, rfl⟩
  rw [← hs] at h hsq hps
  have hx : v.reflector.x = (v.p + s) / s := by rw [hs]; rfl
  have hy : v.reflector.y = v.q / s := by rw [hs]; rfl
  have hz : v.reflector.z = v.r / s := by rw [hs]; rfl
  have hq : v.reflector.q = v.q / (v.p + s) := by rw [hs]; rfl
  have hr : v.reflector.r = v.r / (v.p + s) := by rw [hs]; rfl
  refine ⟨⟨?_, ?_, ?_⟩, ?_, ?_, ?_⟩
  · rw [hx, hy, hq]
    field_simp
  · rw [hx, hz, hr]
    field_simp
  · rw [hx, hq, hr]
    field_simp
    linear_combination -hsq
  · rw [hx, hq, hr, ← hs]
    field_simp
    linear_combination -hsq
  · rw [hq, ← hs, div_mul_cancel₀ _ hps]
  · rw [hr, ← hs, div_mul_cancel₀ _ hps]

/-! ### A reflection of three rows -/

/-- The vector `(1, q, r)` at the rows `k`, `k + 1` and `k + 2`. -/
def chaseVector (k : ℕ) (g : Reflector ℝ) (i : ℕ) : ℝ :=
  if i = k then 1 else if i = k + 1 then g.q else if i = k + 2 then g.r else 0

/-- The rows of the reflection: the third one is there unless its entry is zero. -/
def Reflector.Fits (g : Reflector ℝ) (notlast : Bool) (n k : ℕ) : Prop :=
  k + 1 ≤ n ∧ if notlast then k + 2 ≤ n else g.r = 0

section Chase

variable {g : Reflector ℝ} {notlast : Bool} {n k : ℕ}

theorem chaseVector_ne_zero (hfit : g.Fits notlast n k) {i : ℕ} (h : chaseVector k g i ≠ 0) :
    k ≤ i ∧ i ≤ k + 2 ∧ i ≤ n := by
  obtain ⟨hk, hlast⟩ := hfit
  rw [chaseVector] at h
  split_ifs at h with h₀ h₁ h₂
  · omega
  · omega
  · cases notlast with
    | false => exact absurd hlast h
    | true => exact ⟨by omega, by omega, h₂ ▸ hlast⟩
  · exact absurd rfl h

/-- Sums against the vector have three terms. -/
theorem sum_chaseVector (hfit : g.Fits notlast n k) {nn : ℕ} (hn : n ≤ nn) (f : ℕ → ℝ) :
    ∑ i ∈ range (nn + 1), chaseVector k g i * f i = f k + g.q * f (k + 1) + g.r * f (k + 2) := by
  obtain ⟨hk, hlast⟩ := hfit
  have hterm : ∀ i ∈ range (nn + 1), chaseVector k g i * f i = (if i = k then f k else 0) +
      (if i = k + 1 then g.q * f (k + 1) else 0) + if i = k + 2 then g.r * f (k + 2) else 0 := by
    intro i _
    rw [chaseVector]
    rcases eq_or_ne i k with rfl | h₀
    · simp
    rcases eq_or_ne i (k + 1) with rfl | h₁
    · simp
    rcases eq_or_ne i (k + 2) with rfl | h₂
    · simp
    · simp [h₀, h₁, h₂]
  have hmem : ∀ i, i ≤ n → i ∈ range (nn + 1) := fun i hi => mem_range.2 (by omega)
  rw [sum_congr rfl hterm, sum_add_distrib, sum_add_distrib,
    sum_ite_eq_of_mem' _ _ _ (hmem k (by omega)), sum_ite_eq_of_mem' _ _ _ (hmem _ hk)]
  cases notlast with
  | false =>
      -- the last reflection has two rows
      have hr : g.r = 0 := hlast
      simp [hr]
  | true => rw [sum_ite_eq_of_mem' _ _ _ (hmem _ hlast)]

/-- The coefficient of a valid reflection. -/
theorem Reflector.Valid.isReflector (hg : g.Valid) (hfit : g.Fits notlast n k) {nn : ℕ}
    (hn : n ≤ nn) : IsReflector nn g.x (chaseVector k g) := by
  have hnorm : ∑ i ∈ range (nn + 1), chaseVector k g i * chaseVector k g i =
      1 + g.q * g.q + g.r * g.r := by
    rw [sum_chaseVector hfit hn]
    simp [chaseVector]
  rw [IsReflector, hnorm]
  linear_combination g.x * hg.norm

/-- The reflection of one column. -/
theorem Reflector.onColumn_apply (hg : g.Valid) (hfit : g.Fits notlast n k) {nn : ℕ} (hn : n ≤ nn)
    (j : ℕ) (h : Mat ℝ) (x : ℕ × ℕ) :
    g.onColumn notlast k j h x =
      if x.2 = j then onRows nn g.x (chaseVector k g) h x else h x := by
  obtain ⟨i, j'⟩ := x
  have hsum := sum_chaseVector hfit hn fun k => h (k, j)
  rcases eq_or_ne j' j with rfl | hj
  · rw [if_pos rfl]
    simp only [onRows, hsum]
    cases notlast with
    | false =>
        have hr : g.r = 0 := hfit.2
        simp only [Reflector.onColumn, Bool.false_eq_true, if_false, update_apply, Prod.mk.injEq,
          and_true, chaseVector, hr, hg.y]
        rcases eq_or_ne i k with rfl | h₀
        · simp only [↓reduceIte, Nat.left_eq_add, one_ne_zero, mul_one, zero_mul, add_zero,
            sub_right_inj]
          ring
        rcases eq_or_ne i (k + 1) with rfl | h₁
        · simp only [Nat.add_eq_left, one_ne_zero, ↓reduceIte, zero_mul, add_zero, sub_right_inj]
          ring
        · simp [h₀, h₁]
    | true =>
        simp only [Reflector.onColumn, if_true, update_apply, Prod.mk.injEq, and_true, chaseVector,
          hg.y, hg.z]
        rcases eq_or_ne i k with rfl | h₀
        · simp only [↓reduceIte, Nat.left_eq_add, one_ne_zero, OfNat.ofNat_ne_zero, mul_one,
            sub_right_inj]
          ring
        rcases eq_or_ne i (k + 1) with rfl | h₁
        · simp only [Nat.add_eq_left, one_ne_zero, ↓reduceIte, Nat.add_left_cancel_iff,
            OfNat.one_ne_ofNat, sub_right_inj]
          ring
        rcases eq_or_ne i (k + 2) with rfl | h₂
        · simp only [Nat.add_eq_left, OfNat.ofNat_ne_zero, ↓reduceIte, Nat.add_left_cancel_iff,
            OfNat.ofNat_ne_one, sub_right_inj]
          ring
        · simp [h₀, h₁, h₂]
  · rw [if_neg hj]
    cases notlast <;> simp [Reflector.onColumn, hj]

/-- The reflection of one row. -/
theorem Reflector.onRow_apply (hg : g.Valid) (hfit : g.Fits notlast n k) {nn : ℕ} (hn : n ≤ nn)
    (i : ℕ) (h : Mat ℝ) (x : ℕ × ℕ) :
    g.onRow notlast k i h x =
      if x.1 = i then onCols nn g.x (chaseVector k g) h x else h x := by
  obtain ⟨i', j⟩ := x
  have hsum : ∑ k' ∈ range (nn + 1), h (i, k') * chaseVector k g k' =
      h (i, k) + g.q * h (i, k + 1) + g.r * h (i, k + 2) := by
    rw [← sum_chaseVector hfit hn fun k => h (i, k)]
    exact sum_congr rfl fun _ _ => mul_comm _ _
  rcases eq_or_ne i' i with rfl | hi
  · rw [if_pos rfl]
    simp only [onCols, hsum]
    cases notlast with
    | false =>
        have hr : g.r = 0 := hfit.2
        simp only [Reflector.onRow, Bool.false_eq_true, if_false, update_apply, Prod.mk.injEq,
          true_and, chaseVector, hr, hg.y]
        rcases eq_or_ne j k with rfl | h₀
        · simp only [↓reduceIte, Nat.left_eq_add, one_ne_zero, zero_mul, add_zero, mul_one,
            sub_right_inj]
          ring
        rcases eq_or_ne j (k + 1) with rfl | h₁
        · simp only [Nat.add_eq_left, one_ne_zero, ↓reduceIte, zero_mul, add_zero, sub_right_inj]
          ring
        · simp [h₀, h₁]
    | true =>
        simp only [Reflector.onRow, if_true, update_apply, Prod.mk.injEq, true_and, chaseVector,
          hg.y, hg.z]
        rcases eq_or_ne j k with rfl | h₀
        · simp only [↓reduceIte, Nat.left_eq_add, one_ne_zero, OfNat.ofNat_ne_zero, mul_one,
            sub_right_inj]
          ring
        rcases eq_or_ne j (k + 1) with rfl | h₁
        · simp only [Nat.add_eq_left, one_ne_zero, ↓reduceIte, Nat.add_left_cancel_iff,
            OfNat.one_ne_ofNat, sub_right_inj]
          ring
        rcases eq_or_ne j (k + 2) with rfl | h₂
        · simp only [Nat.add_eq_left, OfNat.ofNat_ne_zero, ↓reduceIte, Nat.add_left_cancel_iff,
            OfNat.ofNat_ne_one, sub_right_inj]
          ring
        · simp [h₀, h₁, h₂]
  · rw [if_neg hi]
    cases notlast <;> simp [Reflector.onRow, hi]

/-- The loop over the columns from `k` on. -/
theorem Reflector.onColumns_apply (hg : g.Valid) (hfit : g.Fits notlast n k) {nn : ℕ} (hn : n ≤ nn)
    (h : Mat ℝ) (x : ℕ × ℕ) :
    forUpTo k nn h (g.onColumn notlast k) x =
      if k ≤ x.2 ∧ x.2 < nn + 1 then onRows nn g.x (chaseVector k g) h x else h x := by
  rw [forUpTo]
  refine forBelow_layers Prod.snd _ (fun j _ _ b y hy => ?_) (fun j hlo _ b hb y hy => ?_) x
  · rw [Reflector.onColumn_apply hg hfit hn, if_neg hy]
  · obtain ⟨i, j'⟩ := y
    rw [Reflector.onColumn_apply hg hfit hn, if_pos hy]
    exact onRows_congr (hb _ (.inr hy.ge)) fun k _ _ => hb _ (.inr hy.ge)

/-- The loop over the rows up to `top`. -/
theorem Reflector.onRows_apply (hg : g.Valid) (hfit : g.Fits notlast n k) {nn : ℕ} (hn : n ≤ nn)
    (top : ℕ) (h : Mat ℝ) (x : ℕ × ℕ) :
    forUpTo 0 top h (g.onRow notlast k) x =
      if 0 ≤ x.1 ∧ x.1 < top + 1 then onCols nn g.x (chaseVector k g) h x else h x := by
  rw [forUpTo]
  refine forBelow_layers Prod.fst _ (fun i _ _ b y hy => ?_) (fun i hlo _ b hb y hy => ?_) x
  · rw [Reflector.onRow_apply hg hfit hn, if_neg hy]
  · obtain ⟨i', j⟩ := y
    rw [Reflector.onRow_apply hg hfit hn, if_pos hy]
    exact onCols_congr (hb _ (.inr hy.ge)) fun k _ _ => hb _ (.inr hy.ge)

end Chase

/-! ### The bulge -/

/-- `G` is the matrix that the pass `k` finds, with the bulge below the subdiagonal in the columns
`k - 1` and `k`, and `h` holds it where the sweep on the block from `l` to `n` will read it. -/
structure Bulge (nn n l k : ℕ) (h G : Mat ℝ) : Prop where
  support : ∀ i ≤ nn, ∀ j ≤ nn, j + 1 < i → j + 1 < k ∨ k + 2 < i → G (i, j) = 0
  left : ∀ i ≤ nn, ∀ j, j < l → l ≤ i → G (i, j) = 0
  right : ∀ i ≤ nn, ∀ j, j ≤ n → n < i → G (i, j) = 0
  entry : ∀ i ≤ nn, ∀ j ≤ nn,
    i ≤ j + 1 ∨ k ≤ j ∧ i ≤ j + 3 ∧ i ≤ n ∨ l < k ∧ j + 1 = k ∧ i ≤ k + 2 ∧ i ≤ n →
      h (i, j) = G (i, j)

/-- The last row that the reflection of the columns reaches. -/
def lastRow (n k : ℕ) : ℕ := if k + 3 < n then k + 3 else n

section Pass

variable {nn n l k : ℕ} {h G : Mat ℝ} {c : ℝ} {w : ℕ → ℝ}

/-- Rows that the reflection does not meet. -/
theorem eq_zero_of_unmet (hw : ∀ i, w i ≠ 0 → k ≤ i ∧ i ≤ k + 2 ∧ i ≤ n) {i : ℕ}
    (hi : i < k ∨ k + 2 < i ∨ n < i) : w i = 0 := by
  by_contra hne
  have hmet := hw i hne
  omega

/-- Columns before the block and before the bulge are zero where the reflection meets them. -/
theorem Bulge.onRows_column (hb : Bulge nn n l k h G) (hlk : l ≤ k) (hkn : k + 1 ≤ n) (hn : n ≤ nn)
    (hw : ∀ i, w i ≠ 0 → k ≤ i ∧ i ≤ k + 2 ∧ i ≤ n) (i : ℕ) {j : ℕ} (hj : j < l ∨ j + 1 < k) :
    onRows nn c w G (i, j) = G (i, j) := by
  refine onRows_of_column ?_
  intro i' hi' hwi
  have hmet := hw i' hwi
  rcases hj with hj | hj
  · exact hb.left i' hi' j hj (by omega)
  · exact hb.support i' hi' j (by omega) (by omega) (.inl hj)

/-- The array after the reflection of the rows holds their product where it will be read. -/
theorem Bulge.onRows_mask {h₀ h₁ : Mat ℝ} (hb : Bulge nn n l k h G) (hlk : l ≤ k) (hkn : k + 1 ≤ n)
    (hn : n ≤ nn) (hw : ∀ i, w i ≠ 0 → k ≤ i ∧ i ≤ k + 2 ∧ i ≤ n)
    (hsame : ∀ x, ¬(l < k ∧ x = (k, k - 1)) → h₀ x = h x)
    (hclear : l < k → onRows nn c w G (k, k - 1) = h₀ (k, k - 1))
    (hrows : ∀ x, h₁ x = if k ≤ x.2 ∧ x.2 < nn + 1 then onRows nn c w h₀ x else h₀ x) :
    ∀ i ≤ nn, ∀ j ≤ nn, i ≤ j + 1 ∨ k ≤ j ∧ i ≤ j + 3 ∧ i ≤ n →
      h₁ (i, j) = onRows nn c w G (i, j) := by
  intro i hi j hj hij
  rw [hrows]
  rcases Nat.lt_or_ge j k with hjk | hkj
  · rw [if_neg (by simp only; omega)]
    by_cases hlast : l < k ∧ i = k ∧ j + 1 = k
    · obtain ⟨hl, rfl, hj'⟩ := hlast
      obtain rfl : j = i - 1 := by omega
      exact (hclear hl).symm
    · rw [hsame _ (by simp only [Prod.mk.injEq]; omega), hb.entry i hi j hj (.inl (by omega))]
      rcases Nat.lt_or_ge i k with hik | hki
      · exact (onRows_of_eq_zero (eq_zero_of_unmet hw (.inl hik))).symm
      · exact (hb.onRows_column hlk hkn hn hw i (by omega)).symm
  · rw [if_pos (by simp only; omega)]
    have hentry : ∀ i' ≤ nn, i' ≤ j + 1 ∨ i' ≤ j + 3 ∧ i' ≤ n → h₀ (i', j) = G (i', j) := by
      intro i' hi' hij'
      rw [hsame _ (by simp only [Prod.mk.injEq]; omega)]
      exact hb.entry i' hi' j hj (by omega)
    refine onRows_congr (hentry i hi (by omega)) ?_
    intro i' hi' hwi
    have hmet := hw i' hwi
    exact hentry i' hi' (by omega)

/-- **Moving the bulge**: a reflection of the rows `k` to `k + 2` that clears the column before
them, on the rows and the columns that the code applies it to. -/
theorem Bulge.move {h₀ h₁ h₂ : Mat ℝ} (hb : Bulge nn n l k h G) (hlk : l ≤ k) (hkn : k + 1 ≤ n)
    (hn : n ≤ nn) (hw : ∀ i, w i ≠ 0 → k ≤ i ∧ i ≤ k + 2 ∧ i ≤ n)
    (hsame : ∀ x, ¬(l < k ∧ x = (k, k - 1)) → h₀ x = h x)
    (hclear : l < k → onRows nn c w G (k, k - 1) = h₀ (k, k - 1) ∧
      ∀ i, k < i → i ≤ k + 2 → i ≤ n → onRows nn c w G (i, k - 1) = 0)
    (hrows : ∀ x, h₁ x = if k ≤ x.2 ∧ x.2 < nn + 1 then onRows nn c w h₀ x else h₀ x)
    (hcols : ∀ x, h₂ x = if 0 ≤ x.1 ∧ x.1 < lastRow n k + 1 then onCols nn c w h₁ x else h₁ x) :
    Bulge nn n l (k + 1) h₂ (onCols nn c w (onRows nn c w G)) := by
  have hw₀ : ∀ i, i < k ∨ k + 2 < i ∨ n < i → w i = 0 := fun i hi => eq_zero_of_unmet hw hi
  have hrow : ∀ i j, i < k ∨ k + 2 < i ∨ n < i → onRows nn c w G (i, j) = G (i, j) :=
    fun i j hi => onRows_of_eq_zero (hw₀ i hi)
  have hcol : ∀ i j, j < l ∨ j + 1 < k → onRows nn c w G (i, j) = G (i, j) := fun i j hj =>
    hb.onRows_column hlk hkn hn hw i hj
  have hmask := hb.onRows_mask hlk hkn hn hw hsame (fun hl => (hclear hl).1) hrows
  refine ⟨?_, ?_, ?_, ?_⟩
  · intro i hi j hj hij hout
    rcases Nat.lt_or_ge j k with hjk | hkj
    · rw [onCols_of_eq_zero (hw₀ j (.inl hjk))]
      by_cases hlast : l < k ∧ j + 1 = k ∧ i ≤ k + 2 ∧ i ≤ n
      · obtain ⟨hl, hj', hi₂, hin⟩ := hlast
        obtain rfl : j = k - 1 := by omega
        exact (hclear hl).2 i (by omega) hi₂ hin
      · by_cases hbefore : j < l ∨ j + 1 < k
        · rw [hcol i j hbefore]
          rcases Nat.lt_or_ge (j + 1) k with hjk' | hkj'
          · exact hb.support i hi j hj hij (.inl hjk')
          · exact hb.left i hi j (by omega) (by omega)
        · rw [hrow i j (by omega)]
          rcases Nat.lt_or_ge n i with hni | hin
          · exact hb.right i hi j (by omega) hni
          · exact hb.support i hi j hj hij (by omega)
    · -- the whole row is zero in the columns that are reflected
      rw [onCols_of_row, hrow i j (by omega)]
      · exact hb.support i hi j hj hij (by omega)
      · intro j' hj' hwj
        have := hw j' hwj
        rw [hrow i j' (by omega)]
        exact hb.support i hi j' hj' (by omega) (by omega)
  · intro i hi j hjl hli
    rw [onCols_of_eq_zero (hw₀ j (by omega)), hcol i j (.inl hjl)]
    exact hb.left i hi j hjl hli
  · intro i hi j hjn hni
    rw [onCols_of_row, hrow i j (by omega)]
    · exact hb.right i hi j hjn hni
    · intro j' hj' hwj
      rw [hrow i j' (by omega)]
      exact hb.right i hi j' (hw j' hwj).2.2 hni
  · intro i hi j hj hij
    have hlast : lastRow n k = k + 3 ∧ k + 3 < n ∨ lastRow n k = n ∧ n ≤ k + 3 := by
      rw [lastRow]
      split_ifs <;> omega
    rw [hcols]
    by_cases hwj : w j = 0
    · rw [onCols_of_eq_zero hwj, onCols_of_eq_zero hwj, ite_self]
      exact hmask i hi j hj (by omega)
    · have hj' := hw j hwj
      by_cases htop : i < lastRow n k + 1
      · rw [if_pos ⟨Nat.zero_le _, htop⟩]
        refine onCols_congr (hmask i hi j hj (by omega)) ?_
        intro j' hj' hwj'
        have := hw j' hwj'
        exact hmask i hi j' hj' (by omega)
      · rw [if_neg (by simp only; omega), hmask i hi j hj (by omega), onCols_of_row]
        intro j' hj' hwj'
        have := hw j' hwj'
        rw [hrow i j' (by omega)]
        rcases Nat.lt_or_ge n i with hni | hin
        · exact hb.right i hi j' (by omega) hni
        · exact hb.support i hi j' hj' (by omega) (by omega)

/-- What the reflection leaves alone. -/
theorem lowerRight_of_move {h₀ h₁ h₂ : Mat ℝ} (hw : ∀ i, w i ≠ 0 → i ≤ n)
    (hrows : ∀ x, h₁ x = if k ≤ x.2 ∧ x.2 < nn + 1 then onRows nn c w h₀ x else h₀ x)
    (hcols : ∀ x, h₂ x = if 0 ≤ x.1 ∧ x.1 < lastRow n k + 1 then onCols nn c w h₁ x else h₁ x)
    {i j : ℕ} (hi : n < i) (hj : n < j) : h₂ (i, j) = h₀ (i, j) := by
  have hw₀ : ∀ i, n < i → w i = 0 := by
    intro i hi
    by_contra hne
    have := hw i hne
    omega
  rw [hcols, onCols_of_eq_zero (hw₀ j hj), ite_self, hrows, onRows_of_eq_zero (hw₀ i hi), ite_self]

end Pass

/-! ### One pass -/

section Sweep

variable {nn n l k : ℕ} {h u G : Mat ℝ}

/-- What a pass does: a reflection of the matrix from both sides and of `u` from the right, away
from the rows and columns after `n`. -/
def IsPass (nn n l k : ℕ) (G : Mat ℝ) (s t : Mat ℝ × Mat ℝ) : Prop :=
  ∃ c w, IsReflector nn c w ∧ Bulge nn n l (k + 1) t.1 (onCols nn c w (onRows nn c w G)) ∧
    block nn nn t.2 = block nn nn s.2 * reflector nn c w ∧
    ∀ i j, n < i → n < j → t.1 (i, j) = s.1 (i, j)

/-- A reflection of the sweep, when it clears the column before it. -/
theorem Reflector.apply_isPass {g : Reflector ℝ} {h₀ : Mat ℝ} (hb : Bulge nn n l k h G) (hlk : l ≤ k)
    (hkn : k + 1 ≤ n) (hn : n ≤ nn) (hg : g.Valid) (hfit : g.Fits (decide (k ≠ n - 1)) n k)
    (hsame : ∀ x, ¬(l < k ∧ x = (k, k - 1)) → h₀ x = h x)
    (hclear : l < k → onRows nn g.x (chaseVector k g) G (k, k - 1) = h₀ (k, k - 1) ∧
      ∀ i, k < i → i ≤ k + 2 → i ≤ n → onRows nn g.x (chaseVector k g) G (i, k - 1) = 0) :
    IsPass nn n l k G (h, u) (g.apply nn n k (h₀, u)) := by
  have hw : ∀ i, chaseVector k g i ≠ 0 → k ≤ i ∧ i ≤ k + 2 ∧ i ≤ n := fun i hi =>
    chaseVector_ne_zero hfit hi
  refine ⟨g.x, chaseVector k g, hg.isReflector hfit hn, ?_, ?_, ?_⟩
  · exact hb.move hlk hkn hn hw hsame hclear (Reflector.onColumns_apply hg hfit hn h₀)
      (Reflector.onRows_apply hg hfit hn (lastRow n k) _)
  · rw [← block_onCols]
    refine block_congr ?_
    intro i hi j hj
    exact (Reflector.onRows_apply hg hfit hn nn u (i, j)).trans (if_pos (by simp only; omega))
  · intro i j hi hj
    refine (lowerRight_of_move (fun i hi => (hw i hi).2.2)
      (Reflector.onColumns_apply hg hfit hn h₀)
      (Reflector.onRows_apply hg hfit hn (lastRow n k) _) hi hj).trans (hsame _ ?_)
    simp only [Prod.mk.injEq]
    omega

/-- The first pass of a sweep. -/
theorem sweepAt_first (hb : Bulge nn n l l h G) (hln : l + 2 ≤ n) (hn : n ≤ nn) {v : Vec3 ℝ}
    (hv : v.length ≠ 0) : IsPass nn n l l G (h, u) (sweepAt nn n l l v l (h, u)) := by
  obtain ⟨hg, -, -, -⟩ := Vec3.reflector_spec hv
  rw [sweepAt, if_pos rfl]
  simp only [ne_eq, not_true, if_false]
  refine Reflector.apply_isPass hb le_rfl (by omega) hn hg ⟨by omega, ?_⟩ (fun _ _ => rfl) ?_
  · rw [if_pos (by simp; omega)]
    exact hln
  · intro hlt
    exact absurd hlt (lt_irrefl l)

/-- A later pass that finds the bulge gone. -/
theorem sweepAt_skip (hb : Bulge nn n l k h G) (hlk : l < k) (hkn : k + 1 ≤ n) (hn : n ≤ nn)
    (hzero : ∀ i, k < i → i ≤ k + 2 → i ≤ n → G (i, k - 1) = 0) :
    IsPass nn n l k G (h, u) (h, u) := by
  refine ⟨0, fun _ => 0, isReflector_zero nn _, ?_, ?_, fun _ _ _ _ => rfl⟩
  · have hrows : ∀ x, h x = if k ≤ x.2 ∧ x.2 < nn + 1 then onRows nn 0 (fun _ => 0) h x else h x := by
      intro x
      rw [onRows_zero, ite_self]
    have hcols : ∀ x, h x = if 0 ≤ x.1 ∧ x.1 < lastRow n k + 1 then
        onCols nn 0 (fun _ => 0) h x else h x := by
      intro x
      rw [onCols_zero, ite_self]
    refine hb.move hlk.le hkn hn ?_ (fun _ _ => rfl) ?_ hrows hcols
    · intro i hi
      exact absurd rfl hi
    · intro _
      rw [onRows_zero]
      exact ⟨(hb.entry k (by omega) (k - 1) (by omega) (.inl (by omega))).symm, hzero⟩
  · rw [← block_onCols, onCols_zero]

/-- Scaling a vector. -/
theorem Vec3.scale_eq {x : ℝ} (hx : x ≠ 0) (v : Vec3 ℝ) :
    v.p = x * (v.scale x).p ∧ v.q = x * (v.scale x).q ∧ v.r = x * (v.scale x).r := by
  refine ⟨?_, ?_, ?_⟩
  · exact (mul_div_cancel₀ _ hx).symm
  · exact (mul_div_cancel₀ _ hx).symm
  · exact (mul_div_cancel₀ _ hx).symm

/-- Only the zero vector has the norm zero. -/
theorem Vec3.norm1_eq_zero {v : Vec3 ℝ} (h : v.norm1 = 0) : v.p = 0 ∧ v.q = 0 ∧ v.r = 0 := by
  rw [Vec3.norm1, fabs_real, fabs_real, fabs_real] at h
  have hp := abs_nonneg v.p
  have hq := abs_nonneg v.q
  have hr := abs_nonneg v.r
  refine ⟨?_, ?_, ?_⟩
  · exact abs_eq_zero.1 (by linarith)
  · exact abs_eq_zero.1 (by linarith)
  · exact abs_eq_zero.1 (by linarith)

/-- A vector that is not zero has a length when it is scaled. -/
theorem Vec3.scale_length_ne_zero {v : Vec3 ℝ} (h : v.norm1 ≠ 0) :
    (v.scale v.norm1).length ≠ 0 := by
  obtain ⟨hp, hq, hr⟩ := v.scale_eq h
  refine Vec3.length_ne_zero ?_
  by_contra hzero
  push Not at hzero
  refine h ?_
  rw [Vec3.norm1, fabs_real, fabs_real, fabs_real, hp, hq, hr, hzero.1, hzero.2.1, hzero.2.2]
  simp

/-- A later pass of a sweep. -/
theorem sweepAt_next (hb : Bulge nn n l k h G) (hlk : l < k) (hkn : k + 1 ≤ n) (hn : n ≤ nn)
    (v : Vec3 ℝ) : IsPass nn n l k G (h, u) (sweepAt nn n l l v k (h, u)) := by
  have hentry : ∀ i, i ≤ k + 2 → i ≤ n → h (i, k - 1) = G (i, k - 1) := fun i hi hin =>
    hb.entry i (by omega) (k - 1) (by omega) (by omega)
  obtain ⟨b, hbulge⟩ : ∃ b, b = bulgeVector n k h := ⟨_, rfl⟩
  have hp : b.p = G (k, k - 1) := by rw [hbulge, ← hentry k (by omega) (by omega), bulgeVector]
  have hq : b.q = G (k + 1, k - 1) := by
    rw [hbulge, ← hentry (k + 1) (by omega) hkn, bulgeVector]
  have hr : k + 2 ≤ n → b.r = G (k + 2, k - 1) := fun hlast => by
    rw [hbulge, ← hentry (k + 2) le_rfl hlast, bulgeVector]
    exact if_pos (by omega)
  have hr₀ : k = n - 1 → b.r = 0 := fun hlast => by
    rw [hbulge, bulgeVector]
    exact if_neg (not_not.2 hlast)
  rw [sweepAt, if_neg (by omega)]
  simp only [← hbulge, isZero_real, decide_eq_true_eq]
  split_ifs with hnorm
  · obtain ⟨-, hq₀, hr₀⟩ := Vec3.norm1_eq_zero hnorm
    refine sweepAt_skip hb hlk hkn hn ?_
    intro i hlo hhi hin
    rcases Nat.lt_or_ge (k + 1) i with hlt | hge
    · obtain rfl : i = k + 2 := by omega
      rw [← hr hin, hr₀]
    · obtain rfl : i = k + 1 := by omega
      rw [← hq, hq₀]
  · have hlen := Vec3.scale_length_ne_zero hnorm
    obtain ⟨hbp, hbq, hbr⟩ := b.scale_eq hnorm
    obtain ⟨d, hd⟩ : ∃ d, d = b.scale b.norm1 := ⟨_, rfl⟩
    rw [← hd] at hlen hbp hbq hbr ⊢
    obtain ⟨hg, hx, hgq, hgr⟩ := Vec3.reflector_spec hlen
    have hgr₀ : k = n - 1 → d.reflector.r = 0 := by
      intro hlast
      have hdr : d.r = 0 := by rw [hd, Vec3.scale, hr₀ hlast, zero_div]
      change d.r / (d.p + d.length) = 0
      rw [hdr, zero_div]
    have hfit : d.reflector.Fits (decide (k ≠ n - 1)) n k := by
      refine ⟨hkn, ?_⟩
      by_cases hlast : k = n - 1
      · rw [if_neg (by simpa using hlast)]
        exact hgr₀ hlast
      · rw [if_pos (by simpa using hlast)]
        omega
    -- the third term counts only when the third row is there
    have hthird : d.reflector.r * G (k + 2, k - 1) = d.reflector.r * (b.norm1 * d.r) := by
      by_cases hlast : k = n - 1
      · rw [hgr₀ hlast, zero_mul, zero_mul]
      · rw [← hr (by omega), hbr]
    have hdot : d.reflector.x * ∑ i ∈ range (nn + 1), chaseVector k d.reflector i * G (i, k - 1) =
        b.norm1 * (d.p + d.length) := by
      rw [sum_chaseVector hfit hn fun i => G (i, k - 1), hthird, ← hp, ← hq, hbp, hbq]
      linear_combination b.norm1 * hx
    refine Reflector.apply_isPass hb hlk.le hkn hn hg hfit (fun x hx' => ?_) fun _ => ⟨?_, ?_⟩
    · exact update_of_ne (fun he => hx' ⟨hlk, he⟩) _ _
    · rw [update_self]
      simp only [onRows]
      rw [mul_right_comm, hdot, ← hp, chaseVector, if_pos rfl]
      linear_combination hbp
    · intro i hlo hhi hin
      simp only [onRows]
      rw [mul_right_comm, hdot]
      rcases Nat.lt_or_ge (k + 1) i with hlt | hge
      · obtain rfl : i = k + 2 := by omega
        rw [chaseVector, if_neg (by omega), if_neg (by omega), if_pos rfl, ← hr hin]
        linear_combination hbr - b.norm1 * hgr
      · obtain rfl : i = k + 1 := by omega
        rw [chaseVector, if_neg (by omega), if_pos rfl, ← hq]
        linear_combination hbq - b.norm1 * hgq

/-- **One pass of a sweep** is a reflection on both sides. -/
theorem sweepAt_bulge (hb : Bulge nn n l k h G) (hlk : l ≤ k) (hkn : k + 1 ≤ n) (hln : l + 2 ≤ n)
    (hn : n ≤ nn) {v : Vec3 ℝ} (hv : v.length ≠ 0) :
    IsPass nn n l k G (h, u) (sweepAt nn n l l v k (h, u)) := by
  rcases eq_or_lt_of_le hlk with rfl | hlt
  · exact sweepAt_first hb hln hn hv
  · exact sweepAt_next hb hlt hkn hn v

end Sweep

end Chebyshev.BS
