/-
**The reduction to Hessenberg form.**

`hshldr` reflects the columns one after the other and keeps each reflection in the part of the
array that it has just cleared.  It is followed with the matrix that the array would hold if the
history were not in it.

Main definitions:

* `Chebyshev.BS.keptVector`, `Chebyshev.BS.keptCoefficient` — the reflection kept in a column;
* `Chebyshev.BS.keptProduct` — the product of the kept reflections;
* `Chebyshev.BS.Reduced` — the matrix that an array stands for after some columns.

Main results:

* `Chebyshev.BS.hshldrAt_reduced` — one pass is a reflection on both sides;
* `Chebyshev.BS.hshldr_reduced` — **the reduction is an orthogonal similarity**.
-/

import CppSamples.BartelsStewart
import CppSamples.Reflections

set_option relaxedAutoImplicit false
set_option autoImplicit false

namespace Chebyshev.BS

open CountedLoop Function Finset Reflections

/-! ### The library functions over the reals -/

theorem isZero_real (x : ℝ) : ZeroTest.isZero x = decide (x = 0) := rfl

theorem lt_real (x y : ℝ) : Scalar.lt x y = decide (x < y) := rfl

theorem fabs_real (x : ℝ) : Scalar.fabs x = |x| := rfl

theorem sqrt_real (x : ℝ) : Scalar.sqrt x = Real.sqrt x := rfl

/-- `copysign` takes the sign of its second argument. -/
theorem copysign_mul_nonneg (x y : ℝ) : 0 ≤ Scalar.copysign x y * y := by
  change 0 ≤ (if y < 0 then -|x| else |x|) * y
  split_ifs with h
  · exact mul_nonneg_of_nonpos_of_nonpos (neg_nonpos.2 (abs_nonneg x)) h.le
  · exact mul_nonneg (abs_nonneg x) (not_lt.1 h)

theorem copysign_mul_self (x y : ℝ) : Scalar.copysign x y * Scalar.copysign x y = x * x := by
  change (if y < 0 then -|x| else |x|) * (if y < 0 then -|x| else |x|) = x * x
  split_ifs
  · rw [neg_mul_neg, abs_mul_abs_self]
  · rw [abs_mul_abs_self]

/-! ### The loops of a pass -/

/-- The vector of the reflection kept in column `l`. -/
def keptVector (n l : ℕ) (a : Mat ℝ) (i : ℕ) : ℝ := if l < i ∧ i ≤ n then a (i, l) else 0

/-- The coefficient of the reflection kept in column `l`; zero when there is none. -/
noncomputable def keptCoefficient (n l : ℕ) (a : Mat ℝ) : ℝ := 1 / a (n + 1, l)

section Kept

variable {n l : ℕ} {a : Mat ℝ}

theorem keptVector_eq_zero {i : ℕ} (h : ¬(l < i ∧ i ≤ n)) : keptVector n l a i = 0 := if_neg h

theorem keptVector_of_le {i : ℕ} (h : i ≤ l) : keptVector n l a i = 0 :=
  keptVector_eq_zero (by omega)

theorem keptVector_of_lt {i : ℕ} (h : l < i) (hn : i ≤ n) : keptVector n l a i = a (i, l) :=
  if_pos ⟨h, hn⟩

theorem keptVector_ne_zero {i : ℕ} (h : keptVector n l a i ≠ 0) : l < i ∧ i ≤ n := by
  by_contra hi
  exact h (if_neg hi)

theorem keptVector_congr {b : Mat ℝ} (h : ∀ i, l < i → i ≤ n → a (i, l) = b (i, l)) :
    keptVector n l a = keptVector n l b := by
  funext i
  by_cases hi : l < i ∧ i ≤ n
  · rw [keptVector_of_lt hi.1 hi.2, keptVector_of_lt hi.1 hi.2, h i hi.1 hi.2]
  · rw [keptVector_eq_zero hi, keptVector_eq_zero hi]

/-- Sums against the kept vector are the sums of the loops. -/
theorem sum_keptVector (g : ℕ → ℝ) :
    ∑ k ∈ range (n + 1), keptVector n l a k * g k = ∑ k ∈ Ico (l + 1) (n + 1), a (k, l) * g k := by
  rw [range_eq_Ico]
  have hsub : Ico (l + 1) (n + 1) ⊆ Ico 0 (n + 1) := Ico_subset_Ico_left (Nat.zero_le _)
  rw [← sum_subset hsub]
  · refine sum_congr rfl ?_
    intro k hk
    rw [mem_Ico] at hk
    rw [keptVector_of_lt (by omega) (by omega)]
  · intro k hk hnot
    rw [mem_Ico] at hk hnot
    rw [keptVector_of_le (by omega), zero_mul]

end Kept

/-- The kept reflection on the rows, at one cell of the loop. -/
theorem onRows_kept (n l : ℕ) (a b : Mat ℝ) {i : ℕ} (j : ℕ) (hl : l < i) (hn : i ≤ n) :
    onRows n (keptCoefficient n l a) (keptVector n l a) b (i, j) =
      b (i, j) - a (i, l) * ((∑ k ∈ Ico (l + 1) (n + 1), a (k, l) * b (k, j)) / a (n + 1, l)) := by
  simp only [onRows]
  rw [sum_keptVector fun k => b (k, j), keptVector_of_lt hl hn, keptCoefficient]
  ring

/-- The kept reflection on the columns, at one cell of the loop. -/
theorem onCols_kept (n l : ℕ) (a b : Mat ℝ) (i : ℕ) {j : ℕ} (hl : l < j) (hn : j ≤ n) :
    onCols n (keptCoefficient n l a) (keptVector n l a) b (i, j) =
      b (i, j) - (∑ k ∈ Ico (l + 1) (n + 1), b (i, k) * a (k, l)) / a (n + 1, l) * a (j, l) := by
  have hsum : ∑ k ∈ range (n + 1), b (i, k) * keptVector n l a k =
      ∑ k ∈ Ico (l + 1) (n + 1), b (i, k) * a (k, l) := by
    simp only [mul_comm (b _)]
    exact sum_keptVector fun k => b (i, k)
  simp only [onCols]
  rw [hsum, keptVector_of_lt hl hn, keptCoefficient]
  ring

/-- The accumulating loop of a pass. -/
theorem columnSum_eq (n l : ℕ) (g : ℕ → ℝ) :
    forUpTo (l + 1) n (0 : ℝ) (fun i sum => sum + g i) = ∑ k ∈ Ico (l + 1) (n + 1), g k := by
  rw [forUpTo, forBelow_add, zero_add]

/-- The reflection of one column. -/
theorem reflectColumn_apply (n l : ℕ) (a : Mat ℝ) (j : ℕ) (b : Mat ℝ) (x : ℕ × ℕ) :
    reflectColumn n l a j b x =
      if x.2 = j then onRows n (keptCoefficient n l a) (keptVector n l a) b x else b x := by
  obtain ⟨i, j'⟩ := x
  rw [reflectColumn, columnSum_eq n l fun i => a (i, l) * b (i, j), forUpTo]
  rw [forBelow_layers Prod.fst (fun x => if x.2 = j then
    b x - a (x.1, l) * ((∑ k ∈ Ico (l + 1) (n + 1), a (k, l) * b (k, j)) / a (n + 1, l)) else b x)]
  · simp only
    by_cases hj : j' = j
    · subst hj
      rw [if_pos rfl, if_pos rfl]
      by_cases hi : l + 1 ≤ i ∧ i < n + 1
      · rw [if_pos hi, onRows_kept n l a b j' (by omega) (by omega)]
      · rw [if_neg hi, onRows_of_eq_zero (keptVector_eq_zero (by omega))]
    · rw [if_neg hj, if_neg hj, ite_self]
  · rintro i - - c ⟨i', j''⟩ hi
    exact update_of_ne (fun h => hi (congrArg Prod.fst h)) _ _
  · rintro i - - c hc ⟨i', j''⟩ rfl
    simp only
    by_cases hj : j'' = j
    · subst hj
      rw [update_self, if_pos rfl, hc _ (.inr le_rfl)]
    · rw [update_of_ne (fun h => hj (congrArg Prod.snd h)), if_neg hj, hc _ (.inr le_rfl)]

/-- The reflection of one row. -/
theorem reflectRow_apply (n l i : ℕ) (a : Mat ℝ) (x : ℕ × ℕ) :
    reflectRow n l i a x =
      if x.1 = i then onCols n (keptCoefficient n l a) (keptVector n l a) a x else a x := by
  obtain ⟨i', j⟩ := x
  rw [reflectRow, columnSum_eq n l fun j => a (i, j) * a (j, l), forUpTo]
  rw [forBelow_layers Prod.snd (fun x => if x.1 = i then
    a x - (∑ k ∈ Ico (l + 1) (n + 1), a (i, k) * a (k, l)) / a (n + 1, l) * a (x.2, l) else a x)]
  · simp only
    by_cases hi : i' = i
    · subst hi
      rw [if_pos rfl, if_pos rfl]
      by_cases hj : l + 1 ≤ j ∧ j < n + 1
      · rw [if_pos hj, onCols_kept n l a a i' (by omega) (by omega)]
      · rw [if_neg hj, onCols_of_eq_zero (keptVector_eq_zero (by omega))]
    · rw [if_neg hi, if_neg hi, ite_self]
  · rintro j - - c ⟨i', j'⟩ hj
    exact update_of_ne (fun h => hj (congrArg Prod.snd h)) _ _
  · rintro j hlo - c hc ⟨i'', j'⟩ rfl
    simp only at hlo hc ⊢
    by_cases hi : i'' = i
    · subst hi
      rw [update_self, if_pos rfl, hc _ (.inr le_rfl), hc (j', l) (.inl (Nat.lt_succ_self l))]
    · rw [update_of_ne (fun h => hi (congrArg Prod.fst h)), if_neg hi, hc _ (.inr le_rfl)]

/-- All columns after `l` are reflected. -/
theorem reflectColumns_apply (n l : ℕ) (a : Mat ℝ) (x : ℕ × ℕ) :
    forUpTo (l + 1) n a (fun j a => reflectColumn n l a j a) x =
      if l + 1 ≤ x.2 ∧ x.2 < n + 1 then
        onRows n (keptCoefficient n l a) (keptVector n l a) a x else a x := by
  rw [forUpTo]
  refine forBelow_layers Prod.snd _ (fun j _ _ b y hy => ?_) (fun j hlo _ b hb y hy => ?_) x
  · rw [reflectColumn_apply, if_neg hy]
  · obtain ⟨i, j'⟩ := y
    have hcol : ∀ k, b (k, l) = a (k, l) := fun k => hb _ (.inl (Nat.lt_succ_self l))
    rw [reflectColumn_apply, if_pos hy, keptVector_congr fun k _ _ => hcol k, keptCoefficient,
      keptCoefficient, hcol]
    exact onRows_congr (hb _ (.inr hy.ge)) fun k _ _ => hb _ (.inr hy.ge)

/-- All columns after `l` of another array are reflected. -/
theorem reflectColumns_other_apply (n l : ℕ) (a u : Mat ℝ) (x : ℕ × ℕ) :
    forUpTo (l + 1) n u (fun j u => reflectColumn n l a j u) x =
      if l + 1 ≤ x.2 ∧ x.2 < n + 1 then
        onRows n (keptCoefficient n l a) (keptVector n l a) u x else u x := by
  rw [forUpTo]
  refine forBelow_layers Prod.snd _ (fun j _ _ b y hy => ?_) (fun j hlo _ b hb y hy => ?_) x
  · rw [reflectColumn_apply, if_neg hy]
  · obtain ⟨i, j'⟩ := y
    rw [reflectColumn_apply, if_pos hy]
    exact onRows_congr (hb _ (.inr hy.ge)) fun k _ _ => hb _ (.inr hy.ge)

/-- All rows are reflected. -/
theorem reflectRows_apply (n l : ℕ) (a : Mat ℝ) (x : ℕ × ℕ) :
    forUpTo 0 n a (fun i a => reflectRow n l i a) x =
      if x.1 < n + 1 then onCols n (keptCoefficient n l a) (keptVector n l a) a x else a x := by
  have hinv : ∀ x, forBelow 0 (n + 1) a (fun i a => reflectRow n l i a) x =
      if x.1 < n + 1 then onCols n (keptCoefficient n l a) (keptVector n l a) a x else a x := by
    refine forBelow_inv (Nat.zero_le _) (fun i (b : Mat ℝ) => ∀ x, b x =
      if x.1 < i then onCols n (keptCoefficient n l a) (keptVector n l a) a x else a x) ?_ ?_
    · intro x
      rw [if_neg (Nat.not_lt_zero _)]
    · intro i _ hi b hb x
      -- the column with the vector is out of its reach
      have hcol : ∀ k, b (k, l) = a (k, l) := by
        intro k
        rw [hb, onCols_of_eq_zero (keptVector_of_le le_rfl), ite_self]
      obtain ⟨i', j⟩ := x
      rw [reflectRow_apply, keptVector_congr fun k _ _ => hcol k, keptCoefficient, hcol,
        ← keptCoefficient]
      have hrow : ∀ k, i ≤ i' → b (i', k) = a (i', k) := fun k hle => by
        rw [hb, if_neg (Nat.not_lt.2 hle)]
      by_cases hx : i' = i
      · rw [if_pos hx, if_pos (show i' < i + 1 by omega)]
        exact onCols_congr (hrow j hx.ge) fun k _ _ => hrow k hx.ge
      · rw [if_neg hx, hb]
        exact if_congr (by simp only; omega) rfl rfl
  exact hinv x

/-! ### The column that a pass keeps -/

/-- The array when the vector of the pass is in its place. -/
noncomputable def keepColumn (n l : ℕ) (a : Mat ℝ) : Mat ℝ :=
  let max := columnMax n l a
  let (sum, a) := scaleColumn n l max a
  let s := Scalar.copysign (Scalar.sqrt sum) (a (l + 1, l))
  let a := update a (l, n + 1) (-max * s)
  let p := a (l + 1, l) + s
  let a := update a (l + 1, l) p
  update a (n + 1, l) (p * s)

/-- A pass over a column that is not zero yet. -/
theorem hshldrAt_of_ne_zero {n l : ℕ} {a : Mat ℝ} (h : columnMax n l a ≠ 0) :
    hshldrAt n l a =
      let b := forUpTo (l + 1) n (keepColumn n l a) fun j a => reflectColumn n l a j a
      forUpTo 0 n b fun i a => reflectRow n l i a := by
  rw [hshldrAt, if_neg (by simpa [isZero_real] using h)]
  rfl

/-- A pass over a column that is zero already. -/
theorem hshldrAt_of_eq_zero {n l : ℕ} {a : Mat ℝ} (h : columnMax n l a = 0) :
    hshldrAt n l a = update (update a (n + 1, l) 0) (l, n + 1) 0 := by
  rw [hshldrAt, if_pos (by simpa [isZero_real] using h)]

/-- A loop that keeps the largest of its values, from zero on. -/
theorem forUpTo_max (lo hi : ℕ) (g : ℕ → ℝ) :
    0 ≤ forUpTo lo hi 0 (fun i max => if Scalar.lt max (g i) then g i else max) ∧
      ∀ i, lo ≤ i → i ≤ hi →
        g i ≤ forUpTo lo hi 0 fun i max => if Scalar.lt max (g i) then g i else max := by
  rcases Nat.le_total lo (hi + 1) with hle | hle
  · have hinv := forBelow_inv hle (s := (0 : ℝ))
      (f := fun i max => if Scalar.lt max (g i) then g i else max)
      (fun i max => 0 ≤ max ∧ ∀ k, lo ≤ k → k < i → g k ≤ max) ?_ ?_
    · exact ⟨hinv.1, fun i hlo hhi => hinv.2 i hlo (by omega)⟩
    · exact ⟨le_rfl, fun k hlo hhi => by omega⟩
    · rintro i hlo hhi max ⟨hpos, hmax⟩
      simp only [lt_real, decide_eq_true_eq]
      split_ifs with h
      · refine ⟨hpos.trans h.le, fun k hk hki => ?_⟩
        rcases Nat.lt_succ_iff_lt_or_eq.1 hki with hlt | rfl
        · exact (hmax k hk hlt).trans h.le
        · exact le_rfl
      · refine ⟨hpos, fun k hk hki => ?_⟩
        rcases Nat.lt_succ_iff_lt_or_eq.1 hki with hlt | rfl
        · exact hmax k hk hlt
        · exact not_lt.1 h
  · rw [forUpTo, forBelow_of_le hle]
    exact ⟨le_rfl, fun i hlo hhi => by omega⟩

/-- The maximum is above the absolute values. -/
theorem columnMax_spec (n l : ℕ) (a : Mat ℝ) :
    0 ≤ columnMax n l a ∧ ∀ i, l < i → i ≤ n → |a (i, l)| ≤ columnMax n l a :=
  forUpTo_max (l + 1) n fun i => |a (i, l)|

/-- The maximum of a column of zeros. -/
theorem columnMax_eq_zero {n l : ℕ} {a : Mat ℝ} (h : ∀ i, l < i → i < n + 1 → |a (i, l)| ≤ 0) :
    columnMax n l a = 0 := by
  refine forBelow_inv_const (fun (max : ℝ) => max = 0) rfl ?_
  rintro i hlo hhi max rfl
  simp only [lt_real, fabs_real, decide_eq_true_eq]
  rw [if_neg (not_lt.2 (h i hlo hhi))]

/-- A column whose maximum is zero is zero. -/
theorem column_eq_zero {n l : ℕ} {a : Mat ℝ} (h : columnMax n l a = 0) {i : ℕ}
    (hlo : l < i) (hhi : i ≤ n) : a (i, l) = 0 := by
  have hle := (columnMax_spec n l a).2 i hlo hhi
  rw [h] at hle
  exact abs_nonpos_iff.1 hle

/-- Scaling a column. -/
theorem scaleColumn_spec {n l : ℕ} (hl : l < n) (max : ℝ) (a : Mat ℝ) :
    (scaleColumn n l max a).1 = ∑ k ∈ Ico (l + 1) (n + 1), a (k, l) / max * (a (k, l) / max) ∧
      ∀ x, (scaleColumn n l max a).2 x =
        if x.2 = l ∧ l < x.1 ∧ x.1 ≤ n then a x / max else a x := by
  have hinv := forBelow_inv (show l + 1 ≤ n + 1 by omega) (s := ((0 : ℝ), a))
    (f := fun i t => (t.1 + t.2 (i, l) / max * (t.2 (i, l) / max),
      update t.2 (i, l) (t.2 (i, l) / max)))
    (fun i t => t.1 = ∑ k ∈ Ico (l + 1) i, a (k, l) / max * (a (k, l) / max) ∧
      ∀ x, t.2 x = if x.2 = l ∧ l < x.1 ∧ x.1 < i then a x / max else a x) ?_ ?_
  · refine ⟨hinv.1, fun x => (hinv.2 x).trans ?_⟩
    exact if_congr (by omega) rfl rfl
  · refine ⟨by simp, fun x => ?_⟩
    rw [if_neg (by omega)]
  · rintro i hlo hhi ⟨sum, b⟩ ⟨hsum, hb⟩
    simp only at hsum hb ⊢
    have hi : b (i, l) = a (i, l) := by
      rw [hb, if_neg (by simp)]
    constructor
    · rw [hsum, hi, sum_Ico_succ_top hlo]
    · rintro ⟨i', j⟩
      rw [update_apply]
      by_cases hx : (i', j) = (i, l)
      · obtain ⟨rfl, rfl⟩ := Prod.mk.inj hx
        rw [if_pos rfl, hi, if_pos (by omega)]
      · rw [if_neg hx, hb]
        refine if_congr ?_ rfl rfl
        rw [Prod.mk.injEq] at hx
        simp only
        omega

/-- The cells that a pass writes before it reflects: the vector is the scaled column with its
length, signed, added to the first entry. -/
theorem keepColumn_spec {n l : ℕ} (hl : l < n) (a : Mat ℝ) :
    ∃ s : ℝ, s * s = ∑ k ∈ Ico (l + 1) (n + 1),
        a (k, l) / columnMax n l a * (a (k, l) / columnMax n l a) ∧
      0 ≤ s * (a (l + 1, l) / columnMax n l a) ∧
      keepColumn n l a (l, n + 1) = -columnMax n l a * s ∧
      keepColumn n l a (n + 1, l) = (a (l + 1, l) / columnMax n l a + s) * s ∧
      (∀ k, l < k → k ≤ n → keepColumn n l a (k, l) =
        a (k, l) / columnMax n l a + if k = l + 1 then s else 0) ∧
      ∀ x, x ≠ (l, n + 1) → x ≠ (n + 1, l) → ¬(x.2 = l ∧ l < x.1 ∧ x.1 ≤ n) →
        keepColumn n l a x = a x := by
  obtain ⟨hsum, hcol⟩ := scaleColumn_spec hl (columnMax n l a) a
  have hfirst : (scaleColumn n l (columnMax n l a) a).2 (l + 1, l) =
      a (l + 1, l) / columnMax n l a := by
    rw [hcol, if_pos ⟨rfl, Nat.lt_succ_self l, hl⟩]
  refine ⟨Scalar.copysign (Scalar.sqrt (scaleColumn n l (columnMax n l a) a).1)
    (a (l + 1, l) / columnMax n l a), ?_, copysign_mul_nonneg _ _, ?_, ?_, ?_, ?_⟩
  · rw [copysign_mul_self, sqrt_real, Real.mul_self_sqrt, hsum]
    rw [hsum]
    exact sum_nonneg fun k _ => mul_self_nonneg _
  · have hhead : (l, n + 1) ≠ (l + 1, l) := cell_ne (by omega)
    simp only [keepColumn]
    rw [update_of_ne (cell_ne (by omega)), update_of_ne hhead, update_self, hfirst]
  · simp only [keepColumn]
    rw [update_self, update_of_ne (cell_ne (by omega)), hfirst]
  · intro k hlo hhi
    simp only [keepColumn]
    rw [update_of_ne (cell_ne (by omega))]
    by_cases hk : k = l + 1
    · subst hk
      rw [update_self, update_of_ne (cell_ne (by omega)), hfirst, if_pos rfl]
    · have hhead : (k, l) ≠ (l + 1, l) := cell_ne (by omega)
      have hlast : (k, l) ≠ (l, n + 1) := cell_ne (by omega)
      rw [update_of_ne hhead, update_of_ne hlast, hcol, if_neg hk, add_zero, if_pos ⟨rfl, hlo, hhi⟩]
  · rintro ⟨i, j⟩ hright hbelow hnot
    simp only [keepColumn]
    rw [update_of_ne hbelow, update_of_ne _, update_of_ne hright, hcol, if_neg hnot]
    intro h
    obtain ⟨rfl, rfl⟩ := Prod.mk.inj h
    exact hnot ⟨rfl, by simp, hl⟩

/-- The divisor of a pass is not zero: otherwise the length of the scaled column would be, and the
whole column with it. -/
theorem keepColumn_divisor {n l : ℕ} (hl : l < n) {a : Mat ℝ} (h : columnMax n l a ≠ 0) :
    keepColumn n l a (n + 1, l) ≠ 0 := by
  obtain ⟨s, hs, hsign, -, hbelow, -⟩ := keepColumn_spec hl a
  intro hzero
  rw [hbelow] at hzero
  have hs₀ : s * s = 0 := by nlinarith [mul_self_nonneg s]
  rw [hs, sum_eq_zero_iff_of_nonneg fun k _ => mul_self_nonneg _] at hs₀
  refine h (columnMax_eq_zero fun i hlo hhi => ?_)
  have hi := mul_self_eq_zero.1 (hs₀ i (mem_Ico.2 ⟨hlo, hhi⟩))
  rw [(div_eq_zero_iff.1 hi).resolve_right h, abs_zero]

/-- A sum of products in which the first factor has `s` added at one place. -/
theorem sum_mul_of_add_at {S : Finset ℕ} {k₁ : ℕ} (hmem : k₁ ∈ S) {y v z : ℕ → ℝ} {s : ℝ}
    (hv : ∀ k ∈ S, v k = y k + if k = k₁ then s else 0) :
    ∑ k ∈ S, v k * z k = ∑ k ∈ S, y k * z k + s * z k₁ := by
  have hterm : ∀ k ∈ S, v k * z k = y k * z k + if k = k₁ then s * z k₁ else 0 := by
    intro k hk
    rw [hv k hk]
    split_ifs with hk'
    · rw [hk']
      ring
    · ring
  rw [sum_congr rfl hterm, sum_add_distrib, sum_ite_eq_of_mem' _ _ _ hmem]

/-- The sums of a column `y` that is kept with its length `s` added to the entry at `k₁`. -/
theorem sum_kept {S : Finset ℕ} {k₁ : ℕ} (hmem : k₁ ∈ S) {y v : ℕ → ℝ} {s : ℝ}
    (hs : s * s = ∑ k ∈ S, y k * y k) (hv : ∀ k ∈ S, v k = y k + if k = k₁ then s else 0) :
    ∑ k ∈ S, v k * y k = (y k₁ + s) * s ∧ ∑ k ∈ S, v k * v k = 2 * ((y k₁ + s) * s) := by
  have hdot : ∑ k ∈ S, v k * y k = (y k₁ + s) * s := by
    rw [sum_mul_of_add_at hmem hv, ← hs]
    ring
  have hsquares : ∑ k ∈ S, v k * v k = ∑ k ∈ S, v k * y k + s * v k₁ := by
    rw [sum_mul_of_add_at hmem hv, sum_congr rfl fun k _ => mul_comm (y k) (v k)]
  refine ⟨hdot, ?_⟩
  rw [hsquares, hdot, hv k₁ hmem, if_pos rfl]
  ring

/-- The kept vector is one of a reflection, and the reflection takes the column to a multiple of
its first basis vector. -/
theorem keepColumn_reflects {n l : ℕ} (hl : l < n) {a : Mat ℝ} (h : columnMax n l a ≠ 0) :
    IsReflector n (keptCoefficient n l (keepColumn n l a)) (keptVector n l (keepColumn n l a)) ∧
      ∀ i, l < i → i ≤ n →
        onRows n (keptCoefficient n l (keepColumn n l a)) (keptVector n l (keepColumn n l a)) a
          (i, l) = if i = l + 1 then keepColumn n l a (l, n + 1) else 0 := by
  obtain ⟨s, hs, hsign, hright, hbelow, hvec, -⟩ := keepColumn_spec hl a
  have hpos := (columnMax_spec n l a).1
  have hdivisor := keepColumn_divisor hl h
  obtain ⟨max, hmax⟩ : ∃ max, max = columnMax n l a := ⟨_, rfl⟩
  rw [← hmax] at h hs hsign hright hbelow hvec hpos
  -- the scaled column
  obtain ⟨y, hy⟩ : ∃ y : ℕ → ℝ, ∀ k, y k = a (k, l) / max := ⟨_, fun k => rfl⟩
  have hay : ∀ k, a (k, l) = max * y k := fun k => by
    rw [hy]
    field_simp
  simp only [← hy] at hs hsign hbelow hvec
  have hmem : l + 1 ∈ Ico (l + 1) (n + 1) := by
    rw [mem_Ico]
    omega
  have hτ : (y (l + 1) + s) * s ≠ 0 := hbelow ▸ hdivisor
  obtain ⟨hdot, hsquares⟩ := sum_kept hmem hs fun k hk =>
    hvec k (by rw [mem_Ico] at hk; omega) (by rw [mem_Ico] at hk; omega)
  have hnorm : ∑ k ∈ range (n + 1), keptVector n l (keepColumn n l a) k *
      keptVector n l (keepColumn n l a) k = 2 * ((y (l + 1) + s) * s) := by
    rw [sum_keptVector, ← hsquares]
    refine sum_congr rfl ?_
    intro k hk
    rw [mem_Ico] at hk
    rw [keptVector_of_lt (by omega) (by omega)]
  have hcoef : keptCoefficient n l (keepColumn n l a) * ((y (l + 1) + s) * s) = 1 := by
    rw [keptCoefficient, hbelow, one_div_mul_cancel hτ]
  constructor
  · rw [IsReflector, hnorm]
    linear_combination 2 * keptCoefficient n l (keepColumn n l a) * hcoef
  · intro i hlo hhi
    have hsum : ∑ k ∈ Ico (l + 1) (n + 1), keepColumn n l a (k, l) * a (k, l) =
        max * ((y (l + 1) + s) * s) := by
      rw [← hdot, mul_sum]
      refine sum_congr rfl ?_
      intro k _
      rw [hay]
      ring
    rw [onRows_kept n l _ a l hlo hhi, hsum, hbelow, mul_div_assoc, div_self hτ, hvec i hlo hhi,
      hay, hright]
    split_ifs with hi
    · ring
    · ring

/-! ### The reduction -/

/-- `G` is the matrix that `a` stands for when the columns before `l` are reduced: their entries
below the diagonal have made room for the history. -/
structure Reduced (n l : ℕ) (a G : Mat ℝ) : Prop where
  entry : ∀ i ≤ n, ∀ j ≤ n, i ≤ j ∨ l ≤ j → a (i, j) = G (i, j)
  subdiagonal : ∀ j < l, a (j, n + 1) = G (j + 1, j)
  zero : ∀ i ≤ n, ∀ j < l, j + 1 < i → G (i, j) = 0

/-- What a pass leaves alone. -/
theorem hshldrAt_frame {n l : ℕ} (hl : l < n) (a : Mat ℝ) {x : ℕ × ℕ}
    (hx : x.2 < l ∨ x.2 = n + 1 ∧ x.1 ≠ l ∨ x.2 = l ∧ x.1 ≤ l) : hshldrAt n l a x = a x := by
  obtain ⟨i, j⟩ := x
  simp only at hx
  by_cases h : columnMax n l a = 0
  · have hlast : (i, j) ≠ (l, n + 1) := cell_ne (by omega)
    have hbelow : (i, j) ≠ (n + 1, l) := cell_ne (by omega)
    rw [hshldrAt_of_eq_zero h, update_of_ne hlast, update_of_ne hbelow]
  · obtain ⟨s, -, -, -, -, -, hkeep⟩ := keepColumn_spec hl a
    have hw : ∀ b : Mat ℝ, keptVector n l b j = 0 := fun b => keptVector_eq_zero (by omega)
    rw [hshldrAt_of_ne_zero h]
    simp only
    rw [reflectRows_apply, onCols_of_eq_zero (hw _), ite_self, reflectColumns_apply,
      if_neg (by simp only; omega)]
    refine hkeep _ (cell_ne (by omega)) (cell_ne (by omega)) ?_
    simp only
    omega

/-- The array after a pass over a column that is not zero yet: the kept reflection on the columns
behind it, then on all rows. -/
theorem hshldrAt_apply {n l : ℕ} {a b : Mat ℝ} (h : columnMax n l a ≠ 0)
    (hb : b = keepColumn n l a) : ∃ d : Mat ℝ,
      (∀ x, d x = if l + 1 ≤ x.2 ∧ x.2 < n + 1 then
        onRows n (keptCoefficient n l b) (keptVector n l b) b x else b x) ∧
      ∀ x, hshldrAt n l a x = if x.1 < n + 1 then
        onCols n (keptCoefficient n l b) (keptVector n l b) d x else d x := by
  obtain ⟨d, hd⟩ : ∃ d : Mat ℝ, d = forUpTo (l + 1) n b fun j a => reflectColumn n l a j a :=
    ⟨_, rfl⟩
  have hdx : ∀ x, d x = if l + 1 ≤ x.2 ∧ x.2 < n + 1 then
      onRows n (keptCoefficient n l b) (keptVector n l b) b x else b x := by
    intro x
    rw [hd, reflectColumns_apply]
  -- column `l` is the one of `b` until the end of the pass
  have hdl : ∀ i, d (i, l) = b (i, l) := fun i => by
    rw [hdx, if_neg (by simp only; omega)]
  have hvec : keptVector n l d = keptVector n l b := keptVector_congr fun i _ _ => hdl i
  have hcoef : keptCoefficient n l d = keptCoefficient n l b := by
    rw [keptCoefficient, keptCoefficient, hdl]
  refine ⟨d, hdx, fun x => ?_⟩
  rw [hshldrAt_of_ne_zero h, ← hb]
  simp only
  rw [reflectRows_apply, ← hd, hvec, hcoef]

/-- A pass over a column that is zero below the diagonal. -/
theorem Reduced.pass_of_eq_zero {n l : ℕ} (hl : l + 1 < n) {a G : Mat ℝ} (h : Reduced n l a G)
    (hmax : columnMax n l a = 0) :
    IsReflector n (keptCoefficient n l (hshldrAt n l a)) (keptVector n l (hshldrAt n l a)) ∧
      Reduced n (l + 1) (hshldrAt n l a)
        (onCols n (keptCoefficient n l (hshldrAt n l a)) (keptVector n l (hshldrAt n l a))
          (onRows n (keptCoefficient n l (hshldrAt n l a)) (keptVector n l (hshldrAt n l a)) G)) := by
  have hcoef : keptCoefficient n l (hshldrAt n l a) = 0 := by
    rw [keptCoefficient, hshldrAt_of_eq_zero hmax, update_of_ne (cell_ne (by omega)), update_self,
      div_zero]
  rw [hcoef, onRows_zero, onCols_zero]
  have hcolumn : ∀ i, l < i → i ≤ n → G (i, l) = 0 := by
    intro i hlo hhi
    rw [← h.entry i hhi l (by omega) (.inr le_rfl), column_eq_zero hmax hlo hhi]
  refine ⟨isReflector_zero n _, ?_, ?_, ?_⟩
  · intro i hi j hj hij
    have hlast : (i, j) ≠ (l, n + 1) := cell_ne (by omega)
    have hbelow : (i, j) ≠ (n + 1, l) := cell_ne (by omega)
    rw [hshldrAt_of_eq_zero hmax, update_of_ne hlast, update_of_ne hbelow]
    exact h.entry i hi j hj (by omega)
  · intro j hj
    rcases Nat.lt_succ_iff_lt_or_eq.1 hj with hlt | rfl
    · rw [hshldrAt_frame (by omega) a (.inr (.inl ⟨rfl, by simp only; omega⟩)),
        h.subdiagonal j hlt]
    · rw [hshldrAt_of_eq_zero hmax, update_self, hcolumn _ (by omega) (by omega)]
  · intro i hi j hj hij
    rcases Nat.lt_succ_iff_lt_or_eq.1 hj with hlt | rfl
    · exact h.zero i hi j hlt hij
    · exact hcolumn i (by omega) hi

/-- A pass over a column that is not. -/
theorem Reduced.pass_of_ne_zero {n l : ℕ} (hl : l + 1 < n) {a G : Mat ℝ} (h : Reduced n l a G)
    (hmax : columnMax n l a ≠ 0) :
    IsReflector n (keptCoefficient n l (hshldrAt n l a)) (keptVector n l (hshldrAt n l a)) ∧
      Reduced n (l + 1) (hshldrAt n l a)
        (onCols n (keptCoefficient n l (hshldrAt n l a)) (keptVector n l (hshldrAt n l a))
          (onRows n (keptCoefficient n l (hshldrAt n l a)) (keptVector n l (hshldrAt n l a)) G)) := by
  obtain ⟨hrefl, honto⟩ := keepColumn_reflects (by omega) hmax
  obtain ⟨s, -, -, -, -, -, hkeep⟩ := keepColumn_spec (show l < n by omega) a
  obtain ⟨b, hb⟩ : ∃ b, b = keepColumn n l a := ⟨_, rfl⟩
  rw [← hb] at hrefl honto hkeep
  obtain ⟨d, hdx, hpass⟩ := hshldrAt_apply hmax hb
  have hpassl : ∀ i, hshldrAt n l a (i, l) = b (i, l) := by
    intro i
    rw [hpass, onCols_of_eq_zero (keptVector_of_le le_rfl), ite_self, hdx,
      if_neg (by simp only; omega)]
  rw [keptVector_congr fun i _ _ => hpassl i, keptCoefficient, hpassl, ← keptCoefficient]
  obtain ⟨c, hc⟩ : ∃ c, c = keptCoefficient n l b := ⟨_, rfl⟩
  obtain ⟨w, hw⟩ : ∃ w, w = keptVector n l b := ⟨_, rfl⟩
  have hw₀ : ∀ i, i ≤ l → w i = 0 := fun i hi => by rw [hw, keptVector_of_le hi]
  have hw₁ : ∀ k, w k ≠ 0 → l < k ∧ k ≤ n := fun k hk => keptVector_ne_zero (hw ▸ hk)
  rw [← hc, ← hw] at hrefl honto hdx hpass ⊢
  have hopen : ∀ i ≤ n, ∀ k, l < k → k ≤ n → d (i, k) = onRows n c w G (i, k) := by
    intro i hi k hlo hhi
    have hentry : ∀ i ≤ n, b (i, k) = G (i, k) := by
      intro i hi
      rw [hkeep _ (cell_ne (by omega)) (cell_ne (by omega)) (by simp only; omega)]
      exact h.entry i hi k hhi (by omega)
    rw [hdx, if_pos (by simp only; omega)]
    exact onRows_congr (hentry i hi) fun k hk _ => hentry k hk
  have hcolumn : ∀ i ≤ n, l < i → onRows n c w G (i, l) = if i = l + 1 then b (l, n + 1) else 0 := by
    intro i hi hlo
    rw [← honto i hlo hi]
    exact onRows_congr (h.entry i hi l (by omega) (.inr le_rfl)).symm
      fun k hk _ => (h.entry k hk l (by omega) (.inr le_rfl)).symm
  refine ⟨hrefl, ?_, ?_, ?_⟩
  · intro i hi j hj hij
    rw [hpass, if_pos (by simp only; omega)]
    by_cases hjl : l < j
    · refine onCols_congr (hopen i hi j hjl hj) ?_
      intro k hk hwk
      exact hopen i hi k (hw₁ k hwk).1 hk
    · rw [onCols_of_eq_zero (hw₀ j (by omega)), onCols_of_eq_zero (hw₀ j (by omega)),
        onRows_of_eq_zero (hw₀ i (by omega)), hdx, if_neg (by simp only; omega),
        hkeep _ (cell_ne (by omega)) (cell_ne (by omega)) (by simp only; omega)]
      exact h.entry i hi j hj (by omega)
  · intro j hj
    rw [onCols_of_eq_zero (hw₀ j (by omega))]
    rcases Nat.lt_succ_iff_lt_or_eq.1 hj with hlt | rfl
    · rw [hshldrAt_frame (by omega) a (.inr (.inl ⟨rfl, by simp only; omega⟩)),
        h.subdiagonal j hlt, onRows_of_eq_zero (hw₀ _ (by omega))]
    · rw [hcolumn _ (by omega) (by omega), if_pos rfl, hpass,
        onCols_of_eq_zero (by rw [hw]; exact keptVector_eq_zero (by omega)), ite_self, hdx,
        if_neg (by simp only; omega)]
  · intro i hi j hj hij
    rw [onCols_of_eq_zero (hw₀ j (by omega))]
    rcases Nat.lt_succ_iff_lt_or_eq.1 hj with hlt | rfl
    · rw [onRows_of_column, h.zero i hi j hlt hij]
      intro k hk hwk
      have hlk := (hw₁ k hwk).1
      exact h.zero k hk j hlt (by omega)
    · rw [hcolumn i hi (by omega), if_neg (by omega)]

/-- **One pass of the reduction**: the reflection that it keeps, applied to both sides. -/
theorem hshldrAt_reduced {n l : ℕ} (hl : l + 1 < n) {a G : Mat ℝ} (h : Reduced n l a G) :
    IsReflector n (keptCoefficient n l (hshldrAt n l a)) (keptVector n l (hshldrAt n l a)) ∧
      Reduced n (l + 1) (hshldrAt n l a)
        (onCols n (keptCoefficient n l (hshldrAt n l a)) (keptVector n l (hshldrAt n l a))
          (onRows n (keptCoefficient n l (hshldrAt n l a)) (keptVector n l (hshldrAt n l a)) G)) := by
  by_cases hmax : columnMax n l a = 0
  · exact h.pass_of_eq_zero hl hmax
  · exact h.pass_of_ne_zero hl hmax

/-- The product of the first kept reflections. -/
noncomputable def keptProduct (n : ℕ) (a : Mat ℝ) : ℕ → Matrix (Fin (n + 1)) (Fin (n + 1)) ℝ
  | 0 => 1
  | l + 1 => keptProduct n a l * reflector n (keptCoefficient n l a) (keptVector n l a)

/-- The kept reflections live in the columns that they have cleared. -/
theorem keptProduct_congr {n l : ℕ} {a b : Mat ℝ} (h : ∀ i, ∀ j < l, j < i → a (i, j) = b (i, j))
    (hl : l ≤ n) : keptProduct n a l = keptProduct n b l := by
  induction l with
  | zero => rfl
  | succ l ih =>
      have hvec : keptVector n l a = keptVector n l b :=
        keptVector_congr fun i hlo _ => h i l (Nat.lt_succ_self l) hlo
      have hcoef : keptCoefficient n l a = keptCoefficient n l b := by
        rw [keptCoefficient, keptCoefficient, h (n + 1) l (Nat.lt_succ_self l) (by omega)]
      rw [keptProduct, keptProduct, ih (fun i j hj => h i j (by omega)) (by omega), hvec, hcoef]

/-- **The reduction**: the product of the kept reflections turns the matrix into the one that the
array stands for. -/
theorem hshldr_reduced {n : ℕ} (hn : 2 ≤ n) (a : Mat ℝ) :
    ∃ G, Reduced n n (hshldr n a) G ∧
      Turns (keptProduct n (hshldr n a) (n - 1)) (block n n a) (block n n G) := by
  have hloop : ∃ G, Reduced n (n - 1) (forBelow 0 (n - 1) a (hshldrAt n)) G ∧
      Turns (keptProduct n (forBelow 0 (n - 1) a (hshldrAt n)) (n - 1)) (block n n a)
        (block n n G) := by
    refine forBelow_inv (Nat.zero_le _) (fun l b => ∃ G, Reduced n l b G ∧
      Turns (keptProduct n b l) (block n n a) (block n n G)) ?_ ?_
    · refine ⟨a, ⟨fun _ _ _ _ _ => rfl, fun j hj => ?_, fun _ _ j hj => ?_⟩, Turns.refl _⟩
      · omega
      · omega
    · rintro l - hl b ⟨G, hG, hturns⟩
      obtain ⟨hrefl, hred⟩ := hshldrAt_reduced (by omega) hG
      refine ⟨_, hred, ?_⟩
      rw [keptProduct, keptProduct_congr (b := b) (fun i j hj _ => ?_) (by omega)]
      · exact hturns.reflect hrefl
      · exact hshldrAt_frame (by omega) b (.inl hj)
  obtain ⟨G, hG, hturns⟩ := hloop
  obtain ⟨b, hb⟩ : ∃ b, b = forBelow 0 (n - 1) a (hshldrAt n) := ⟨_, rfl⟩
  have hh : hshldr n a = update b (n - 1, n + 1) (b (n, n - 1)) := by
    rw [hshldr, forUpTo, show n - 2 + 1 = n - 1 by omega, hb]
  rw [← hb] at hG hturns
  refine ⟨G, ⟨?_, ?_, ?_⟩, ?_⟩
  · intro i hi j hj hij
    rw [hh, update_of_ne (cell_ne (by omega))]
    exact hG.entry i hi j hj (by omega)
  · intro j hj
    by_cases hlast : j = n - 1
    · subst hlast
      rw [hh, update_self, hG.entry n le_rfl (n - 1) (by omega) (by omega),
        show n - 1 + 1 = n by omega]
    · rw [hh, update_of_ne (cell_ne (by omega))]
      exact hG.subdiagonal j (by omega)
  · intro i hi j hj hij
    exact hG.zero i hi j (by omega) hij
  · rw [keptProduct_congr (b := b) (fun i j hj _ => ?_) (by omega)]
    · exact hturns
    · rw [hh, update_of_ne (cell_ne (by omega))]

end Chebyshev.BS
