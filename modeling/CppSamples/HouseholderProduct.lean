/-
**The orthogonal matrix of the reduction.**

`bckmlt` multiplies out the reflections that `hshldr` keeps, the last one first, so that each pass
works on the rows and columns that the later reflections have touched.  It is followed with the
matrix that the array would hold if its other rows and columns were those of the identity.

Main definitions:

* `Chebyshev.BS.hess` — the Hessenberg part of an array;
* `Chebyshev.BS.QuasiTriangular` — its diagonal blocks have size one or two.

Main results:

* `Chebyshev.BS.bckmlt_eq_keptProduct` — the passes multiply the kept reflections;
* `Chebyshev.BS.hshldr_bckmlt` — **the two routines together**: what `bckmlt` leaves turns the
  matrix into the Hessenberg part of what `hshldr` leaves.
-/

import CppSamples.HouseholderReduction

set_option relaxedAutoImplicit false
set_option autoImplicit false

namespace Chebyshev.BS

open CountedLoop Function Finset Reflections

/-! ### One pass -/

theorem block_identity (n : ℕ) : block n n (identity ℝ) = 1 := by
  ext i j
  simp only [block_apply, identity, Matrix.one_apply, Fin.ext_iff]

/-- A pass clears row and column `l`. -/
theorem clearCross_apply {K : Type*} [Zero K] {n l : ℕ} (hl : l < n) (u : Mat K) (x : ℕ × ℕ) :
    forUpTo (l + 1) n u (fun i u => update (update u (l, i) 0) (i, l) 0) x =
      if (x.1 = l ∧ l < x.2 ∨ x.2 = l ∧ l < x.1) ∧ x.1 ≤ n ∧ x.2 ≤ n then 0 else u x := by
  have hinv := forBelow_inv (show l + 1 ≤ n + 1 by omega) (s := u)
    (f := fun i u => update (update u (l, i) (0 : K)) (i, l) 0)
    (fun i (b : Mat K) => ∀ x, b x =
      if (x.1 = l ∧ l < x.2 ∨ x.2 = l ∧ l < x.1) ∧ x.1 < i ∧ x.2 < i then 0 else u x) ?_ ?_
  · refine (hinv x).trans (if_congr ?_ rfl rfl)
    omega
  · intro y
    rw [if_neg (by omega)]
  · rintro i hlo hhi b hb ⟨i', j⟩
    rw [update_apply, update_apply, hb]
    simp only [Prod.mk.injEq]
    split_ifs <;> first | rfl | omega

/-- **One pass of `bckmlt`**, on the rows and columns that it knows already. -/
theorem bckmltAt_apply {n l : ℕ} (hl : l < n) (a u : Mat ℝ) {i j : ℕ} (hi : i ≤ n) (hj : j ≤ n)
    (hli : l ≤ i) (hlj : l ≤ j) : bckmltAt n a l u (i, j) =
      if i = l ∨ j = l then identity ℝ (i, j)
      else onRows n (keptCoefficient n l a) (keptVector n l a) u (i, j) := by
  obtain ⟨d, hd⟩ : ∃ d : Mat ℝ, d = if ZeroTest.isZero (a (n + 1, l)) then u
      else forUpTo (l + 1) n u fun j u => reflectColumn n l a j u := ⟨_, rfl⟩
  have hdx : ∀ x, d x = if l + 1 ≤ x.2 ∧ x.2 < n + 1 then
      onRows n (keptCoefficient n l a) (keptVector n l a) u x else u x := by
    intro x
    by_cases hzero : a (n + 1, l) = 0
    · rw [hd, if_pos (by simpa [isZero_real] using hzero), keptCoefficient, hzero, div_zero,
        onRows_zero, ite_self]
    · rw [hd, if_neg (by simpa [isZero_real] using hzero), reflectColumns_other_apply]
  have hpass : bckmltAt n a l u = update (forUpTo (l + 1) n d fun i u =>
      update (update u (l, i) 0) (i, l) 0) (l, l) 1 := by
    rw [hd]
    rfl
  rw [hpass, update_apply, clearCross_apply hl, hdx, identity]
  simp only [Prod.mk.injEq]
  split_ifs <;> first | rfl | omega

/-! ### All passes -/

/-- `N` is the product that `u` stands for when the passes from `l` on are done: the other rows and
columns are those of the identity. -/
structure Multiplied (n l : ℕ) (u N : Mat ℝ) : Prop where
  entry : ∀ i ≤ n, ∀ j ≤ n, l ≤ i → l ≤ j → u (i, j) = N (i, j)
  identity : ∀ i ≤ n, ∀ j ≤ n, i < l ∨ j < l → N (i, j) = Chebyshev.identity ℝ (i, j)

/-- **One pass** multiplies by a kept reflection. -/
theorem bckmltAt_multiplied {n l : ℕ} (hl : l < n) {a u N : Mat ℝ} (h : Multiplied n (l + 1) u N) :
    Multiplied n l (bckmltAt n a l u)
      (onRows n (keptCoefficient n l a) (keptVector n l a) N) := by
  have hknown : ∀ i ≤ n, ∀ j ≤ n, i ≤ l ∨ j ≤ l →
      onRows n (keptCoefficient n l a) (keptVector n l a) N (i, j) = identity ℝ (i, j) := by
    intro i hi j hj hij
    rw [← h.identity i hi j hj (by omega)]
    rcases Nat.lt_or_ge l i with hli | hil
    · refine onRows_of_column ?_
      intro k hk hw
      have hlk := (keptVector_ne_zero hw).1
      rw [h.identity k hk j hj (by omega), identity]
      exact if_neg (by simp only; omega)
    · exact onRows_of_eq_zero (keptVector_of_le hil)
  constructor
  · intro i hi j hj hli hlj
    rw [bckmltAt_apply hl a u hi hj hli hlj]
    split_ifs with hij
    · exact (hknown i hi j hj (by omega)).symm
    · refine onRows_congr (h.entry i hi j hj (by omega) (by omega)) ?_
      intro k hk hw
      exact h.entry k hk j hj (keptVector_ne_zero hw).1 (by omega)
  · intro i hi j hj hij
    exact hknown i hi j hj (by omega)

/-- **The passes multiply the kept reflections.** -/
theorem bckmlt_eq_keptProduct {n : ℕ} (hn : 2 ≤ n) (a u : Mat ℝ) :
    block n n (bckmlt n a u) = keptProduct n a (n - 1) := by
  have hloop : ∃ N, Multiplied n 0 (bckmlt n a u) N ∧
      keptProduct n a 0 * block n n N = keptProduct n a (n - 1) := by
    have hinv := forBelow_inv (Nat.zero_le (n - 2 + 1 - 0))
      (s := update (update (update (update u (n - 1, n - 1) (1 : ℝ)) (n, n) 1) (n, n - 1) 0)
        (n - 1, n) 0)
      (f := fun t => bckmltAt n a (n - 2 - t))
      (fun t u => ∃ N, Multiplied n (n - 1 - t) u N ∧
        keptProduct n a (n - 1 - t) * block n n N = keptProduct n a (n - 1)) ?_ ?_
    · rw [show n - 1 - (n - 2 + 1 - 0) = 0 by omega] at hinv
      exact hinv
    · refine ⟨identity ℝ, ⟨?_, fun _ _ _ _ _ => rfl⟩, ?_⟩
      · intro i hi j hj hli hlj
        simp only [update_apply, Prod.mk.injEq, identity]
        split_ifs <;> first | rfl | omega
      · rw [block_identity, mul_one, Nat.sub_zero]
    · rintro t - ht u ⟨N, hN, hprod⟩
      rw [show n - 1 - t = n - 2 - t + 1 by omega] at hN hprod
      rw [show n - 1 - (t + 1) = n - 2 - t by omega]
      refine ⟨_, bckmltAt_multiplied (by omega) hN, ?_⟩
      rw [block_onRows, ← Matrix.mul_assoc]
      exact hprod
  obtain ⟨N, hN, hprod⟩ := hloop
  rw [← hprod, keptProduct, Matrix.one_mul]
  exact block_congr fun i hi j hj => hN.entry i hi j hj (Nat.zero_le _) (Nat.zero_le _)

/-! ### The Hessenberg form -/

/-- The Hessenberg part of an array: what is further below the diagonal is not read. -/
def hess {K : Type*} [Zero K] (a : Mat K) : Mat K := fun x => if x.1 ≤ x.2 + 1 then a x else 0

/-- No two neighbours of the subdiagonal are both different from zero: the diagonal blocks have size
one or two. -/
def QuasiTriangular {K : Type*} [Zero K] (n : ℕ) (a : Mat K) : Prop :=
  ∀ i, 0 < i → i < n → a (i, i - 1) = 0 ∨ a (i + 1, i) = 0

/-- The subdiagonal, back in its place. -/
theorem restoreSubdiagonal_apply (n : ℕ) (a : Mat ℝ) (x : ℕ × ℕ) :
    restoreSubdiagonal n a x = if x.2 < n ∧ x.1 = x.2 + 1 then a (x.2, n + 1) else a x := by
  rw [restoreSubdiagonal, forBelow_layers Prod.snd
    (fun x => if x.1 = x.2 + 1 then a (x.2, n + 1) else a x)]
  · simp only [Nat.zero_le, true_and]
    split_ifs <;> first | rfl | omega
  · rintro i - - b ⟨i', j⟩ hj
    exact update_of_ne (fun h => hj (congrArg Prod.snd h)) _ _
  · rintro i - hi b hb ⟨i', j⟩ rfl
    simp only at hi hb ⊢
    by_cases hx : i' = j + 1
    · rw [hx, update_self, if_pos rfl, hb _ (.inr (by omega))]
    · rw [update_of_ne (cell_ne (.inl hx)), if_neg hx, hb _ (.inr le_rfl)]

/-- **The reduction**: the product of the reflections turns the matrix into its Hessenberg form. -/
theorem hshldr_bckmlt {n : ℕ} (hn : 2 ≤ n) (a u : Mat ℝ) :
    Turns (block n n (bckmlt n (hshldr n a) u)) (block n n a)
      (block n n (hess (restoreSubdiagonal n (hshldr n a)))) := by
  obtain ⟨G, hG, hturns⟩ := hshldr_reduced hn a
  rw [bckmlt_eq_keptProduct hn]
  convert hturns using 1
  refine block_congr ?_
  intro i hi j hj
  simp only [hess, restoreSubdiagonal_apply]
  rcases Nat.lt_trichotomy i (j + 1) with hlt | heq | hgt
  · rw [if_pos hlt.le, if_neg (by omega), hG.entry i hi j hj (by omega)]
  · rw [if_pos heq.le, if_pos ⟨by omega, heq⟩, hG.subdiagonal j (by omega), heq]
  · rw [if_neg (by omega), hG.zero i hi j (by omega) hgt]

end Chebyshev.BS
