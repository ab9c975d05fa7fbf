/-
**The QR iteration.**

With the threshold zero, `schur` splits the matrix only where a subdiagonal entry is zero, so the
block it works on has no such entry and every sweep starts at its first row.  A sweep is an
orthogonal similarity of the Hessenberg part of the array; so is the whole iteration, and when it
succeeds no two neighbouring subdiagonal entries are left.

Main definitions:

* `Chebyshev.BS.Collects` — an orthogonal similarity, collected in the second array.

Main results:

* `Chebyshev.BS.sweep_turns` — a sweep is an orthogonal similarity;
* `Chebyshev.BS.iterate_turns` — so is the iteration, by induction on its steps;
* `Chebyshev.BS.schur_turns` — **the QR iteration**.
-/

import CppSamples.SchurDeflation
import CppSamples.SchurSweep

set_option relaxedAutoImplicit false
set_option autoImplicit false

namespace Chebyshev.BS

open CountedLoop Function Finset Reflections

/-! ### Where a sweep starts -/

/-- With the threshold zero, the search stops at an entry that is zero. -/
theorem smallSubdiagonal_spec (h : Mat ℝ) (n : ℕ) :
    (smallSubdiagonal 0 h n ≠ 0 → h (smallSubdiagonal 0 h n, smallSubdiagonal 0 h n - 1) = 0) ∧
      ∀ i, smallSubdiagonal 0 h n < i → i ≤ n → h (i, i - 1) ≠ 0 := by
  induction n with
  | zero =>
      refine ⟨fun hne => absurd rfl hne, fun i hlo hhi => ?_⟩
      omega
  | succ n ih =>
      rw [smallSubdiagonal]
      simp only [le_real, fabs_real, decide_eq_true_eq]
      split_ifs with hzero
      · refine ⟨fun _ => abs_nonpos_iff.1 hzero, fun i hlo hhi => ?_⟩
        omega
      · refine ⟨ih.1, fun i hlo hhi => ?_⟩
        rcases Nat.lt_succ_iff_lt_or_eq.1 (Nat.lt_succ_of_le hhi) with hlt | rfl
        · exact ih.2 i hlo (by omega)
        · intro he
          exact hzero (abs_nonpos_iff.2 he)

/-- An entry that is zero is not changed when it is set to zero. -/
theorem deflate_eq_self {h : Mat ℝ} {l : ℕ} (hzero : l ≠ 0 → h (l, l - 1) = 0) :
    deflate l h = h := by
  rw [deflate]
  split_ifs with hl
  · rfl
  · exact update_eq_self_iff.2 (hzero hl).symm

/-- The third component of the start vector is not zero where the subdiagonal is not. -/
theorem startVector_ne_zero {hn : ℝ} (hhn : hn ≠ 0) (sy : ℝ × ℝ) {h : Mat ℝ} {m : ℕ}
    (h₁ : h (m + 1, m) ≠ 0) (h₂ : h (m + 2, m + 1) ≠ 0) : (startVector hn sy h m).r ≠ 0 := by
  obtain ⟨v, hv⟩ : ∃ v : Vec3 ℝ, startVector hn sy h m = v.scale v.norm1 ∧
      v.r = h (m + 1, m) / hn * (h (m + 2, m + 1) / hn) := ⟨_, rfl, rfl⟩
  have hr : v.r ≠ 0 := by
    rw [hv.2]
    exact mul_ne_zero (div_ne_zero h₁ hhn) (div_ne_zero h₂ hhn)
  have hnorm : v.norm1 ≠ 0 := fun he => hr (Vec3.norm1_eq_zero he).2.2
  rw [hv.1]
  exact div_ne_zero hr hnorm

/-- **Every sweep starts at the first row of its block.** -/
theorem startRow_eq {hn : ℝ} (hhn : hn ≠ 0) (sy : ℝ × ℝ) {h : Mat ℝ} {l n : ℕ}
    (hsub : ∀ i, l < i → i ≤ n → h (i, i - 1) ≠ 0) {m : ℕ} (hlm : l ≤ m) (hmn : m + 2 ≤ n) :
    startRow hn 0 sy h l m = (l, startVector hn sy h l) := by
  induction m with
  | zero =>
      obtain rfl : l = 0 := by omega
      rfl
  | succ m ih =>
      rw [startRow]
      simp only [le_real, fabs_real, decide_eq_true_eq]
      rcases eq_or_lt_of_le hlm with rfl | hlt
      · rw [if_pos (.inl rfl)]
      · have hr : (startVector hn sy h (m + 1)).r ≠ 0 :=
          startVector_ne_zero hhn sy (hsub (m + 2) (by omega) (by omega))
            (hsub (m + 3) (by omega) (by omega))
        have hpos : 0 < |h (m + 1, m)| * (|(startVector hn sy h (m + 1)).q| +
            |(startVector hn sy h (m + 1)).r|) := by
          refine mul_pos (abs_pos.2 (hsub (m + 1) hlt (by omega))) ?_
          exact add_pos_of_nonneg_of_pos (abs_nonneg _) (abs_pos.2 hr)
        rw [if_neg, ih (by omega) (by omega)]
        rintro (he | hle)
        · omega
        · rw [mul_zero] at hle
          exact absurd hle (not_le.2 hpos)

/-! ### A sweep -/

/-- The entries that a sweep clears before it starts. -/
theorem clearBelow_apply (n m : ℕ) (h : Mat ℝ) (x : ℕ × ℕ) :
    clearBelow n m h x =
      if x.1 ≤ n ∧ (m + 2 ≤ x.1 ∧ x.2 + 2 = x.1 ∨ m + 3 ≤ x.1 ∧ x.2 + 3 = x.1) then 0 else h x := by
  -- each of the two loops clears one cell in every row
  have hloop : ∀ (d : ℕ) (b : Mat ℝ) (x : ℕ × ℕ),
      forUpTo (m + d) n b (fun i h => update h (i, i - d) 0) x =
        if m + d ≤ x.1 ∧ x.1 < n + 1 then if x.2 + d = x.1 then 0 else b x else b x := by
    intro d b x
    rw [forUpTo]
    refine forBelow_layers Prod.fst (fun x => if x.2 + d = x.1 then 0 else b x)
      (fun i _ _ c y hy => ?_) (fun i hlo _ c hc y hy => ?_) x
    · exact update_of_ne (fun he => hy (congrArg Prod.fst he)) _ _
    · obtain ⟨i', j⟩ := y
      simp only at hy hc ⊢
      subst hy
      rcases eq_or_ne (j + d) i' with hj | hj
      · rw [if_pos hj, show i' - d = j by omega, update_self]
      · rw [if_neg hj, update_of_ne (cell_ne (by omega)), hc _ (.inr le_rfl)]
  rw [clearBelow, hloop 3, hloop 2]
  split_ifs <;> first | rfl | omega

/-- An orthogonal similarity of the Hessenberg part, collected in the second array. -/
def Collects (nn : ℕ) (s t : Mat ℝ × Mat ℝ) : Prop :=
  ∃ Q, Turns Q (block nn nn (hess s.1)) (block nn nn (hess t.1)) ∧
    block nn nn t.2 = block nn nn s.2 * Q

theorem Collects.refl (nn : ℕ) (s : Mat ℝ × Mat ℝ) : Collects nn s s :=
  ⟨1, Turns.refl _, (Matrix.mul_one _).symm⟩

theorem Collects.trans {nn : ℕ} {s t v : Mat ℝ × Mat ℝ} (h : Collects nn s t)
    (h' : Collects nn t v) : Collects nn s v := by
  obtain ⟨Q, hQ, hu⟩ := h
  obtain ⟨P, hP, hv⟩ := h'
  exact ⟨Q * P, hQ.trans hP, by rw [hv, hu, Matrix.mul_assoc]⟩

/-- The array before the first pass. -/
theorem bulge_start {nn n l : ℕ} {h : Mat ℝ} (hd : Deflated nn n h) (hln : l + 2 ≤ n)
    (hzero : l ≠ 0 → h (l, l - 1) = 0) : Bulge nn n l l (clearBelow n l h) (hess h) := by
  have hfar : ∀ i j, j + 1 < i → hess h (i, j) = 0 := fun i j hij =>
    if_neg (by simp only; omega)
  refine ⟨fun i _ j _ hij _ => hfar i j hij, ?_, ?_, ?_⟩
  · intro i _ j hjl hli
    rcases Nat.lt_or_ge (j + 1) i with hlt | hge
    · exact hfar i j hlt
    · obtain rfl : i = l := by omega
      obtain rfl : j = i - 1 := by omega
      exact (if_pos (by simp only; omega)).trans (hzero (by omega))
  · intro i hi j hjn hni
    rcases Nat.lt_or_ge (j + 1) i with hlt | hge
    · exact hfar i j hlt
    · obtain rfl : i = n + 1 := by omega
      obtain rfl : j = n := by omega
      exact (if_pos (by simp only; omega)).trans (hd.edge (by omega) (by omega))
  · intro i _ j _ hij
    rw [clearBelow_apply, hess]
    split_ifs <;> first | rfl | omega

/-- The array after the last pass. -/
theorem Bulge.finish {nn n l : ℕ} {h G : Mat ℝ} (hb : Bulge nn n l n h G) :
    block nn nn (hess h) = block nn nn G := by
  refine block_congr ?_
  intro i hi j hj
  rcases Nat.lt_or_ge (j + 1) i with hlt | hge
  · refine (if_neg (by simp only; omega)).trans ?_
    rcases Nat.lt_or_ge n i with hni | hin
    · rcases Nat.lt_or_ge n j with hnj | hjn
      · exact (hb.support i hi j hj hlt (by omega)).symm
      · exact (hb.right i hi j hjn hni).symm
    · exact (hb.support i hi j hj hlt (by omega)).symm
  · exact (if_pos (by simpa using hge)).trans (hb.entry i hi j hj (.inl hge))

/-- **A sweep** on an array whose block is `l, …, n` is an orthogonal similarity. -/
theorem sweep_turns {hn : ℝ} (hhn : hn ≠ 0) {nn n l its : ℕ} {h u : Mat ℝ} (hd : Deflated nn n h)
    (hln : l + 2 ≤ n) (hzero : l ≠ 0 → h (l, l - 1) = 0)
    (hsub : ∀ i, l < i → i ≤ n → h (i, i - 1) ≠ 0) :
    Collects nn (h, u) (sweep hn 0 nn n l its (h, u)) := by
  have hle := hd.le
  have hv : (startVector hn (shifts hn n its h) h l).length ≠ 0 :=
    Vec3.length_ne_zero (.inr (.inr (startVector_ne_zero hhn _ (hsub (l + 1) (by omega) (by omega))
      (hsub (l + 2) (by omega) (by omega)))))
  have hinv := forBelow_inv (show l ≤ n by omega) (s := (clearBelow n l h, u))
    (f := sweepAt nn n l l (startVector hn (shifts hn n its h) h l))
    (fun k s => ∃ G Q, Bulge nn n l k s.1 G ∧ Turns Q (block nn nn (hess h)) (block nn nn G) ∧
      block nn nn s.2 = block nn nn u * Q) ?_ ?_
  · have hsweep : sweep hn 0 nn n l its (h, u) = forBelow l n (clearBelow n l h, u)
        (sweepAt nn n l l (startVector hn (shifts hn n its h) h l)) := by
      rw [sweep]
      simp only
      rw [startRow_eq hhn _ hsub (by omega) (by omega), forUpTo, show n - 1 + 1 = n by omega]
    rw [← hsweep] at hinv
    obtain ⟨G, Q, hb, hQ, hu⟩ := hinv
    exact ⟨Q, hb.finish ▸ hQ, hu⟩
  · exact ⟨hess h, 1, bulge_start hd hln hzero, Turns.refl _, (Matrix.mul_one _).symm⟩
  · rintro k hlk hkn ⟨h', u'⟩ ⟨G, Q, hb, hQ, hu⟩
    obtain ⟨c, w, hrefl, hb', hu', -⟩ := sweepAt_bulge (u := u') hb hlk hkn hln hle hv
    refine ⟨_, Q * reflector nn c w, hb', hQ.reflect hrefl, ?_⟩
    rw [hu', hu, Matrix.mul_assoc]

/-! ### The iteration -/

/-- **The iteration** is an orthogonal similarity. -/
theorem iterate_turns {hn : ℝ} (hhn : hn ≠ 0) {nn n : ℕ} (its : ℕ) (s : Mat ℝ × Mat ℝ)
    (hd : Deflated nn n s.1) : Collects nn s (iterate hn 0 nn n its s).2 := by
  fun_induction iterate hn 0 nn n its s with
  | case1 its s => exact Collects.refl nn s
  | case2 n its s hn₀ l h hl ih =>
      obtain ⟨hzero, -⟩ := smallSubdiagonal_spec s.1 n
      have hs : (h, s.2) = s := Prod.ext (deflate_eq_self hzero) rfl
      rw [hs] at ih ⊢
      exact ih (hd.split hl (smallSubdiagonal_le 0 s.1 n) (Nat.pos_of_ne_zero hn₀) hzero)
  | case3 n its s hn₀ l h hl hits =>
      obtain ⟨hzero, -⟩ := smallSubdiagonal_spec s.1 n
      have hs : (h, s.2) = s := Prod.ext (deflate_eq_self hzero) rfl
      rw [hs]
      exact Collects.refl nn s
  | case4 n its s hn₀ l h hl hits ih =>
      obtain ⟨hzero, hsub⟩ := smallSubdiagonal_spec s.1 n
      have hs : (h, s.2) = s := Prod.ext (deflate_eq_self hzero) rfl
      rw [hs] at ih ⊢
      refine (sweep_turns (u := s.2) hhn hd (by omega) hzero hsub).trans (ih (hd.congr ?_))
      exact fun x hx => sweep_rows hn 0 nn (Nat.pos_of_ne_zero hn₀) l its s hx

/-- A matrix of norm zero has no entries on and above the subdiagonal. -/
theorem hessenbergNorm_eq_zero {nn : ℕ} {h : Mat ℝ} (hzero : hessenbergNorm nn h = 0) {i j : ℕ}
    (hi : i ≤ nn) (hj : j ≤ nn) (hij : i ≤ j + 1) : h (i, j) = 0 := by
  have hjl : (if 1 < i then i - 1 else 0) ≤ j := by
    split_ifs <;> omega
  have hsum : forUpTo (if 1 < i then i - 1 else 0) nn (0 : ℝ)
      (fun j rsum => rsum + Scalar.fabs (h (i, j))) ≤ 0 := by
    refine le_of_le_of_eq ?_ hzero
    exact (forUpTo_max 0 nn fun i => forUpTo (if 1 < i then i - 1 else 0) nn (0 : ℝ)
      fun j rsum => rsum + Scalar.fabs (h (i, j))).2 i (Nat.zero_le i) hi
  rw [forUpTo, forBelow_add, zero_add] at hsum
  have hle : |h (i, j)| ≤ 0 := by
    refine le_trans ?_ hsum
    exact single_le_sum (f := fun j => |h (i, j)|) (fun j _ => abs_nonneg _)
      (mem_Ico.2 ⟨hjl, by omega⟩)
  exact abs_nonpos_iff.1 hle

/-- **The QR iteration** is an orthogonal similarity of the Hessenberg part, collected in `u`, and
leaves blocks of size one and two when it succeeds. -/
theorem schur_turns (nn : ℕ) (h u : Mat ℝ) :
    Collects nn (h, u) (schur nn 0 h u).2 ∧
      ((schur nn 0 h u).1 = true → QuasiTriangular nn (schur nn 0 h u).2.1) := by
  refine ⟨?_, fun hok => ?_⟩
  · rw [schur]
    simp only [isZero_real, decide_eq_true_eq, zero_mul]
    split_ifs with hzero
    · exact Collects.refl nn _
    · exact iterate_turns hzero 0 (h, u) (Deflated.start nn h)
  · rcases schur_quasiTriangular nn 0 h u hok with hquasi | ⟨hzero, hsame⟩
    · exact hquasi
    · rw [hsame]
      intro i hi hlt
      exact .inr (hessenbergNorm_eq_zero (of_decide_eq_true hzero) hlt (by omega) le_rfl)

end Chebyshev.BS
