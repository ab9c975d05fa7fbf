/-
**The elements of a divided segment.**

The loops of `elm_line` keep one invariant: the nodes so far divide the segment in given
proportions, and the running step is the next proportion of it.  The proportions are powers of
`alpha` times the length of the first element, so the last node is where a geometric sum puts it.
In all branches but one that sum is one and the last node is the end of the segment; the symmetric
distribution of an odd number of equal elements divides by `n + 1` instead of `n` and stops short
of it.

Main definitions:

* `BodyAx.Placed` — nodes that divide a segment in given proportions;
* `BodyAx.proportion` — the proportions of the branches;
* `BodyAx.Closes`, `BodyAx.Nodes.length`, `BodyAx.IsGeometric` — what the discretisation is for.

Main results:

* `BodyAx.endNodes_placed` — every branch places its nodes in its proportions;
* `BodyAx.elmLine_closes_iff` — the nodes reach the end of the segment, but for the equal elements
  of odd number;
* `BodyAx.elmLine_lengths` — the lengths of the elements.
-/

import CppSamples.ElmLine
import Mathlib.Algebra.Field.GeomSum

set_option relaxedAutoImplicit false
set_option autoImplicit false

namespace BodyAx

open CountedLoop Function Finset

/-! ### Nodes in given proportions -/

/-- The distance of two points. -/
noncomputable def distance (x1 y1 x2 y2 : ℝ) : ℝ := √((x2 - x1) ^ 2 + (y2 - y1) ^ 2)

/-- The nodes up to `i` divide the segment in the proportions `w`. -/
def Placed (x1 y1 x2 y2 sinit : ℝ) (w : ℕ → ℝ) (i : ℕ) (e : Nodes ℝ) : Prop :=
  ∀ j ≤ i, e.x j = x1 + (x2 - x1) * ∑ k ∈ range j, w k ∧
    e.y j = y1 + (y2 - y1) * ∑ k ∈ range j, w k ∧
    e.s j = sinit + distance x1 y1 x2 y2 * ∑ k ∈ range j, w k

/-- The nodes up to `i` are placed and the running step is the part `v` of the segment. -/
structure Marching (x1 y1 x2 y2 sinit : ℝ) (w : ℕ → ℝ) (v : ℝ) (i : ℕ) (t : March ℝ) : Prop where
  placed : Placed x1 y1 x2 y2 sinit w i t.e
  deltax : t.deltax = (x2 - x1) * v
  deltay : t.deltay = (y2 - y1) * v

/-- A step that is a part of the segment is that part of its length. -/
theorem sqrt_step {v : ℝ} (hv : 0 ≤ v) (dx dy : ℝ) :
    √(dx * v * (dx * v) + dy * v * (dy * v)) = √(dx ^ 2 + dy ^ 2) * v := by
  have hsq : dx * v * (dx * v) + dy * v * (dy * v) = (dx ^ 2 + dy ^ 2) * v ^ 2 := by ring
  rw [hsq, Real.sqrt_mul (by positivity), Real.sqrt_sq hv]

section March

variable {x1 y1 x2 y2 sinit : ℝ} {w : ℕ → ℝ} {i : ℕ}

/-- The first point. -/
theorem placed_start (e : Nodes ℝ) :
    Placed x1 y1 x2 y2 sinit w 0 (e.set 0 x1 y1 sinit) := by
  intro j hj
  obtain rfl : j = 0 := Nat.le_zero.mp hj
  simp [Nodes.set]

/-- The next node. -/
theorem Placed.next {e : Nodes ℝ} (h : Placed x1 y1 x2 y2 sinit w i e) {x y s : ℝ}
    (hx : x = e.x i + (x2 - x1) * w i) (hy : y = e.y i + (y2 - y1) * w i)
    (hs : s = e.s i + distance x1 y1 x2 y2 * w i) :
    Placed x1 y1 x2 y2 sinit w (i + 1) (e.set (i + 1) x y s) := by
  intro j hj
  rcases Nat.lt_or_eq_of_le hj with hlt | rfl
  · have hne : j ≠ i + 1 := hlt.ne
    simpa only [Nodes.set, update_of_ne hne] using h j (Nat.lt_succ_iff.mp hlt)
  · obtain ⟨hx', hy', hs'⟩ := h i le_rfl
    simp only [Nodes.set, update_self, sum_range_succ]
    refine ⟨?_, ?_, ?_⟩
    · rw [hx, hx']; ring
    · rw [hy, hy']; ring
    · rw [hs, hs']; ring

/-- One pass of a loop whose step is multiplied by `r`. -/
theorem Marching.step {t : March ℝ} {v : ℝ} (h : Marching x1 y1 x2 y2 sinit w v i t)
    (hw : w i = v) (hv : 0 ≤ v) (r : ℝ) :
    Marching x1 y1 x2 y2 sinit w (v * r) (i + 1) (elementAt (· * r) (i + 1) t) := by
  refine ⟨h.placed.next ?_ ?_ ?_, ?_, ?_⟩
  · rw [h.deltax, hw, Nat.add_sub_cancel]
  · rw [h.deltay, hw, Nat.add_sub_cancel]
  · rw [h.deltax, h.deltay, hw, Nat.add_sub_cancel]
    exact congrArg (t.e.s i + ·) (sqrt_step hv _ _)
  · show t.deltax * r = _
    rw [h.deltax, mul_assoc]
  · show t.deltay * r = _
    rw [h.deltay, mul_assoc]

/-- **A loop over the end-nodes** whose proportions are in geometric progression. -/
theorem Marching.loop {t : March ℝ} {lo hi : ℕ} {c r : ℝ} (hle : lo ≤ hi) (hc : 0 ≤ c)
    (hr : 0 ≤ r) (hw : ∀ i, lo ≤ i → i < hi → w i = c * r ^ (i - lo))
    (h : Marching x1 y1 x2 y2 sinit w c lo t) :
    Marching x1 y1 x2 y2 sinit w (c * r ^ (hi - lo)) hi
      (forUpTo (lo + 1) hi t (elementAt (· * r))) := by
  -- before pass `i` the last node is `i - 1`
  refine forBelow_inv (by omega : lo + 1 ≤ hi + 1)
    (fun i t => Marching x1 y1 x2 y2 sinit w (c * r ^ (i - 1 - lo)) (i - 1) t) ?_ ?_
  · simpa using h
  · intro i hlo hhi t ht
    obtain ⟨k, rfl⟩ : ∃ k, i = k + 1 := ⟨i - 1, by omega⟩
    have hstep := ht.step (hw k (by omega) (by omega)) (by positivity) r
    have hpow : c * r ^ (k - lo) * r = c * r ^ (k + 1 - lo) := by
      rw [mul_assoc, ← pow_succ, Nat.sub_add_comm (by omega : lo ≤ k)]
    exact hpow ▸ hstep

/-- The step between two loops. -/
theorem Marching.rescale {t : March ℝ} {v : ℝ} (h : Marching x1 y1 x2 y2 sinit w v i t) (a : ℝ) :
    Marching x1 y1 x2 y2 sinit w (v / a) i (t.rescale a) := by
  refine ⟨h.placed, ?_, ?_⟩
  · rw [March.rescale, h.deltax, mul_div_assoc]
  · rw [March.rescale, h.deltay, mul_div_assoc]

end March

/-! ### The closed forms -/

/-- The growth from one element to the next, from the growth over `m` of them. -/
theorem alpha_spec {m : ℕ} (hm : m ≠ 0) {ratio : ℝ} (hratio : 0 < ratio) (h : ratio ≠ 1) :
    0 < ratio ^ (1 / (m : ℝ)) ∧ (ratio ^ (1 / (m : ℝ))) ^ m = ratio ∧
      ∀ k, k ≠ 0 → (ratio ^ (1 / (m : ℝ))) ^ k ≠ 1 := by
  have hpos : 0 < ratio ^ (1 / (m : ℝ)) := Real.rpow_pos_of_pos hratio _
  have hpow : (ratio ^ (1 / (m : ℝ))) ^ m = ratio := by
    rw [one_div, Real.rpow_inv_natCast_pow hratio.le hm]
  refine ⟨hpos, hpow, ?_⟩
  intro k hk hone
  rw [(pow_eq_one_iff_of_nonneg hpos.le hk).mp hone, one_pow] at hpow
  exact h hpow.symm

/-- **`growth`**: the last of the powers is the given ratio, and the factor is the inverse of their
sum. -/
theorem growth_spec {n : ℕ} (hn : 2 ≤ n) {ratio : ℝ} (hratio : 0 < ratio) :
    0 < (growth n ratio).1 ∧ (growth n ratio).1 ^ (n - 1) = ratio ∧
      (growth n ratio).2 * ∑ k ∈ range n, (growth n ratio).1 ^ k = 1 := by
  by_cases h : ratio = 1
  · subst h
    have hg : growth n (1 : ℝ) = (1, 1 / (n : ℝ)) := by simp [growth, Lib.eq]
    have hn₀ : (n : ℝ) ≠ 0 := by positivity
    simp [hg, hn₀]
  · have hcast : (n : ℝ) - 1 = (n - 1 : ℕ) := by
      rw [Nat.cast_sub (by omega), Nat.cast_one]
    obtain ⟨hpos, hpow, hne⟩ := alpha_spec (by omega : n - 1 ≠ 0) hratio h
    set a : ℝ := ratio ^ (1 / ((n - 1 : ℕ) : ℝ)) with ha
    have hg : growth n ratio = (a, (1 - a) / (1 - a ^ n)) := by
      simp [growth, Lib.eq, Lib.pow, h, ha, hcast]
    have ha₁ : a - 1 ≠ 0 := sub_ne_zero.mpr (pow_one a ▸ hne 1 one_ne_zero)
    have han : 1 - a ^ n ≠ 0 := sub_ne_zero.mpr (hne n (by omega)).symm
    refine ⟨hg ▸ hpos, hg ▸ hpow, ?_⟩
    rw [hg, geom_sum_eq (sub_ne_zero.mp ha₁)]
    field_simp
    ring

/-- **`oddGrowth`**: the power of the middle element is the given ratio, and the factor is the
inverse of the sum of the powers, unless all elements are equal. -/
theorem oddGrowth_spec {m : ℕ} (hm : 1 ≤ m) {ratio : ℝ} (hratio : 0 < ratio) :
    0 < (oddGrowth (2 * m + 1) ratio).1 ∧ (oddGrowth (2 * m + 1) ratio).1 ^ m = ratio ∧
      (oddGrowth (2 * m + 1) ratio).2 * (2 * ∑ k ∈ range m, (oddGrowth (2 * m + 1) ratio).1 ^ k +
        (oddGrowth (2 * m + 1) ratio).1 ^ m) =
        if ratio = 1 then (2 * m + 1 : ℝ) / (2 * m + 2) else 1 := by
  by_cases h : ratio = 1
  · subst h
    have hg : oddGrowth (2 * m + 1) (1 : ℝ) = (1, 1 / (2 * m + 2 : ℝ)) := by
      have hcast : (2 * (m : ℝ) + 1 + 1) = 2 * m + 2 := by ring
      simp [oddGrowth, Lib.eq, hcast]
    simp only [hg, one_pow, sum_const, card_range, nsmul_eq_mul, mul_one, if_true, zero_lt_one,
      true_and]
    ring
  · obtain ⟨hpos, hpow, hne⟩ := alpha_spec (by omega : m ≠ 0) hratio h
    set a : ℝ := ratio ^ (1 / (m : ℝ)) with ha
    have hexp : (2 : ℝ) / (((2 * m + 1 : ℕ) : ℝ) - 1) = 1 / m := by
      have hm₀ : (m : ℝ) ≠ 0 := by positivity
      push_cast
      field_simp
      ring
    have htmp1 : (1 / 2 : ℝ) * (((2 * m + 1 : ℕ) : ℝ) + 1) = (m + 1 : ℕ) := by
      push_cast
      ring
    have htmp2 : (1 / 2 : ℝ) * (((2 * m + 1 : ℕ) : ℝ) - 1) = m := by
      push_cast
      ring
    have hg : oddGrowth (2 * m + 1) ratio = (a, (1 - a) / (2 - a ^ (m + 1) - a ^ m)) := by
      rw [oddGrowth, if_neg (by simpa [Lib.eq] using h)]
      simp only [Lib.half, Lib.two, Lib.pow, hexp, htmp1, htmp2, ← ha, Real.rpow_natCast]
    have ha₁ : a - 1 ≠ 0 := sub_ne_zero.mpr (pow_one a ▸ hne 1 one_ne_zero)
    -- both powers are on the same side of one
    have hden : 2 - a ^ (m + 1) - a ^ m ≠ 0 := by
      rcases lt_or_gt_of_ne (sub_ne_zero.mp ha₁) with hlt | hgt
      · have h₁ := pow_lt_one₀ hpos.le hlt (by omega : m + 1 ≠ 0)
        have h₂ := pow_lt_one₀ hpos.le hlt (by omega : m ≠ 0)
        linarith
      · have h₁ := one_lt_pow₀ hgt (by omega : m + 1 ≠ 0)
        have h₂ := one_lt_pow₀ hgt (by omega : m ≠ 0)
        linarith
    refine ⟨hg ▸ hpos, hg ▸ hpow, ?_⟩
    rw [hg, if_neg h, geom_sum_eq (sub_ne_zero.mp ha₁)]
    field_simp
    ring

/-! ### The proportions of the branches -/

/-- `alpha` and the proportion of the first element. -/
noncomputable def profile (n : ℕ) (ratio : ℝ) (isym : ℤ) : ℝ × ℝ :=
  if n = 1 then (1, 1)
  else if isym = 0 then growth n ratio
  else if n % 2 = 0 then
    if n = 2 then (1, 1 / 2) else ((growth (n / 2) ratio).1, (growth (n / 2) ratio).2 / 2)
  else oddGrowth n ratio

/-- How often the length of the first element has been multiplied by `alpha` at element `k + 1`. -/
def exponent (n : ℕ) (isym : ℤ) (k : ℕ) : ℕ := if isym = 0 then k else min k (n - 1 - k)

/-- The proportion of element `k + 1`. -/
noncomputable def proportion (n : ℕ) (ratio : ℝ) (isym : ℤ) (k : ℕ) : ℝ :=
  (profile n ratio isym).2 * (profile n ratio isym).1 ^ exponent n isym k

/-- The case in which the elements fall short of the segment. -/
def FallsShort (n : ℕ) (ratio : ℝ) (isym : ℤ) : Prop :=
  isym ≠ 0 ∧ n % 2 = 1 ∧ n ≠ 1 ∧ ratio = 1

/-- The sum over the two halves of a symmetric distribution. -/
theorem sum_symmetric (g : ℕ → ℝ) (h m : ℕ) (hm : m = h ∨ m = h + 1) :
    ∑ k ∈ range (m + h), g (min k (m + h - 1 - k)) = ∑ k ∈ range m, g k + ∑ k ∈ range h, g k := by
  rw [sum_range_add, ← sum_range_reflect g h]
  congr 1
  · refine sum_congr rfl ?_
    intro k hk
    have hk := mem_range.mp hk
    rw [min_eq_left (by omega)]
  · refine sum_congr rfl ?_
    intro k hk
    have hk := mem_range.mp hk
    rw [min_eq_right (by omega)]
    congr 1
    omega

/-- The sum over the powers of an odd number of elements. -/
theorem sum_odd (a : ℝ) (m : ℕ) :
    ∑ k ∈ range (2 * m + 1), a ^ min k (2 * m + 1 - 1 - k) =
      2 * ∑ k ∈ range m, a ^ k + a ^ m := by
  rw [two_mul m, add_right_comm m m 1, sum_symmetric (fun k => a ^ k) m (m + 1) (.inr rfl),
    sum_range_succ]
  ring

/-- The cases that the code tells apart. -/
theorem branches {n : ℕ} (hn : 1 ≤ n) (isym : ℤ) :
    n = 1 ∨ (2 ≤ n ∧ isym = 0) ∨ (n = 2 ∧ isym ≠ 0) ∨
      (∃ h, 2 ≤ h ∧ n = 2 * h ∧ isym ≠ 0) ∨ ∃ m, 1 ≤ m ∧ n = 2 * m + 1 ∧ isym ≠ 0 := by
  by_cases hsym : isym = 0
  · omega
  · rcases Nat.even_or_odd' n with ⟨k, rfl | rfl⟩
    · rcases (by omega : k = 1 ∨ 2 ≤ k) with rfl | hk
      · exact .inr (.inr (.inl ⟨rfl, hsym⟩))
      · exact .inr (.inr (.inr (.inl ⟨k, hk, rfl, hsym⟩)))
    · rcases (by omega : k = 0 ∨ 1 ≤ k) with rfl | hk
      · exact .inl rfl
      · exact .inr (.inr (.inr (.inr ⟨k, hk, rfl, hsym⟩)))

section Profile

variable {ratio : ℝ} {isym : ℤ}

theorem profile_one : profile 1 ratio isym = (1, 1) := rfl

theorem profile_biased {n : ℕ} (hn : 2 ≤ n) : profile n ratio 0 = growth n ratio := by
  rw [profile, if_neg (by omega), if_pos rfl]

theorem profile_two (hsym : isym ≠ 0) : profile 2 ratio isym = (1, 1 / 2) := by
  rw [profile, if_neg (by omega), if_neg hsym, if_pos rfl, if_pos rfl]

theorem profile_even {h : ℕ} (hh : 2 ≤ h) (hsym : isym ≠ 0) :
    profile (2 * h) ratio isym = ((growth h ratio).1, (growth h ratio).2 / 2) := by
  rw [profile, if_neg (by omega), if_neg hsym, if_pos (by omega), if_neg (by omega),
    Nat.mul_div_cancel_left h two_pos]

theorem profile_odd {m : ℕ} (hm : 1 ≤ m) (hsym : isym ≠ 0) :
    profile (2 * m + 1) ratio isym = oddGrowth (2 * m + 1) ratio := by
  rw [profile, if_neg (by omega), if_neg hsym, if_neg (by omega)]

theorem powers_nonneg {a : ℝ} (ha : 0 < a) (n : ℕ) : 0 ≤ ∑ k ∈ range n, a ^ k :=
  sum_nonneg fun k _ => (pow_pos ha k).le

theorem fallsShort_odd {m : ℕ} (hm : 1 ≤ m) (hsym : isym ≠ 0) :
    FallsShort (2 * m + 1) ratio isym ↔ ratio = 1 := by
  constructor
  · rintro ⟨-, -, -, h⟩
    exact h
  · intro h
    exact ⟨hsym, by omega, by omega, h⟩

open Classical in
/-- **The proportions are positive and sum to one**, but for the equal elements of odd number. -/
theorem proportion_spec {n : ℕ} (hn : 1 ≤ n) (hratio : 0 < ratio) (isym : ℤ) :
    0 < (profile n ratio isym).1 ∧ 0 < (profile n ratio isym).2 ∧
      ∑ k ∈ range n, proportion n ratio isym k =
        if FallsShort n ratio isym then (n : ℝ) / (n + 1) else 1 := by
  simp only [proportion, ← mul_sum]
  rcases branches hn isym with
    rfl | ⟨hn, rfl⟩ | ⟨rfl, hsym⟩ | ⟨h, hh, rfl, hsym⟩ | ⟨m, hm, rfl, hsym⟩
  · rw [profile_one, if_neg (by simp [FallsShort])]
    simp
  · obtain ⟨hpos, -, hsum⟩ := growth_spec hn hratio
    rw [profile_biased hn, if_neg (by simp [FallsShort])]
    simp only [exponent, if_true]
    exact ⟨hpos, pos_of_mul_pos_left (hsum ▸ one_pos) (powers_nonneg hpos n), hsum⟩
  · rw [profile_two hsym, if_neg (by simp [FallsShort])]
    norm_num [sum_range_succ]
  · obtain ⟨hpos, -, hsum⟩ := growth_spec hh hratio
    rw [profile_even hh hsym, if_neg (by simp [FallsShort])]
    simp only [exponent, if_neg hsym]
    have hfactor := pos_of_mul_pos_left (hsum ▸ one_pos) (powers_nonneg hpos h)
    refine ⟨hpos, half_pos hfactor, ?_⟩
    rw [two_mul, sum_symmetric (fun k => (growth h ratio).1 ^ k) h h (.inl rfl), ← two_mul]
    linarith
  · obtain ⟨hpos, -, hsum⟩ := oddGrowth_spec hm hratio
    rw [profile_odd hm hsym, if_congr (fallsShort_odd hm hsym) rfl rfl]
    simp only [exponent, if_neg hsym, sum_odd]
    have hden : 0 ≤ 2 * ∑ k ∈ range m, (oddGrowth (2 * m + 1) ratio).1 ^ k +
        (oddGrowth (2 * m + 1) ratio).1 ^ m :=
      add_nonneg (mul_nonneg two_pos.le (powers_nonneg hpos m)) (pow_pos hpos m).le
    have hsum₀ : (0 : ℝ) < if ratio = 1 then (2 * m + 1 : ℝ) / (2 * m + 2) else 1 := by
      split_ifs <;> positivity
    refine ⟨hpos, pos_of_mul_pos_left (hsum.symm ▸ hsum₀) hden, ?_⟩
    rw [hsum]
    push_cast
    ring_nf

end Profile

/-! ### Every branch places its nodes -/

section Branches

variable {ratio x1 y1 x2 y2 sinit : ℝ} {isym : ℤ} {w : ℕ → ℝ}

/-- The start of a march. -/
theorem marching_start (x1 y1 x2 y2 sinit c : ℝ) (e : Nodes ℝ) :
    Marching x1 y1 x2 y2 sinit w c 0 ⟨(x2 - x1) * c, (y2 - y1) * c, e.set 0 x1 y1 sinit⟩ :=
  ⟨placed_start e, rfl, rfl⟩

/-- A power that has been divided out again. -/
theorem pow_mul_inv_pow {a : ℝ} (ha : a ≠ 0) {p j : ℕ} (h : j ≤ p) :
    a ^ p * a⁻¹ ^ j = a ^ (p - j) := by
  rw [pow_sub₀ a ha h, inv_pow]

/-- **A march that turns around** after node `mid`: the step grows by `a` up to it, is divided by
one or two powers of `a` there, and shrinks by `a` after it. -/
theorem Marching.turn {t : March ℝ} {n mid d : ℕ} {c a : ℝ} (hd₁ : 1 ≤ d) (hd₂ : d ≤ 2)
    (hmid : d ≤ mid) (hn : n + d = 2 * mid + 1) (hc : 0 ≤ c) (ha : 0 < a)
    (hw : ∀ i < n, w i = c * a ^ min i (n - 1 - i)) (h : Marching x1 y1 x2 y2 sinit w c 0 t) :
    Placed x1 y1 x2 y2 sinit w n
      (forUpTo (mid + 1) n ((forUpTo 1 mid t (elementAt (· * a))).rescale (a ^ d))
        (elementAt (· / a))).e := by
  have hgrow : ∀ i, 0 ≤ i → i < mid → w i = c * a ^ (i - 0) := by
    intro i _ hi
    rw [hw i (by omega), min_eq_left (by omega), Nat.sub_zero]
  have hturn : c * a ^ (mid - 0) / a ^ d = c * a ^ (mid - d) := by
    rw [mul_div_assoc, Nat.sub_zero, div_eq_mul_inv, ← inv_pow, pow_mul_inv_pow ha.ne' hmid]
  have hshrink : ∀ i, mid ≤ i → i < n → w i = c * a ^ (mid - d) * a⁻¹ ^ (i - mid) := by
    intro i hlo hhi
    have hexp : n - 1 - i = mid - d - (i - mid) := by omega
    rw [hw i hhi, min_eq_right (by omega), mul_assoc, pow_mul_inv_pow ha.ne' (by omega), hexp]
  have hfirst := Marching.loop mid.zero_le hc ha.le hgrow h
  have hsecond := Marching.loop (by omega) (by positivity) (inv_pos.mpr ha).le hshrink
    (hturn ▸ hfirst.rescale (a ^ d))
  simp only [div_eq_mul_inv] at hsecond ⊢
  exact hsecond.placed

theorem oneElement_placed (e : Nodes ℝ) (hw : w 0 = 1) :
    Placed x1 y1 x2 y2 sinit w 1 (oneElement x1 y1 x2 y2 sinit e) := by
  refine (placed_start e).next ?_ ?_ ?_
  · simp [Nodes.set, hw]
  · simp [Nodes.set, hw]
  · simp [Nodes.set, hw, Lib.sqrt, distance, sq]

theorem biased_placed {n : ℕ} (e : Nodes ℝ) (hpos : 0 ≤ (growth n ratio).1)
    (hfactor : 0 ≤ (growth n ratio).2)
    (hw : ∀ i < n, w i = (growth n ratio).2 * (growth n ratio).1 ^ i) :
    Placed x1 y1 x2 y2 sinit w n (biased n ratio x1 y1 x2 y2 sinit e) :=
  (Marching.loop n.zero_le hfactor hpos (fun i _ hi => hw i hi)
    (marching_start x1 y1 x2 y2 sinit _ e)).placed

theorem symmetricTwo_placed (e : Nodes ℝ) (h₀ : w 0 = 1 / 2) (h₁ : w 1 = 1 / 2) :
    Placed x1 y1 x2 y2 sinit w 2 (symmetricTwo x1 y1 x2 y2 sinit e) := by
  have hx₀ : (1 / 2 : ℝ) * (x1 + x2) - x1 = (x2 - x1) * (1 / 2) := by ring
  have hy₀ : (1 / 2 : ℝ) * (y1 + y2) - y1 = (y2 - y1) * (1 / 2) := by ring
  have hx₁ : x2 - (1 / 2 : ℝ) * (x1 + x2) = (x2 - x1) * (1 / 2) := by ring
  have hy₁ : y2 - (1 / 2 : ℝ) * (y1 + y2) = (y2 - y1) * (1 / 2) := by ring
  have hstep := sqrt_step (by positivity : (0 : ℝ) ≤ 1 / 2) (x2 - x1) (y2 - y1)
  refine Placed.next (Placed.next (placed_start e) ?_ ?_ ?_) ?_ ?_ ?_
  · simp only [Nodes.set, update_self, Lib.half, h₀]
    linarith
  · simp only [Nodes.set, update_self, Lib.half, h₀]
    linarith
  · simp only [Nodes.set, update_self, Lib.half, Lib.sqrt, h₀, hx₀, hy₀, hstep, distance]
  · simp only [Nodes.set, update_self, Lib.half, h₁]
    linarith
  · simp only [Nodes.set, update_self, Lib.half, h₁]
    linarith
  · simp only [Nodes.set, update_self, Lib.half, Lib.sqrt, h₁, hx₀, hy₀, hx₁, hy₁, hstep, distance]

theorem symmetricEven_placed {h : ℕ} (hh : 1 ≤ h) (e : Nodes ℝ) (hpos : 0 < (growth h ratio).1)
    (hfactor : 0 ≤ (growth h ratio).2 / 2)
    (hw : ∀ i < 2 * h, w i = (growth h ratio).2 / 2 * (growth h ratio).1 ^ min i (2 * h - 1 - i)) :
    Placed x1 y1 x2 y2 sinit w (2 * h) (symmetricEven (2 * h) ratio x1 y1 x2 y2 sinit e) := by
  have hx : (1 / 2 * (x1 + x2) - x1) * (growth h ratio).2 =
      (x2 - x1) * ((growth h ratio).2 / 2) := by
    ring
  have hy : (1 / 2 * (y1 + y2) - y1) * (growth h ratio).2 =
      (y2 - y1) * ((growth h ratio).2 / 2) := by
    ring
  have hturn := Marching.turn le_rfl one_le_two hh (by omega) hfactor hpos hw
    (marching_start x1 y1 x2 y2 sinit _ e)
  simpa only [symmetricEven, Nat.mul_div_cancel_left h two_pos, Lib.half, hx, hy, pow_one]
    using hturn

theorem symmetricOdd_placed {m : ℕ} (hm : 1 ≤ m) (e : Nodes ℝ)
    (hpos : 0 < (oddGrowth (2 * m + 1) ratio).1) (hfactor : 0 ≤ (oddGrowth (2 * m + 1) ratio).2)
    (hw : ∀ i < 2 * m + 1, w i = (oddGrowth (2 * m + 1) ratio).2 *
      (oddGrowth (2 * m + 1) ratio).1 ^ min i (2 * m + 1 - 1 - i)) :
    Placed x1 y1 x2 y2 sinit w (2 * m + 1)
      (symmetricOdd (2 * m + 1) ratio x1 y1 x2 y2 sinit e) := by
  have hfirst : (2 * m + 1 + 3) / 2 = m + 1 + 1 := by omega
  have hsecond : (2 * m + 1 + 5) / 2 - 1 = m + 1 + 1 := by omega
  have hturn := Marching.turn one_le_two le_rfl (by omega : 2 ≤ m + 1) (by omega) hfactor hpos hw
    (marching_start x1 y1 x2 y2 sinit _ e)
  simp only [symmetricOdd, hfirst, hsecond, ← sq]
  exact hturn

/-- **Every branch places its nodes** in its proportions. -/
theorem endNodes_placed {n : ℕ} (hn : 1 ≤ n) (hratio : 0 < ratio) (x1 y1 x2 y2 sinit : ℝ)
    (isym : ℤ) (e : Nodes ℝ) :
    Placed x1 y1 x2 y2 sinit (proportion n ratio isym) n
      (endNodes n ratio x1 y1 x2 y2 sinit e isym) := by
  obtain ⟨hpos, hfactor, -⟩ := proportion_spec hn hratio isym
  rcases branches hn isym with
    rfl | ⟨hn, rfl⟩ | ⟨rfl, hsym⟩ | ⟨h, hh, rfl, hsym⟩ | ⟨m, hm, rfl, hsym⟩
  · exact oneElement_placed e (by simp [proportion, profile_one])
  · rw [endNodes, if_neg (by omega), if_pos rfl]
    rw [profile_biased hn] at hpos hfactor
    refine biased_placed e hpos.le hfactor.le ?_
    intro i _
    rw [proportion, profile_biased hn, exponent, if_pos rfl]
  · rw [endNodes, if_neg (by omega), if_neg hsym, if_pos rfl, if_pos rfl]
    refine symmetricTwo_placed e ?_ ?_
    · rw [proportion, profile_two hsym, one_pow, mul_one]
    · rw [proportion, profile_two hsym, one_pow, mul_one]
  · rw [endNodes, if_neg (by omega), if_neg hsym, if_pos (by omega), if_neg (by omega)]
    rw [profile_even hh hsym] at hpos hfactor
    refine symmetricEven_placed (by omega) e hpos hfactor.le ?_
    intro i _
    rw [proportion, profile_even hh hsym, exponent, if_neg hsym]
  · rw [endNodes, if_neg (by omega), if_neg hsym, if_neg (by omega)]
    rw [profile_odd hm hsym] at hpos hfactor
    refine symmetricOdd_placed hm e hpos hfactor.le ?_
    intro i _
    rw [proportion, profile_odd hm hsym, exponent, if_neg hsym]

end Branches

/-! ### The end of the segment -/

/-- The nodes start at the first point, reach the last one, and the arc length grows by the distance
of the two. -/
def Closes (x1 y1 x2 y2 sinit : ℝ) (n : ℕ) (e : Nodes ℝ) : Prop :=
  e.x 0 = x1 ∧ e.y 0 = y1 ∧ e.x n = x2 ∧ e.y n = y2 ∧ e.s 0 = sinit ∧
    e.s n - sinit = distance x1 y1 x2 y2

/-- The distance of two different points. -/
theorem distance_pos {x1 y1 x2 y2 : ℝ} (hne : (x1, y1) ≠ (x2, y2)) : 0 < distance x1 y1 x2 y2 := by
  refine Real.sqrt_pos.mpr ?_
  by_cases hx : x2 - x1 = 0
  · have hy : y2 - y1 ≠ 0 := by
      intro hy
      exact hne (Prod.ext (sub_eq_zero.mp hx).symm (sub_eq_zero.mp hy).symm)
    positivity
  · positivity

/-- Nodes in proportions that sum to `S` close the segment when `S` is one, or the segment a
point. -/
theorem Placed.closes_iff {x1 y1 x2 y2 sinit S : ℝ} {w : ℕ → ℝ} {n : ℕ} {e : Nodes ℝ}
    (h : Placed x1 y1 x2 y2 sinit w n e) (hS : ∑ k ∈ range n, w k = S) :
    Closes x1 y1 x2 y2 sinit n e ↔ S = 1 ∨ (x1, y1) = (x2, y2) := by
  obtain ⟨hx₀, hy₀, hs₀⟩ := h 0 n.zero_le
  obtain ⟨hx, hy, hs⟩ := h n le_rfl
  rw [range_zero, sum_empty, mul_zero, add_zero] at hx₀ hy₀ hs₀
  rw [hS] at hx hy hs
  constructor
  · rintro ⟨-, -, -, -, -, hlen⟩
    by_cases hne : (x1, y1) = (x2, y2)
    · exact .inr hne
    · refine .inl (mul_left_cancel₀ (distance_pos hne).ne' ?_)
      linarith
  · rintro (rfl | heq)
    · refine ⟨hx₀, hy₀, ?_, ?_, hs₀, ?_⟩ <;> linarith
    · obtain ⟨rfl, rfl⟩ := Prod.mk.inj heq
      have hzero : distance x1 y1 x1 y1 = 0 := by simp [distance]
      rw [sub_self, zero_mul, add_zero] at hx hy
      rw [hzero, zero_mul, add_zero] at hs
      exact ⟨hx₀, hy₀, hx, hy, hs₀, by rw [hs, hzero, sub_self]⟩

/-- **The nodes reach the end of the segment**, but for an odd number of equal elements that are
asked for as a symmetric distribution. -/
theorem elmLine_closes_iff {n : ℕ} (hn : 1 ≤ n) {ratio : ℝ} (hratio : 0 < ratio)
    (x1 y1 x2 y2 sinit : ℝ) (isym : ℤ) (e m : Nodes ℝ) :
    Closes x1 y1 x2 y2 sinit n (elmLine n ratio x1 y1 x2 y2 sinit isym e m).1 ↔
      ¬(FallsShort n ratio isym ∧ (x1, y1) ≠ (x2, y2)) := by
  have hplaced := endNodes_placed hn hratio x1 y1 x2 y2 sinit isym e
  obtain ⟨-, -, hsum⟩ := proportion_spec hn hratio isym
  refine (hplaced.closes_iff hsum).trans ?_
  by_cases hfalls : FallsShort n ratio isym
  · have hlt : (n : ℝ) / (n + 1) ≠ 1 := by
      rw [Ne, div_eq_one_iff_eq (by positivity)]
      linarith
    rw [if_pos hfalls, or_iff_right hlt, and_iff_right hfalls, not_not]
  · rw [if_neg hfalls]
    exact iff_of_true (.inl rfl) fun h => hfalls h.1

/-- Three elements, the middle one twice as long as the others. -/
theorem elmLine_closes_iff_three :
    Closes 0 0 1 0 0 3 (elmLine 3 2 0 0 1 0 0 1 ⟨0, 0, 0⟩ ⟨0, 0, 0⟩).1 := by
  refine (elmLine_closes_iff (by decide) two_pos 0 0 1 0 0 1 ⟨0, 0, 0⟩ ⟨0, 0, 0⟩).mpr ?_
  rintro ⟨⟨-, -, -, hratio⟩, -⟩
  norm_num at hratio

/-- Three equal elements of the unit segment end at three quarters of it. -/
theorem elmLine_three_equal :
    (elmLine 3 1 0 0 1 0 0 1 ⟨0, 0, 0⟩ ⟨0, 0, 0⟩).1.x 3 = (3 / 4 : ℝ) ∧
      ¬Closes 0 0 1 0 0 3 (elmLine 3 1 0 0 1 0 0 1 ⟨0, 0, 0⟩ ⟨0, 0, 0⟩).1 := by
  have hplaced := endNodes_placed (by decide : 1 ≤ 3) one_pos 0 0 1 0 0 1 ⟨0, 0, 0⟩
  obtain ⟨-, -, hsum⟩ := proportion_spec (by decide : 1 ≤ 3) (one_pos : (0 : ℝ) < 1) 1
  have hfalls : FallsShort 3 1 1 := ⟨by decide, by decide, by decide, rfl⟩
  rw [if_pos hfalls] at hsum
  constructor
  · have hx := (hplaced 3 le_rfl).1
    rw [hsum] at hx
    refine hx.trans ?_
    norm_num
  · intro hcloses
    have hone := (hplaced.closes_iff hsum).mp hcloses
    norm_num at hone

/-! ### The lengths of the elements -/

/-- The length of element `i`: the distance of the nodes `i - 1` and `i`. -/
noncomputable def Nodes.length (e : Nodes ℝ) (i : ℕ) : ℝ :=
  distance (e.x (i - 1)) (e.y (i - 1)) (e.x i) (e.y i)

/-- From `lo` to `hi` every length is `a` times the one before it. -/
def IsGeometric (length : ℕ → ℝ) (lo hi : ℕ) (a : ℝ) : Prop :=
  ∀ i, lo ≤ i → i < hi → length (i + 1) = length i * a

section Lengths

variable {x1 y1 x2 y2 sinit : ℝ} {w : ℕ → ℝ} {n : ℕ} {e : Nodes ℝ}

/-- The length of a placed element. -/
theorem Placed.length (h : Placed x1 y1 x2 y2 sinit w n e) {k : ℕ} (hk : k < n) (hw : 0 ≤ w k) :
    e.length (k + 1) = distance x1 y1 x2 y2 * w k ∧ e.s (k + 1) - e.s k = e.length (k + 1) := by
  obtain ⟨hx₀, hy₀, hs₀⟩ := h k hk.le
  obtain ⟨hx₁, hy₁, hs₁⟩ := h (k + 1) hk
  rw [sum_range_succ, mul_add, ← add_assoc, ← hx₀] at hx₁
  rw [sum_range_succ, mul_add, ← add_assoc, ← hy₀] at hy₁
  rw [sum_range_succ, mul_add, ← add_assoc, ← hs₀] at hs₁
  have hlen : e.length (k + 1) = distance x1 y1 x2 y2 * w k := by
    rw [Nodes.length, Nat.add_sub_cancel, hx₁, hy₁, distance, add_sub_cancel_left,
      add_sub_cancel_left, sq, sq, sqrt_step hw, distance]
  exact ⟨hlen, by rw [hlen, hs₁, add_sub_cancel_left]⟩

end Lengths

/-- The quotient of the last or the middle element to the first one. -/
theorem profile_ratio {ratio : ℝ} (hratio : 0 < ratio) (isym : ℤ) (n : ℕ) :
    (isym = 0 → 2 ≤ n → (profile n ratio isym).1 ^ (n - 1) = ratio) ∧
      (isym ≠ 0 → 3 ≤ n → (profile n ratio isym).1 ^ ((n + 1) / 2 - 1) = ratio) := by
  constructor
  · rintro rfl hn
    rw [profile_biased hn]
    exact (growth_spec hn hratio).2.1
  · intro hsym hn
    rcases Nat.even_or_odd' n with ⟨k, rfl | rfl⟩
    · have hexp : (2 * k + 1) / 2 - 1 = k - 1 := by omega
      rw [profile_even (by omega) hsym, hexp]
      exact (growth_spec (by omega) hratio).2.1
    · have hexp : (2 * k + 1 + 1) / 2 - 1 = k := by omega
      rw [profile_odd (by omega) hsym, hexp]
      exact (oddGrowth_spec (by omega) hratio).2.1

/-- Lengths that are powers of `a` times one length, with the given exponents. -/
def IsPowers (n : ℕ) (isym : ℤ) (c a : ℝ) (length : ℕ → ℝ) : Prop :=
  ∀ i, 1 ≤ i → i ≤ n → length i = c * a ^ exponent n isym (i - 1)

section Powers

variable {n : ℕ} {isym : ℤ} {c a : ℝ} {length : ℕ → ℝ}

theorem IsPowers.biased (h : IsPowers n 0 c a length) : IsGeometric length 1 n a := by
  intro i hlo hhi
  have hexp : i + 1 - 1 = i - 1 + 1 := by omega
  rw [h (i + 1) (by omega) (by omega), h i hlo (by omega), exponent, exponent, if_pos rfl,
    if_pos rfl, hexp, pow_succ, mul_assoc]

theorem IsPowers.symmetric (hsym : isym ≠ 0) (h : IsPowers n isym c a length) {i : ℕ} (hlo : 1 ≤ i)
    (hhi : i ≤ n) : length i = length (n + 1 - i) := by
  have hexp : min (n + 1 - i - 1) (n - 1 - (n + 1 - i - 1)) = min (i - 1) (n - 1 - (i - 1)) := by
    omega
  rw [h i hlo hhi, h (n + 1 - i) (by omega) (by omega), exponent, exponent, if_neg hsym,
    if_neg hsym, hexp]

theorem IsPowers.firstHalf (hsym : isym ≠ 0) (h : IsPowers n isym c a length) :
    IsGeometric length 1 ((n + 1) / 2) a := by
  intro i hlo hhi
  have hexp : min (i + 1 - 1) (n - 1 - (i + 1 - 1)) = min (i - 1) (n - 1 - (i - 1)) + 1 := by omega
  rw [h (i + 1) (by omega) (by omega), h i hlo (by omega), exponent, exponent, if_neg hsym,
    if_neg hsym, hexp, pow_succ, mul_assoc]

theorem IsPowers.secondHalf (hsym : isym ≠ 0) (ha : a ≠ 0) (h : IsPowers n isym c a length) :
    IsGeometric length (n / 2 + 1) n a⁻¹ := by
  intro i hlo hhi
  have hexp : min (i - 1) (n - 1 - (i - 1)) = min (i + 1 - 1) (n - 1 - (i + 1 - 1)) + 1 := by omega
  rw [h (i + 1) (by omega) (by omega), h i (by omega) (by omega), exponent, exponent, if_neg hsym,
    if_neg hsym, hexp, pow_succ, mul_assoc, mul_inv_cancel_right₀ ha]

/-- The quotient of an element to the first one. -/
theorem IsPowers.quotient (hc : c ≠ 0) (h : IsPowers n isym c a length) {i : ℕ} (hlo : 1 ≤ i)
    (hhi : i ≤ n) : length i / length 1 = a ^ exponent n isym (i - 1) := by
  have hfirst : exponent n isym (1 - 1) = 0 := by
    unfold exponent
    split_ifs <;> omega
  rw [h i hlo hhi, h 1 le_rfl (hlo.trans hhi), hfirst, pow_zero, mul_one, mul_div_cancel_left₀ _ hc]

end Powers

/-- The mid-nodes are in the middle of the elements. -/
theorem midNodes_spec (n : ℕ) (e m : Nodes ℝ) :
    ∀ i < n, (forBelow 0 n m (midNodeAt e)).x i = (e.x i + e.x (i + 1)) / 2 ∧
      (forBelow 0 n m (midNodeAt e)).y i = (e.y i + e.y (i + 1)) / 2 ∧
      (forBelow 0 n m (midNodeAt e)).s i = (e.s i + e.s (i + 1)) / 2 := by
  refine forBelow_inv n.zero_le (fun k (m : Nodes ℝ) => ∀ i < k, m.x i = (e.x i + e.x (i + 1)) / 2 ∧
    m.y i = (e.y i + e.y (i + 1)) / 2 ∧
    m.s i = (e.s i + e.s (i + 1)) / 2) ?_ ?_
  · intro i hi
    exact absurd hi i.not_lt_zero
  · intro k _ _ m hm i hi
    rcases Nat.lt_succ_iff_lt_or_eq.mp hi with hlt | rfl
    · simpa only [midNodeAt, Nodes.set, update_of_ne hlt.ne] using hm i hlt
    · simp only [midNodeAt, Nodes.set, update_self, Lib.half]
      refine ⟨?_, ?_, ?_⟩ <;> ring

/-- **The lengths of the elements**: they are positive and are the increments of the arc length; a
biased distribution is in geometric progression; a symmetric one is in geometric progression up to
the middle and back; the given ratio is that of the last or the middle element to the first one; and
the mid-nodes are in the middle of the elements. -/
theorem elmLine_lengths (n : ℕ) {ratio : ℝ} (hratio : 0 < ratio) {x1 y1 x2 y2 : ℝ}
    (hne : (x1, y1) ≠ (x2, y2)) (sinit : ℝ) (isym : ℤ) (e m : Nodes ℝ) :
    let r := elmLine n ratio x1 y1 x2 y2 sinit isym e m
    (∀ i, 1 ≤ i → i ≤ n → 0 < r.1.length i ∧ r.1.s i - r.1.s (i - 1) = r.1.length i) ∧
      (isym = 0 → 2 ≤ n →
        (∃ a, IsGeometric r.1.length 1 n a) ∧ r.1.length n / r.1.length 1 = ratio) ∧
      (isym ≠ 0 → 3 ≤ n →
        (∀ i, 1 ≤ i → i ≤ n → r.1.length i = r.1.length (n + 1 - i)) ∧
        (∃ a, IsGeometric r.1.length 1 ((n + 1) / 2) a ∧
          IsGeometric r.1.length (n / 2 + 1) n a⁻¹) ∧
        r.1.length ((n + 1) / 2) / r.1.length 1 = ratio ∧
        r.1.length (n / 2 + 1) / r.1.length 1 = ratio) ∧
      ∀ i < n, r.2.x i = (r.1.x i + r.1.x (i + 1)) / 2 ∧
        r.2.y i = (r.1.y i + r.1.y (i + 1)) / 2 ∧ r.2.s i = (r.1.s i + r.1.s (i + 1)) / 2 := by
  intro r
  have hmid := midNodes_spec n r.1 m
  rcases Nat.eq_zero_or_pos n with rfl | hn
  · exact ⟨fun i h₁ h₂ => absurd h₂ (by omega), fun _ h => absurd h (by omega),
      fun _ h => absurd h (by omega), hmid⟩
  obtain ⟨hpos, hfirst, -⟩ := proportion_spec hn hratio isym
  have hplaced : Placed x1 y1 x2 y2 sinit (proportion n ratio isym) n r.1 :=
    endNodes_placed hn hratio x1 y1 x2 y2 sinit isym e
  set a := (profile n ratio isym).1
  have hc := mul_pos (distance_pos hne) hfirst
  have hlength : ∀ i, 1 ≤ i → i ≤ n →
      r.1.length i = distance x1 y1 x2 y2 * proportion n ratio isym (i - 1) ∧
        r.1.s i - r.1.s (i - 1) = r.1.length i := by
    intro i hlo hhi
    obtain ⟨k, rfl⟩ : ∃ k, i = k + 1 := ⟨i - 1, by omega⟩
    exact hplaced.length hhi (mul_pos hfirst (pow_pos hpos _)).le
  have hpowers :
      IsPowers n isym (distance x1 y1 x2 y2 * (profile n ratio isym).2) a r.1.length := by
    intro i hlo hhi
    rw [(hlength i hlo hhi).1, proportion, mul_assoc]
  obtain ⟨hlast, hmiddle⟩ := profile_ratio hratio isym n
  refine ⟨?_, ?_, ?_, hmid⟩
  · intro i hlo hhi
    refine ⟨?_, (hlength i hlo hhi).2⟩
    rw [hpowers i hlo hhi]
    exact mul_pos hc (pow_pos hpos _)
  · rintro rfl h₂
    refine ⟨⟨a, hpowers.biased⟩, ?_⟩
    rw [hpowers.quotient hc.ne' hn le_rfl, exponent, if_pos rfl, hlast rfl h₂]
  · intro hsym h₃
    have hquotient : ∀ i, i = (n + 1) / 2 ∨ i = n / 2 + 1 →
        r.1.length i / r.1.length 1 = ratio := by
      intro i hi
      have hexp : min (i - 1) (n - 1 - (i - 1)) = (n + 1) / 2 - 1 := by omega
      rw [hpowers.quotient hc.ne' (by omega) (by omega), exponent, if_neg hsym, hexp,
        hmiddle hsym h₃]
    exact ⟨fun i hlo hhi => hpowers.symmetric hsym hlo hhi,
      ⟨a, hpowers.firstHalf hsym, hpowers.secondHalf hsym hpos.ne'⟩,
      hquotient _ (.inl rfl), hquotient _ (.inr rfl)⟩

/-- Four elements, the two in the middle three times as long as those at the ends. -/
theorem elmLine_lengths_four :
    (elmLine 4 3 0 0 1 0 0 1 ⟨0, 0, 0⟩ ⟨0, 0, 0⟩).1.length 2 /
      (elmLine 4 3 0 0 1 0 0 1 ⟨0, 0, 0⟩ ⟨0, 0, 0⟩).1.length 1 = 3 := by
  have hne : ((0, 0) : ℝ × ℝ) ≠ (1, 0) := by simp
  have hlengths := elmLine_lengths 4 three_pos hne 0 1 ⟨0, 0, 0⟩ ⟨0, 0, 0⟩
  exact (hlengths.2.2.1 one_ne_zero (by decide)).2.2.1

end BodyAx
