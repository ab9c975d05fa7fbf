/-
**What spectral differentiation and the boundary conditions compute.**

The loop of `spectral_differentiate` runs through the recurrence for the derivative, whether the
output is another vector or the input itself, since it keeps the one coefficient that it has
overwritten.  `homogeneous_boundary` closes every row and every column of an array with an even
number of intervals each way; the last two rows and the last two columns are closed because the
corner they share can be summed in either order.  `second_derivative` of the identity has the
second derivatives of the functions that vanish at both ends.

Main results:

* `Chebyshev.CS.isDerivative_spectralDifferentiate` and
  `Chebyshev.CS.isDerivative_spectralDifferentiateInPlace` — the recurrence for the derivative;
* `Chebyshev.CS.homogeneousBoundary_closes` — the boundary conditions;
* `Chebyshev.CS.secondDerivative_identity` — the second derivative with boundary conditions.
-/

import CppSamples.ChebyshevDifferentiate
import CppSamples.ChebyshevExpansion

set_option relaxedAutoImplicit false
set_option autoImplicit false

namespace Chebyshev.CS

open CountedLoop ChebyshevExpansion Function Finset

/-! ### Differentiation -/

section Differentiate

variable {K : Type*} [Field K] {n : ℕ} {out : ℕ → K} {span : K}

/-- The coefficients from `j` on are those of the derivative, but for the last one. -/
structure DoneFrom (n : ℕ) (a : ℕ → K) (span : K) (j : ℕ) (out : ℕ → K) : Prop where
  next : out (n - 1) = 2 * n * a n * span
  last : out (n - 2) = 2 * (n - 1 : ℕ) * a (n - 1) * span
  step : ∀ k, j ≤ k → k + 3 ≤ n → out k = out (k + 2) + 2 * (k + 1 : ℕ) * a (k + 1) * span

/-- The next lower coefficient. -/
theorem DoneFrom.update {a : ℕ → K} {j : ℕ} (h : DoneFrom n a span (j + 1) out) (hj : j + 3 ≤ n) :
    DoneFrom n a span j
      (update out j (out (j + 2) + 2 * (j + 1 : ℕ) * a (j + 1) * span)) := by
  refine ⟨?_, ?_, fun k hk hkn => ?_⟩
  · rw [update_of_ne (by omega), h.next]
  · rw [update_of_ne (by omega), h.last]
  · rw [update_of_ne (by omega : k + 2 ≠ j)]
    rcases Nat.eq_or_lt_of_le hk with rfl | hlt
    · rw [update_self]
    · rw [update_of_ne (by omega), h.step k hlt hkn]

/-- **The derivative**, when a coefficient of the input changes only by being written. -/
theorem isDerivative_differentiate (hn : 3 ≤ n) (read : (ℕ → K) → ℕ → K)
    (hread : ∀ out i z k, k ≠ i → read (update out i z) k = read out k) :
    IsDerivative n (read out) (differentiate n read out span) span := by
  obtain ⟨a, ha⟩ : ∃ a, a = read out := ⟨_, rfl⟩
  obtain ⟨out₁, hout₁⟩ : ∃ out₁, out₁ = update (update out (n - 1) (2 * n * a n * span)) (n - 2)
    (2 * (n - 1 : ℕ) * a (n - 1) * span) := ⟨_, rfl⟩
  -- after `t` passes the coefficients from `n - 2 - t` on are done, and the ones below are the input
  have hloop := forBelow_inv (Nat.zero_le (n - 3)) (s := (a (n - 2), out₁))
    (f := fun t s => (read s.2 (n - 3 - t), update s.2 (n - 3 - t)
      (s.2 (n - 3 - t + 2) + 2 * (n - 3 - t + 1 : ℕ) * s.1 * span)))
    (fun t s => s.1 = a (n - 2 - t) ∧ DoneFrom n a span (n - 2 - t) s.2 ∧
      ∀ k < n - 2 - t, read s.2 k = a k) ?_ ?_
  · obtain ⟨out₂, hout₂⟩ : ∃ out₂, out₂ = forDownTo (n - 3) 1 (a (n - 2), out₁) (fun j s =>
      (read s.2 j, update s.2 j (s.2 (j + 2) + 2 * (j + 1 : ℕ) * s.1 * span))) := ⟨_, rfl⟩
    have hpasses : n - 3 + 1 - 1 = n - 3 := by omega
    have hone : n - 2 - (n - 3) = 1 := by omega
    rw [forDownTo, hpasses] at hout₂
    rw [← hout₂, hone] at hloop
    obtain ⟨htemp, hdone, -⟩ := hloop
    have hresult : differentiate n read out span =
        update (update out₂.2 0 (1 / 2 * out₂.2 2 + out₂.1 * span)) n 0 := by
      rw [differentiate, forDownTo, hpasses]
      simp only [← ha, ← hout₁, ← hout₂]
    rw [hresult, ← ha]
    refine ⟨update_self _ _ _, ?_, fun k hk hkn => ?_, ?_⟩
    · rw [update_of_ne (by omega), update_of_ne (by omega), hdone.next]
    · rw [update_of_ne (by omega), update_of_ne (by omega)]
      rcases Nat.eq_or_lt_of_le hkn with heq | hlt
      · obtain rfl : k = n - 2 := by omega
        have hsucc : n - 2 + 1 = n - 1 := by omega
        rw [heq, update_self, zero_add, hdone.last, hsucc]
      · rw [update_of_ne (by omega), update_of_ne (by omega), hdone.step k hk (by omega)]
    · rw [update_of_ne (by omega), update_self, update_of_ne (by omega), update_of_ne (by omega),
        htemp]
  · have hdone₁ : DoneFrom n a span (n - 2 - 0) out₁ := by
      refine ⟨?_, ?_, fun k hk hkn => absurd hkn (by omega)⟩
      · rw [hout₁, update_of_ne (by omega), update_self]
      · rw [hout₁, update_self]
    refine ⟨rfl, hdone₁, fun k hk => ?_⟩
    simp only
    rw [hout₁, hread _ _ _ _ (by omega), hread _ _ _ _ (by omega), ha]
  · rintro t - ht ⟨temp, out'⟩ ⟨htemp, hdone, hbelow⟩
    have hprev : n - 2 - t = n - 3 - t + 1 := by omega
    have hnext : n - 2 - (t + 1) = n - 3 - t := by omega
    simp only at htemp hdone hbelow
    rw [hnext]
    refine ⟨hbelow _ (by omega), ?_, fun k hk => ?_⟩
    · rw [htemp, hprev]
      exact DoneFrom.update (hprev ▸ hdone) (by omega)
    · simp only
      rw [hread _ _ _ _ (by omega), hbelow k (by omega)]

theorem isDerivative_spectralDifferentiate (hn : 3 ≤ n) (a out : ℕ → K) (span : K) :
    IsDerivative n a (spectralDifferentiate n a out span) span :=
  isDerivative_differentiate hn (fun _ => a) fun _ _ _ _ _ => rfl

theorem isDerivative_spectralDifferentiateInPlace (hn : 3 ≤ n) (inout : ℕ → K) (span : K) :
    IsDerivative n inout (spectralDifferentiateInPlace n inout span) span :=
  isDerivative_differentiate hn (fun out => out) fun _ _ _ _ hne => update_of_ne hne _ _

/-- **Spectral differentiation is exact**, and computes the same coefficients in place. -/
theorem spectralDifferentiate_exact [CharZero K] (hn : 3 ≤ n) (a out : ℕ → K) (span : K) :
    series n (spectralDifferentiate n a out span) =
        Polynomial.C span * Polynomial.derivative (series n a) ∧
      ∀ k ≤ n, spectralDifferentiateInPlace n a span k = spectralDifferentiate n a out span k := by
  have hother := isDerivative_spectralDifferentiate hn a out span
  have hsame := isDerivative_spectralDifferentiateInPlace hn a span
  exact ⟨derivative_series (by omega) hother, hsame.unique (by omega) hother⟩

/-- The derivative of `T 3`, with the span of the unit interval. -/
theorem spectralDifferentiate_exact_three :
    series 3 (spectralDifferentiate 3 (fun k => if k = 3 then 1 else 0) (fun _ => 0) (2 : ℚ)) =
        Polynomial.C 2 * Polynomial.derivative (series 3 fun k => if k = 3 then 1 else 0) ∧
      ∀ k ≤ 3, spectralDifferentiateInPlace 3 (fun k => if k = 3 then 1 else 0) (2 : ℚ) k =
        spectralDifferentiate 3 (fun k => if k = 3 then 1 else 0) (fun _ => 0) 2 k :=
  spectralDifferentiate_exact le_rfl _ _ _

end Differentiate

/-! ### Boundary conditions -/

section Boundary

variable {K : Type*} [AddCommGroup K] {m n : ℕ} {a : Mat K}

/-- The sum over the odd places of a line. -/
theorem sum_odds (h : ℕ) (line : ℕ → K) :
    ∑ k ∈ range (2 * h + 1) with k % 2 = 1, line k = ∑ t ∈ range h, line (1 + 2 * t) := by
  induction h with
  | zero => rfl
  | succ h ih =>
      have hcount : 2 * (h + 1) + 1 = 2 * h + 1 + 1 + 1 := by ring
      rw [hcount, range_add_one, filter_insert, if_neg (by omega), range_add_one, filter_insert,
        if_pos (by omega), sum_insert (by simp), ih, sum_range_succ, add_comm 1 (2 * h), add_comm]

/-- The sum over the even places of a line. -/
theorem sum_evens (h : ℕ) (line : ℕ → K) :
    ∑ k ∈ range (2 * h + 1) with k % 2 = 0, line k = ∑ t ∈ range (h + 1), line (2 * t) := by
  induction h with
  | zero => simp [sum_filter]
  | succ h ih =>
      have hcount : 2 * (h + 1) + 1 = 2 * h + 1 + 1 + 1 := by ring
      rw [hcount, range_add_one, filter_insert, if_pos (by omega), range_add_one, filter_insert,
        if_neg (by omega), sum_insert (by simp), ih, sum_range_succ _ (h + 1), add_comm]
      rfl

/-- The sums of a line, for either of the two bounds that the loops have. -/
theorem negSums_eq (hn : Even n) (hn₂ : 2 ≤ n) {bound : ℕ} (hlo : n - 2 ≤ bound)
    (hhi : bound ≤ n - 2 + 1) (line : ℕ → K) : negSums bound line =
      (-∑ k ∈ range (n - 1) with k % 2 = 1, line k,
        line 0 - ∑ k ∈ range (n - 1) with k % 2 = 0, line k) := by
  obtain ⟨h, hh⟩ : ∃ h, n - 2 = 2 * h := by
    have htwo := Nat.even_iff.1 hn
    exact ⟨(n - 2) / 2, by omega⟩
  have hsteps : steps 2 1 bound = h := by
    rw [steps]
    omega
  have hcount : n - 1 = 2 * h + 1 := by omega
  have hloop : ∀ t, forBelow 0 t ((0 : K), (0 : K)) (fun t s =>
      (s.1 - line (1 + 2 * t), s.2 - line (1 + 2 * t + 1))) =
        (-∑ k ∈ range t, line (1 + 2 * k), -∑ k ∈ range t, line (2 * (k + 1))) := by
    intro t
    refine forBelow_inv (Nat.zero_le t) (fun t s => s =
      (-∑ k ∈ range t, line (1 + 2 * k), -∑ k ∈ range t, line (2 * (k + 1)))) ?_ ?_
    · rw [range_zero, sum_empty, sum_empty, neg_zero]
    · rintro t - - s rfl
      have heven : 1 + 2 * t + 1 = 2 * (t + 1) := by ring
      simp only [sum_range_succ, neg_add, heven, sub_eq_add_neg]
  rw [negSums, forBelowBy, hsteps, hloop, hcount, sum_odds, sum_evens, sum_range_succ']
  congr 1
  rw [mul_zero, sub_add_cancel_right]

/-- What a row ends with. -/
theorem closeRow_apply (hn : Even n) (hn₂ : 2 ≤ n) {bound : ℕ} (hlo : n - 2 ≤ bound)
    (hhi : bound ≤ n - 2 + 1) (i : ℕ) (x : ℕ × ℕ) : closeRow n bound i a x =
      if x = (i, n) then -∑ k ∈ range (n - 1) with k % 2 = 0, a (i, k)
      else if x = (i, n - 1) then -∑ k ∈ range (n - 1) with k % 2 = 1, a (i, k) else a x := by
  have hfirst : (i, 0) ≠ (i, n - 1) := cell_ne (by omega)
  rw [closeRow, negSums_eq hn hn₂ hlo hhi]
  simp only
  rw [update_apply, update_of_ne hfirst, update_apply, sub_right_comm, sub_self, zero_sub]

/-- A line whose last two entries are the sums of the others is closed. -/
theorem closed_of_last {line : ℕ → K}
    (heven : line n = -∑ k ∈ range (n - 1) with k % 2 = 0, line k)
    (hodd : line (n - 1) = -∑ k ∈ range (n - 1) with k % 2 = 1, line k) : Closed n line := by
  intro p hp
  obtain rfl | rfl : p = 0 ∨ p = 1 := by omega
  · exact heven
  · exact hodd

/-- A row that has been closed, and the frame of the pass. -/
theorem closeRow_spec (hn : Even n) (hn₂ : 2 ≤ n) {bound : ℕ} (hlo : n - 2 ≤ bound)
    (hhi : bound ≤ n - 2 + 1) (i : ℕ) : (Closed n fun j => closeRow n bound i a (i, j)) ∧
      ∀ x, x.1 ≠ i ∨ x.2 < n - 1 → closeRow n bound i a x = a x := by
  have hframe : ∀ x : ℕ × ℕ, x.1 ≠ i ∨ x.2 < n - 1 → closeRow n bound i a x = a x := by
    rintro ⟨i', j⟩ hx
    simp only at hx
    rw [closeRow_apply hn hn₂ hlo hhi, if_neg (cell_ne (by omega)), if_neg (cell_ne (by omega))]
  have hsum : ∀ p, ∑ k ∈ range (n - 1) with k % 2 = p, closeRow n bound i a (i, k) =
      ∑ k ∈ range (n - 1) with k % 2 = p, a (i, k) := by
    refine fun p => sum_congr rfl fun k hk => hframe _ (.inr ?_)
    exact mem_range.1 (mem_filter.1 hk).1
  refine ⟨closed_of_last ?_ ?_, hframe⟩
  · rw [hsum, closeRow_apply hn hn₂ hlo hhi, if_pos rfl]
  · rw [hsum, closeRow_apply hn hn₂ hlo hhi, if_neg (cell_ne (by omega)), if_pos rfl]

/-- A pass over a column is a pass over a row of the transposed array. -/
theorem closeColumn_eq (m bound j : ℕ) (a : Mat K) :
    closeColumn m bound j a = fun x => closeRow m bound j (fun y => a y.swap) x.swap := by
  have hodds := update_swap a (m - 1) j (negSums bound fun i => a (i, j)).1
  have hfirst := congrFun hodds (0, j)
  rw [closeColumn, closeRow]
  simp only
  rw [← hfirst, ← hodds]
  exact (update_swap _ m j _).symm

/-- The first loop: the rows above the last two. -/
theorem closeRows_spec (hn : Even n) (hn₂ : 2 ≤ n) {bound : ℕ} (hlo : n - 2 ≤ bound)
    (hhi : bound ≤ n - 2 + 1) (k : ℕ) :
    (∀ i < k, Closed n fun j => forBelow 0 k a (closeRow n bound) (i, j)) ∧
      ∀ x : ℕ × ℕ, x.2 < n - 1 → forBelow 0 k a (closeRow n bound) x = a x := by
  refine forBelow_inv (Nat.zero_le k) (fun k (b : Mat K) =>
    (∀ i < k, Closed n fun j => b (i, j)) ∧ ∀ x : ℕ × ℕ, x.2 < n - 1 → b x = a x) ?_ ?_
  · exact ⟨fun i hi => absurd hi (Nat.not_lt_zero i), fun _ _ => rfl⟩
  · rintro k - - b ⟨hclosed, hframe⟩
    obtain ⟨hrow, hrest⟩ := closeRow_spec (a := b) hn hn₂ hlo hhi k
    refine ⟨fun i hi => ?_, fun x hx => ?_⟩
    · rcases Nat.lt_succ_iff_lt_or_eq.1 hi with hlt | rfl
      · simp only [hrest (i, _) (.inl hlt.ne)]
        exact hclosed i hlt
      · exact hrow
    · rw [hrest x (.inr hx), hframe x hx]

/-- The second loop: the columns left of the last two. -/
theorem closeColumns_spec (hm : Even m) (hm₂ : 2 ≤ m) {bound : ℕ} (hlo : m - 2 ≤ bound)
    (hhi : bound ≤ m - 2 + 1) (k : ℕ) :
    (∀ j < k, Closed m fun i => forBelow 0 k a (closeColumn m bound) (i, j)) ∧
      ∀ x : ℕ × ℕ, x.1 < m - 1 → forBelow 0 k a (closeColumn m bound) x = a x := by
  have hswap : forBelow 0 k a (closeColumn m bound) =
      fun x => forBelow 0 k (fun y => a y.swap) (closeRow m bound) x.swap := by
    refine forBelow_rel (fun b c : Mat K => b = fun x => c x.swap) rfl ?_
    rintro j - - b c rfl
    exact closeColumn_eq m bound j fun x => c x.swap
  obtain ⟨hclosed, hframe⟩ := closeRows_spec (a := fun y => a y.swap) hm hm₂ hlo hhi k
  rw [hswap]
  exact ⟨hclosed, fun x hx => hframe x.swap hx⟩

/-- The last loop: the sums of the even rows in the last two columns. -/
theorem evenRows_eq (hm : Even m) (hm₂ : 2 ≤ m) (a : Mat K) (n : ℕ) :
    forBelowBy 2 0 m ((0 : K), (0 : K)) (fun i s => (s.1 - a (i, n - 1), s.2 - a (i, n))) =
      (-∑ i ∈ range (m - 1) with i % 2 = 0, a (i, n - 1),
        -∑ i ∈ range (m - 1) with i % 2 = 0, a (i, n)) := by
  obtain ⟨h, hh⟩ : ∃ h, m - 2 = 2 * h := by
    have htwo := Nat.even_iff.1 hm
    exact ⟨(m - 2) / 2, by omega⟩
  have hsteps : steps 2 0 m = h + 1 := by
    rw [steps]
    omega
  have hcount : m - 1 = 2 * h + 1 := by omega
  rw [forBelowBy, hsteps, hcount, sum_evens h fun i => a (i, n - 1), sum_evens h fun i => a (i, n)]
  refine forBelow_inv (Nat.zero_le (h + 1)) (fun t s => s =
    (-∑ k ∈ range t, a (2 * k, n - 1), -∑ k ∈ range t, a (2 * k, n))) ?_ ?_
  · rw [range_zero, sum_empty, sum_empty, neg_zero]
  · rintro t - - s rfl
    simp only [sum_range_succ, neg_add, zero_add, sub_eq_add_neg]

/-- **The boundary conditions** hold in every row and every column, and the entries away from the
last two rows and columns are kept. -/
theorem homogeneousBoundary_closes (hm : Even m) (hn : Even n) (hm₂ : 2 ≤ m) (hn₂ : 2 ≤ n)
    (a : Mat K) :
    (∀ i ≤ m, Closed n fun j => homogeneousBoundary m n a (i, j)) ∧
      (∀ j ≤ n, Closed m fun i => homogeneousBoundary m n a (i, j)) ∧
      ∀ i < m - 1, ∀ j < n - 1, homogeneousBoundary m n a (i, j) = a (i, j) := by
  obtain ⟨t, ht⟩ : ∃ t, t = homogeneousBoundary m n a := ⟨_, rfl⟩
  obtain ⟨r, hr⟩ : ∃ r, r = forUpTo 0 (m - 2) a fun i a => closeRow n (n - 2 + 1) i a := ⟨_, rfl⟩
  obtain ⟨c, hc⟩ : ∃ c, c = forUpTo 0 (n - 2) r fun j a => closeColumn m (m - 2) j a := ⟨_, rfl⟩
  obtain ⟨l, hl⟩ : ∃ l, l = closeRow n (n - 2) (m - 1) c := ⟨_, rfl⟩
  obtain ⟨hrows, hrest⟩ := closeRows_spec (a := a) hn hn₂ (Nat.le_add_right (n - 2) 1) le_rfl
    (m - 2 + 1)
  obtain ⟨hcolumns, hcrest⟩ := closeColumns_spec (a := r) hm hm₂ le_rfl
    (Nat.le_add_right (m - 2) 1) (n - 2 + 1)
  obtain ⟨hlast, hlrest⟩ := closeRow_spec (a := c) hn hn₂ le_rfl (Nat.le_add_right (n - 2) 1)
    (m - 1)
  have hcorner : t = update (update l (m, n - 1) (-∑ i ∈ range (m - 1) with i % 2 = 0, l (i, n - 1)))
      (m, n) (-∑ i ∈ range (m - 1) with i % 2 = 0, l (i, n)) := by
    rw [ht, homogeneousBoundary, ← hr, ← hc, ← hl, evenRows_eq hm hm₂]
  rw [forUpTo] at hr hc
  rw [← hr] at hrows hrest
  rw [← hc] at hcolumns hcrest
  rw [← hl] at hlast hlrest
  rw [← ht]
  have hkeep : ∀ x, x ≠ (m, n - 1) → x ≠ (m, n) → t x = l x := by
    intro x hne hne'
    rw [hcorner, update_of_ne hne', update_of_ne hne]
  have htop : ∀ i < m - 1, ∀ j, t (i, j) = r (i, j) := by
    intro i hi j
    rw [hkeep _ (cell_ne (by omega)) (cell_ne (by omega)), hlrest _ (.inl (by simp only; omega)),
      hcrest _ hi]
  have hrow : ∀ i < m - 1, Closed n fun j => t (i, j) := by
    intro i hi
    simp only [htop i hi]
    exact hrows i (by omega)
  have hcolumn : ∀ j < n - 1, Closed m fun i => t (i, j) := by
    intro j hj
    have hcol : ∀ i, t (i, j) = c (i, j) := fun i => by
      rw [hkeep _ (cell_ne (by omega)) (cell_ne (by omega)), hlrest _ (.inr hj)]
    simp only [hcol]
    exact hcolumns j (by omega)
  have hnext : Closed n fun j => t (m - 1, j) := by
    have hsame : ∀ j, t (m - 1, j) = l (m - 1, j) := fun j =>
      hkeep _ (cell_ne (by omega)) (cell_ne (by omega))
    simp only [hsame]
    exact hlast
  have heven : ∀ q < 2, t (m, n - q) = -∑ i ∈ range (m - 1) with i % 2 = 0, t (i, n - q) := by
    intro q hq
    have hsum : ∑ i ∈ range (m - 1) with i % 2 = 0, t (i, n - q) =
        ∑ i ∈ range (m - 1) with i % 2 = 0, l (i, n - q) := by
      refine sum_congr rfl ?_
      intro i hi
      have hlt := mem_range.1 (mem_filter.1 hi).1
      exact hkeep _ (cell_ne (by omega)) (cell_ne (by omega))
    rw [hsum, hcorner]
    obtain rfl | rfl : q = 0 ∨ q = 1 := by omega
    · exact update_self _ _ _
    · rw [update_of_ne (cell_ne (by omega)), update_self]
  refine ⟨fun i hi => ?_, fun j hj => ?_, fun i hi j hj => ?_⟩
  · obtain hlt | rfl | rfl : i < m - 1 ∨ i = m - 1 ∨ i = m := by omega
    · exact hrow i hlt
    · exact hnext
    · intro q hq
      have hswap := closed_corner (p := 0) (q := q) (c := t) (by omega) hq hrow hcolumn
      exact (heven q hq).trans (congrArg Neg.neg hswap)
  · rcases lt_or_ge j (n - 1) with hlt | hge
    · exact hcolumn j hlt
    · obtain ⟨q, hq, rfl⟩ : ∃ q < 2, j = n - q := ⟨n - j, by omega, by omega⟩
      refine closed_of_last (heven q hq) ?_
      have hswap := closed_corner (p := 1) (q := q) (c := t) (by omega) hq hrow hcolumn
      rw [hswap]
      exact hnext q hq
  · rw [htop i hi, hrest _ hj]

end Boundary

/-! ### The second derivative -/

section SecondDerivative

variable {K : Type*} [Field K] {m n : ℕ}

/-- What a row ends with. -/
theorem secondDerivative_apply (a : Mat K) {i j : ℕ} (hi : i ≤ m) (hj : j ≤ n) :
    secondDerivative m n a (i, j) = spectralDifferentiateInPlace n
      (spectralDifferentiateInPlace n (fun j => homogeneousBoundary m n a (i, j)) 1) 1 j := by
  rw [secondDerivative, forUpTo, forBelow_layers Prod.fst fun x =>
    if x.2 ≤ n then spectralDifferentiateInPlace n (spectralDifferentiateInPlace n
      (fun j => homogeneousBoundary m n a (x.1, j)) 1) 1 x.2 else homogeneousBoundary m n a x]
  · rw [if_pos (by simp only; omega)]
    exact if_pos hj
  · rintro k - - b x hx
    exact if_neg fun h => hx h.1
  · rintro k - - b hb ⟨i, j⟩ hx
    simp only at hx hb ⊢
    subst hx
    have hrow : (fun j => b (i, j)) = fun j => homogeneousBoundary m n a (i, j) :=
      funext fun j => hb _ (.inr le_rfl)
    rw [hrow, hb _ (.inr le_rfl)]
    exact if_congr (and_iff_right rfl) rfl rfl

/-- **The second derivative of the identity** has the second derivatives of the functions that
vanish at both ends. -/
theorem secondDerivative_identity [NeZero (2 : K)] (hn : Even n) (hn₃ : 3 ≤ n) :
    ChebyshevExpansion.SecondDerivative n (secondDerivative n n (identity K)) := by
  obtain ⟨hrows, -, hinner⟩ := homogeneousBoundary_closes hn hn (by omega) (by omega) (identity K)
  intro k hk
  obtain ⟨row, hrow⟩ : ∃ row, row = fun j => homogeneousBoundary n n (identity K) (k, j) := ⟨_, rfl⟩
  have hbasis : series n row = basis n k := by
    have hclosed : Closed n row := hrow ▸ hrows k (by omega)
    have hentry : ∀ j < n - 1, row j = identity K (k, j) := by
      intro j hj
      rw [hrow]
      exact hinner k hk j hj
    rw [hclosed.series_eq (by omega), sum_eq_single_of_mem k (mem_range.2 hk)]
    · rw [hentry k hk, identity, if_pos rfl, Polynomial.C_1, one_mul]
    · intro j hj hne
      rw [hentry j (mem_range.1 hj), identity, if_neg hne.symm, Polynomial.C_0, zero_mul]
  have hderiv := isDerivative_spectralDifferentiateInPlace hn₃ row 1
  have hderiv₂ := isDerivative_spectralDifferentiateInPlace hn₃
    (spectralDifferentiateInPlace n row 1) 1
  rw [series_congr fun j hj => secondDerivative_apply (identity K) (by omega : k ≤ n) hj, ← hrow,
    derivative_series (by omega) hderiv₂, derivative_series (by omega) hderiv, hbasis,
    Polynomial.C_1, one_mul, one_mul]
  rfl

end SecondDerivative

end Chebyshev.CS
