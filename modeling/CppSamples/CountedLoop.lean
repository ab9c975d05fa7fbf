/-
**Counted loops over an explicit state.**

A C++ `for` loop with an integer counter is a fold of its body over an interval of counters.
This module gives that fold in the shape the numerical routines are written in, with the state
before the body, and the rules their proofs use: an invariant rule, the value of the summing
loops, the frame rule, and the rule for loops whose passes work on disjoint cells of an array.

Nothing here mentions a particular program.

Main definitions:

* `CountedLoop.forBelow`, `CountedLoop.forUpTo` — `for (i = lo; i < hi; ++i)` and
  `for (i = lo; i <= hi; ++i)`;
* `CountedLoop.forBelowBy`, `CountedLoop.forUpToBy` — the same with `i += step`;
* `CountedLoop.forDownTo` — `for (i = hi; i >= lo; --i)`;
* `CountedLoop.before` — how many passes of an inner loop have been made before an outer one.

Main results:

* `CountedLoop.forBelow_inv` — the invariant rule, and `CountedLoop.forBelow_rel_at`,
  `CountedLoop.forBelow_rel` — two loops side by side;
* `CountedLoop.forBelow_add`, `CountedLoop.forBelow_sub` — accumulating loops are finite sums;
* `CountedLoop.forBelow_frame` — a cell no pass touches keeps its value;
* `CountedLoop.forBelow_layers` — the array after a loop that writes one layer of it per pass;
* `CountedLoop.forBelow_local` — when the passes work on disjoint cells, every cell ends with
  what its own pass makes of the initial array;
* `CountedLoop.forBelow_prod` — a loop that also steps a counter of its own;
* `CountedLoop.forBelow_segments`, `CountedLoop.forBelow_segments_inv` — two nested loops that step
  one counter through both.
-/

import Mathlib.Algebra.BigOperators.Intervals
import Mathlib.Logic.Function.Iterate
import Mathlib.Tactic.Ring

set_option relaxedAutoImplicit false
set_option autoImplicit false

namespace CountedLoop

variable {σ : Type*}

/-! ### The loops -/

/-- The passes `lo, …, lo + n - 1` of the body `f`, one after the other. -/
def passes (f : ℕ → σ → σ) (lo : ℕ) : ℕ → σ → σ
  | 0, s => s
  | n + 1, s => f (lo + n) (passes f lo n s)

/-- `for (i = lo; i < hi; ++i)`. -/
def forBelow (lo hi : ℕ) (s : σ) (f : ℕ → σ → σ) : σ := passes f lo (hi - lo) s

/-- `for (i = lo; i <= hi; ++i)`. -/
def forUpTo (lo hi : ℕ) (s : σ) (f : ℕ → σ → σ) : σ := forBelow lo (hi + 1) s f

/-- The number of counters of `for (i = lo; i < hi; i += step)`. -/
def steps (step lo hi : ℕ) : ℕ := (hi - lo + (step - 1)) / step

/-- `for (i = lo; i < hi; i += step)`. -/
def forBelowBy (step lo hi : ℕ) (s : σ) (f : ℕ → σ → σ) : σ :=
  forBelow 0 (steps step lo hi) s fun t => f (lo + step * t)

/-- `for (i = lo; i <= hi; i += step)`. -/
def forUpToBy (step lo hi : ℕ) (s : σ) (f : ℕ → σ → σ) : σ := forBelowBy step lo (hi + 1) s f

/-- `for (i = hi; i >= lo; --i)`, over counters that may reach `-1`. -/
def forDownTo (hi lo : ℕ) (s : σ) (f : ℕ → σ → σ) : σ :=
  forBelow 0 (hi + 1 - lo) s fun t => f (hi - t)

theorem forBelow_of_le {lo hi : ℕ} (h : hi ≤ lo) (s : σ) (f : ℕ → σ → σ) :
    forBelow lo hi s f = s := by
  rw [forBelow, Nat.sub_eq_zero_of_le h, passes]

@[simp] theorem forBelow_self (lo : ℕ) (s : σ) (f : ℕ → σ → σ) : forBelow lo lo s f = s :=
  forBelow_of_le le_rfl s f

/-- The last pass of a loop. -/
theorem forBelow_succ {lo hi : ℕ} (h : lo ≤ hi) (s : σ) (f : ℕ → σ → σ) :
    forBelow lo (hi + 1) s f = f hi (forBelow lo hi s f) := by
  have hn : hi + 1 - lo = hi - lo + 1 := by omega
  have hlast : lo + (hi - lo) = hi := by omega
  rw [forBelow, hn, passes, hlast, forBelow]

/-- The counters of a stepping loop are those below its bound. -/
theorem lt_steps {step lo hi t : ℕ} (hstep : 0 < step) :
    t < steps step lo hi ↔ lo + step * t < hi := by
  rw [steps, Nat.lt_iff_add_one_le, Nat.le_div_iff_mul_le hstep, add_mul, one_mul, mul_comm t]
  omega

/-- The fold over the indices of a finite range is a loop. -/
theorem foldl_finRange (f : ℕ → σ → σ) (n : ℕ) (s : σ) :
    (List.finRange n).foldl (fun s (i : Fin n) => f i s) s = forBelow 0 n s f := by
  induction n with
  | zero => rfl
  | succ n ih =>
      rw [List.finRange_succ_last, List.foldl_append, List.foldl_map, forBelow_succ n.zero_le, ← ih]
      rfl

/-! ### Invariants -/

/-- **The invariant rule**: what holds at the first counter and is carried from each counter to
the next holds at the bound. -/
theorem forBelow_inv {lo hi : ℕ} (hle : lo ≤ hi) {s : σ} {f : ℕ → σ → σ} (I : ℕ → σ → Prop)
    (h₀ : I lo s) (hstep : ∀ i, lo ≤ i → i < hi → ∀ t, I i t → I (i + 1) (f i t)) :
    I hi (forBelow lo hi s f) := by
  induction hi, hle using Nat.le_induction with
  | base => simpa using h₀
  | succ hi hle ih =>
      rw [forBelow_succ hle]
      exact hstep hi hle hi.lt_succ_self _ (ih fun i hlo hhi => hstep i hlo (by omega))

/-- The invariant rule for a property that does not mention the counter. -/
theorem forBelow_inv_const {lo hi : ℕ} {s : σ} {f : ℕ → σ → σ} (I : σ → Prop)
    (h₀ : I s) (hstep : ∀ i, lo ≤ i → i < hi → ∀ t, I t → I (f i t)) :
    I (forBelow lo hi s f) := by
  rcases Nat.le_total lo hi with hle | hle
  · exact forBelow_inv hle (fun _ => I) h₀ hstep
  · rwa [forBelow_of_le hle]

/-- A loop may be cut at any counter. -/
theorem forBelow_append {lo mid hi : ℕ} (h₁ : lo ≤ mid) (h₂ : mid ≤ hi) (s : σ) (f : ℕ → σ → σ) :
    forBelow mid hi (forBelow lo mid s f) f = forBelow lo hi s f := by
  refine forBelow_inv h₂ (fun i t => t = forBelow lo i s f) rfl ?_
  intro i hmid _ t ht
  rw [forBelow_succ (h₁.trans hmid), ht]

/-- Two loops run side by side: a relation between the states that is carried from each counter to
the next. -/
theorem forBelow_rel_at {τ : Type*} {lo hi : ℕ} (hle : lo ≤ hi) {s : σ} {t : τ} {f : ℕ → σ → σ}
    {g : ℕ → τ → τ} (R : ℕ → σ → τ → Prop) (h₀ : R lo s t)
    (hstep : ∀ i, lo ≤ i → i < hi → ∀ s t, R i s t → R (i + 1) (f i s) (g i t)) :
    R hi (forBelow lo hi s f) (forBelow lo hi t g) := by
  refine forBelow_inv hle (fun i u => R i u (forBelow lo i t g)) (by simpa using h₀) ?_
  intro i hlo hhi u hu
  rw [forBelow_succ hlo]
  exact hstep i hlo hhi u _ hu

/-- Two loops run side by side: a relation between the states that every pass keeps. -/
theorem forBelow_rel {τ : Type*} {lo hi : ℕ} {s : σ} {t : τ} {f : ℕ → σ → σ} {g : ℕ → τ → τ}
    (R : σ → τ → Prop) (h₀ : R s t)
    (hstep : ∀ i, lo ≤ i → i < hi → ∀ s t, R s t → R (f i s) (g i t)) :
    R (forBelow lo hi s f) (forBelow lo hi t g) := by
  rcases Nat.le_total lo hi with hle | hle
  · exact forBelow_rel_at hle (fun _ => R) h₀ hstep
  · rwa [forBelow_of_le hle, forBelow_of_le hle]

/-! ### Accumulating loops -/

/-- A loop that only adds is a finite sum. -/
theorem forBelow_add {M : Type*} [AddCommMonoid M] (lo hi : ℕ) (z : M) (g : ℕ → M) :
    forBelow lo hi z (fun i t => t + g i) = z + ∑ i ∈ Finset.Ico lo hi, g i := by
  rcases Nat.le_total lo hi with hle | hle
  · refine forBelow_inv hle (fun i t => t = z + ∑ k ∈ Finset.Ico lo i, g k) (by simp) ?_
    intro i hlo _ t ht
    rw [ht, Finset.sum_Ico_succ_top hlo, add_assoc]
  · rw [forBelow_of_le hle, Finset.Ico_eq_empty_of_le hle, Finset.sum_empty, add_zero]

/-- A loop that only subtracts is a finite sum. -/
theorem forBelow_sub {M : Type*} [AddCommGroup M] (lo hi : ℕ) (z : M) (g : ℕ → M) :
    forBelow lo hi z (fun i t => t - g i) = z - ∑ i ∈ Finset.Ico lo hi, g i := by
  simp only [sub_eq_add_neg, forBelow_add, Finset.sum_neg_distrib]

/-- A loop that steps a value of its own next to the array: the value is an iterate, and the
array is the loop over the iterates. -/
theorem forBelow_prod {τ : Type*} (lo hi : ℕ) (w : τ) (s : σ) (next : τ → τ)
    (f : ℕ → τ → σ → σ) :
    forBelow lo hi (w, s) (fun i p => (next p.1, f i p.1 p.2)) =
      (next^[hi - lo] w, forBelow lo hi s fun i t => f i (next^[i - lo] w) t) := by
  rcases Nat.le_total lo hi with hle | hle
  · refine forBelow_inv hle (fun i p => p = (next^[i - lo] w,
      forBelow lo i s fun i t => f i (next^[i - lo] w) t)) (by simp) ?_
    rintro i hlo - t rfl
    have hi : i + 1 - lo = i - lo + 1 := by omega
    rw [forBelow_succ hlo, hi, Function.iterate_succ_apply']
  · rw [forBelow_of_le hle, forBelow_of_le hle, Nat.sub_eq_zero_of_le hle,
      Function.iterate_zero_apply]

/-! ### Nested loops that step one counter -/

section Segments

variable (n : ℕ → ℕ)

/-- The passes of the segments before segment `k`. -/
def before (k : ℕ) : ℕ := ∑ i ∈ Finset.range k, n i

@[simp] theorem before_zero : before n 0 = 0 := rfl

theorem before_succ (k : ℕ) : before n (k + 1) = before n k + n k := Finset.sum_range_succ _ _

@[simp] theorem before_one : before n 1 = n 0 := Finset.sum_range_one _

theorem before_mono {k k' : ℕ} (h : k ≤ k') : before n k ≤ before n k' :=
  monotone_nat_of_le_succ (fun k => by rw [before_succ]; omega) h

variable {n}

/-- A pass is before the end of the segments. -/
theorem before_add_lt {k l hi : ℕ} (hk : k < hi) (hl : l < n k) : before n k + l < before n hi := by
  have h := before_mono n (Nat.succ_le_of_lt hk)
  rw [Nat.succ_eq_add_one, before_succ] at h
  omega

/-- The counter tells the segment and the pass. -/
theorem before_add_inj {k l k' l' : ℕ} (hl : l < n k) (hl' : l' < n k')
    (h : before n k + l = before n k' + l') : k = k' ∧ l = l' := by
  rcases lt_trichotomy k k' with hk | rfl | hk
  · have := before_add_lt hk hl
    omega
  · exact ⟨rfl, by omega⟩
  · have := before_add_lt hk hl'
    omega

/-- Every value of the counter is that of a pass. -/
theorem exists_before_add {hi j : ℕ} (h : j < before n hi) :
    ∃ k < hi, ∃ l < n k, j = before n k + l := by
  induction hi with
  | zero => exact absurd h j.not_lt_zero
  | succ hi ih =>
      rw [before_succ] at h
      by_cases hj : j < before n hi
      · obtain ⟨k, hk, l, hl, rfl⟩ := ih hj
        exact ⟨k, by omega, l, hl, rfl⟩
      · exact ⟨hi, hi.lt_succ_self, j - before n hi, by omega, by omega⟩

/-- A sum over the counter is a sum over the passes of the segments. -/
theorem sum_before {M : Type*} [AddCommMonoid M] (hi : ℕ) (g : ℕ → M) :
    ∑ j ∈ Finset.range (before n hi), g j =
      ∑ k ∈ Finset.range hi, ∑ l ∈ Finset.range (n k), g (before n k + l) := by
  induction hi with
  | zero => rfl
  | succ hi ih => rw [before_succ, Finset.sum_range_add, ih, Finset.sum_range_succ]

variable {hi : ℕ} {s : σ}

/-- Two nested loops that step one counter through both: in pass `l` of segment `k` the counter has
gone through the passes of the segments before, and through those before `l`. -/
theorem forBelow_segments (n : ℕ → ℕ) (hi : ℕ) (s : σ) (f : ℕ → ℕ → ℕ → σ → σ) :
    forBelow 0 hi (0, s) (fun k t => forBelow 0 (n k) t fun l t => (t.1 + 1, f k l t.1 t.2)) =
      (before n hi, forBelow 0 hi s fun k s => forBelow 0 (n k) s fun l s =>
        f k l (before n k + l) s) := by
  refine forBelow_inv hi.zero_le (fun i t => t = (before n i,
    forBelow 0 i s fun k s => forBelow 0 (n k) s fun l s => f k l (before n k + l) s))
    (by simp) ?_
  rintro k - - t rfl
  rw [before_succ, forBelow_succ k.zero_le]
  refine forBelow_inv (n k).zero_le (fun l t => t = (before n k + l,
    forBelow 0 l _ fun l s => f k l (before n k + l) s)) (by simp) ?_
  rintro l - - t rfl
  rw [forBelow_succ l.zero_le, add_assoc]

/-- The invariant rule for them. -/
theorem forBelow_segments_inv {g : ℕ → ℕ → σ → σ} (I : ℕ → σ → Prop) (h₀ : I 0 s)
    (hstep : ∀ k < hi, ∀ l < n k, ∀ t, I (before n k + l) t → I (before n k + l + 1) (g k l t)) :
    I (before n hi) (forBelow 0 hi s fun k s => forBelow 0 (n k) s (g k)) := by
  refine forBelow_inv hi.zero_le (fun k t => I (before n k) t) h₀ fun k _ hk t ht => ?_
  rw [before_succ]
  exact forBelow_inv (n k).zero_le (fun l t => I (before n k + l) t) ht
    fun l _ hl t ht => hstep k hk l hl t ht

/-- Two nested loops that only add. -/
theorem forBelow_segments_add {M : Type*} [AddCommMonoid M] (n : ℕ → ℕ) (hi : ℕ) (z : M)
    (g : ℕ → ℕ → M) :
    forBelow 0 hi z (fun k t => forBelow 0 (n k) t fun l t => t + g k l) =
      z + ∑ k ∈ Finset.range hi, ∑ l ∈ Finset.range (n k), g k l := by
  simp only [forBelow_add, Nat.Ico_zero_eq_range]

end Segments

/-! ### Loops over the cells of an array -/

section Cells

variable {ι α : Type*} {lo hi : ℕ} {a : ι → α} {f : ℕ → (ι → α) → ι → α}

/-- Two cells of a two-dimensional array that differ in an index. -/
theorem cell_ne {i j i' j' : ℕ} (h : i ≠ i' ∨ j ≠ j') : (i, j) ≠ (i', j') := by
  intro he
  obtain ⟨rfl, rfl⟩ := Prod.mk.inj he
  rcases h with h | h
  · exact h rfl
  · exact h rfl

/-- One cell of an array that is written transposed. -/
theorem update_swap (a : ℕ × ℕ → α) (i j : ℕ) (v : α) :
    (fun x => Function.update (fun y : ℕ × ℕ => a y.swap) (j, i) v x.swap) =
      Function.update a (i, j) v := by
  funext x
  rw [Function.update_apply, Function.update_apply, Prod.swap_swap]
  exact if_congr (Prod.swap_inj (q := (i, j))) rfl rfl

/-- Two arrays that agree on some cells, and have the same value written to one cell. -/
theorem eqOn_update [DecidableEq ι] {b : ι → α} {S : Set ι} (h : Set.EqOn a b S) (x : ι) {v w : α}
    (hvw : v = w) : Set.EqOn (Function.update a x v) (Function.update b x w) S := by
  intro y hy
  rw [Function.update_apply, Function.update_apply, hvw, h hy]

/-- The same with a value taken from that cell. -/
theorem eqOn_update_sub [DecidableEq ι] [Sub α] {b : ι → α} {S : Set ι} (h : Set.EqOn a b S) {x : ι}
    (hx : x ∈ S) (z : α) :
    Set.EqOn (Function.update a x (a x - z)) (Function.update b x (b x - z)) S :=
  eqOn_update h x (by rw [h hx])

/-- **The frame rule**: a cell no pass touches keeps its value. -/
theorem forBelow_frame {x : ι} (h : ∀ i, lo ≤ i → i < hi → ∀ b, f i b x = b x) :
    forBelow lo hi a f x = a x :=
  forBelow_inv_const (fun b : ι → α => b x = a x) rfl fun i hlo hhi b hb => by
    rw [h i hlo hhi, hb]

/-- **Disjoint passes**: pass `i` changes only the cells with `W i` and what it writes there depends
only on the cells with `R i`.  When no earlier pass touches `R i` and no other pass touches `W i`,
every cell of `W i` ends with what pass `i` makes of the initial array. -/
theorem forBelow_local (W R : ℕ → ι → Prop)
    (hframe : ∀ i, lo ≤ i → i < hi → ∀ b x, ¬W i x → f i b x = b x)
    (hlocal : ∀ i, lo ≤ i → i < hi → ∀ b c, (∀ x, R i x → b x = c x) →
      ∀ x, W i x → f i b x = f i c x)
    (hread : ∀ i k, lo ≤ k → k < i → i < hi → ∀ x, R i x → ¬W k x)
    (hwrite : ∀ i k, lo ≤ i → i < k → k < hi → ∀ x, W i x → ¬W k x)
    {i : ℕ} (hlo : lo ≤ i) (hhi : i < hi) {x : ι} (hx : W i x) :
    forBelow lo hi a f x = f i a x := by
  have hbefore : ∀ y, R i y → forBelow lo i a f y = a y := fun y hy =>
    forBelow_frame fun k hk hki b => hframe k hk (by omega) b y (hread i k hk hki hhi y hy)
  have hat : forBelow lo (i + 1) a f x = f i a x := by
    rw [forBelow_succ hlo]
    exact hlocal i hlo hhi _ _ hbefore x hx
  rw [← forBelow_append (hlo.trans i.le_succ) hhi, ← hat]
  -- the passes after `i` leave the cell alone
  exact forBelow_frame fun k hk hkhi b => hframe k (by omega) hkhi b x
    (hwrite i k hlo (by omega) hkhi x hx)

/-- **One layer per pass**: pass `i` writes only the cells `x` with `κ x = i`, and what it writes
there is known when the earlier passes have written nothing but their own layers. -/
theorem forBelow_layers (κ : ι → ℕ) (F : ι → α)
    (hframe : ∀ i, lo ≤ i → i < hi → ∀ b x, κ x ≠ i → f i b x = b x)
    (hval : ∀ i, lo ≤ i → i < hi → ∀ b : ι → α, (∀ x, κ x < lo ∨ i ≤ κ x → b x = a x) →
      ∀ x, κ x = i → f i b x = F x) (x : ι) :
    forBelow lo hi a f x = if lo ≤ κ x ∧ κ x < hi then F x else a x := by
  rcases Nat.le_total lo hi with hle | hle
  · have hinv : ∀ x, forBelow lo hi a f x = if lo ≤ κ x ∧ κ x < hi then F x else a x := by
      refine forBelow_inv hle
        (fun i (b : ι → α) => ∀ x, b x = if lo ≤ κ x ∧ κ x < i then F x else a x) ?_ ?_
      · intro x
        rw [if_neg (by omega)]
      · intro i hlo hhi b hb x
        by_cases hx : κ x = i
        · rw [if_pos (by omega)]
          refine hval i hlo hhi b (fun y hy => ?_) x hx
          rw [hb, if_neg (by omega)]
        · rw [hframe i hlo hhi b x hx, hb]
          exact if_congr (by omega) rfl rfl
    exact hinv x
  · rw [forBelow_of_le hle, if_neg (by omega)]

/-- A loop that subtracts from one cell what it reads in the others. -/
theorem forBelow_update_sub [DecidableEq ι] [AddCommGroup α] {x : ι} {g : ℕ → (ι → α) → α}
    (hg : ∀ i, lo ≤ i → i < hi → ∀ v, g i (Function.update a x v) = g i a) :
    forBelow lo hi a (fun i b => Function.update b x (b x - g i b)) =
      Function.update a x (a x - ∑ i ∈ Finset.Ico lo hi, g i a) := by
  rcases Nat.le_total lo hi with hle | hle
  · refine forBelow_inv hle
      (fun i b => b = Function.update a x (a x - ∑ k ∈ Finset.Ico lo i, g k a)) (by simp) ?_
    rintro i hlo hhi b rfl
    rw [hg i hlo hhi, Function.update_self, Function.update_idem, Finset.sum_Ico_succ_top hlo,
      sub_sub]
  · rw [forBelow_of_le hle, Finset.Ico_eq_empty_of_le hle, Finset.sum_empty, sub_zero,
      Function.update_eq_self]

end Cells

end CountedLoop
