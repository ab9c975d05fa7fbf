/-
**The QR iteration as a machine.**

The loop of `schur` is left by `return` and entered again by `goto`.  Here it is a machine with a
step for every way through its body: a block is split off, a sweep is made, or the function returns.
The size of the block goes down with every split and the number of sweeps since the last split is
limited, so every run comes to an end, whatever the arithmetic and its comparisons.  What the
machine returns is what the recursive function returns.

The first test of `schur` is the only one whose outcome matters for the form of the result: it takes
a matrix for zero when its norm is not above zero, and the norm passes over entries that are not
numbers.

Main definitions:

* `Chebyshev.BS.Loop`, `Chebyshev.BS.schurStep`, `Chebyshev.BS.schurStart` — the machine;
* `Chebyshev.BS.NanReal` — the real numbers with one value that is not a number.

Main results:

* `Chebyshev.BS.step_cases` — what one step can do;
* `Chebyshev.BS.run_bounded` — **every run is bounded**;
* `Chebyshev.BS.exists_run_iterate` — the machine returns what `iterate` computes;
* `Chebyshev.BS.schur_terminates` — **the QR iteration terminates**, and what its success means;
* `Chebyshev.BS.schur_of_nan` — a matrix without numbers is returned as it is, with success.
-/

import CppSamples.SchurDeflation
import CppSamples.TransitionSystem

set_option relaxedAutoImplicit false
set_option autoImplicit false

namespace Chebyshev.BS

open CountedLoop TransitionSystem ZeroTest

/-! ### The machine -/

/-- The ways through the body of the loop. -/
inductive Event
  /-- `n=l-1; goto nextw;` -/
  | deflation
  /-- a sweep -/
  | sweep
  /-- `return` -/
  | exit
  deriving DecidableEq

/-- A state of the loop. -/
inductive Loop (K : Type*)
  /-- at the top of the loop -/
  | running (n its : ℕ) (h u : Mat K)
  /-- after `return` -/
  | returned (ok : Bool) (h u : Mat K)

section Machine

variable {K : Type*} [Zero K] [Add K] [Sub K] [Mul K] [Div K] [Neg K] [Scalar K]

/-- The body of the loop. -/
def next (hn test : K) (nn : ℕ) : Loop K → Option (Event × Loop K)
  | .returned _ _ _ => none
  | .running n its h u =>
    if n = 0 then some (.exit, .returned true h u)
    else
      let l := smallSubdiagonal test h n
      let h := deflate l h
      if n - 1 ≤ l then some (.deflation, .running (l - 1) 0 h u)
      else if maxIter ≤ its then some (.exit, .returned false h u)
      else
        let s := sweep hn test nn n l its (h, u)
        some (.sweep, .running n (its + 1) s.1 s.2)

/-- One way through the loop, with its label. -/
def step (hn test : K) (nn : ℕ) (c : Loop K) (e : Event) : Option (Loop K) :=
  (next hn test nn c).bind fun p => if p.1 = e then some p.2 else none

/-- The loop of `schur`. -/
def schurStep (nn : ℕ) (eps : K) (h : Mat K) : Loop K → Event → Option (Loop K) :=
  let hn := hessenbergNorm nn h
  step hn (eps * hn) nn

/-- The state before the loop. -/
def schurStart (nn : ℕ) (h u : Mat K) : Loop K :=
  if isZero (hessenbergNorm nn h) then .returned true h u else .running nn 0 h u

variable {hn test : K} {nn : ℕ}

section Step

variable {n its : ℕ} {h u : Mat K}

theorem next_of_zero : next hn test nn (.running 0 its h u) = some (.exit, .returned true h u) := by
  rw [next, if_pos rfl]

theorem next_of_split (hn₀ : n ≠ 0) (hl : n - 1 ≤ smallSubdiagonal test h n) :
    next hn test nn (.running n its h u) = some (.deflation,
      .running (smallSubdiagonal test h n - 1) 0 (deflate (smallSubdiagonal test h n) h) u) :=
  (if_neg hn₀).trans (if_pos hl)

theorem next_of_limit (hn₀ : n ≠ 0) (hl : ¬n - 1 ≤ smallSubdiagonal test h n)
    (hits : maxIter ≤ its) : next hn test nn (.running n its h u) =
      some (.exit, .returned false (deflate (smallSubdiagonal test h n) h) u) :=
  (if_neg hn₀).trans ((if_neg hl).trans (if_pos hits))

theorem next_of_sweep (hn₀ : n ≠ 0) (hl : ¬n - 1 ≤ smallSubdiagonal test h n)
    (hits : ¬maxIter ≤ its) {s : Mat K × Mat K}
    (hs : sweep hn test nn n (smallSubdiagonal test h n) its
      (deflate (smallSubdiagonal test h n) h, u) = s) :
    next hn test nn (.running n its h u) = some (.sweep, .running n (its + 1) s.1 s.2) := by
  rw [← hs]
  exact (if_neg hn₀).trans ((if_neg hl).trans (if_neg hits))

/-- A step takes the way that is next. -/
theorem step_eq_some {c t : Loop K} {e : Event} :
    step hn test nn c e = some t ↔ next hn test nn c = some (e, t) := by
  simp [step, Option.bind_eq_some_iff]

/-- **What one step can do.** -/
theorem step_cases {e : Event} {t : Loop K}
    (hstep : step hn test nn (.running n its h u) e = some t) :
    (e = .exit ∧ ∃ ok h', t = .returned ok h' u) ∨
      (e = .deflation ∧ ∃ n' h', n' < n ∧ t = .running n' 0 h' u) ∨
      (e = .sweep ∧ its < maxIter ∧ ∃ h' u', t = .running n (its + 1) h' u') := by
  rw [step_eq_some] at hstep
  have hln := smallSubdiagonal_le test h n
  rcases eq_or_ne n 0 with rfl | hn₀
  · cases next_of_zero.symm.trans hstep
    exact .inl ⟨rfl, true, h, rfl⟩
  by_cases hl : n - 1 ≤ smallSubdiagonal test h n
  · cases (next_of_split hn₀ hl).symm.trans hstep
    exact .inr (.inl ⟨rfl, _, _, by omega, rfl⟩)
  by_cases hits : maxIter ≤ its
  · cases (next_of_limit hn₀ hl hits).symm.trans hstep
    exact .inl ⟨rfl, false, _, rfl⟩
  · cases (next_of_sweep hn₀ hl hits rfl).symm.trans hstep
    exact .inr (.inr ⟨rfl, not_le.1 hits, _, _, rfl⟩)

end Step

/-- Nothing happens after `return`. -/
theorem run_returned {ok : Bool} {h u : Mat K} {log : List Event} {t : Loop K}
    (hrun : run (step hn test nn) (.returned ok h u) log = some t) : log = [] := by
  cases log with
  | nil => rfl
  | cons e log =>
      obtain ⟨t', hstep, -⟩ := run_cons_eq_some.1 hrun
      cases hstep

/-! ### Every run is bounded -/

/-- The bounds of a run from a block that ends at `n` and has been swept `its` times. -/
structure Bounded (n its : ℕ) (log : List Event) : Prop where
  length : log.length ≤ n * (maxIter + 1) + (maxIter - its) + 1
  deflations : log.count .deflation ≤ n
  first : ∀ k, List.replicate k .sweep <+: log → its + k ≤ maxIter
  sweeps : ∀ k, List.replicate k .sweep <:+: log → k ≤ maxIter

/-- Sweeps in a row at the beginning of a run that does not begin with a sweep. -/
theorem replicate_prefix_cons {k : ℕ} {e : Event} {log : List Event} (he : e ≠ .sweep)
    (h : List.replicate k .sweep <+: e :: log) : k = 0 := by
  cases k with
  | zero => rfl
  | succ k => exact absurd (List.cons_prefix_cons.1 h).1.symm he

section Bounds

variable {n n' its : ℕ} {log : List Event} {e : Event}

/-- Sweeps in a row in a run that does not begin with a sweep. -/
theorem replicate_infix_cons (he : e ≠ .sweep)
    (h : ∀ k, List.replicate k .sweep <:+: log → k ≤ maxIter) (k : ℕ)
    (hk : List.replicate k .sweep <:+: e :: log) : k ≤ maxIter := by
  rcases List.infix_cons_iff.1 hk with hpre | hin
  · rw [replicate_prefix_cons he hpre]
    exact Nat.zero_le _
  · exact h k hin

theorem Bounded.nil (hits : its ≤ maxIter) : Bounded n its [] := by
  refine ⟨by simp, by simp, ?_, ?_⟩
  · intro k hk
    have hlen := hk.length_le
    rw [List.length_replicate, List.length_nil] at hlen
    omega
  · intro k hk
    have hlen := hk.length_le
    rw [List.length_replicate, List.length_nil] at hlen
    omega

theorem Bounded.exit (hits : its ≤ maxIter) : Bounded n its [.exit] := by
  refine ⟨by simp, by simp, ?_, ?_⟩
  · intro k hk
    rw [replicate_prefix_cons (by decide) hk]
    exact hits
  · exact replicate_infix_cons (by decide) (Bounded.nil (n := n) hits).sweeps

theorem Bounded.deflation (hits : its ≤ maxIter) (hlt : n' < n) (h : Bounded n' 0 log) :
    Bounded n its (.deflation :: log) := by
  refine ⟨?_, ?_, ?_, replicate_infix_cons (by decide) h.sweeps⟩
  · have hlen := h.length
    have hmul : (n' + 1) * (maxIter + 1) ≤ n * (maxIter + 1) := Nat.mul_le_mul_right _ hlt
    rw [add_mul] at hmul
    rw [List.length_cons]
    omega
  · have hcount := h.deflations
    rw [List.count_cons_self]
    omega
  · intro k hk
    rw [replicate_prefix_cons (by decide) hk]
    exact hits

theorem Bounded.sweep (hits : its < maxIter) (h : Bounded n (its + 1) log) :
    Bounded n its (.sweep :: log) := by
  have hfirst : ∀ k, List.replicate k .sweep <+: Event.sweep :: log → its + k ≤ maxIter := by
    intro k hk
    cases k with
    | zero => exact hits.le
    | succ k =>
        have hrest := h.first k (List.cons_prefix_cons.1 hk).2
        omega
  refine ⟨?_, ?_, hfirst, ?_⟩
  · have hlen := h.length
    rw [List.length_cons]
    omega
  · rw [List.count_cons_of_ne (by decide)]
    exact h.deflations
  · intro k hk
    rcases List.infix_cons_iff.1 hk with hpre | hin
    · exact (Nat.le_add_left k its).trans (hfirst k hpre)
    · exact h.sweeps k hin

end Bounds

/-- **Every run is bounded**: by induction on it, with one case for each way through the loop. -/
theorem run_bounded {log : List Event} {n its : ℕ} (hits : its ≤ maxIter) {h u : Mat K} {t : Loop K}
    (hrun : run (step hn test nn) (.running n its h u) log = some t) : Bounded n its log := by
  induction log generalizing n its h u with
  | nil => exact Bounded.nil hits
  | cons e log ih =>
      obtain ⟨t', hstep, hrest⟩ := run_cons_eq_some.1 hrun
      rcases step_cases hstep with
        ⟨rfl, ok, h', rfl⟩ | ⟨rfl, n', h', hlt, rfl⟩ | ⟨rfl, hlt, h', u', rfl⟩
      · rw [run_returned hrest]
        exact Bounded.exit hits
      · exact Bounded.deflation hits hlt (ih (Nat.zero_le _) hrest)
      · exact Bounded.sweep hlt (ih hlt hrest)

/-! ### The result -/

/-- **The machine returns what `iterate` computes.** -/
theorem exists_run_iterate (n its : ℕ) (s : Mat K × Mat K) :
    ∃ log, run (step hn test nn) (.running n its s.1 s.2) log =
      some (.returned (iterate hn test nn n its s).1 (iterate hn test nn n its s).2.1
        (iterate hn test nn n its s).2.2) := by
  fun_induction iterate hn test nn n its s with
  | case1 its s =>
      exact ⟨[.exit], run_cons_eq_some.2 ⟨_, step_eq_some.2 next_of_zero, rfl⟩⟩
  | case2 n its s hn₀ l h hl ih =>
      obtain ⟨log, hlog⟩ := ih
      exact ⟨.deflation :: log,
        run_cons_eq_some.2 ⟨_, step_eq_some.2 (next_of_split hn₀ hl), hlog⟩⟩
  | case3 n its s hn₀ l h hl hits =>
      exact ⟨[.exit], run_cons_eq_some.2 ⟨_, step_eq_some.2 (next_of_limit hn₀ hl hits), rfl⟩⟩
  | case4 n its s hn₀ l h hl hits ih =>
      obtain ⟨log, hlog⟩ := ih
      exact ⟨.sweep :: log,
        run_cons_eq_some.2 ⟨_, step_eq_some.2 (next_of_sweep hn₀ hl hits rfl), hlog⟩⟩

/-- **The QR iteration terminates**, whatever the arithmetic and its comparisons: no run has more
than `nn + 1` deflations, nor more than `maxIter` sweeps in a row, and one leads to the result.  If
that is a success, the matrix has blocks of size one and two, unless the first test has taken its
norm for zero and left it as it is. -/
theorem schur_terminates (nn : ℕ) (eps : K) (h u : Mat K) :
    let r := schur nn eps h u
    (∀ log t, run (schurStep nn eps h) (schurStart nn h u) log = some t →
      log.length ≤ (nn + 1) * (maxIter + 1) ∧ log.count .deflation ≤ nn + 1 ∧
        ∀ k, List.replicate k .sweep <:+: log → k ≤ maxIter) ∧
      (∃ log, run (schurStep nn eps h) (schurStart nn h u) log =
        some (.returned r.1 r.2.1 r.2.2)) ∧
      (r.1 = true → QuasiTriangular nn r.2.1 ∨
        isZero (hessenbergNorm nn h) = true ∧ r.2 = (h, u)) := by
  intro r
  refine ⟨?_, ?_, schur_quasiTriangular nn eps h u⟩
  · intro log t hrun
    rw [schurStart] at hrun
    split_ifs at hrun with hzero
    · rw [run_returned hrun]
      refine ⟨Nat.zero_le _, Nat.zero_le _, fun k hk => ?_⟩
      exact (Bounded.nil (n := 0) (Nat.zero_le _)).sweeps k hk
    · have hbounded := run_bounded (Nat.zero_le _) hrun
      have hlen := hbounded.length
      refine ⟨by rw [add_mul]; omega, hbounded.deflations.trans nn.le_succ, hbounded.sweeps⟩
  · simp only [r, schurStart, schur]
    split_ifs with hzero
    · exact ⟨[], rfl⟩
    · exact exists_run_iterate nn 0 (h, u)

end Machine

/-! ### A matrix without numbers -/

/-- The real numbers with one value that is not a number. -/
inductive NanReal
  | nan
  | real (x : ℝ)

namespace NanReal

/-- An operation on numbers. -/
def map₂ (f : ℝ → ℝ → ℝ) : NanReal → NanReal → NanReal
  | real x, real y => real (f x y)
  | _, _ => nan

open Classical in
/-- A comparison of numbers. -/
noncomputable def compare (p : ℝ → ℝ → Prop) : NanReal → NanReal → Bool
  | real x, real y => decide (p x y)
  | _, _ => false

/-- A function of one number, where it is defined. -/
noncomputable def map (f : ℝ → ℝ) : NanReal → NanReal
  | real x => real (f x)
  | nan => nan

instance : Zero NanReal := ⟨real 0⟩
instance : One NanReal := ⟨real 1⟩
noncomputable instance : Add NanReal := ⟨map₂ (· + ·)⟩
noncomputable instance : Sub NanReal := ⟨map₂ (· - ·)⟩
noncomputable instance : Mul NanReal := ⟨map₂ (· * ·)⟩
noncomputable instance : Neg NanReal := ⟨map (- ·)⟩

/-- Division by zero gives no number. -/
noncomputable instance : Div NanReal :=
  ⟨fun x y => if compare (· = ·) y 0 then nan else map₂ (· / ·) x y⟩

/-- The square root of a negative number is no number. -/
noncomputable instance : Scalar NanReal where
  isZero x := compare (· = ·) x 0
  lt := compare (· < ·)
  le := compare (· ≤ ·)
  fabs := map fun x => |x|
  sqrt x := if compare (· < ·) x 0 then nan else map Real.sqrt x
  copysign := map₂ Scalar.copysign
  threeHalves := real Scalar.threeHalves

theorem add_nan (x : NanReal) : x + nan = nan := by
  cases x with
  | nan => rfl
  | real x => rfl

end NanReal

/-- The norm passes over entries that are no numbers. -/
theorem hessenbergNorm_nan (nn : ℕ) : hessenbergNorm nn (fun _ => NanReal.nan) = 0 := by
  refine forBelow_inv_const (fun hn => hn = 0) rfl ?_
  rintro i - hi hn rfl
  have hjl : (if 1 < i then i - 1 else 0) ≤ nn := by
    split_ifs <;> omega
  have hrsum : forUpTo (if 1 < i then i - 1 else 0) nn (0 : NanReal)
      (fun _ rsum => rsum + Scalar.fabs NanReal.nan) = NanReal.nan := by
    rw [forUpTo, forBelow_succ hjl]
    exact NanReal.add_nan _
  simp only [hrsum]
  exact if_neg Bool.false_ne_true

/-- **A matrix without numbers** is returned as it is, with success: its norm is never found to be
above zero. -/
theorem schur_of_nan :
    (schur 2 (0 : NanReal) (fun _ => .nan) (identity NanReal)).1 = true ∧
      ¬QuasiTriangular 2 (schur 2 (0 : NanReal) (fun _ => .nan) (identity NanReal)).2.1 := by
  have hzero : isZero (hessenbergNorm 2 fun _ => NanReal.nan) = true := by
    rw [hessenbergNorm_nan]
    exact decide_eq_true rfl
  rw [schur]
  simp only [hzero, if_true, true_and]
  intro hquasi
  rcases hquasi 1 one_pos one_lt_two with h | h
  · cases h
  · cases h

end Chebyshev.BS
