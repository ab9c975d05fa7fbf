/-
**The spin lock of `spinlock.cpp` and its benchmark.**

`SpinLock` is a flag: `lock` sets it with `test_and_set` until the old value was clear, `unlock`
clears it.  Each thread of the benchmark runs `foo(n)`, which increments `count[n]` a fixed number
of times, each time under the lock; the increment is a load and a store.  `main` starts the threads,
joins them and returns the sum of the counters.

Any number of threads runs `foo` here, with any arguments below 8, also with the same one.  What the
lock orders is seen by the next one who takes it, so the accesses are steps on one memory.  The
counters are words of 32 bits, and the results ask that the passes of all threads together fit.

Main definitions:

* `SpinLock.lock`, `SpinLock.unlock`, `SpinLock.spinLock` — the lock;
* `SpinLock.foo` — the threads of the benchmark.

Main results:

* `SpinLock.foo_safe` — **mutual exclusion and no lost update** in every reachable state;
* `SpinLock.foo_total` — the counters and their sum when all threads have ended;
* `SpinLock.foo_ends` — no deadlock, and a bound on the steps that are not failed attempts.
-/

import CppSamples.LockedSections
import Mathlib.Algebra.BigOperators.Group.Finset.Piecewise
import Mathlib.Algebra.BigOperators.Ring.Finset
import Mathlib.Tactic.Ring

set_option relaxedAutoImplicit false
set_option autoImplicit false

open Function TransitionSystem LockedSections

namespace SpinLock

/-! ### The lock -/

/-- `std::atomic_flag::test_and_set`: the old value, and the flag after it. -/
def testAndSet (locked : Bool) : Bool × Bool := (locked, true)

/-- One pass of the loop of `lock`: it ends the loop if the old value was clear. -/
def lock (locked : Bool) : Option Bool :=
  match testAndSet locked with
  | (true, _) => none
  | (false, locked') => some locked'

/-- `unlock`. -/
def unlock (_ : Bool) : Bool := false

/-- A pass that does not end the loop leaves the flag as it was. -/
theorem testAndSet_of_lock_eq_none {locked : Bool} (h : lock locked = none) :
    (testAndSet locked).2 = locked := by
  cases locked with
  | false => simp [lock, testAndSet] at h
  | true => rfl

/-- The holders of the lock: one if the flag is set. -/
def holders (locked : Bool) : Mode → ℕ
  | .shared => 0
  | .exclusive => locked.toNat

/-- The flag as a lock, which can only be held exclusively. -/
def spinLock : Lock Bool where
  free := false
  acquire locked m :=
    match m with
    | .shared => none
    | .exclusive => lock locked
  release locked m :=
    match m with
    | .shared => locked
    | .exclusive => unlock locked
  holders := holders
  holders_free m := by cases m <;> rfl
  eq_free locked h := by
    cases locked with
    | false => rfl
    | true => exact absurd (h .exclusive) (by simp [holders])
  acquire_eq_some locked m locked' h := by
    cases m with
    | shared => simp at h
    | exclusive =>
        cases locked with
        | true => simp [lock, testAndSet] at h
        | false =>
            obtain rfl : true = locked' := by simpa [lock, testAndSet] using h
            refine ⟨rfl, fun _ => rfl, ?_⟩
            funext m
            cases m <;> simp [holders]
  holders_release locked m h := by
    cases m with
    | shared => simp [holders] at h
    | exclusive =>
        cases locked with
        | false => simp [holders] at h
        | true =>
            funext m
            cases m <;> simp [holders, unlock]

/-! ### The threads -/

/-- `int count[8]`; an argument of `foo` that is not below 8 would be outside. -/
abbrev Count := Fin 8 → BitVec 32

/-- `++count[n]` between `lock.lock()` and `lock.unlock()`: a load and a store. -/
def increment (n : Fin 8) : Section Count (BitVec 32) where
  mode := .exclusive
  body := [fun count _ => (count, count n), fun count r => (update count n (r + 1), r)]
  reads h := nomatch h

variable {τ : Type*}

/-- `foo(n)` for each thread: `n` is the argument the thread is started with and the control value
is the loop variable `i`. -/
def foo (cnt : ℕ) (n : τ → Fin 8) : Program τ Count (BitVec 32) ℕ where
  next t i := if i < cnt then some (increment (n t)) else none
  after _ i _ := i + 1
  fresh := 0

/-- The start of the benchmark: the lock is free, the counters and the loop variables are 0. -/
def start : State Bool τ Count (BitVec 32) ℕ := State.init spinLock (fun _ => 0) fun _ => 0

variable {cnt : ℕ} {n : τ → Fin 8}

theorem foo_next_eq_some {t : τ} {i : ℕ} {sec : Section Count (BitVec 32)}
    (h : (foo cnt n).next t i = some sec) : i < cnt ∧ sec = increment (n t) := by
  simpa [foo, eq_comm] using h

theorem foo_next_eq_none {t : τ} {i : ℕ} : (foo cnt n).next t i = none ↔ cnt ≤ i := by
  simp [foo]

/-- An increment in one step. -/
theorem runAccesses_increment (k : Fin 8) (count : Count) :
    runAccesses (increment k).body (count, 0) =
      (update count k (count k + 1), count k) := rfl

/-- A thread has at most four steps left for each pass. -/
theorem foo_bounded : (foo cnt n).Bounded fun _ i => 4 * (cnt - i) := by
  intro t i sec hsec r
  obtain ⟨hlt, rfl⟩ := foo_next_eq_some hsec
  have hlen : (increment (n t)).body.length = 2 := rfl
  simp only [foo, hlen]
  omega

/-- The free lock can be taken by whoever wants it. -/
theorem foo_free (t : τ) (i : ℕ) (sec : Section Count (BitVec 32)) (h : (foo cnt n).next t i = some sec) :
    (spinLock.acquire spinLock.free sec.mode).isSome := by
  obtain ⟨-, rfl⟩ := foo_next_eq_some h
  rfl

variable [DecidableEq τ] [Fintype τ]

/-- How many passes the threads with the argument `k` have made. -/
def passes (n : τ → Fin 8) (i : τ → ℕ) (k : Fin 8) : ℤ := ∑ t with n t = k, (i t : ℤ)

/-- One pass of the thread `t` is one pass more for its argument. -/
theorem passes_update (n : τ → Fin 8) (i : τ → ℕ) (t : τ) (k : Fin 8) :
    passes n (update i t (i t + 1)) k = passes n i k + if n t = k then 1 else 0 := by
  have hterm : ∀ u, ((update i t (i t + 1) u : ℕ) : ℤ) = i u + if u = t then 1 else 0 := by
    intro u
    by_cases hut : u = t
    · rw [hut, update_self, if_pos rfl, Nat.cast_add, Nat.cast_one]
    · rw [update_of_ne hut, if_neg hut, add_zero]
  rw [passes, passes, Finset.sum_congr rfl fun u _ => hterm u, Finset.sum_add_distrib,
    Finset.sum_ite_eq']
  simp

/-- What holds when a pass is one step: no loop variable is beyond the bound, and each counter is
the word of the number of passes of the threads that increment it. -/
structure Counted (cnt : ℕ) (n : τ → Fin 8) (a : Atomic τ Count ℕ) : Prop where
  le : ∀ t, a.control t ≤ cnt
  count : ∀ k, a.shared k = BitVec.ofInt 32 (passes n a.control k)

theorem Counted.step {a a' : Atomic τ Count ℕ} {t : τ} (hC : Counted cnt n a)
    (h : atomicStep (foo cnt n) a t = some a') : Counted cnt n a' := by
  obtain ⟨sec, hsec, rfl⟩ := Option.map_eq_some_iff.1 h
  obtain ⟨hlt, rfl⟩ := foo_next_eq_some hsec
  refine ⟨fun u => ?_, fun k => ?_⟩
  · by_cases hut : u = t
    · simp only [hut, update_self, foo]
      exact hlt
    · simp only [update_of_ne hut]
      exact hC.le u
  · have hpass := passes_update n a.control t k
    simp only [foo, runAccesses_increment, update_apply] at hpass ⊢
    rw [hpass]
    split_ifs with h1 h2 h2
    · rw [h1, hC.count, BitVec.ofInt_add]
      rfl
    · exact absurd h1.symm h2
    · exact absurd h2.symm h1
    · rw [hC.count, add_zero]

/-- The passes of the threads behind a reachable state. -/
theorem exists_counted {s : State Bool τ Count (BitVec 32) ℕ}
    (h : Reachable (step (foo cnt n) spinLock) start s) :
    ∃ a, Counted cnt n a ∧ Sim (foo cnt n) s a := by
  obtain ⟨as, has⟩ := h
  obtain ⟨a, ha, hS⟩ := exists_atomic_run has
  refine ⟨a, ?_, hS⟩
  refine Reachable.inv (Counted cnt n) (fun _ _ _ hC hstep => hC.step hstep) ?_ ⟨_, ha⟩
  exact ⟨fun _ => Nat.zero_le _, fun k => by simp [passes]⟩

/-! ### What the lock guarantees -/

omit [DecidableEq τ] in
/-- The passes in the counters of the threads with the argument `k` are at most those of the whole
loops. -/
theorem passes_le {i : τ → ℕ} (h : ∀ t, i t ≤ cnt) (k : Fin 8) :
    passes n i k ≤ cnt * Fintype.card {t // n t = k} := by
  rw [Fintype.card_subtype, mul_comm, ← nsmul_eq_mul]
  exact Finset.sum_le_card_nsmul _ _ _ fun t _ => by exact_mod_cast h t

/-- There is room for one more pass where a loop has not ended. -/
theorem passes_add_one_le {i : τ → ℕ} (h : ∀ t, i t ≤ cnt) {t : τ} (ht : i t < cnt) :
    passes n i (n t) + 1 ≤ cnt * Fintype.card {u // n u = n t} := by
  have hnext : ∀ u, update i t (i t + 1) u ≤ cnt := by
    intro u
    by_cases hut : u = t
    · rw [hut, update_self]
      exact ht
    · rw [update_of_ne hut]
      exact h u
  have hle := passes_le (n := n) hnext (n t)
  rwa [passes_update, if_pos rfl] at hle

/-- The accesses a thread has made in its section: none, the load, or both. -/
theorem shared_of_made {k : Fin 8} {made rest : List (Access Count (BitVec 32))} {count count' : Count}
    {r : BitVec 32} (hbody : (increment k).body = made ++ rest)
    (hmade : runAccesses made (count, 0) = (count', r)) :
    count' = count ∨ count' = update count k (count k + 1) := by
  have hpre : made <+: (increment k).body := ⟨rest, hbody.symm⟩
  simp only [increment, List.prefix_cons_iff, List.prefix_nil] at hpre
  rcases hpre with rfl | ⟨_, rfl, rfl | ⟨_, rfl, rfl⟩⟩
  · exact Or.inl (Prod.mk.inj hmade).1.symm
  · exact Or.inl (Prod.mk.inj hmade).1.symm
  · exact Or.inr (Prod.mk.inj hmade).1.symm

omit [DecidableEq τ] in
/-- A thread in a section holds the lock exclusively. -/
theorem mode_eq_exclusive {s : State Bool τ Count (BitVec 32) ℕ} (hI : Inv (foo cnt n) spinLock s) {t : τ}
    (h : (s.phase t).mode ≠ none) : (s.phase t).mode = some .exclusive := by
  cases hp : s.phase t with
  | outside i => simp [hp, Phase.mode] at h
  | inside i sec rest r =>
      obtain ⟨-, rfl⟩ := foo_next_eq_some (hI.next t i sec rest r hp)
      rfl

omit [DecidableEq τ] in
/-- The flag is set just when somebody is in a section. -/
theorem lock_eq_true_iff {s : State Bool τ Count (BitVec 32) ℕ} (hI : Inv (foo cnt n) spinLock s) :
    s.lock = true ↔ ∃ t, (s.phase t).mode ≠ none := by
  have hcount : holders s.lock .exclusive = count s.phase .exclusive := hI.holders .exclusive
  constructor
  · intro h
    by_contra hnone
    have hnone : ∀ t, (s.phase t).mode = none := by simpa using hnone
    have hzero : count s.phase .exclusive = 0 :=
      Finset.sum_eq_zero fun t _ => by rw [Phase.holds, hnone]; rfl
    rw [h, hzero] at hcount
    simp [holders] at hcount
  · rintro ⟨t, ht⟩
    have hone : (s.phase t).holds .exclusive = 1 := if_pos (mode_eq_exclusive hI ht)
    have hle := holds_le_count s.phase t .exclusive
    cases hlock : s.lock with
    | true => rfl
    | false =>
        rw [hlock, holders, Bool.toNat_false] at hcount
        omega

omit [DecidableEq τ] in
theorem passes_nonneg (n : τ → Fin 8) (i : τ → ℕ) (k : Fin 8) : 0 ≤ passes n i k :=
  Finset.sum_nonneg fun t _ => Int.natCast_nonneg (i t)

/-- The word of a number that fits. -/
theorem toInt_ofInt {r : ℤ} (h₀ : 0 ≤ r) (h : r < 2 ^ 31) : (BitVec.ofInt 32 r).toInt = r := by
  rw [BitVec.toInt_ofInt]
  exact Int.bmod_eq_of_le (by simp; omega) (by simpa using h)

omit [DecidableEq τ] in
/-- The passes of the threads with one argument fit if those of all threads do. -/
theorem card_fits (hfit : cnt * Fintype.card τ < 2 ^ 31) (n : τ → Fin 8) (k : Fin 8) :
    (cnt * Fintype.card {t // n t = k} : ℤ) < 2 ^ 31 := by
  have hle : Fintype.card {t // n t = k} ≤ Fintype.card τ := Fintype.card_subtype_le _
  exact_mod_cast lt_of_le_of_lt (Nat.mul_le_mul_left cnt hle) hfit

omit [DecidableEq τ] in
/-- The counters when a pass is one step. -/
theorem Counted.toInt {a : Atomic τ Count ℕ} (hC : Counted cnt n a)
    (hfit : cnt * Fintype.card τ < 2 ^ 31) (k : Fin 8) :
    (a.shared k).toInt = passes n a.control k := by
  have hle := passes_le (n := n) hC.le k
  rw [hC.count, toInt_ofInt (passes_nonneg n _ k)]
  exact hle.trans_lt (card_fits hfit n k)

/-- One pass more fits where a loop has not ended. -/
theorem Counted.toInt_add_one {a : Atomic τ Count ℕ} (hC : Counted cnt n a)
    (hfit : cnt * Fintype.card τ < 2 ^ 31) {t : τ} (ht : a.control t < cnt) :
    (a.shared (n t) + 1).toInt = passes n a.control (n t) + 1 := by
  have hnonneg := passes_nonneg n a.control (n t)
  have hle := passes_add_one_le (n := n) hC.le ht
  have hword : a.shared (n t) + 1 = BitVec.ofInt 32 (passes n a.control (n t) + 1) := by
    rw [hC.count, BitVec.ofInt_add]
    rfl
  rw [hword, toInt_ofInt (by omega)]
  exact hle.trans_lt (card_fits hfit n (n t))

/-- **The lock excludes and no update is lost.**  In every reachable state at most one thread is
between `lock` and `unlock`, the flag is set just when there is one, the counters are the passes
made so far whenever the flag is clear, and at no time more than those of the whole loops, so that no
increment overflows. -/
theorem foo_safe (hfit : cnt * Fintype.card τ < 2 ^ 31) {s : State Bool τ Count (BitVec 32) ℕ}
    (h : Reachable (step (foo cnt n) spinLock) start s) :
    (∀ t u, (s.phase t).mode ≠ none → (s.phase u).mode ≠ none → t = u) ∧
      (s.lock = true ↔ ∃ t, (s.phase t).mode ≠ none) ∧
      (s.lock = false → ∀ k, (s.shared k).toInt = passes n (fun t => (s.phase t).control) k) ∧
      ∀ k, 0 ≤ (s.shared k).toInt ∧
        (s.shared k).toInt ≤ cnt * Fintype.card {t // n t = k} := by
  have hI : Inv (foo cnt n) spinLock s := Inv.of_reachable h
  obtain ⟨a, hC, hS⟩ := exists_counted h
  have hcontrol : a.control = fun t => (s.phase t).control := funext hS.control
  refine ⟨fun t u ht hu => hI.exclusion (mode_eq_exclusive hI ht) hu, lock_eq_true_iff hI,
    fun hlock k => ?_, ?_⟩
  · have hnone : ∀ t, (s.phase t).mode ≠ some .exclusive := by
      intro t ht
      have := (lock_eq_true_iff hI).2 ⟨t, by simp [ht]⟩
      simp [hlock] at this
    rw [hS.shared hnone, hC.toInt hfit, hcontrol]
  have hbefore : ∀ k, 0 ≤ (a.shared k).toInt ∧
      (a.shared k).toInt ≤ cnt * Fintype.card {t // n t = k} := by
    intro k
    rw [hC.toInt hfit]
    exact ⟨passes_nonneg n _ k, passes_le hC.le k⟩
  by_cases hin : ∃ t, (s.phase t).mode ≠ none
  · obtain ⟨t, ht⟩ := hin
    cases hp : s.phase t with
    | outside i => simp [hp, Phase.mode] at ht
    | inside i sec rest r =>
        obtain ⟨hlt, rfl⟩ := foo_next_eq_some (hI.next t i sec rest r hp)
        obtain ⟨made, hbody, hmade⟩ := hS.inside t i _ rest r hp
        have hi : a.control t = i := by rw [hS.control, hp, Phase.control]
        intro k
        rcases shared_of_made hbody hmade with hs | hs
        · rw [hs]
          exact hbefore k
        · rw [hs, update_apply]
          split_ifs with hk
          · have hle := passes_add_one_le (n := n) hC.le (hi ▸ hlt)
            have hnonneg := passes_nonneg n a.control (n t)
            rw [hC.toInt_add_one hfit (hi ▸ hlt)]
            exact ⟨by omega, hk ▸ hle⟩
          · exact hbefore k
  · rw [hS.shared fun t ht => hin ⟨t, by simp [ht]⟩]
    exact hbefore

/-- Two threads with the same argument; the second one tries to take the lock between the two
accesses of the first one, and takes it after that. -/
theorem foo_safe_two_threads :
    ∃ s, run (step (foo 2 fun _ : Fin 2 => 3) spinLock) start
        [.acquire 0, .access 0, .spin 1, .access 0, .release 0, .acquire 1] = some s ∧
      (∀ t u, (s.phase t).mode ≠ none → (s.phase u).mode ≠ none → t = u) ∧
      (s.lock = true ↔ ∃ t, (s.phase t).mode ≠ none) ∧
      (s.lock = false → ∀ k, (s.shared k).toInt =
        passes (fun _ => 3) (fun t => (s.phase t).control) k) ∧
      ∀ k, 0 ≤ (s.shared k).toInt ∧
        (s.shared k).toInt ≤ (2 : ℕ) * Fintype.card {_t : Fin 2 // 3 = k} := by
  obtain ⟨s, hs⟩ : ∃ s, run (step (foo 2 fun _ : Fin 2 => 3) spinLock) start
    [.acquire 0, .access 0, .spin 1, .access 0, .release 0, .acquire 1] = some s := ⟨_, rfl⟩
  exact ⟨s, hs, foo_safe (by decide) ⟨_, hs⟩⟩

/-! ### The end -/

/-- What `main` returns after it has joined the threads. -/
def mainResult (count : Count) : BitVec 32 :=
  count 0 + count 1 + count 2 + count 3 + count 4 + count 5 + count 6 + count 7

omit [DecidableEq τ] in
/-- A sum over the threads, ordered by their arguments. -/
theorem sum_card_eq (n : τ → Fin 8) : ∑ k, Fintype.card {t // n t = k} = Fintype.card τ := by
  rw [← Fintype.card_sigma]
  exact Fintype.card_congr (Equiv.sigmaFiberEquiv n)

/-- **When all threads have ended**, each counter has the passes of all threads with its argument,
and `main` returns the passes of all threads. -/
theorem foo_total (hfit : cnt * Fintype.card τ < 2 ^ 31) {s : State Bool τ Count (BitVec 32) ℕ}
    (h : Reachable (step (foo cnt n) spinLock) start s) (hend : Finished (foo cnt n) s) :
    (∀ k, (s.shared k).toInt = cnt * Fintype.card {t // n t = k}) ∧
      (mainResult s.shared).toInt = cnt * Fintype.card τ := by
  obtain ⟨a, hC, hS⟩ := exists_counted h
  have hcontrol : ∀ t, a.control t = cnt := by
    intro t
    obtain ⟨i, hi, hnext⟩ := hend t
    have hle := foo_next_eq_none.1 hnext
    have hC' := hC.le t
    rw [hS.control, hi, Phase.control] at hC' ⊢
    omega
  have hnone : ∀ t, (s.phase t).mode ≠ some .exclusive := by
    intro t
    obtain ⟨i, hi, -⟩ := hend t
    simp [hi, Phase.mode]
  have hpasses : ∀ k, passes n a.control k = cnt * Fintype.card {t // n t = k} := by
    intro k
    rw [passes, Finset.sum_congr rfl fun u _ => by rw [hcontrol u], Finset.sum_const, nsmul_eq_mul,
      Fintype.card_subtype, mul_comm]
  have hword : ∀ k, s.shared k = BitVec.ofInt 32 (cnt * Fintype.card {t // n t = k}) := by
    intro k
    rw [hS.shared hnone, hC.count, hpasses]
  refine ⟨fun k => ?_, ?_⟩
  · rw [hS.shared hnone, hC.toInt hfit, hpasses]
  · -- the word of the sum is the sum of the words
    have hsum : mainResult s.shared =
        BitVec.ofInt 32 (∑ k, (cnt * Fintype.card {t // n t = k} : ℤ)) := by
      simp only [mainResult, hword, Fin.sum_univ_eight, BitVec.ofInt_add]
    rw [hsum, ← Finset.mul_sum, ← Nat.cast_sum, sum_card_eq]
    refine toInt_ofInt (Int.mul_nonneg (Int.natCast_nonneg _) (Int.natCast_nonneg _)) ?_
    exact_mod_cast hfit

/-- Two threads with one pass each, one after the other. -/
theorem foo_total_two_threads :
    ∃ s, run (step (foo 1 fun t : Fin 2 => if t = 0 then 3 else 5) spinLock) start
        [.acquire 1, .spin 0, .access 1, .access 1, .release 1,
          .acquire 0, .access 0, .access 0, .release 0] = some s ∧
      (∀ k, (s.shared k).toInt =
        (1 : ℕ) * Fintype.card {t : Fin 2 // (if t = 0 then 3 else 5) = k}) ∧
      (mainResult s.shared).toInt = (1 : ℕ) * Fintype.card (Fin 2) := by
  obtain ⟨s, hs, hend⟩ : ∃ s,
      run (step (foo 1 fun t : Fin 2 => if t = 0 then 3 else 5) spinLock) start
        [.acquire 1, .spin 0, .access 1, .access 1, .release 1,
          .acquire 0, .access 0, .access 0, .release 0] = some s ∧
      Finished (foo 1 fun t : Fin 2 => if t = 0 then 3 else 5) s :=
    ⟨_, rfl, Fin.forall_fin_two.2 ⟨⟨1, rfl, rfl⟩, 1, rfl, rfl⟩⟩
  exact ⟨s, hs, foo_total (by decide) ⟨_, hs⟩ hend⟩

/-- **The threads come to an end.**  In every run there are at most four steps for each pass of each
thread, failed attempts apart; while not all threads have ended, one of them can take such a step;
and every run can be continued until all have ended. -/
theorem foo_ends {s : State Bool τ Count (BitVec 32) ℕ} {as : List (Action τ)}
    (h : run (step (foo cnt n) spinLock) start as = some s) :
    as.countP Action.progress ≤ Fintype.card τ * (4 * cnt) ∧
      (¬Finished (foo cnt n) s →
        ∃ a s', a.progress ∧ step (foo cnt n) spinLock s a = some s') ∧
      ∃ bs s', run (step (foo cnt n) spinLock) s bs = some s' ∧ Finished (foo cnt n) s' := by
  have hI : Inv (foo cnt n) spinLock s := Inv.of_reachable ⟨as, h⟩
  refine ⟨?_, progress_of_not_finished hI foo_free, exists_finished foo_bounded foo_free hI⟩
  have hle := progress_le_rank foo_bounded (Inv.init _ _) h
  have hstart : rank (fun _ i => 4 * (cnt - i)) (start : State Bool τ Count (BitVec 32) ℕ) =
      Fintype.card τ * (4 * cnt) := by
    simp [rank, start, State.init, Phase.rank]
  rw [start] at hstart
  omega

/-- After the first step of the second thread. -/
theorem foo_ends_two_threads :
    ∃ s, run (step (foo 1 fun _ : Fin 2 => 3) spinLock) start [.acquire 1, .spin 0] = some s ∧
      [Action.acquire (1 : Fin 2), .spin 0].countP Action.progress ≤
        Fintype.card (Fin 2) * (4 * 1) ∧
      (¬Finished (foo 1 fun _ => 3) s →
        ∃ a s', a.progress ∧ step (foo 1 fun _ => 3) spinLock s a = some s') ∧
      ∃ bs s', run (step (foo 1 fun _ => 3) spinLock) s bs = some s' ∧
        Finished (foo 1 fun _ => 3) s' := by
  obtain ⟨s, hs⟩ : ∃ s,
      run (step (foo 1 fun _ : Fin 2 => 3) spinLock) start [.acquire 1, .spin 0] = some s :=
    ⟨_, rfl⟩
  exact ⟨s, hs, foo_ends hs⟩

end SpinLock
