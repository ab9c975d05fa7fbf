/-
**The counter of `shared_mutex.cpp`.**

`ThreadSafeCounter` has a value and a shared mutex.  `get` reads the value and holds the mutex
shared, `increment` and `reset` write it and hold the mutex exclusively; an increment is a load and
a store.  `main` runs two threads, each of which increments the counter three times and prints its
value after each increment.

Any number of threads makes any calls here; `main` is the case of a number of threads with the same
number of passes.

Main definitions:

* `ThreadSafeCounter.sharedMutex` — the shared mutex;
* `ThreadSafeCounter.counter` — threads that make the calls of their lists;
* `ThreadSafeCounter.incrementAndPrint` — the calls of a thread of `main`.

Main results:

* `ThreadSafeCounter.linearizable` — **the completed calls have an order that explains all they
  returned**;
* `ThreadSafeCounter.printed` — what the threads of `main` have printed when they end.
-/

import CppSamples.LockedSections
import Mathlib.Algebra.BigOperators.Group.Finset.Piecewise
import Mathlib.Data.BitVec

set_option relaxedAutoImplicit false
set_option autoImplicit false

open Function TransitionSystem LockedSections

namespace ThreadSafeCounter

/-! ### The shared mutex -/

/-- `std::shared_mutex`: how many hold it shared, and whether somebody holds it exclusively. -/
structure SharedMutex where
  readers : ℕ
  writer : Bool

/-- `lock_shared` and `lock` when they need not block. -/
def SharedMutex.acquire (m : SharedMutex) : Mode → Option SharedMutex
  | .shared => if m.writer then none else some { m with readers := m.readers + 1 }
  | .exclusive => if m.writer ∨ m.readers ≠ 0 then none else some { m with writer := true }

/-- `unlock_shared` and `unlock`. -/
def SharedMutex.release (m : SharedMutex) : Mode → SharedMutex
  | .shared => { m with readers := m.readers - 1 }
  | .exclusive => { m with writer := false }

/-- Who holds it. -/
def SharedMutex.holders (m : SharedMutex) : Mode → ℕ
  | .shared => m.readers
  | .exclusive => m.writer.toNat

theorem SharedMutex.acquire_eq_some {m m' : SharedMutex} {mode : Mode}
    (h : m.acquire mode = some m') :
    m.holders .exclusive = 0 ∧ (mode = .exclusive → m.holders .shared = 0) ∧
      m'.holders = update m.holders mode (m.holders mode + 1) := by
  obtain ⟨readers, writer⟩ := m
  cases mode with
  | shared =>
      simp only [acquire, Option.ite_none_left_eq_some, Option.some.injEq,
        Bool.not_eq_true] at h
      obtain ⟨rfl, rfl⟩ := h
      refine ⟨rfl, (by intro h; cases h), ?_⟩
      funext mode
      cases mode <;> simp [holders]
  | exclusive =>
      simp only [acquire, Option.ite_none_left_eq_some, Option.some.injEq, not_or,
        Bool.not_eq_true, not_not] at h
      obtain ⟨⟨rfl, rfl⟩, rfl⟩ := h
      refine ⟨rfl, fun _ => rfl, ?_⟩
      funext mode
      cases mode <;> simp [holders]

theorem SharedMutex.holders_release {m : SharedMutex} {mode : Mode} (h : 0 < m.holders mode) :
    (m.release mode).holders = update m.holders mode (m.holders mode - 1) := by
  obtain ⟨readers, writer⟩ := m
  funext mode'
  cases mode with
  | shared => cases mode' <;> simp [holders, release]
  | exclusive =>
      cases writer with
      | false => simp [holders] at h
      | true => cases mode' <;> simp [holders, release]

/-- The shared mutex as a lock. -/
def sharedMutex : Lock SharedMutex where
  free := ⟨0, false⟩
  acquire := SharedMutex.acquire
  release := SharedMutex.release
  holders := SharedMutex.holders
  holders_free m := by cases m <;> rfl
  eq_free m h := by
    obtain ⟨readers, writer⟩ := m
    have hr : readers = 0 := h .shared
    have hw : writer.toNat = 0 := h .exclusive
    rw [hr, Bool.toNat_eq_zero.1 hw]
  acquire_eq_some _ _ _ := SharedMutex.acquire_eq_some
  holders_release _ _ := SharedMutex.holders_release

/-! ### The calls -/

/-- `unsigned int value_`. -/
abbrev Value := BitVec 32

/-- The member functions. -/
inductive Call
  | get
  | increment
  | reset
  deriving DecidableEq

/-- The critical sections of the member functions.  The register is the local copy of the value,
which `get` returns. -/
def Call.section : Call → Section Value Value
  | .get =>
    { mode := .shared
      body := [fun value _ => (value, value)]
      reads := by simp }
  | .increment =>
    { mode := .exclusive
      body := [fun value _ => (value, value), fun _ r => (r + 1, r)]
      reads := nofun }
  | .reset =>
    { mode := .exclusive
      body := [fun _ r => (0, r)]
      reads := nofun }

/-- A thread: the calls it still has to make and what its calls of `get` have returned. -/
structure Caller where
  calls : List Call
  returned : List Value

/-- The return of the first of the calls. -/
def Caller.return (k : Caller) (r : Value) : Caller :=
  match k.calls with
  | [] => k
  | .get :: calls => ⟨calls, k.returned ++ [r]⟩
  | _ :: calls => ⟨calls, k.returned⟩

variable {τ : Type*}

/-- Threads that make the calls of their lists. -/
def counter : Program τ Value Value Caller where
  next _ k := k.calls.head?.map Call.section
  after _ k r := k.return r
  fresh := 0

/-- A new counter, and what each thread is going to call. -/
def start (calls : τ → List Call) : State SharedMutex τ Value Value Caller :=
  State.init sharedMutex 0 fun t => ⟨calls t, []⟩

/-- What a call does to the value. -/
def Call.apply (value : Value) : Call → Value
  | .get => value
  | .increment => value + 1
  | .reset => 0

/-- A call in one step. -/
theorem atomicStep_eq_some [DecidableEq τ] {a a' : Atomic τ Value Caller} {t : τ}
    (h : atomicStep counter a t = some a') :
    ∃ c calls, (a.control t).calls = c :: calls ∧ a'.shared = c.apply a.shared ∧
      a'.control = update a.control t ⟨calls, (a.control t).returned ++
        if c = .get then [a.shared] else []⟩ := by
  obtain ⟨sec, hsec, rfl⟩ := Option.map_eq_some_iff.1 h
  cases hcalls : (a.control t).calls with
  | nil => simp [counter, hcalls] at hsec
  | cons c calls =>
      obtain rfl : c.section = sec := by simpa [counter, hcalls] using hsec
      refine ⟨c, calls, rfl, ?_, ?_⟩
      · cases c <;> rfl
      · cases c <;> simp [counter, Caller.return, hcalls, Call.section]

/-! ### The order of the calls -/

/-- The increments of a list of calls after its last reset. -/
def sinceReset (calls : List Call) : ℕ := (calls.reverse.takeWhile (· ≠ .reset)).count .increment

/-- The value after calls that are made one after the other. -/
def valueAfter (calls : List Call) : Value := BitVec.ofNat 32 (sinceReset calls)

theorem valueAfter_concat (calls : List Call) (c : Call) :
    valueAfter (calls ++ [c]) = c.apply (valueAfter calls) := by
  cases c with
  | get => simp [valueAfter, sinceReset, Call.apply]
  | reset => simp [valueAfter, sinceReset, Call.apply]
  | increment =>
      have h : sinceReset (calls ++ [.increment]) = sinceReset calls + 1 := by
        simp [sinceReset]
      rw [valueAfter, h, Call.apply, valueAfter, BitVec.ofNat_add]
      rfl

variable [DecidableEq τ]

/-- The calls of the thread `t` among the calls of all threads. -/
def callsOf (t : τ) (h : List (τ × Call)) : List Call :=
  (h.filter fun x => x.1 = t).map Prod.snd

/-- What the calls of `get` of the thread `t` return when all calls are made one after the other:
the value after the calls before it. -/
def returnedTo (t : τ) (h : List (τ × Call)) : List Value :=
  (List.range h.length).filterMap fun i =>
    if h[i]? = some (t, .get) then some (valueAfter ((h.take i).map Prod.snd)) else none

theorem callsOf_concat (t u : τ) (h : List (τ × Call)) (c : Call) :
    callsOf t (h ++ [(u, c)]) = callsOf t h ++ if u = t then [c] else [] := by
  by_cases hut : u = t <;> simp [callsOf, hut]

theorem returnedTo_concat (t u : τ) (h : List (τ × Call)) (c : Call) :
    returnedTo t (h ++ [(u, c)]) = returnedTo t h ++
      if u = t ∧ c = .get then [valueAfter (h.map Prod.snd)] else [] := by
  have hbefore : ∀ i ∈ List.range h.length,
      (if (h ++ [(u, c)])[i]? = some (t, .get)
        then some (valueAfter (((h ++ [(u, c)]).take i).map Prod.snd)) else none) =
      if h[i]? = some (t, .get) then some (valueAfter ((h.take i).map Prod.snd)) else none := by
    intro i hi
    have hi : i < h.length := List.mem_range.1 hi
    rw [List.getElem?_append_left hi, List.take_append_of_le_length hi.le]
  rw [returnedTo, List.length_append, List.length_singleton, List.range_succ,
    List.filterMap_append, List.filterMap_congr hbefore, ← returnedTo]
  by_cases hx : u = t ∧ c = .get
  · simp [hx]
  · have hne : ¬(u, c) = (t, Call.get) := fun heq => hx (Prod.mk.inj heq)
    simp [hx, hne]

/-- An order of completed calls explains a state: each thread has made its calls in its order, and
the value and all that has been returned are those of the calls made one after the other. -/
structure Explains (calls : τ → List Call) (h : List (τ × Call)) (a : Atomic τ Value Caller) :
    Prop where
  calls : ∀ t, callsOf t h ++ (a.control t).calls = calls t
  value : a.shared = valueAfter (h.map Prod.snd)
  returned : ∀ t, (a.control t).returned = returnedTo t h

/-- One more call is the next one in the order. -/
theorem Explains.step {calls : τ → List Call} {h : List (τ × Call)}
    {a a' : Atomic τ Value Caller} {t : τ} (hE : Explains calls h a)
    (hstep : atomicStep counter a t = some a') :
    ∃ c, Explains calls (h ++ [(t, c)]) a' := by
  obtain ⟨c, rest, hcalls, hshared, hcontrol⟩ := atomicStep_eq_some hstep
  refine ⟨c, fun u => ?_, ?_, fun u => ?_⟩
  · rw [callsOf_concat, hcontrol, ← hE.calls u]
    by_cases hut : u = t
    · subst hut
      rw [update_self, if_pos rfl, hcalls, List.append_assoc, List.singleton_append]
    · rw [update_of_ne hut, if_neg (Ne.symm hut), List.append_nil]
  · rw [List.map_append, List.map_singleton, valueAfter_concat, ← hE.value, hshared]
  · rw [returnedTo_concat, hcontrol, ← hE.returned u, ← hE.value]
    by_cases hut : u = t
    · subst hut
      simp
    · rw [update_of_ne hut, if_neg fun hx => hut hx.1.symm, List.append_nil]

/-- The completions of a run one section at a time are explained. -/
theorem exists_explains {calls : τ → List Call} {ts : List τ} {a : Atomic τ Value Caller}
    (hrun : run (atomicStep counter) ⟨0, fun t => ⟨calls t, []⟩⟩ ts = some a) :
    ∃ h, h.map Prod.fst = ts ∧ Explains calls h a := by
  induction ts using List.reverseRecOn generalizing a with
  | nil =>
      obtain rfl := Option.some.inj hrun
      exact ⟨[], rfl, fun _ => rfl, rfl, fun _ => rfl⟩
  | append_singleton ts t ih =>
      obtain ⟨b, hb, hstep⟩ := run_concat_eq_some.1 hrun
      obtain ⟨h, hts, hE⟩ := ih hb
      obtain ⟨c, hc⟩ := hE.step hstep
      exact ⟨h ++ [(t, c)], by rw [List.map_append, hts]; rfl, hc⟩

variable [Fintype τ]

/-- **The counter is linearizable.**  In every run the calls can be put in the order in which they
give the mutex back, so that each thread has made its calls in its own order, each `get` has
returned the number of increments since the last reset before it, and the value, while nobody
writes it, is the number of increments since the last reset, all modulo `2 ^ 32`. -/
theorem linearizable {calls : τ → List Call} {as : List (Action τ)}
    {s : State SharedMutex τ Value Value Caller}
    (hrun : run (step counter sharedMutex) (start calls) as = some s) :
    ∃ h : List (τ × Call), h.map Prod.fst = completions as ∧
      (∀ t, callsOf t h ++ (s.phase t).control.calls = calls t) ∧
      (∀ t, (s.phase t).control.returned = returnedTo t h) ∧
      ((∀ t, (s.phase t).mode ≠ some .exclusive) → s.shared = valueAfter (h.map Prod.snd)) := by
  obtain ⟨a, ha, hS⟩ := exists_atomic_run hrun
  obtain ⟨h, hts, hE⟩ := exists_explains ha
  refine ⟨h, hts, fun t => ?_, fun t => ?_, fun hnone => ?_⟩
  · rw [← hS.control, hE.calls]
  · rw [← hS.control, hE.returned]
  · rw [hS.shared hnone, hE.value]

/-- A reset between two increments of another thread, and a `get` that has to wait. -/
theorem linearizable_two_threads :
    ∃ s, run (step counter sharedMutex)
        (start fun t : Fin 2 => if t = 0 then [.increment, .increment] else [.reset, .get])
        [.acquire 0, .spin 1, .access 0, .access 0, .release 0, .acquire 1, .access 1, .release 1,
          .acquire 0, .access 0, .spin 1, .access 0, .release 0, .acquire 1, .access 1,
          .release 1] = some s ∧
      ∃ h : List (Fin 2 × Call), h.map Prod.fst = [0, 1, 0, 1] ∧
        (∀ t, callsOf t h ++ (s.phase t).control.calls =
          if t = 0 then [.increment, .increment] else [.reset, .get]) ∧
        (∀ t, (s.phase t).control.returned = returnedTo t h) ∧
        ((∀ t, (s.phase t).mode ≠ some .exclusive) →
          s.shared = valueAfter (h.map Prod.snd)) := by
  obtain ⟨s, hs⟩ : ∃ s, run (step counter sharedMutex)
        (start fun t : Fin 2 => if t = 0 then [.increment, .increment] else [.reset, .get])
        [.acquire 0, .spin 1, .access 0, .access 0, .release 0, .acquire 1, .access 1, .release 1,
          .acquire 0, .access 0, .spin 1, .access 0, .release 0, .acquire 1, .access 1,
          .release 1] = some s := ⟨_, rfl⟩
  exact ⟨s, hs, linearizable hs⟩

/-! ### What `main` prints -/

/-- The calls of `increment_and_print` with `n` passes; what `get` returns is printed. -/
def incrementAndPrint (n : ℕ) : List Call := (List.replicate n [.increment, .get]).flatten

/-- The increments that are still to come. -/
def Caller.left (k : Caller) : ℕ := k.calls.count .increment

theorem count_incrementAndPrint (n : ℕ) : (incrementAndPrint n).count .increment = n := by
  induction n with
  | zero => rfl
  | succ n ih =>
      rw [incrementAndPrint, List.replicate_succ, List.flatten_cons, List.count_append,
        ← incrementAndPrint, ih]
      exact Nat.add_comm 1 n

/-- The increments that have been made by threads of `n` passes. -/
def made (n : ℕ) (control : τ → Caller) : ℕ := ∑ t, (n - (control t).left)

/-- The next call of the thread is the `get` after an increment. -/
def Caller.Printing (k : Caller) : Prop := k.calls.head? = some .get

/-- Where the threads of `main` are when a call is one step.  Each is before a pass or between the
two calls of one, the value is the number of increments, what a thread has printed increases and is
at most that number, less than it if the thread is about to print, and the number has been printed
unless somebody is about to do so. -/
structure Printed (n : ℕ) (a : Atomic τ Value Caller) : Prop where
  calls : ∀ t, ∃ i, i + (a.control t).returned.length = n ∧
    ((a.control t).calls = incrementAndPrint i ∨
      ∃ j, i = j + 1 ∧ (a.control t).calls = .get :: incrementAndPrint j)
  value : a.shared = BitVec.ofNat 32 (made n a.control)
  sorted : ∀ t, ((a.control t).returned.map BitVec.toNat).Pairwise (· < ·)
  pos : ∀ t, ∀ v ∈ (a.control t).returned, 0 < v.toNat
  le : ∀ t, ∀ v ∈ (a.control t).returned, v.toNat ≤ made n a.control
  lt : ∀ t, (a.control t).Printing → ∀ v ∈ (a.control t).returned, v.toNat < made n a.control
  last : made n a.control = 0 ∨ (∃ t, (a.control t).Printing) ∨
    ∃ t, ∃ v ∈ (a.control t).returned, v.toNat = made n a.control

theorem incrementAndPrint_succ (n : ℕ) :
    incrementAndPrint (n + 1) = .increment :: .get :: incrementAndPrint n := by
  rw [incrementAndPrint, List.replicate_succ, List.flatten_cons]
  rfl

/-- One thread moves. -/
theorem made_update (n : ℕ) (control : τ → Caller) (t : τ) (k : Caller) :
    made n (update control t k) + (n - (control t).left) = made n control + (n - k.left) := by
  have hrest : ∑ u ∈ Finset.univ.erase t, (n - (update control t k u).left) =
      ∑ u ∈ Finset.univ.erase t, (n - (control u).left) :=
    Finset.sum_congr rfl fun u hu => by rw [update_of_ne (Finset.ne_of_mem_erase hu)]
  rw [made, made, ← Finset.add_sum_erase _ _ (Finset.mem_univ t), hrest, update_self,
    ← Finset.add_sum_erase Finset.univ (fun u => n - (control u).left) (Finset.mem_univ t)]
  omega

omit [DecidableEq τ] in
theorem made_le (n : ℕ) (control : τ → Caller) : made n control ≤ Fintype.card τ * n := by
  have h := Finset.sum_le_card_nsmul Finset.univ (fun t => n - (control t).left) n
    fun t _ => Nat.sub_le _ _
  simpa [made] using h

omit [DecidableEq τ] in
/-- The increments of one thread are among those of all. -/
theorem sub_left_le_made (n : ℕ) (control : τ → Caller) (t : τ) :
    n - (control t).left ≤ made n control :=
  Finset.single_le_sum (f := fun u => n - (control u).left) (fun _ _ => Nat.zero_le _)
    (Finset.mem_univ t)

/-- The thread `t` increments. -/
theorem Printed.increment {n : ℕ} {a : Atomic τ Value Caller} {t : τ} {i : ℕ}
    (hP : Printed n a) (hi : i + 1 + (a.control t).returned.length = n)
    (hcalls : (a.control t).calls = incrementAndPrint (i + 1)) :
    Printed n ⟨a.shared + 1, update a.control t
      ⟨.get :: incrementAndPrint i, (a.control t).returned⟩⟩ := by
  have hmade : made n (update a.control t ⟨.get :: incrementAndPrint i,
      (a.control t).returned⟩) = made n a.control + 1 := by
    have h := made_update n a.control t ⟨.get :: incrementAndPrint i, (a.control t).returned⟩
    have hleft : (a.control t).left = i + 1 := by
      rw [Caller.left, hcalls, count_incrementAndPrint]
    have hleft' : (Caller.mk (.get :: incrementAndPrint i) (a.control t).returned).left = i := by
      rw [Caller.left, List.count_cons_of_ne (by decide), count_incrementAndPrint]
    rw [hleft, hleft'] at h
    omega
  -- nobody's printed values change
  have hreturned : ∀ u, (update a.control t ⟨.get :: incrementAndPrint i,
      (a.control t).returned⟩ u).returned = (a.control u).returned := by
    intro u
    by_cases hut : u = t
    · rw [hut, update_self]
    · rw [update_of_ne hut]
  refine ⟨fun u => ?_, ?_, fun u => ?_, fun u v hv => ?_, fun u v hv => ?_, fun u _ v hv => ?_,
    Or.inr (Or.inl ⟨t, ?_⟩)⟩
  · by_cases hut : u = t
    · subst hut
      refine ⟨i + 1, ?_, Or.inr ⟨i, rfl, ?_⟩⟩ <;> simp only [update_self]
      exact hi
    · simp only [update_of_ne hut]
      exact hP.calls u
  · rw [hmade, hP.value, BitVec.ofNat_add]
    rfl
  · rw [hreturned]
    exact hP.sorted u
  · rw [hreturned] at hv
    exact hP.pos u v hv
  · rw [hreturned] at hv
    rw [hmade]
    exact (hP.le u v hv).trans (Nat.le_succ _)
  · rw [hreturned] at hv
    rw [hmade]
    exact Nat.lt_succ_of_le (hP.le u v hv)
  · simp only [Caller.Printing, update_self, List.head?_cons]

/-- The thread `t` prints. -/
theorem Printed.get {n : ℕ} {a : Atomic τ Value Caller} {t : τ} {j : ℕ}
    (hn : Fintype.card τ * n < 2 ^ 32) (hP : Printed n a)
    (hj : j + 1 + (a.control t).returned.length = n)
    (hcalls : (a.control t).calls = .get :: incrementAndPrint j) :
    Printed n ⟨a.shared, update a.control t
      ⟨incrementAndPrint j, (a.control t).returned ++ [a.shared]⟩⟩ := by
  have hleft : (a.control t).left = j := by
    rw [Caller.left, hcalls, List.count_cons_of_ne (by decide), count_incrementAndPrint]
  have hmade : made n (update a.control t ⟨incrementAndPrint j,
      (a.control t).returned ++ [a.shared]⟩) = made n a.control := by
    have h := made_update n a.control t
      ⟨incrementAndPrint j, (a.control t).returned ++ [a.shared]⟩
    have hleft' : (Caller.mk (incrementAndPrint j) ((a.control t).returned ++ [a.shared])).left =
        j := by
      rw [Caller.left, count_incrementAndPrint]
    rw [hleft, hleft'] at h
    omega
  have hvalue : a.shared.toNat = made n a.control := by
    rw [hP.value, BitVec.toNat_ofNat, Nat.mod_eq_of_lt]
    exact (made_le n a.control).trans_lt hn
  have hpos : 0 < made n a.control := by
    have := sub_left_le_made n a.control t
    omega
  have hprinting : (a.control t).Printing := by rw [Caller.Printing, hcalls, List.head?_cons]
  refine ⟨fun u => ?_, ?_, fun u => ?_, fun u v hv => ?_, fun u v hv => ?_, fun u hu v hv => ?_,
    Or.inr (Or.inr ⟨t, a.shared, ?_, ?_⟩)⟩
  · by_cases hut : u = t
    · subst hut
      refine ⟨j, ?_, Or.inl ?_⟩ <;> simp only [update_self]
      rw [List.length_append, List.length_singleton]
      omega
    · simp only [update_of_ne hut]
      exact hP.calls u
  · rw [hmade, hP.value]
  · by_cases hut : u = t
    · subst hut
      simp only [update_self, List.map_append, List.map_singleton]
      refine List.pairwise_append.2 ⟨hP.sorted u, List.pairwise_singleton _ _, ?_⟩
      intro v hv w hw
      obtain ⟨x, hx, rfl⟩ := List.mem_map.1 hv
      rw [List.mem_singleton.1 hw, hvalue]
      exact hP.lt u hprinting x hx
    · simp only [update_of_ne hut]
      exact hP.sorted u
  · by_cases hut : u = t
    · subst hut
      simp only [update_self, List.mem_append, List.mem_singleton] at hv
      rcases hv with hv | rfl
      · exact hP.pos u v hv
      · rwa [hvalue]
    · simp only [update_of_ne hut] at hv
      exact hP.pos u v hv
  · rw [hmade]
    by_cases hut : u = t
    · subst hut
      simp only [update_self, List.mem_append, List.mem_singleton] at hv
      rcases hv with hv | rfl
      · exact hP.le u v hv
      · exact hvalue.le
    · simp only [update_of_ne hut] at hv
      exact hP.le u v hv
  · rw [hmade]
    by_cases hut : u = t
    · -- after the `get` the thread is before a pass, or has ended
      subst hut
      cases j with
      | zero => simp [Caller.Printing, incrementAndPrint] at hu
      | succ j => simp [Caller.Printing, incrementAndPrint_succ] at hu
    · simp only [update_of_ne hut] at hu hv
      exact hP.lt u hu v hv
  · simp only [update_self, List.mem_append, List.mem_singleton, or_true]
  · rw [hmade, hvalue]

/-- Every call keeps it. -/
theorem Printed.step {n : ℕ} {a a' : Atomic τ Value Caller} {t : τ}
    (hn : Fintype.card τ * n < 2 ^ 32) (hP : Printed n a)
    (hstep : atomicStep counter a t = some a') : Printed n a' := by
  obtain ⟨c, rest, hcalls, hshared, hcontrol⟩ := atomicStep_eq_some hstep
  have heq : a' = ⟨c.apply a.shared, update a.control t ⟨rest, (a.control t).returned ++
      if c = .get then [a.shared] else []⟩⟩ := by
    rw [← hshared, ← hcontrol]
  obtain ⟨i, hi, hbefore | ⟨j, rfl, hbetween⟩⟩ := hP.calls t
  · cases i with
    | zero =>
        rw [hcalls] at hbefore
        exact nomatch hbefore
    | succ i =>
        rw [hcalls, incrementAndPrint_succ] at hbefore
        obtain ⟨rfl, rfl⟩ := List.cons.inj hbefore
        rw [heq, if_neg (by decide), List.append_nil]
        exact hP.increment hi (by rw [hcalls, incrementAndPrint_succ])
  · rw [hcalls] at hbetween
    obtain ⟨rfl, rfl⟩ := List.cons.inj hbetween
    rw [heq, if_pos rfl]
    exact hP.get hn hi hcalls

omit [DecidableEq τ] in
theorem Printed.start {n : ℕ} :
    Printed n (⟨0, fun _ : τ => ⟨incrementAndPrint n, []⟩⟩ : Atomic τ Value Caller) where
  calls _ := ⟨n, rfl, Or.inl rfl⟩
  value := by simp [made, Caller.left, count_incrementAndPrint]
  sorted _ := List.Pairwise.nil
  pos _ := nofun
  le _ := nofun
  lt _ _ := nofun
  last := Or.inl (by simp [made, Caller.left, count_incrementAndPrint])

/-- **What the threads have printed when they end.**  The counter is the number of all passes, each
thread has printed one value for each pass, these values increase and lie between 1 and the number
of all passes, and that number has been printed. -/
theorem printed {n : ℕ} (hn : Fintype.card τ * n < 2 ^ 32)
    {s : State SharedMutex τ Value Value Caller}
    (h : Reachable (LockedSections.step counter sharedMutex)
      (ThreadSafeCounter.start fun _ : τ => incrementAndPrint n) s)
    (hend : Finished counter s) :
    s.shared.toNat = Fintype.card τ * n ∧
      (∀ t, (s.phase t).control.returned.length = n) ∧
      (∀ t, ((s.phase t).control.returned.map BitVec.toNat).Pairwise (· < ·)) ∧
      (∀ t, ∀ v ∈ (s.phase t).control.returned,
        0 < v.toNat ∧ v.toNat ≤ Fintype.card τ * n) ∧
      (0 < Fintype.card τ * n →
        ∃ t, ∃ v ∈ (s.phase t).control.returned, v.toNat = Fintype.card τ * n) := by
  obtain ⟨as, has⟩ := h
  obtain ⟨a, ha, hS⟩ := exists_atomic_run has
  have hP : Printed n a :=
    Reachable.inv (Printed n) (fun _ _ _ hP hstep => hP.step hn hstep) Printed.start ⟨_, ha⟩
  -- nobody has a call left
  have hcalls : ∀ t, (a.control t).calls = [] := by
    intro t
    obtain ⟨k, hk, hnext⟩ := hend t
    rw [hS.control, hk, Phase.control]
    simpa [counter] using hnext
  have hmade : made n a.control = Fintype.card τ * n := by
    simp [made, Caller.left, hcalls]
  have hnone : ∀ t, (s.phase t).mode ≠ some .exclusive := by
    intro t
    obtain ⟨k, hk, -⟩ := hend t
    simp [hk, Phase.mode]
  have hcontrol : ∀ t, (s.phase t).control = a.control t := fun t => (hS.control t).symm
  simp only [hcontrol]
  refine ⟨?_, fun t => ?_, hP.sorted, fun t v hv => ⟨hP.pos t v hv, hmade ▸ hP.le t v hv⟩,
    fun hpos => ?_⟩
  · rw [hS.shared hnone, hP.value, hmade, BitVec.toNat_ofNat, Nat.mod_eq_of_lt hn]
  · obtain ⟨i, hi, hbefore | ⟨j, rfl, hbetween⟩⟩ := hP.calls t
    · cases i with
      | zero => omega
      | succ i =>
          rw [hcalls, incrementAndPrint_succ] at hbefore
          cases hbefore
    · rw [hcalls] at hbetween
      cases hbetween
  · rcases hP.last with hzero | ⟨t, ht⟩ | hlast
    · omega
    · rw [Caller.Printing, hcalls] at ht
      cases ht
    · exact hmade ▸ hlast

/-- Two threads with one pass each: the first one prints after the second one has incremented. -/
theorem printed_two_threads :
    ∃ s, run (LockedSections.step counter sharedMutex)
        (ThreadSafeCounter.start fun _ : Fin 2 => incrementAndPrint 1)
        [.acquire 0, .access 0, .access 0, .release 0, .acquire 1, .access 1, .spin 0, .access 1,
          .release 1, .acquire 0, .acquire 1, .access 1, .access 0, .release 0,
          .release 1] = some s ∧
      s.shared.toNat = Fintype.card (Fin 2) * 1 ∧
      (∀ t, (s.phase t).control.returned.length = 1) ∧
      (∀ t, ((s.phase t).control.returned.map BitVec.toNat).Pairwise (· < ·)) ∧
      (∀ t, ∀ v ∈ (s.phase t).control.returned,
        0 < v.toNat ∧ v.toNat ≤ Fintype.card (Fin 2) * 1) ∧
      (0 < Fintype.card (Fin 2) * 1 →
        ∃ t, ∃ v ∈ (s.phase t).control.returned, v.toNat = Fintype.card (Fin 2) * 1) := by
  obtain ⟨s, hs, hend⟩ : ∃ s, run (LockedSections.step counter sharedMutex)
      (ThreadSafeCounter.start fun _ : Fin 2 => incrementAndPrint 1)
      [.acquire 0, .access 0, .access 0, .release 0, .acquire 1, .access 1, .spin 0, .access 1,
        .release 1, .acquire 0, .acquire 1, .access 1, .access 0, .release 0,
        .release 1] = some s ∧ Finished counter s :=
    ⟨_, rfl, Fin.forall_fin_two.2 ⟨⟨_, rfl, rfl⟩, _, rfl, rfl⟩⟩
  exact ⟨s, hs, printed (by decide) ⟨_, hs⟩ hend⟩

end ThreadSafeCounter
