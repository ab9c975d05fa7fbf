/-
**Traversals with a queue.**

A traversal visits the front of a queue, puts out what it finds there and appends the children of
the visited element to the queue.  Nothing is remembered of the elements that have been visited, so
an element is visited once for each way to it.  The elements are visited level by level, and the
traversal ends exactly when some level is empty.

Nothing here mentions a particular program.

Main definitions:

* `QueueTraversal.visit`, `QueueTraversal.visits` — a visit, and a number of visits;
* `QueueTraversal.level` — the elements that are a number of generations away from the start;
* `QueueTraversal.output` — what is found in the first levels.

Main results:

* `QueueTraversal.visits_size` — the visits to the first levels;
* `QueueTraversal.ends_iff` — **when a traversal ends, and with what**;
* `QueueTraversal.level_ne_nil_of_cycle` — below an element that is its own descendant no level is
  empty.
-/

import Mathlib.Data.List.Basic
import Mathlib.Tactic.Common

set_option relaxedAutoImplicit false
set_option autoImplicit false

namespace QueueTraversal

variable {α β : Type*}

/-- The queue, and what has been found. -/
structure State (α β : Type*) where
  queue : List α
  found : List β

variable (children : α → List α) (found : α → List β)

/-- The visit of the front of the queue, if there is one. -/
def visit (s : State α β) : Option (State α β) :=
  match s.queue with
  | [] => none
  | x :: rest => some ⟨rest ++ children x, s.found ++ found x⟩

/-- A number of visits. -/
def visits : ℕ → State α β → Option (State α β)
  | 0, s => some s
  | n + 1, s => (visit children found s).bind (visits n)

/-- The descendants of the elements of a list, a number of generations away. -/
def level (queue : List α) : ℕ → List α
  | 0 => queue
  | k + 1 => (level queue k).flatMap children

/-- The number of elements of the first levels. -/
def size (queue : List α) : ℕ → ℕ
  | 0 => 0
  | k + 1 => size queue k + (level children queue k).length

/-- What is found in the first levels. -/
def output (queue : List α) (k : ℕ) : List β :=
  (List.range k).flatMap fun i => (level children queue i).flatMap found

variable {children found} {queue : List α} {s s' t : State α β}

/-! ### Visits -/

theorem visits_add (m n : ℕ) (s : State α β) :
    visits children found (m + n) s =
      (visits children found m s).bind (visits children found n) := by
  induction m generalizing s with
  | zero => rw [Nat.zero_add]; rfl
  | succ m ih =>
      rw [Nat.succ_add, visits, visits, Option.bind_assoc]
      exact Option.bind_congr fun t _ => ih t

theorem visits_succ (n : ℕ) (s : State α β) :
    visits children found (n + 1) s = (visits children found n s).bind (visit children found) := by
  rw [visits_add]
  refine Option.bind_congr fun t _ => ?_
  simp [visits]

/-- A traversal whose queue is empty has ended. -/
theorem visits_succ_of_nil (h : s.queue = []) (n : ℕ) : visits children found (n + 1) s = none := by
  rw [visits, visit, h]
  rfl

/-- The visits to the elements in front of the queue. -/
theorem visits_length (front rest : List α) (acc : List β) :
    visits children found front.length ⟨front ++ rest, acc⟩ =
      some ⟨rest ++ front.flatMap children, acc ++ front.flatMap found⟩ := by
  induction front generalizing rest acc with
  | nil => simp [visits]
  | cons x front ih =>
      have hvisit : visit children found ⟨x :: front ++ rest, acc⟩ =
          some ⟨front ++ (rest ++ children x), acc ++ found x⟩ := by
        simp [visit]
      rw [List.length_cons, visits, hvisit, Option.bind_some, ih]
      simp

theorem output_succ (queue : List α) (k : ℕ) :
    output children found queue (k + 1) =
      output children found queue k ++ (level children queue k).flatMap found := by
  simp [output, List.range_succ]

/-- **The first levels** are visited one after the other. -/
theorem visits_size (queue : List α) (acc : List β) (k : ℕ) :
    visits children found (size children queue k) ⟨queue, acc⟩ =
      some ⟨level children queue k, acc ++ output children found queue k⟩ := by
  induction k with
  | zero => simp [visits, size, level, output]
  | succ k ih =>
      have hlevel := @visits_length _ _ children found (level children queue k) []
        (acc ++ output children found queue k)
      rw [List.append_nil] at hlevel
      rw [size, visits_add, ih, Option.bind_some, hlevel, output_succ, List.append_assoc]
      rfl

/-! ### The end -/

/-- No visit comes after an end. -/
theorem le_of_ends {m n : ℕ} (hs : visits children found m s = some s') (hs' : s'.queue = [])
    (ht : visits children found n s = some t) : n ≤ m := by
  by_contra hlt
  obtain ⟨j, rfl⟩ := Nat.exists_eq_add_of_lt (Nat.not_le.1 hlt)
  rw [Nat.add_assoc, visits_add, hs, Option.bind_some, visits_succ_of_nil hs'] at ht
  cases ht

/-- A traversal ends after one number of visits only. -/
theorem ends_unique {m n : ℕ} (hs : visits children found m s = some s') (hs' : s'.queue = [])
    (ht : visits children found n s = some t) (ht' : t.queue = []) : m = n ∧ s' = t := by
  obtain rfl : m = n := Nat.le_antisymm (le_of_ends ht ht' hs) (le_of_ends hs hs' ht)
  exact ⟨rfl, Option.some.inj (hs.symm.trans ht)⟩

theorem level_eq_nil_of_le {j k : ℕ} (h : level children queue j = []) (hjk : j ≤ k) :
    level children queue k = [] := by
  induction hjk with
  | refl => exact h
  | step _ ih => rw [level, ih, List.flatMap_nil]

theorem le_size {k : ℕ} (h : level children queue k ≠ []) : k ≤ size children queue k := by
  induction k with
  | zero => exact Nat.le_refl 0
  | succ k ih =>
      have hne : level children queue k ≠ [] := fun hnil => h (level_eq_nil_of_le hnil k.le_succ)
      have hlen := List.length_pos_of_ne_nil hne
      have hk := ih hne
      rw [size]
      omega

/-- A traversal that ends has an empty level. -/
theorem exists_level_eq_nil {n : ℕ} (hs : visits children found n s = some s')
    (hnil : s'.queue = []) : ∃ k, level children s.queue k = [] := by
  by_contra hne
  push Not at hne
  have hall := @visits_size _ _ children found s.queue s.found n
  obtain ⟨j, hj⟩ := Nat.exists_eq_add_of_le (le_size (hne n))
  rw [hj, visits_add, hs, Option.bind_some] at hall
  cases j with
  | zero =>
      -- the visits to the first `n` levels are the first `n` visits
      have hqueue : s' = ⟨level children s.queue n, s.found ++ output children found s.queue n⟩ :=
        Option.some.inj hall
      rw [hqueue] at hnil
      exact hne n hnil
  | succ j =>
      rw [visits_succ_of_nil hnil] at hall
      cases hall

/-- **When a traversal ends, and with what**: some level is empty, and all that is found in the
levels before it has been put out, level by level. -/
theorem ends_iff {acc res : List β} :
    (∃ n, visits children found n ⟨queue, acc⟩ = some ⟨[], res⟩) ↔
      ∃ k, level children queue k = [] ∧ res = acc ++ output children found queue k := by
  constructor
  · rintro ⟨n, hn⟩
    obtain ⟨k, hk⟩ := exists_level_eq_nil hn rfl
    have hlevels := @visits_size _ _ children found queue acc k
    rw [hk] at hlevels
    obtain ⟨-, heq⟩ := ends_unique hn rfl hlevels rfl
    exact ⟨k, hk, congrArg State.found heq⟩
  · rintro ⟨k, hk, rfl⟩
    exact ⟨_, hk ▸ visits_size queue acc k⟩

/-! ### Cycles -/

/-- The descendants of an element of a level are in the levels below. -/
theorem mem_level_add {x y : α} {i j : ℕ} (hx : x ∈ level children queue i)
    (hy : y ∈ level children [x] j) : y ∈ level children queue (i + j) := by
  induction j generalizing y with
  | zero =>
      obtain rfl : y = x := List.mem_singleton.1 hy
      exact hx
  | succ j ih =>
      obtain ⟨z, hz, hyz⟩ := List.mem_flatMap.1 hy
      exact List.mem_flatMap.2 ⟨z, ih hz, hyz⟩

/-- **Below an element that is its own descendant** no level is empty. -/
theorem level_ne_nil_of_cycle {x : α} {i j : ℕ} (hx : x ∈ level children queue i)
    (hcycle : x ∈ level children [x] (j + 1)) (k : ℕ) : level children queue k ≠ [] := by
  -- the element comes back in every round
  have hback : ∀ m, x ∈ level children [x] (m * (j + 1)) := by
    intro m
    induction m with
    | zero =>
        rw [Nat.zero_mul]
        exact List.mem_singleton_self x
    | succ m ih =>
        rw [Nat.succ_mul]
        exact mem_level_add ih hcycle
  have hmem := mem_level_add hx (hback k)
  intro hnil
  have hle : k ≤ i + k * (j + 1) := by
    have hmul : k ≤ k * (j + 1) := Nat.le_mul_of_pos_right k j.succ_pos
    omega
  rw [level_eq_nil_of_le hnil hle] at hmem
  cases hmem

end QueueTraversal
