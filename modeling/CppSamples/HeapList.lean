/-
**Linked lists in a heap.**

A linked list is a head and a field `next` that leads from each cell to the one behind it and
ends at null.  `HeapList.Chain next head l` says that the cells met from `head` on are `l`.

Nothing here mentions a particular program.

Main results:

* `HeapList.Chain.unique`, `HeapList.Chain.nodup` — the cells are determined, and distinct;
* `HeapList.Chain.congr` — **the frame rule**: only the fields of the cells met matter.
-/

import Mathlib.Data.List.Nodup
import Mathlib.Logic.Function.Basic

set_option relaxedAutoImplicit false
set_option autoImplicit false

namespace HeapList

variable {A : Type*} {next next' : A → Option A} {head : Option A} {a : A} {l l' : List A}

/-- Following `next` from `head` one meets the cells `l` and then null. -/
inductive Chain (next : A → Option A) : Option A → List A → Prop
  | nil : Chain next none []
  | cons {a : A} {l : List A} (h : Chain next (next a) l) : Chain next (some a) (a :: l)

theorem Chain.eq_nil (h : Chain next none l) : l = [] := by
  cases h
  rfl

/-- A chain from a cell starts with it. -/
theorem Chain.eq_cons (h : Chain next (some a) l) : ∃ l', l = a :: l' ∧ Chain next (next a) l' := by
  cases h with
  | cons h => exact ⟨_, rfl, h⟩

/-- The cells met are determined by the head. -/
theorem Chain.unique (h : Chain next head l) (h' : Chain next head l') : l = l' := by
  induction h generalizing l' with
  | nil => exact h'.eq_nil.symm
  | cons _ ih =>
      obtain ⟨l₁, rfl, h₁⟩ := h'.eq_cons
      rw [ih h₁]

/-- From a cell that is met the chain goes on to null. -/
theorem Chain.tail_of_mem (h : Chain next head l) (ha : a ∈ l) :
    ∃ l', Chain next (some a) (a :: l') ∧ l'.length < l.length := by
  induction h with
  | nil => simp at ha
  | @cons b l h ih =>
      rcases List.mem_cons.1 ha with rfl | ha
      · exact ⟨l, .cons h, Nat.lt_succ_self _⟩
      · obtain ⟨l', hl', hlt⟩ := ih ha
        exact ⟨l', hl', Nat.lt_succ_of_lt hlt⟩

/-- No cell is met twice. -/
theorem Chain.nodup (h : Chain next head l) : l.Nodup := by
  induction h with
  | nil => exact List.nodup_nil
  | @cons a l h ih =>
      refine List.nodup_cons.2 ⟨fun ha => ?_, ih⟩
      -- from `a` one would meet a shorter list than from `a`
      obtain ⟨l', hl', hlt⟩ := h.tail_of_mem ha
      have heq := List.cons.inj ((Chain.cons h).unique hl')
      rw [heq.2] at hlt
      exact Nat.lt_irrefl _ hlt

/-- **The frame rule**: fields of other cells do not matter. -/
theorem Chain.congr (h : Chain next head l) (heq : ∀ a ∈ l, next' a = next a) :
    Chain next' head l := by
  induction h with
  | nil => exact .nil
  | @cons a l _ ih =>
      refine .cons ?_
      rw [heq a List.mem_cons_self]
      exact ih fun b hb => heq b (List.mem_cons_of_mem a hb)

end HeapList
