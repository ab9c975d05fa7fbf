/-
**Recency orders.**

A recency order is a list of distinct elements, the most recently used first.  This module has the
operation that makes an element the most recent one, and the relation `Newer` that a bit matrix
can hold: `Newer l i j` says that `i` was used, and later than `j` if `j` was used at all.  The
elements that are newer than nothing are the ones a least-recently-used policy may give up.

Nothing here mentions a particular program.

Main definitions:

* `Recency.touch` — using an element;
* `Recency.Newer` — the relation held in the matrix;
* `Recency.Oldest` — newer than nothing.

Main results:

* `Recency.newer_iff_append` — the relation in any history of uses;
* `Recency.exists_oldest` — there is always an oldest element;
* `Recency.exists_oldest_history` — also in a history in which elements are used again;
* `Recency.newer_touch` — using `w` sets the row of `w` and clears its column;
* `Recency.oldest_touch_iff` — using another element leaves the oldest ones as they are;
* `Recency.eq_erase_append_of_oldest` — the oldest of the used elements is the last one;
* `Recency.map_touch`, `Recency.erase_touch_of_ne` — how `touch` meets maps and `erase`.
-/

import Mathlib.Data.List.Nodup
import Mathlib.Tactic.Common

set_option relaxedAutoImplicit false
set_option autoImplicit false

namespace Recency

variable {α β : Type*}

/-! ### The relation held in a matrix -/

/-- `i` was used, and later than `j` if `j` was used at all. -/
def Newer : List α → α → α → Prop
  | [], _, _ => False
  | a :: l, i, j => j ≠ a ∧ (i = a ∨ Newer l i j)

/-- Newer than nothing. -/
def Oldest (l : List α) (i : α) : Prop := ∀ j, ¬Newer l i j

theorem Newer.mem {l : List α} {i j : α} (h : Newer l i j) : i ∈ l := by
  induction l with
  | nil => exact h.elim
  | cons a l ih =>
      rcases h.2 with rfl | h
      · exact List.mem_cons_self
      · exact List.mem_cons_of_mem a (ih h)

theorem Newer.ne {l : List α} (hl : l.Nodup) {i j : α} (h : Newer l i j) : i ≠ j := by
  induction l with
  | nil => exact h.elim
  | cons a l ih =>
      rcases h.2 with rfl | h'
      · exact h.1.symm
      · exact ih (List.nodup_cons.1 hl).2 h'

theorem Newer.trans {l : List α} (hl : l.Nodup) {i j k : α} (hij : Newer l i j)
    (hjk : Newer l j k) : Newer l i k := by
  induction l with
  | nil => exact hij.elim
  | cons a l ih =>
      refine ⟨hjk.1, ?_⟩
      rcases hjk.2 with rfl | hjk'
      · exact absurd rfl hij.1
      · rcases hij.2 with hi | hij'
        · exact Or.inl hi
        · exact Or.inr (ih (List.nodup_cons.1 hl).2 hij' hjk')

/-- What was used is newer than what was not. -/
theorem newer_of_not_mem {l : List α} {i j : α} (hi : i ∈ l) (hj : j ∉ l) : Newer l i j := by
  induction l with
  | nil => simp at hi
  | cons a l ih =>
      rw [List.mem_cons, not_or] at hj
      refine ⟨hj.1, ?_⟩
      rcases List.mem_cons.1 hi with hia | hi
      · exact Or.inl hia
      · exact Or.inr (ih hi hj.2)

/-- In any history, the latest use first: `i` was used and `j` was not used since. -/
theorem newer_iff_append {l : List α} {i j : α} :
    Newer l i j ↔ ∃ later earlier, l = later ++ i :: earlier ∧ j ∉ later ∧ j ≠ i := by
  induction l with
  | nil =>
      constructor
      · exact fun h => h.elim
      · rintro ⟨later, earlier, h, -⟩
        exact absurd h (by simp)
  | cons a l ih =>
      constructor
      · rintro ⟨hja, rfl | hnewer⟩
        · exact ⟨[], l, rfl, List.not_mem_nil, hja⟩
        · obtain ⟨later, earlier, rfl, hj, hji⟩ := ih.1 hnewer
          refine ⟨a :: later, earlier, rfl, ?_, hji⟩
          rw [List.mem_cons, not_or]
          exact ⟨hja, hj⟩
      · rintro ⟨later, earlier, h, hj, hji⟩
        cases later with
        | nil =>
            obtain ⟨rfl, rfl⟩ := List.cons.inj h
            exact ⟨hji, .inl rfl⟩
        | cons b later =>
            obtain ⟨rfl, rfl⟩ := List.cons.inj h
            rw [List.mem_cons, not_or] at hj
            obtain ⟨hja, hj⟩ := hj
            exact ⟨hja, .inr (ih.2 ⟨later, earlier, rfl, hj, hji⟩)⟩

/-- Of two elements that were used, one is newer. -/
theorem newer_total {l : List α} {i j : α} (hi : i ∈ l) (hj : j ∈ l) (hij : i ≠ j) :
    Newer l i j ∨ Newer l j i := by
  induction l with
  | nil => simp at hi
  | cons a l ih =>
      by_cases hia : i = a
      · exact Or.inl ⟨hia ▸ hij.symm, Or.inl hia⟩
      · by_cases hja : j = a
        · exact Or.inr ⟨hia, Or.inl hja⟩
        · have hi' := (List.mem_cons.1 hi).resolve_left hia
          have hj' := (List.mem_cons.1 hj).resolve_left hja
          rcases ih hi' hj' with h | h
          · exact Or.inl ⟨hja, Or.inr h⟩
          · exact Or.inr ⟨hia, Or.inr h⟩

/-! ### The oldest elements -/

/-- What was never used is newer than nothing. -/
theorem oldest_of_not_mem {l : List α} {i : α} (h : i ∉ l) : Oldest l i :=
  fun _ hj => h hj.mem

/-- When something was never used, the oldest elements were never used. -/
theorem Oldest.not_mem {l : List α} {i j : α} (h : Oldest l i) (hj : j ∉ l) : i ∉ l :=
  fun hi => h j (newer_of_not_mem hi hj)

/-- Only one used element can be an oldest one. -/
theorem Oldest.eq_of_mem {l : List α} {i j : α} (hi : Oldest l i) (hj : Oldest l j) (hjl : j ∈ l) :
    i = j := by
  by_contra hij
  by_cases hil : i ∈ l
  · rcases newer_total hil hjl hij with h | h
    · exact hi j h
    · exact hj i h
  · exact hj i (newer_of_not_mem hjl hil)

/-- The last element used is newer than no used one. -/
theorem not_newer_getLast {l : List α} (hl : l.Nodup) (h : l ≠ []) {j : α} (hj : j ∈ l) :
    ¬Newer l (l.getLast h) j := by
  induction l with
  | nil => exact absurd rfl h
  | cons a l ih =>
      have ⟨hal, hl⟩ := List.nodup_cons.1 hl
      rintro ⟨hja, hnewer⟩
      have hjl := (List.mem_cons.1 hj).resolve_left hja
      have hne : l ≠ [] := List.ne_nil_of_mem hjl
      rw [List.getLast_cons hne] at hnewer
      rcases hnewer with hlast | hnewer
      · exact hal (hlast ▸ List.getLast_mem hne)
      · exact ih hl hne hjl hnewer

/-- There is always an oldest element. -/
theorem exists_oldest [Nonempty α] {l : List α} (hl : l.Nodup) : ∃ i, Oldest l i := by
  by_cases hall : ∀ j, j ∈ l
  · have hne : l ≠ [] := List.ne_nil_of_mem (hall (Classical.arbitrary α))
    exact ⟨l.getLast hne, fun j => not_newer_getLast hl hne (hall j)⟩
  · obtain ⟨i, hi⟩ := not_forall.1 hall
    exact ⟨i, oldest_of_not_mem hi⟩

/-! ### Using an element -/

variable [DecidableEq α] [DecidableEq β]

/-- The recency order after a use of `a`. -/
def touch (a : α) (l : List α) : List α := a :: l.erase a

@[simp] theorem mem_touch {a b : α} {l : List α} : b ∈ touch a l ↔ b = a ∨ b ∈ l := by
  rw [touch, List.mem_cons]
  constructor
  · rintro (h | h)
    · exact Or.inl h
    · exact Or.inr (List.mem_of_mem_erase h)
  · intro h
    by_cases hba : b = a
    · exact Or.inl hba
    · exact Or.inr ((List.mem_erase_of_ne hba).2 (h.resolve_left hba))

theorem nodup_touch {l : List α} (h : l.Nodup) (a : α) : (touch a l).Nodup :=
  List.nodup_cons.2 ⟨h.not_mem_erase, h.erase a⟩

/-- A map that is injective on the elements commutes with `erase`. -/
theorem map_erase {f : α → β} {a : α} {l : List α} (h : ∀ b ∈ l, f b = f a → b = a) :
    (l.erase a).map f = (l.map f).erase (f a) := by
  induction l with
  | nil => rfl
  | cons b l ih =>
      have ih := ih fun c hc => h c (List.mem_cons_of_mem b hc)
      by_cases hba : b = a
      · subst hba
        simp
      · have hf : f b ≠ f a := fun hf => hba (h b List.mem_cons_self hf)
        rw [List.erase_cons_tail (by simpa using hba), List.map_cons, List.map_cons,
          List.erase_cons_tail (by simpa using hf), ih]

/-- A map that is injective on the elements commutes with a use. -/
theorem map_touch {f : α → β} {a : α} {l : List α} (h : ∀ b ∈ l, f b = f a → b = a) :
    (touch a l).map f = touch (f a) (l.map f) := by
  rw [touch, touch, List.map_cons, map_erase h]

/-- Removing another element commutes with a use. -/
theorem erase_touch_of_ne {a b : α} (h : a ≠ b) (l : List α) :
    (touch a l).erase b = touch a (l.erase b) := by
  rw [touch, touch, List.erase_cons_tail (by simpa using h), List.erase_comm]

/-! ### Uses and the relation -/

theorem newer_erase {l : List α} {w i j : α} (hi : i ≠ w) (hj : j ≠ w) :
    Newer (l.erase w) i j ↔ Newer l i j := by
  induction l with
  | nil => rfl
  | cons a l ih =>
      by_cases haw : a = w
      · subst haw
        rw [List.erase_cons_head, Newer]
        constructor
        · exact fun h => ⟨hj, Or.inr h⟩
        · exact fun h => h.2.resolve_left hi
      · rw [List.erase_cons_tail (by simpa using haw), Newer, Newer, ih]

/-- **Using `w` sets the row of `w` and clears its column.** -/
theorem newer_touch {l : List α} {w i j : α} :
    Newer (touch w l) i j ↔ j ≠ w ∧ (i = w ∨ Newer l i j) := by
  rw [touch, Newer]
  constructor
  · rintro ⟨hj, rfl | h⟩
    · exact ⟨hj, Or.inl rfl⟩
    · by_cases hi : i = w
      · exact ⟨hj, Or.inl hi⟩
      · exact ⟨hj, Or.inr ((newer_erase hi hj).1 h)⟩
  · rintro ⟨hj, h⟩
    by_cases hi : i = w
    · exact ⟨hj, Or.inl hi⟩
    · exact ⟨hj, Or.inr ((newer_erase hi hj).2 (h.resolve_left hi))⟩

/-- The recency order of any history, the latest use first. -/
theorem newer_foldr_touch (l : List α) (i j : α) : Newer (l.foldr touch []) i j ↔ Newer l i j := by
  induction l with
  | nil => exact Iff.rfl
  | cons a l ih => rw [List.foldr_cons, newer_touch, ih, Newer]

theorem nodup_foldr_touch (l : List α) : (l.foldr touch []).Nodup := by
  induction l with
  | nil => exact List.nodup_nil
  | cons a l ih => exact nodup_touch ih a

/-- **Every history has an oldest element.** -/
theorem exists_oldest_history [Nonempty α] (l : List α) : ∃ i, Oldest l i := by
  obtain ⟨i, hi⟩ := exists_oldest (nodup_foldr_touch l)
  exact ⟨i, fun j hj => hi j ((newer_foldr_touch l i j).2 hj)⟩

/-- **A use of another element leaves the oldest ones as they are.** -/
theorem oldest_touch_iff {l : List α} (hl : l.Nodup) {w : α} (hw : ¬Oldest l w) (i : α) :
    Oldest (touch w l) i ↔ Oldest l i := by
  obtain ⟨k, hk⟩ : ∃ k, Newer l w k := by
    by_contra hnone
    exact hw fun j hj => hnone ⟨j, hj⟩
  have hkw : k ≠ w := (hk.ne hl).symm
  constructor
  · intro h j hj
    by_cases hjw : j = w
    · -- `i` is newer than `w`, which is newer than `k`
      exact h k (newer_touch.2 ⟨hkw, Or.inr ((hjw ▸ hj).trans hl hk)⟩)
    · exact h j (newer_touch.2 ⟨hjw, Or.inr hj⟩)
  · intro h j hj
    rcases (newer_touch.1 hj).2 with rfl | hj'
    · exact hw h
    · exact h j hj'

/-- The oldest of the used elements is the last one. -/
theorem eq_erase_append_of_oldest {l : List α} (hl : l.Nodup) {v : α} (hv : v ∈ l)
    (h : ∀ j ∈ l, ¬Newer l v j) : l = l.erase v ++ [v] := by
  induction l with
  | nil => simp at hv
  | cons a l ih =>
      have hal := (List.nodup_cons.1 hl).1
      by_cases hva : v = a
      · subst hva
        -- an element behind `v` would be older
        have hnil : l = [] := by
          cases l with
          | nil => rfl
          | cons b l =>
              have hbv : b ≠ v := fun hbv => hal (hbv ▸ List.mem_cons_self)
              exact absurd ⟨hbv, Or.inl rfl⟩ (h b (by simp))
        rw [hnil, List.erase_cons_head, List.nil_append]
      · have hvl := (List.mem_cons.1 hv).resolve_left hva
        have hold : ∀ j ∈ l, ¬Newer l v j := fun j hj hnewer =>
          h j (List.mem_cons_of_mem a hj) ⟨fun hja => hal (hja ▸ hj), Or.inr hnewer⟩
        rw [List.erase_cons_tail (by simpa using Ne.symm hva), List.cons_append,
          ← ih (List.nodup_cons.1 hl).2 hvl hold]

end Recency
