/-
**Regular expressions with groups, matched by backtracking.**

The matcher of ECMAScript: an alternative is tried only if what comes before it leads to no match,
and a repetition takes as much as it can.  A matcher gets what is to be matched behind its own part
as a continuation, so trying again is asking for the next alternative.  A full match gives the
groups of the first way to match the whole text.

Nothing here mentions a particular program.

Main definitions:

* `RegularExpression.Pattern` — the expressions;
* `RegularExpression.Pattern.run` — the matcher;
* `RegularExpression.fullMatch` — the groups of a match of a whole text.

Main results:

* `RegularExpression.run_text` — a literal text;
* `RegularExpression.run_star_char`, `RegularExpression.run_plus_char` — **a repetition that cannot
  be cut short** takes all characters of its class.
-/

import Mathlib.Data.List.TakeWhile
import Mathlib.Logic.Function.Basic
import Mathlib.Tactic.Common

set_option relaxedAutoImplicit false
set_option autoImplicit false

namespace RegularExpression

open Function

/-- Expressions: a character of a class, a sequence, two alternatives, a repetition, a group. -/
inductive Pattern
  | char (P : Char → Bool)
  | empty
  | seq (p q : Pattern)
  | alt (p q : Pattern)
  | star (p : Pattern)
  | group (n : ℕ) (p : Pattern)

/-- What the groups have matched, if they have taken part. -/
abbrev Groups := ℕ → Option (List Char)

/-- What is to be matched behind an expression: the rest of the text and the groups so far. -/
abbrev Continuation := List Char → Groups → Option Groups

/-- A way to match the beginning of a text, with what is to be matched behind it. -/
abbrev Matcher := List Char → Groups → Continuation → Option Groups

/-- At most so many repetitions, as many as possible first; none of them is empty. -/
def repetitions (m : Matcher) : ℕ → Matcher
  | 0, s, g, k => k s g
  | n + 1, s, g, k =>
    (m s g fun t h => if t.length < s.length then repetitions m n t h k else none).or (k s g)

/-- **The matcher of an expression.** -/
def Pattern.run : Pattern → Matcher
  | .char P, s, g, k =>
    match s with
    | [] => none
    | c :: t => if P c then k t g else none
  | .empty, s, g, k => k s g
  | .seq p q, s, g, k => p.run s g fun t h => q.run t h k
  | .alt p q, s, g, k => (p.run s g k).or (q.run s g k)
  | .star p, s, g, k => repetitions p.run s.length s g k
  | .group n p, s, g, k =>
    p.run s g fun t h => k t (update h n (some (s.take (s.length - t.length))))

/-- `p?` -/
def Pattern.opt (p : Pattern) : Pattern := .alt p .empty

/-- `p+` -/
def Pattern.plus (p : Pattern) : Pattern := .seq p (.star p)

/-- A literal text. -/
def Pattern.text : List Char → Pattern
  | [] => .empty
  | c :: w => .seq (.char (· == c)) (.text w)

/-- Nothing is left. -/
def atEnd : Continuation := fun t g => if t.isEmpty then some g else none

/-- The groups of the first way to match all of the text. -/
def fullMatch (p : Pattern) (s : List Char) : Option Groups := p.run s (fun _ => none) atEnd

/-- What a group has matched; a group that has not taken part has matched nothing. -/
def Groups.str (g : Groups) (n : ℕ) : List Char := (g n).getD []

/-! ### The matcher by the form of the expression -/

variable {P : Char → Bool} {p q : Pattern} {s t : List Char} {g : Groups} {k : Continuation} {n : ℕ}

@[simp] theorem run_char_nil : (Pattern.char P).run [] g k = none := rfl

@[simp] theorem run_char_cons (c : Char) :
    (Pattern.char P).run (c :: t) g k = if P c then k t g else none := rfl

@[simp] theorem run_empty : Pattern.empty.run s g k = k s g := rfl

@[simp] theorem run_seq : (p.seq q).run s g k = p.run s g fun t h => q.run t h k := rfl

@[simp] theorem run_alt : (p.alt q).run s g k = (p.run s g k).or (q.run s g k) := rfl

@[simp] theorem run_opt : p.opt.run s g k = (p.run s g k).or (k s g) := rfl

@[simp] theorem run_group : (p.group n).run s g k =
    p.run s g fun t h => k t (update h n (some (s.take (s.length - t.length)))) := rfl

@[simp] theorem atEnd_nil (g : Groups) : atEnd [] g = some g := rfl

@[simp] theorem atEnd_cons (c : Char) (t : List Char) (g : Groups) : atEnd (c :: t) g = none := rfl

theorem isSome_atEnd (t : List Char) (g : Groups) : (atEnd t g).isSome = true ↔ t = [] := by
  cases t <;> simp

/-- A literal text. -/
theorem run_text (w : List Char) : (Pattern.text w).run s g k =
    if w.isPrefixOf s then k (s.drop w.length) g else none := by
  induction w generalizing s with
  | nil => rfl
  | cons c w ih =>
      cases s with
      | nil => rfl
      | cons d s =>
          rw [Pattern.text, run_seq, run_char_cons, ih]
          by_cases hcd : d = c
          · simp [hcd]
          · simp [hcd, Ne.symm hcd]

/-! ### Repetitions of a class of characters -/

/-- **A repetition that cannot be cut short** takes all characters of its class. -/
theorem run_star_char (hk : ∀ c t g, P c = true → k (c :: t) g = none) :
    (Pattern.char P).star.run s g k = k (s.dropWhile P) g := by
  induction s with
  | nil => rfl
  | cons c s ih =>
      have hrep : (Pattern.char P).star.run (c :: s) g k =
          (if P c then (Pattern.char P).star.run s g k else none).or (k (c :: s) g) := by
        simp [Pattern.run, repetitions]
      rw [hrep, List.dropWhile_cons]
      cases hc : P c with
      | true => rw [if_pos rfl, if_pos rfl, ih, hk c s g hc, Option.or_none]
      | false => rfl

/-- A repetition that must take something. -/
theorem run_plus_char (hk : ∀ c t g, P c = true → k (c :: t) g = none) :
    (Pattern.char P).plus.run s g k =
      if (s.head?.any P) then k (s.dropWhile P) g else none := by
  cases s with
  | nil => rfl
  | cons c s =>
      rw [Pattern.plus, run_seq, run_char_cons, run_star_char hk, List.dropWhile_cons]
      cases hc : P c <;> simp [hc]

/-- The characters a repetition has taken. -/
theorem take_sub_length_dropWhile (s : List Char) :
    s.take (s.length - (s.dropWhile P).length) = s.takeWhile P := by
  have hsplit := List.takeWhile_append_dropWhile (p := P) (l := s)
  have hlength : s.length - (s.dropWhile P).length = (s.takeWhile P).length := by
    have hsum := congrArg List.length hsplit
    rw [List.length_append] at hsum
    omega
  rw [hlength, ← List.prefix_iff_eq_take.1 (List.takeWhile_prefix P)]

theorem dropWhile_of_all (h : s.all P = true) : s.dropWhile P = [] :=
  List.dropWhile_eq_nil_iff.2 fun c hc => List.all_eq_true.1 h c hc

theorem takeWhile_of_all (h : s.all P = true) : s.takeWhile P = s :=
  List.takeWhile_eq_self_iff.2 fun c hc => List.all_eq_true.1 h c hc

theorem dropWhile_ne_nil (h : s.all P = false) : s.dropWhile P ≠ [] := by
  intro hnil
  rw [List.all_eq_true.2 fun c hc => List.dropWhile_eq_nil_iff.1 hnil c hc] at h
  cases h

/-- The end is reached exactly when nothing else comes. -/
theorem atEnd_dropWhile (s : List Char) (g : Groups) :
    atEnd (s.dropWhile P) g = if s.all P then some g else none := by
  cases hall : s.all P with
  | true =>
      rw [dropWhile_of_all hall]
      rfl
  | false =>
      cases hdrop : s.dropWhile P with
      | nil => exact absurd hdrop (dropWhile_ne_nil hall)
      | cons c t => rfl

end RegularExpression
