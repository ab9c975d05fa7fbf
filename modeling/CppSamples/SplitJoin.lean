/-
**Splitting a string at a delimiter.**

`split` goes through a string with two searches: one for the next character that is not the
delimiter, where a token begins, and one from there for the next delimiter, where it ends.  Either
search can come to the end of the string and ends the loop.  `string_join` puts a delimiter between
the elements of a list.

Main definitions:

* `SplitJoin.findFrom` — the search of a `std::string`;
* `SplitJoin.splitFrom`, `SplitJoin.split`, `SplitJoin.stringJoin` — the functions;
* `SplitJoin.words`, `SplitJoin.IsToken` — the pieces between the delimiters that are not empty, as
  strings and by their places.

Main results:

* `SplitJoin.splitFrom_cases` — what one pass of the loop does;
* `SplitJoin.split_eq_words` — **`split` finds the pieces between the delimiters**;
* `SplitJoin.exists_spans` — the places of the tokens;
* `SplitJoin.split_spec` — **splitting undoes joining, and finds every token once**.
-/

import Mathlib.Data.List.Basic
import Mathlib.Tactic.Common

set_option relaxedAutoImplicit false
set_option autoImplicit false

namespace SplitJoin

/-! ### The functions -/

/-- The index of the first character from `pos` on that meets `P`; `none` is `npos`. -/
def findFrom (P : Char → Bool) (s : List Char) (pos : ℕ) : Option ℕ :=
  ((s.drop pos).findIdx? P).map (pos + ·)

/-- `s.find_first_not_of(d, pos)` -/
def find_first_not_of (s : List Char) (d : Char) (pos : ℕ) : Option ℕ := findFrom (· != d) s pos

/-- `s.find_first_of(d, pos)` -/
def find_first_of (s : List Char) (d : Char) (pos : ℕ) : Option ℕ := findFrom (· == d) s pos

/-- `s.substr(pos, n)` -/
def substr (s : List Char) (pos n : ℕ) : List Char := (s.drop pos).take n

variable {P : Char → Bool} {s : List Char} {d : Char}

/-- A search that fails. -/
theorem findFrom_eq_none {pos : ℕ} (h : findFrom P s pos = none) :
    ∀ k c, pos ≤ k → s[k]? = some c → P c = false := by
  rw [findFrom, Option.map_eq_none_iff, List.findIdx?_eq_none_iff] at h
  intro k c hk hc
  obtain ⟨i, rfl⟩ := Nat.exists_eq_add_of_le hk
  refine h c (List.mem_of_getElem? (i := i) ?_)
  rw [List.getElem?_drop, hc]

/-- A search that succeeds. -/
theorem findFrom_eq_some {pos p : ℕ} (h : findFrom P s pos = some p) :
    pos ≤ p ∧ (∃ c, s[p]? = some c ∧ P c = true) ∧
      ∀ k c, pos ≤ k → k < p → s[k]? = some c → P c = false := by
  rw [findFrom, Option.map_eq_some_iff] at h
  obtain ⟨j, hj, rfl⟩ := h
  obtain ⟨hlt, hat, hbefore⟩ := List.findIdx?_eq_some_iff_getElem.1 hj
  rw [List.length_drop] at hlt
  rw [List.getElem_drop] at hat
  refine ⟨Nat.le_add_right pos j, ⟨s[pos + j], List.getElem?_eq_getElem (by omega), hat⟩, ?_⟩
  intro k c hk hkj hc
  obtain ⟨i, rfl⟩ := Nat.exists_eq_add_of_le hk
  have hi := hbefore i (by omega)
  rw [List.getElem_drop] at hi
  obtain ⟨hlen, rfl⟩ := List.getElem?_eq_some_iff.1 hc
  exact Bool.eq_false_iff.2 hi

/-- The second search begins inside the string, so the loop moves on. -/
theorem lt_of_find {q p q' : ℕ} (hp : find_first_not_of s d q = some p)
    (hq : find_first_of s d p = some q') : q ≤ p ∧ p < q' ∧ q' < s.length := by
  obtain ⟨hqp, ⟨c, hc, hne⟩, -⟩ := findFrom_eq_some hp
  obtain ⟨hpq, ⟨c', hc', heq⟩, -⟩ := findFrom_eq_some hq
  refine ⟨hqp, Nat.lt_of_le_of_ne hpq ?_, (List.getElem?_eq_some_iff.1 hc').1⟩
  rintro rfl
  -- the character is not the delimiter and is the delimiter
  obtain rfl := Option.some.inj (hc.symm.trans hc')
  exact bne_iff_ne.1 hne (beq_iff_eq.1 heq)

/-- The loop of `split` from the value `q` on, with the tokens that the inserter has got. -/
def splitFrom (s : List Char) (d : Char) (q : ℕ) (inserter : List (List Char)) :
    List (List Char) :=
  if q < s.length then
    match _ : find_first_not_of s d q with
    | none => inserter
    | some p =>
      match _ : find_first_of s d p with
      | none => inserter ++ [substr s p (s.length - p)]
      | some q' => splitFrom s d q' (inserter ++ [substr s p (q' - p)])
  else inserter
  termination_by s.length - q
  decreasing_by
    have hlt := lt_of_find ‹find_first_not_of s d q = some p› ‹find_first_of s d p = some q'›
    omega

/-- **`split`**, with a back inserter. -/
def split (s : List Char) (d : Char) (inserter : List (List Char)) : List (List Char) :=
  splitFrom s d 0 inserter

/-- **`string_join`**; an empty range has no head. -/
def stringJoin (r : List (List Char)) (d : List Char) : Option (List Char) :=
  match r with
  | [] => none
  | head :: tail => some (tail.foldl (fun a b => a ++ (d ++ b)) head)

/-! ### One pass -/

/-- The characters of a substring. -/
theorem exists_of_mem_substr {p n : ℕ} {c : Char} (h : c ∈ substr s p n) :
    ∃ k, p ≤ k ∧ k < p + n ∧ s[k]? = some c := by
  obtain ⟨k, hk, rfl⟩ := List.getElem_of_mem h
  rw [substr, List.length_take, List.length_drop] at hk
  refine ⟨p + k, Nat.le_add_right p k, by omega, ?_⟩
  rw [List.getElem?_eq_getElem (by omega)]
  simp only [substr, List.getElem_take, List.getElem_drop]

/-- A substring and what is behind it. -/
theorem drop_eq_substr_append {p e : ℕ} (h : p ≤ e) :
    s.drop p = substr s p (e - p) ++ s.drop e := by
  have hsum : p + (e - p) = e := by omega
  have hsplit := List.take_append_drop (e - p) (s.drop p)
  rw [List.drop_drop, hsum] at hsplit
  exact hsplit.symm

/-- What a pass of the loop that begins at `q` has found: delimiters up to `p` and no delimiter from
there to `e`, where the string ends or a delimiter stands. -/
structure Found (s : List Char) (d : Char) (q p e : ℕ) : Prop where
  le : q ≤ p
  lt : p < e
  le_length : e ≤ s.length
  gap : ∀ k, q ≤ k → k < p → s[k]? = some d
  token : ∀ k, p ≤ k → k < e → s[k]? ≠ some d
  stop : e = s.length ∨ s[e]? = some d

theorem splitFrom_length (s : List Char) (d : Char) (out : List (List Char)) :
    splitFrom s d s.length out = out := by
  rw [splitFrom, if_neg (Nat.lt_irrefl _)]

section Pass

variable {q p e : ℕ} (out : List (List Char)) (hq : q < s.length)

include hq

theorem splitFrom_of_none (hp : find_first_not_of s d q = none) : splitFrom s d q out = out := by
  rw [splitFrom, if_pos hq]
  split
  · rfl
  · simp_all

theorem splitFrom_of_last (hp : find_first_not_of s d q = some p)
    (he : find_first_of s d p = none) :
    splitFrom s d q out = out ++ [substr s p (s.length - p)] := by
  rw [splitFrom, if_pos hq]
  split
  · simp_all
  · obtain rfl := Option.some.inj (hp.symm.trans ‹_›)
    split
    · rfl
    · simp_all

theorem splitFrom_of_some (hp : find_first_not_of s d q = some p)
    (he : find_first_of s d p = some e) :
    splitFrom s d q out = splitFrom s d e (out ++ [substr s p (e - p)]) := by
  rw [splitFrom, if_pos hq]
  split
  · simp_all
  · obtain rfl := Option.some.inj (hp.symm.trans ‹_›)
    split
    · simp_all
    · obtain rfl := Option.some.inj (he.symm.trans ‹_›)
      rfl

end Pass

/-- **What one pass of the loop does**: it finds no token and ends, or it adds one and goes on
behind it. -/
theorem splitFrom_cases (s : List Char) (d : Char) (q : ℕ) (out : List (List Char)) :
    ((∀ k, q ≤ k → k < s.length → s[k]? = some d) ∧ splitFrom s d q out = out) ∨
    ∃ p e, Found s d q p e ∧
      splitFrom s d q out = splitFrom s d e (out ++ [substr s p (e - p)]) := by
  by_cases hq : q < s.length
  swap
  · exact .inl ⟨fun k hk hlt => absurd hlt (by omega), by rw [splitFrom, if_neg hq]⟩
  cases hp : find_first_not_of s d q with
  | none =>
      refine .inl ⟨?_, splitFrom_of_none out hq hp⟩
      intro k hk hlt
      have hk' := List.getElem?_eq_getElem hlt
      rw [hk', ← bne_eq_false_iff_eq.1 (findFrom_eq_none hp k _ hk hk')]
  | some p =>
      obtain ⟨hle, ⟨c, hc, hne⟩, hgap⟩ := findFrom_eq_some hp
      have hplt : p < s.length := (List.getElem?_eq_some_iff.1 hc).1
      have hgap' : ∀ k, q ≤ k → k < p → s[k]? = some d := by
        intro k hk hkp
        have hk' := List.getElem?_eq_getElem (by omega : k < s.length)
        rw [hk', ← bne_eq_false_iff_eq.1 (hgap k _ hk hkp hk')]
      cases he : find_first_of s d p with
      | none =>
          refine .inr ⟨p, s.length, ⟨hle, hplt, Nat.le_refl _, hgap', ?_, .inl rfl⟩, ?_⟩
          · intro k hk hlt hd
            exact absurd (findFrom_eq_none he k d hk hd) (by simp)
          · rw [splitFrom_of_last out hq hp he, splitFrom_length]
      | some e =>
          obtain ⟨hpe, ⟨c', hc', heq⟩, htoken⟩ := findFrom_eq_some he
          obtain ⟨-, hpe', helt⟩ := lt_of_find hp he
          refine .inr ⟨p, e, ⟨hle, hpe', Nat.le_of_lt helt, hgap', ?_, .inr ?_⟩,
            splitFrom_of_some out hq hp he⟩
          · intro k hk hke hd
            exact absurd (htoken k d hk hke hd) (by simp)
          · rw [hc', beq_iff_eq.1 heq]

/-! ### The places of the tokens -/

/-- **A token**: a maximal substring without the delimiter that is not empty. -/
structure IsToken (s : List Char) (d : Char) (p e : ℕ) : Prop where
  lt : p < e
  le_length : e ≤ s.length
  token : ∀ k, p ≤ k → k < e → s[k]? ≠ some d
  before : p = 0 ∨ s[p - 1]? = some d
  after : e = s.length ∨ s[e]? = some d

/-- Where the passes of the loop begin. -/
def Boundary (s : List Char) (d : Char) (q : ℕ) : Prop := q = 0 ∨ q = s.length ∨ s[q]? = some d

variable {q p e : ℕ}

/-- What a pass finds is a token. -/
theorem Found.isToken (h : Found s d q p e) (hq : Boundary s d q) : IsToken s d p e where
  lt := h.lt
  le_length := h.le_length
  token := h.token
  before := by
    rcases Nat.eq_or_lt_of_le h.le with rfl | hlt
    · rcases hq with rfl | rfl | hd
      · exact .inl rfl
      · exact absurd h.lt (Nat.not_lt.2 h.le_length)
      · exact absurd hd (h.token q (Nat.le_refl q) h.lt)
    · exact .inr (h.gap (p - 1) (by omega) (by omega))
  after := h.stop

/-- **A token that begins in what a pass has gone through** is the one it has found. -/
theorem Found.eq_of_isToken (h : Found s d q p e) {p' e' : ℕ} (h' : IsToken s d p' e')
    (hq : q ≤ p') (he : p' < e) : p' = p ∧ e' = e := by
  have hp : p ≤ p' := by
    by_contra hlt
    exact h'.token p' (Nat.le_refl _) h'.lt (h.gap p' hq (by omega))
  have hpp : p' = p := by
    by_contra hne
    rcases h'.before with hzero | hd
    · omega
    · exact h.token (p' - 1) (by omega) (by omega) hd
  subst hpp
  refine ⟨rfl, ?_⟩
  rcases Nat.lt_trichotomy e' e with hlt | heq | hlt
  · have hle := h.le_length
    rcases h'.after with hend | hd
    · omega
    · exact absurd hd (h.token e' (by have := h'.lt; omega) hlt)
  · exact heq
  · have hle := h'.le_length
    rcases h.stop with hend | hd
    · omega
    · exact absurd hd (h'.token e (by have := h.lt; omega) hlt)

/-- **The tokens from a boundary on**, from left to right. -/
theorem exists_spans_from (hq : Boundary s d q) (out : List (List Char)) :
    ∃ spans : List (ℕ × ℕ),
      splitFrom s d q out = out ++ spans.map (fun x => substr s x.1 (x.2 - x.1)) ∧
      spans.Pairwise (fun x y => x.2 < y.1) ∧
      ∀ p e, (p, e) ∈ spans ↔ q ≤ p ∧ IsToken s d p e := by
  induction hn : s.length - q using Nat.strongRecOn generalizing q out with
  | ind n ih =>
      rcases splitFrom_cases s d q out with ⟨hall, hrun⟩ | ⟨p, e, hfound, hrun⟩
      · refine ⟨[], by rw [hrun, List.map_nil, List.append_nil], .nil, ?_⟩
        intro p e
        refine ⟨nofun, fun ⟨hqp, htoken⟩ => ?_⟩
        have hle := htoken.le_length
        have hlt := htoken.lt
        exact absurd (hall p hqp (by omega)) (htoken.token p (Nat.le_refl p) hlt)
      · have hlt := hfound.lt
        have hle := hfound.le
        have hlen := hfound.le_length
        obtain ⟨spans, hsplit, hsorted, hmem⟩ := ih (s.length - e) (by omega) (.inr hfound.stop)
          (out ++ [substr s p (e - p)]) rfl
        refine ⟨(p, e) :: spans, ?_, ?_, ?_⟩
        · rw [hrun, hsplit, List.map_cons, List.append_assoc, List.singleton_append]
        · refine List.pairwise_cons.2 ⟨?_, hsorted⟩
          rintro ⟨p', e'⟩ hx
          obtain ⟨hep, htoken⟩ := (hmem p' e').1 hx
          refine Nat.lt_of_le_of_ne hep ?_
          rintro rfl
          -- a token does not begin where another one ends
          rcases hfound.stop with hend | hd
          · have hlt' := htoken.lt
            have hlen' := htoken.le_length
            omega
          · exact htoken.token e (Nat.le_refl e) htoken.lt hd
        · intro p' e'
          rw [List.mem_cons, hmem]
          constructor
          · rintro (heq | ⟨hep, htoken⟩)
            · obtain ⟨rfl, rfl⟩ := Prod.mk.inj heq
              exact ⟨hle, hfound.isToken hq⟩
            · exact ⟨by omega, htoken⟩
          · rintro ⟨hqp, htoken⟩
            rcases Nat.lt_or_ge p' e with hlt' | hge
            · obtain ⟨rfl, rfl⟩ := hfound.eq_of_isToken htoken hqp hlt'
              exact .inl rfl
            · exact .inr ⟨hge, htoken⟩

/-! ### The pieces between the delimiters -/

/-- The pieces between the delimiters that are not empty. -/
def words (d : Char) (s : List Char) : List (List Char) := (s.splitOn d).filter (· ≠ [])

theorem words_nil (d : Char) : words d [] = [] := by
  rw [words, List.splitOn_nil]
  rfl

/-- A delimiter separates the pieces before it from those behind it. -/
theorem words_append_cons (d : Char) (s t : List Char) :
    words d (s ++ d :: t) = words d s ++ words d t := by
  rw [words, List.splitOn_append_cons_self, List.filter_append, words, words]

/-- Delimiters at the beginning. -/
theorem words_append_of_forall {w : List Char} (hw : ∀ c ∈ w, c = d) (s : List Char) :
    words d (w ++ s) = words d s := by
  induction w with
  | nil => rfl
  | cons c w ih =>
      obtain ⟨rfl, hw⟩ := List.forall_mem_cons.1 hw
      have hcons := words_append_cons c [] (w ++ s)
      rw [List.nil_append, words_nil, List.nil_append] at hcons
      rw [List.cons_append, hcons, ih hw]

/-- A single piece. -/
theorem words_of_not_mem {w : List Char} (hd : d ∉ w) (hw : w ≠ []) : words d w = [w] := by
  rw [words, List.splitOn_eq_singleton hd]
  simp [hw]

/-- What is in front of the end or of a delimiter. -/
theorem words_append_drop {e : ℕ} (he : e = s.length ∨ s[e]? = some d) (w : List Char) :
    words d (w ++ s.drop e) = words d w ++ words d (s.drop e) := by
  rcases he with rfl | hd
  · rw [List.drop_length, List.append_nil, words_nil, List.append_nil]
  · obtain ⟨hlt, hd⟩ := List.getElem?_eq_some_iff.1 hd
    have hdrop := words_append_cons d [] (s.drop (e + 1))
    rw [List.nil_append, words_nil, List.nil_append] at hdrop
    rw [List.drop_eq_getElem_cons hlt, hd, words_append_cons, hdrop]

/-- The pieces of what a pass has gone through. -/
theorem Found.words_drop (h : Found s d q p e) :
    words d (s.drop q) = substr s p (e - p) :: words d (s.drop e) := by
  have hgap : ∀ c ∈ substr s q (p - q), c = d := by
    intro c hc
    obtain ⟨k, hqk, hkp, hk⟩ := exists_of_mem_substr hc
    have hle := h.le
    exact Option.some.inj (hk.symm.trans (h.gap k hqk (by omega)))
  have htoken : d ∉ substr s p (e - p) := by
    intro hd
    obtain ⟨k, hpk, hke, hk⟩ := exists_of_mem_substr hd
    have hlt := h.lt
    exact h.token k hpk (by omega) hk
  have hne : substr s p (e - p) ≠ [] := by
    have hlt := h.lt
    have hlen := h.le_length
    refine List.ne_nil_of_length_pos ?_
    rw [substr, List.length_take, List.length_drop]
    omega
  rw [drop_eq_substr_append h.le, words_append_of_forall hgap,
    drop_eq_substr_append (Nat.le_of_lt h.lt), words_append_drop h.stop,
    words_of_not_mem htoken hne, List.singleton_append]

/-- **`split` finds the pieces between the delimiters**, from every value of `q` on. -/
theorem splitFrom_eq_words (s : List Char) (d : Char) (q : ℕ) (out : List (List Char)) :
    splitFrom s d q out = out ++ words d (s.drop q) := by
  induction hn : s.length - q using Nat.strongRecOn generalizing q out with
  | ind n ih =>
      rcases splitFrom_cases s d q out with ⟨hall, hrun⟩ | ⟨p, e, hfound, hrun⟩
      · have hdrop : ∀ c ∈ s.drop q, c = d := by
          intro c hc
          obtain ⟨k, hk, rfl⟩ := List.getElem_of_mem hc
          rw [List.length_drop] at hk
          have hd := hall (q + k) (Nat.le_add_right q k) (by omega)
          rw [List.getElem?_eq_getElem (by omega)] at hd
          rw [List.getElem_drop, Option.some.inj hd]
        have hwords := words_append_of_forall hdrop []
        rw [List.append_nil, words_nil] at hwords
        rw [hrun, hwords, List.append_nil]
      · have hle := hfound.le
        have hlt := hfound.lt
        have hlen := hfound.le_length
        rw [hrun, ih (s.length - e) (by omega) e _ rfl, hfound.words_drop, List.append_assoc,
          List.singleton_append]

/-- **`split` finds the pieces between the delimiters.** -/
theorem split_eq_words (s : List Char) (d : Char) : split s d [] = words d s := by
  rw [split, splitFrom_eq_words, List.nil_append, List.drop_zero]

/-! ### Joining -/

/-- The pieces of a string that was joined. -/
theorem words_foldl_join {l : List (List Char)} (hl : ∀ w ∈ l, w ≠ [] ∧ d ∉ w) (a : List Char) :
    words d (l.foldl (fun a b => a ++ ([d] ++ b)) a) = words d a ++ l := by
  induction l generalizing a with
  | nil => rw [List.foldl_nil, List.append_nil]
  | cons w l ih =>
      obtain ⟨⟨hne, hd⟩, hl⟩ := List.forall_mem_cons.1 hl
      rw [List.foldl_cons, ih hl, List.singleton_append, words_append_cons,
        words_of_not_mem hd hne, List.append_assoc, List.singleton_append]

/-- **Splitting undoes joining.** -/
theorem split_stringJoin {l : List (List Char)} (hne : l ≠ []) (hl : ∀ w ∈ l, w ≠ [] ∧ d ∉ w) :
    ∃ joined, stringJoin l [d] = some joined ∧ split joined d [] = l := by
  cases l with
  | nil => exact absurd rfl hne
  | cons w l =>
      obtain ⟨⟨hw, hd⟩, hl⟩ := List.forall_mem_cons.1 hl
      refine ⟨_, rfl, ?_⟩
      rw [split_eq_words, words_foldl_join hl, words_of_not_mem hd hw, List.singleton_append]

/-- **The places of the tokens** that `split` finds, from left to right. -/
theorem exists_spans (s : List Char) (d : Char) :
    ∃ spans : List (ℕ × ℕ), split s d [] = spans.map (fun x => substr s x.1 (x.2 - x.1)) ∧
      spans.Pairwise (fun x y => x.2 < y.1) ∧ ∀ p e, (p, e) ∈ spans ↔ IsToken s d p e := by
  obtain ⟨spans, hsplit, hsorted, hmem⟩ := exists_spans_from (s := s) (d := d) (.inl rfl) []
  refine ⟨spans, by rw [split, hsplit, List.nil_append], hsorted, ?_⟩
  intro p e
  rw [hmem, and_iff_right (Nat.zero_le p)]

/-- **Splitting undoes joining, and finds every token once.** -/
theorem split_spec (d : Char) (l : List (List Char)) (hne : l ≠ [])
    (hl : ∀ w ∈ l, w ≠ [] ∧ d ∉ w) (s : List Char) :
    (∃ joined, stringJoin l [d] = some joined ∧ split joined d [] = l) ∧
    ∃ spans : List (ℕ × ℕ), split s d [] = spans.map (fun x => substr s x.1 (x.2 - x.1)) ∧
      spans.Pairwise (fun x y => x.2 < y.1) ∧ ∀ p e, (p, e) ∈ spans ↔ IsToken s d p e :=
  ⟨split_stringJoin hne hl, exists_spans s d⟩

/-- Two words. -/
theorem split_spec_two :
    ∃ joined, stringJoin [['a', 'b'], ['c']] [','] = some joined ∧
      split joined ',' [] = [['a', 'b'], ['c']] :=
  (split_spec ',' [['a', 'b'], ['c']] (by decide) (by decide) []).1

end SplitJoin
