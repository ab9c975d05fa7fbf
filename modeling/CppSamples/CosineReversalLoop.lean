/-
**The bit-reversal loop of `cosfft1`, test by test.**

`CosineBitReversal` reasons about the loop as a fold over its visits.  Here the same lines of the
source run one test at a time on machine words: the test of the `for`, the comparison of the two
counters and every test of the inner `while` is a step of its own, and the exchanges are recorded.
That the loop comes to an end, what the counters are whenever they are tested and which pairs have
been exchanged is then read off an invariant of the steps.

After the last visit the carry has run off the low end and leaves the counter at `2`.  Only the
test that ends the loop finds it there.

Main definitions:

* `Chebyshev.FCT.reversalLoop` — one test of the loop and what it leads to;
* `Chebyshev.FCT.ReversalLoop.Inv` — where the loop stands between the visits.

Main results:

* `Chebyshev.FCT.ReversalLoop.Inv.step` — the steps keep the invariant;
* `Chebyshev.FCT.nodup_exchanges` — no pair takes part in two exchanges;
* `Chebyshev.FCT.reversalLoop_data` — the loop computes `bitReverse`;
* `Chebyshev.FCT.reversalLoop_spec` — **the loop ends, with the pairs in bit-reversed order**.
-/

import CppSamples.CosineBitReversal
import CppSamples.TransitionSystem

set_option relaxedAutoImplicit false
set_option autoImplicit false

namespace Chebyshev.FCT

open BitReversal TransitionSystem

variable {w : ℕ} {K : Type*}

/-! ### The loop -/

/-- What the loop is about to do. -/
inductive LoopPoint
  /-- `i<=n` -/
  | head
  /-- `if (j > i)`, the exchange and `m=n >> 1` -/
  | exchange
  /-- `while (m >= 2 && j > m)` -/
  | carry
  /-- nothing: the loop is over -/
  | exit
  deriving DecidableEq

/-- The variables of the loop, and the values of `i` and `j` at the exchanges made so far. -/
structure ReversalLoop (w : ℕ) (K : Type*) where
  point : LoopPoint
  i : BitVec w
  j : BitVec w
  m : BitVec w
  data : ℕ → K
  exchanges : List (ℕ × ℕ)

/-- Before the first test; `m` is `n >> 1` since the folding loop. -/
def ReversalLoop.start (n : BitVec w) (data : ℕ → K) : ReversalLoop w K :=
  ⟨.head, 1#w, 1#w, n >>> 1, data, []⟩

/-- One test and what follows it up to the next one. -/
def reversalLoop (n : BitVec w) (s : ReversalLoop w K) (_ : Unit) : Option (ReversalLoop w K) :=
  match s.point with
  | .head => some { s with point := if s.i ≤ n then .exchange else .exit }
  | .exchange =>
    if s.j > s.i then
      let data := swap s.data (s.j - 1#w).toNat (s.i - 1#w).toNat
      let data := swap data s.j.toNat s.i.toNat
      let exchanges := s.exchanges ++ [(s.i.toNat, s.j.toNat)]
      some { s with point := .carry, m := n >>> 1, data := data, exchanges := exchanges }
    else some { s with point := .carry, m := n >>> 1 }
  | .carry =>
    if s.m ≥ 2#w ∧ s.j > s.m then some { s with j := s.j - s.m, m := s.m >>> 1 }
    else some { s with point := .head, i := s.i + 2#w, j := s.j + s.m }
  | .exit => none

/-- A test of the counter `j`, or the test of the `for` that lets a visit begin. -/
def ReversalLoop.Testing (n : BitVec w) (s : ReversalLoop w K) : Prop :=
  s.point = .exchange ∨ s.point = .carry ∨ s.point = .head ∧ s.i ≤ n

/-- `x` is one of `1, 3, …, n - 1`. -/
def OddBelow (n x : BitVec w) : Prop := x.toNat % 2 = 1 ∧ 1 ≤ x.toNat ∧ x.toNat ≤ n.toNat - 1

/-- The pairs that have taken part in an exchange: pair `x` has the cells `2 * x` and
`2 * x + 1`. -/
def ReversalLoop.exchanged (s : ReversalLoop w K) : List ℕ :=
  s.exchanges.flatMap fun c => [c.1 / 2, c.2 / 2]

/-! ### The counter and the exchanges of the visits -/

/-- The counter before visit `t`. -/
def counter (q t : ℕ) : ℕ := if t < 2 ^ q then 2 * bitRev q t + 1 else 2

/-- When all bits are set the carry runs off the low end. -/
theorem reverseCarry_bitRev_last (q : ℕ) :
    reverseCarry (2 ^ q) (2 * bitRev q (2 ^ q - 1) + 1) = 2 := by
  induction q with
  | zero =>
      rw [bitRev_zero, reverseCarry]
      simp
  | succ q ih =>
      have hpos : 0 < 2 ^ q := Nat.two_pow_pos q
      have hpow : 2 ^ (q + 1) = 2 * 2 ^ q := pow_succ' 2 q
      have hones : 2 ^ (q + 1) - 1 = 2 * (2 ^ q - 1) + 1 := by omega
      have hhalf : 2 ^ (q + 1) / 2 = 2 ^ q := by omega
      have hrest : 2 * (2 ^ q + bitRev q (2 ^ q - 1)) + 1 - 2 ^ (q + 1) =
          2 * bitRev q (2 ^ q - 1) + 1 := by omega
      rw [hones, bitRev_two_mul_add_one, reverseCarry, if_pos (by omega), hhalf, hrest]
      exact ih

/-- The carry steps the counter from one visit to the next. -/
theorem reverseCarry_counter {q t : ℕ} (ht : t < 2 ^ q) :
    reverseCarry (2 ^ q) (counter q t) = counter q (t + 1) := by
  rw [counter, if_pos ht, counter]
  split
  · next hnext => exact reverseCarry_bitRev hnext
  · next hlast =>
      obtain rfl : t = 2 ^ q - 1 := by omega
      exact reverseCarry_bitRev_last q

/-- The exchanges of the first `t` visits. -/
def visitExchanges (q t : ℕ) : List (ℕ × ℕ) :=
  ((List.range t).filter fun x => x < bitRev q x).map fun x => (2 * x + 1, 2 * bitRev q x + 1)

theorem visitExchanges_succ (q t : ℕ) :
    visitExchanges q (t + 1) = visitExchanges q t ++
      if t < bitRev q t then [(2 * t + 1, 2 * bitRev q t + 1)] else [] := by
  rw [visitExchanges, List.range_succ, List.filter_append, List.map_append, visitExchanges]
  congr 1
  split
  · next hlt => simp [hlt]
  · next hge => simp [hge]

/-- A pair that is exchanged from its own position is not the partner of another such pair. -/
theorem bitRev_ne_of_lt {q x y : ℕ} (hxq : x < 2 ^ q) (hx : x < bitRev q x) (hy : y < bitRev q y) :
    bitRev q x ≠ y := by
  rintro rfl
  rw [bitRev_bitRev hxq] at hy
  exact lt_asymm hx hy

/-- **No pair takes part in two exchanges**: a pair is exchanged from the smaller one of its two
positions only, and the two determine each other. -/
theorem nodup_exchanges {q t : ℕ} (ht : t ≤ 2 ^ q) :
    ((visitExchanges q t).flatMap fun c => [c.1 / 2, c.2 / 2]).Nodup := by
  have hhalf : ∀ x, (2 * x + 1) / 2 = x := by omega
  have hmem : ∀ x, x ∈ (List.range t).filter (fun x => x < bitRev q x) →
      x < 2 ^ q ∧ x < bitRev q x := by
    intro x hx
    obtain ⟨hxt, hlt⟩ := List.mem_filter.mp hx
    exact ⟨(List.mem_range.mp hxt).trans_le ht, of_decide_eq_true hlt⟩
  rw [visitExchanges, List.flatMap_map, List.nodup_flatMap]
  refine ⟨fun x hx => ?_, ?_⟩
  · obtain ⟨-, hlt⟩ := hmem x hx
    simpa [hhalf] using hlt.ne
  · refine List.Nodup.pairwise_of_forall_ne (List.nodup_range.filter _) fun x hx y hy hxy => ?_
    obtain ⟨hxq, hxlt⟩ := hmem x hx
    obtain ⟨hyq, hylt⟩ := hmem y hy
    have hrev : bitRev q x ≠ bitRev q y := fun heq =>
      hxy (by rw [← bitRev_bitRev hxq, heq, bitRev_bitRev hyq])
    have hx : bitRev q x ≠ y := bitRev_ne_of_lt hxq hxlt hylt
    have hy : bitRev q y ≠ x := bitRev_ne_of_lt hyq hylt hxlt
    simp only [Function.onFun, hhalf]
    simp [hxy.symm, hx.symm, hy, hrev.symm]

/-! ### The invariant -/

/-- `t` visits are made, and the counter is `c` or will be when the carry is through. -/
structure Visited (q : ℕ) (data : ℕ → K) (t c : ℕ) (s : ReversalLoop w K) : Prop where
  counter_eq : c = counter q t
  cells : Reversed q data t (c, s.data)
  exchanges_eq : s.exchanges = visitExchanges q t

/-- What holds at each point of the loop.  Within the carry the mask is a power of two, and what is
left of the carry will make the next counter. -/
inductive ReversalLoop.Inv (q : ℕ) (data : ℕ → K) (s : ReversalLoop w K) : Prop
  | head (t : ℕ) (point : s.point = .head) (le : t ≤ 2 ^ q) (i_eq : s.i.toNat = 2 * t + 1)
      (visited : Visited q data t s.j.toNat s)
  | exchange (t : ℕ) (point : s.point = .exchange) (lt : t < 2 ^ q)
      (i_eq : s.i.toNat = 2 * t + 1) (visited : Visited q data t s.j.toNat s)
  | carry (t k : ℕ) (point : s.point = .carry) (lt : t < 2 ^ q) (i_eq : s.i.toNat = 2 * t + 1)
      (le : k ≤ q) (m_eq : s.m.toNat = 2 ^ k) (odd : s.j.toNat % 2 = 1)
      (j_lt : s.j.toNat < 2 ^ (q + 1))
      (visited : Visited q data (t + 1) (reverseCarry s.m.toNat s.j.toNat) s)
  | exit (point : s.point = .exit) (visited : Visited q data (2 ^ q) s.j.toNat s)

namespace ReversalLoop

variable {q : ℕ} {n : BitVec w} {data : ℕ → K} {s t : ReversalLoop w K}

/-- There is room for `2 * n` in a word. -/
theorem two_mul_lt (hn : n.toNat = 2 ^ (q + 1)) : 2 * 2 ^ (q + 1) ≤ 2 ^ w := by
  have hlt : 2 ^ (q + 1) < 2 ^ w := hn ▸ n.isLt
  have hq : q + 1 < w := (Nat.pow_lt_pow_iff_right one_lt_two).mp hlt
  calc 2 * 2 ^ (q + 1) = 2 ^ (q + 1 + 1) := (pow_succ' 2 (q + 1)).symm
    _ ≤ 2 ^ w := Nat.pow_le_pow_right two_pos hq

theorem toNat_literal (hn : n.toNat = 2 ^ (q + 1)) {c : ℕ} (hc : c ≤ 2) :
    (BitVec.ofNat w c).toNat = c := by
  have hw := two_mul_lt hn
  have hpos : 0 < 2 ^ q := Nat.two_pow_pos q
  rw [pow_succ'] at hw
  rw [BitVec.toNat_ofNat, Nat.mod_eq_of_lt (by omega)]

theorem toNat_half (x : BitVec w) : (x >>> 1).toNat = x.toNat / 2 := by
  rw [BitVec.toNat_ushiftRight, Nat.shiftRight_eq_div_pow, pow_one]

theorem toNat_add_two (hn : n.toNat = 2 ^ (q + 1)) {v : ℕ} (hv : v < 2 ^ q)
    (i_eq : s.i.toNat = 2 * v + 1) : (s.i + 2#w).toNat = 2 * (v + 1) + 1 := by
  have hw := two_mul_lt hn
  have htwo : (2#w).toNat = 2 := toNat_literal hn le_rfl
  rw [pow_succ'] at hw
  rw [BitVec.toNat_add_of_lt (by omega), htwo, i_eq]
  omega

theorem Inv.start (hn : n.toNat = 2 ^ (q + 1)) : Inv q data (ReversalLoop.start n data) := by
  have hone : (1#w).toNat = 1 := toNat_literal hn one_le_two
  refine .head 0 rfl (Nat.zero_le _) hone ?_
  have hj : (ReversalLoop.start n data).j.toNat = 1 := hone
  rw [hj]
  exact ⟨by simp [counter, bitRev_of_zero], Reversed.start q data, rfl⟩

/-! ### The steps -/

/-- The test of the `for`. -/
theorem Inv.step_head (hn : n.toNat = 2 ^ (q + 1)) {v : ℕ} (le : v ≤ 2 ^ q)
    (i_eq : s.i.toNat = 2 * v + 1) (visited : Visited q data v s.j.toNat s) :
    Inv q data { s with point := if s.i ≤ n then .exchange else .exit } := by
  have hpow : 2 ^ (q + 1) = 2 * 2 ^ q := pow_succ' 2 q
  have hle : s.i ≤ n ↔ v < 2 ^ q := by
    rw [BitVec.le_def, hn, i_eq]
    omega
  rcases Nat.lt_or_ge v (2 ^ q) with hlt | hge
  · exact .exchange v (if_pos (hle.mpr hlt)) hlt i_eq
      ⟨visited.counter_eq, visited.cells, visited.exchanges_eq⟩
  · obtain rfl : v = 2 ^ q := le_antisymm le hge
    exact .exit (if_neg (by rw [hle]; exact lt_irrefl _))
      ⟨visited.counter_eq, visited.cells, visited.exchanges_eq⟩

/-- The comparison of the counters and the exchange. -/
theorem Inv.step_exchange (hn : n.toNat = 2 ^ (q + 1)) {v : ℕ} (point : s.point = .exchange)
    (lt : v < 2 ^ q) (i_eq : s.i.toNat = 2 * v + 1) (visited : Visited q data v s.j.toNat s)
    (hstep : reversalLoop n s () = some t) : Inv q data t := by
  have hpow : 2 ^ (q + 1) = 2 * 2 ^ q := pow_succ' 2 q
  have hrev := bitRev_lt q v
  have hone : (1#w).toNat = 1 := toNat_literal hn one_le_two
  have hm : (n >>> 1).toNat = 2 ^ q := by rw [toNat_half, hn]; omega
  have hj : s.j.toNat = 2 * bitRev q v + 1 := visited.cells.counter lt
  have hnext : reverseCarry (2 ^ q) s.j.toNat = counter q (v + 1) := by
    rw [visited.counter_eq, reverseCarry_counter lt]
  have hcells := visited.cells.step lt
  have hguard : s.j > s.i ↔ 1 + 2 * v < s.j.toNat := by
    rw [gt_iff_lt, BitVec.lt_def, i_eq, add_comm]
  have hpair : 1 + 2 * v < s.j.toNat ↔ v < bitRev q v := by omega
  have hcarry : ∀ d exchanges, Reversed q data (v + 1) (reverseCarry (2 ^ q) s.j.toNat, d) →
      exchanges = visitExchanges q (v + 1) →
      Inv q data { s with point := .carry, m := n >>> 1, data := d, exchanges := exchanges } := by
    intro d exchanges hd hexchanges
    have hodd : s.j.toNat % 2 = 1 := by omega
    have hlt : s.j.toNat < 2 ^ (q + 1) := by omega
    refine .carry v q rfl lt i_eq le_rfl hm hodd hlt ?_
    dsimp only
    rw [hm]
    exact ⟨hnext, hd, hexchanges⟩
  simp only [reversalLoop, point] at hstep
  split at hstep
  · next hgt =>
    have hi' : (s.i - 1#w).toNat = 1 + 2 * v - 1 := by
      rw [BitVec.toNat_sub_of_le (by rw [BitVec.le_def]; omega)]
      omega
    have hj' : (s.j - 1#w).toNat = s.j.toNat - 1 := by
      rw [BitVec.toNat_sub_of_le (by rw [BitVec.le_def]; omega), hone]
    cases hstep
    refine hcarry _ _ ?_ ?_
    · rw [if_pos (hguard.mp hgt)] at hcells
      rwa [hi', hj', i_eq, add_comm (2 * v) 1]
    · rw [visited.exchanges_eq, visitExchanges_succ, if_pos (hpair.mp (hguard.mp hgt)), i_eq, hj]
  · next hle =>
    cases hstep
    refine hcarry _ _ ?_ ?_
    · rwa [if_neg (hle ∘ hguard.mpr)] at hcells
    · rw [visited.exchanges_eq, visitExchanges_succ, if_neg (hle ∘ hguard.mpr ∘ hpair.mpr),
        List.append_nil]

/-- The inner `while` and the steps of both counters. -/
theorem Inv.step_carry (hn : n.toNat = 2 ^ (q + 1)) {v k : ℕ} (point : s.point = .carry)
    (lt : v < 2 ^ q) (i_eq : s.i.toNat = 2 * v + 1) (le : k ≤ q) (m_eq : s.m.toNat = 2 ^ k)
    (odd : s.j.toNat % 2 = 1) (j_lt : s.j.toNat < 2 ^ (q + 1))
    (visited : Visited q data (v + 1) (reverseCarry s.m.toNat s.j.toNat) s)
    (hstep : reversalLoop n s () = some t) : Inv q data t := by
  have hpow : 2 ^ (q + 1) = 2 * 2 ^ q := pow_succ' 2 q
  have hw := two_mul_lt hn
  have htwo : (2#w).toNat = 2 := toNat_literal hn le_rfl
  have hm : 2 ^ k ≤ 2 ^ q := Nat.pow_le_pow_right two_pos le
  have hiff : s.m ≥ 2#w ∧ s.j > s.m ↔ 2 ≤ s.m.toNat ∧ s.m.toNat < s.j.toNat := by
    rw [ge_iff_le, gt_iff_lt, BitVec.le_def, BitVec.lt_def, htwo]
  rw [reverseCarry] at visited
  simp only [reversalLoop, point] at hstep
  split at hstep
  · next hgo =>
    -- the mask is even, so the counter stays odd
    obtain ⟨htwo, hlt⟩ := hiff.mp hgo
    cases hstep
    cases k with
    | zero => omega
    | succ k =>
      have hk : 2 ^ (k + 1) = 2 * 2 ^ k := pow_succ' 2 k
      have hm' : (s.m >>> 1).toNat = 2 ^ k := by rw [toNat_half, m_eq]; omega
      have hj' : (s.j - s.m).toNat = s.j.toNat - s.m.toNat :=
        BitVec.toNat_sub_of_le (by rw [BitVec.le_def]; omega)
      refine .carry v k rfl lt i_eq (by omega) hm' ?_ ?_ ?_
      · dsimp only
        omega
      · dsimp only
        omega
      · rw [if_pos ⟨htwo, hlt⟩] at visited
        dsimp only
        rw [hj', toNat_half]
        exact ⟨visited.counter_eq, visited.cells, visited.exchanges_eq⟩
  · next hstop =>
    -- the carry stops, and both counters go on to the next visit
    have hj' : (s.j + s.m).toNat = s.j.toNat + s.m.toNat := by
      rw [BitVec.toNat_add_of_lt (by omega)]
    rw [if_neg (hstop ∘ hiff.mpr)] at visited
    cases hstep
    refine .head (v + 1) rfl lt (toNat_add_two hn lt i_eq) ?_
    dsimp only
    rw [hj']
    exact ⟨visited.counter_eq, visited.cells, visited.exchanges_eq⟩

/-- **The steps keep the invariant.** -/
theorem Inv.step (hn : n.toNat = 2 ^ (q + 1)) (h : Inv q data s)
    (hstep : reversalLoop n s () = some t) : Inv q data t := by
  cases h with
  | head v point le i_eq visited =>
    simp only [reversalLoop, point, Option.some_inj] at hstep
    subst hstep
    exact .step_head hn le i_eq visited
  | exchange v point lt i_eq visited => exact .step_exchange hn point lt i_eq visited hstep
  | carry v k point lt i_eq le m_eq odd j_lt visited =>
    exact .step_carry hn point lt i_eq le m_eq odd j_lt visited hstep
  | exit point visited =>
    rw [reversalLoop, point] at hstep
    cases hstep

/-- What a run leads to meets the invariant. -/
theorem Inv.run (hn : n.toNat = 2 ^ (q + 1)) {as : List Unit}
    (hrun : run (reversalLoop n) (ReversalLoop.start n data) as = some s) : Inv q data s :=
  Reachable.inv (Inv q data) (fun _ _ _ h hstep => h.step hn hstep) (.start hn) ⟨as, hrun⟩

/-! ### What the invariant says -/

theorem Inv.exists_visited (h : Inv q data s) : ∃ v c, v ≤ 2 ^ q ∧ Visited q data v c s := by
  cases h with
  | head v _ le _ visited => exact ⟨v, _, le, visited⟩
  | exchange v _ lt _ visited => exact ⟨v, _, lt.le, visited⟩
  | carry v _ _ lt _ _ _ _ _ visited => exact ⟨v + 1, _, lt, visited⟩
  | exit _ visited => exact ⟨2 ^ q, _, le_rfl, visited⟩

/-- **Both counters are odd and below `n` whenever they are tested.** -/
theorem Inv.oddBelow (hn : n.toNat = 2 ^ (q + 1)) (h : Inv q data s) (htest : s.Testing n) :
    OddBelow n s.i ∧ OddBelow n s.j := by
  have hpow : 2 ^ (q + 1) = 2 * 2 ^ q := pow_succ' 2 q
  -- before a visit both counters name pairs
  have hvisit : ∀ v, v < 2 ^ q → s.i.toNat = 2 * v + 1 → Visited q data v s.j.toNat s →
      OddBelow n s.i ∧ OddBelow n s.j := by
    intro v hv hi visited
    have hrev := bitRev_lt q v
    have hj : s.j.toNat = 2 * bitRev q v + 1 := visited.cells.counter hv
    unfold OddBelow
    omega
  cases h with
  | head v point le i_eq visited =>
    obtain hpoint | hpoint | ⟨-, hle⟩ := htest
    · simp [point] at hpoint
    · simp [point] at hpoint
    · rw [BitVec.le_def] at hle
      exact hvisit v (by omega) i_eq visited
  | exchange v point lt i_eq visited => exact hvisit v lt i_eq visited
  | carry v k point lt i_eq le m_eq odd j_lt visited =>
    unfold OddBelow
    omega
  | exit point visited => simp [Testing, point] at htest

/-! ### Termination -/

/-- A bound on the steps to come: `n + 1` for each unit between `i` and the end. -/
def remaining (n : BitVec w) (s : ReversalLoop w K) : ℕ :=
  let visits := (n.toNat + 2 - s.i.toNat) * (n.toNat + 1)
  match s.point with
  | .head => visits + (n.toNat + 1)
  | .exchange => visits + n.toNat
  | .carry => visits + s.m.toNat
  | .exit => 0

theorem remaining_start (hn : n.toNat = 2 ^ (q + 1)) :
    (ReversalLoop.start n data).remaining n = (2 ^ (q + 1) + 1) * (2 ^ (q + 1) + 2) := by
  have hone : (1#w).toNat = 1 := toNat_literal hn one_le_two
  have hvisits : 2 ^ (q + 1) + 2 - 1 = 2 ^ (q + 1) + 1 := by omega
  simp only [remaining, ReversalLoop.start, hone, hn, hvisits]
  ring

theorem Inv.remaining_lt (hn : n.toNat = 2 ^ (q + 1)) (h : Inv q data s)
    (hstep : reversalLoop n s () = some t) : remaining n t < remaining n s := by
  have hpow : 2 ^ (q + 1) = 2 * 2 ^ q := pow_succ' 2 q
  have hpos : 0 < 2 ^ q := Nat.two_pow_pos q
  have hm : (n >>> 1).toNat = 2 ^ q := by rw [toNat_half, hn]; omega
  cases h with
  | head v point le i_eq visited =>
    simp only [reversalLoop, point, Option.some_inj] at hstep
    subst hstep
    split <;> simp [remaining, point]
  | exchange v point lt i_eq visited =>
    simp only [reversalLoop, point] at hstep
    split at hstep <;> cases hstep <;> simp only [remaining, point, hm] <;> omega
  | carry v k point lt i_eq le m_eq odd j_lt visited =>
    simp only [reversalLoop, point] at hstep
    split at hstep
    · next hgo =>
      have hge : 2 ≤ s.m.toNat := by
        rw [← toNat_literal hn le_rfl]
        exact hgo.1
      cases hstep
      simp only [remaining, point, toNat_half]
      omega
    · -- the next visit has two units of the distance less
      have hi := toNat_add_two hn lt i_eq
      obtain ⟨d, hd⟩ : ∃ d, n.toNat + 2 - s.i.toNat = d + 2 := ⟨n.toNat - s.i.toNat, by omega⟩
      have hd' : n.toNat + 2 - (s.i + 2#w).toNat = d := by omega
      cases hstep
      simp only [remaining, point, hd, hd', add_mul]
      omega
  | exit point visited =>
    rw [reversalLoop, point] at hstep
    cases hstep

end ReversalLoop

/-- The loop stops at its end only. -/
theorem terminal_reversalLoop_iff {n : BitVec w} {s : ReversalLoop w K} :
    Terminal (reversalLoop n) s ↔ s.point = .exit := by
  constructor
  · intro h
    have hnone : reversalLoop n s () = none := h ()
    unfold reversalLoop at hnone
    cases hpoint : s.point with
    | exit => rfl
    | head =>
      simp only [hpoint] at hnone
      cases hnone
    | exchange =>
      simp only [hpoint] at hnone
      split at hnone <;> cases hnone
    | carry =>
      simp only [hpoint] at hnone
      split at hnone <;> cases hnone
  · intro hpoint a
    rw [reversalLoop, hpoint]

/-- **The loop computes `bitReverse`**, and leaves the counter at `2`. -/
theorem reversalLoop_data {q : ℕ} {n : BitVec w} (hn : n.toNat = 2 ^ (q + 1)) {data : ℕ → K}
    {as : List Unit} {s : ReversalLoop w K}
    (hrun : run (reversalLoop n) (ReversalLoop.start n data) as = some s)
    (hexit : s.point = .exit) : s.data = bitReverse n.toNat data ∧ s.j.toNat = 2 := by
  have visited : Visited q data (2 ^ q) s.j.toNat s := by
    cases ReversalLoop.Inv.run hn hrun with
    | exit _ visited => exact visited
    | head _ point => simp [hexit] at point
    | exchange _ point => simp [hexit] at point
    | carry _ _ point => simp [hexit] at point
  refine ⟨funext fun y => ?_, visited.counter_eq.trans (if_neg (lt_irrefl _))⟩
  rw [hn]
  rcases Nat.lt_or_ge y (2 ^ (q + 1)) with hlt | hge
  · rw [pow_succ'] at hlt
    have hx : y / 2 < 2 ^ q := by omega
    have he : y % 2 < 2 := Nat.mod_lt y two_pos
    rw [← Nat.div_add_mod y 2, bitReverse_apply hx he]
    exact visited.cells.visited _ _ hx he (Or.inl hx)
  · rw [bitReverse_of_le hge]
    exact visited.cells.beyond y hge

/-- **The bit-reversal loop of `cosfft1`**, for every `n = 2 ^ p` that fits in a word.  It comes to
an end.  Whenever a counter is tested before that, both are odd and at most `n - 1`.  No pair has
taken part in two exchanges, and the cells from `n` on are as they were.  At the end every pair
holds what the pair with the mirrored index held. -/
theorem reversalLoop_spec {p : ℕ} {n : BitVec w} (hp : 1 ≤ p) (hn : n.toNat = 2 ^ p)
    {data : ℕ → K} {as : List Unit} {s : ReversalLoop w K}
    (hrun : run (reversalLoop n) (ReversalLoop.start n data) as = some s) :
    as.length ≤ (2 ^ p + 1) * (2 ^ p + 2) ∧
      (∃ bs t, run (reversalLoop n) s bs = some t ∧ t.point = .exit) ∧
      (Terminal (reversalLoop n) s ↔ s.point = .exit) ∧
      (s.Testing n → OddBelow n s.i ∧ OddBelow n s.j) ∧
      s.exchanged.Nodup ∧
      (∀ y, 2 ^ p ≤ y → s.data y = data y) ∧
      (s.point = .exit → ∀ x, x < 2 ^ (p - 1) → bitRev (p - 1) x < 2 ^ (p - 1) ∧
        (∀ k, k < p - 1 → (bitRev (p - 1) x).testBit k = x.testBit (p - 1 - 1 - k)) ∧
          ∀ e, e < 2 → s.data (2 * x + e) = data (2 * bitRev (p - 1) x + e)) := by
  obtain ⟨q, rfl⟩ : ∃ q, p = q + 1 := ⟨p - 1, by omega⟩
  have hinv := ReversalLoop.Inv.run hn hrun
  have hstep : ∀ s a t, ReversalLoop.Inv q data s → reversalLoop n s a = some t →
      ReversalLoop.Inv q data t ∧ t.remaining n < s.remaining n :=
    fun _ _ _ h hst => ⟨h.step hn hst, h.remaining_lt hn hst⟩
  obtain ⟨v, c, hv, visited⟩ := hinv.exists_visited
  refine ⟨?_, ?_, terminal_reversalLoop_iff, hinv.oddBelow hn, ?_, visited.cells.beyond, ?_⟩
  · have hlength := length_le_measure_of_inv hstep (.start hn) hrun
    rw [ReversalLoop.remaining_start hn] at hlength
    omega
  · obtain ⟨bs, t, hbs, hend⟩ := exists_terminal_of_inv hstep hinv
    exact ⟨bs, t, hbs, terminal_reversalLoop_iff.mp hend⟩
  · rw [ReversalLoop.exchanged, visited.exchanges_eq]
    exact nodup_exchanges hv
  · intro hexit x hx
    rw [Nat.add_sub_cancel] at hx ⊢
    refine ⟨bitRev_lt q x, fun k hk => testBit_bitRev hk x, fun e he => ?_⟩
    rw [(reversalLoop_data hn hrun hexit).1, hn]
    exact bitReverse_apply hx he data

/-- Four pairs: the two in the middle change places. -/
theorem reversalLoop_spec_eight :
    ∃ s : ReversalLoop 64 ℕ,
      run (reversalLoop 8#64) (ReversalLoop.start 8#64 id) (List.replicate 16 ()) = some s ∧
      s.point = .exit ∧ s.exchanges = [(3, 5)] ∧
      (List.replicate 16 ()).length ≤ (2 ^ 3 + 1) * (2 ^ 3 + 2) ∧
      (∃ bs t, run (reversalLoop 8#64) s bs = some t ∧ t.point = .exit) ∧
      (Terminal (reversalLoop 8#64) s ↔ s.point = .exit) ∧
      (s.Testing 8#64 → OddBelow 8#64 s.i ∧ OddBelow 8#64 s.j) ∧
      s.exchanged.Nodup ∧
      (∀ y, 2 ^ 3 ≤ y → s.data y = id y) ∧
      (s.point = .exit → ∀ x, x < 2 ^ (3 - 1) → bitRev (3 - 1) x < 2 ^ (3 - 1) ∧
        (∀ k, k < 3 - 1 → (bitRev (3 - 1) x).testBit k = x.testBit (3 - 1 - 1 - k)) ∧
          ∀ e, e < 2 → s.data (2 * x + e) = id (2 * bitRev (3 - 1) x + e)) := by
  have hrun : run (reversalLoop 8#64) (ReversalLoop.start 8#64 id) (List.replicate 16 ()) =
      some ⟨.exit, 9#64, 2#64, 1#64, swap (swap id 4 2) 5 3, [(3, 5)]⟩ := rfl
  exact ⟨_, hrun, rfl, rfl, reversalLoop_spec (by decide) rfl hrun⟩

end Chebyshev.FCT
