/-
**What the kernel with shared memory counts.**

The counters of a block from its size on are neither set nor added, so the values from the size of a
block on are lost.  All others are counted, in every order of the steps.

Main definitions:

* `Histogram.blockTally`, `Histogram.merged` — what a block has counted and what has been added;
* `Histogram.SharedInv` — the invariant.

Main results:

* `Histogram.SharedInv.step` — the invariant is kept;
* `Histogram.shared_res_eq` — the counters at the end;
* `Histogram.histogramGPUSharedMem_eq_iff` — **the inputs that are counted as by the sequential
  count**;
* `Histogram.histogramGPUSharedMem_loses` — an input that is not.
-/

import CppSamples.SharedHistogram

set_option relaxedAutoImplicit false
set_option autoImplicit false

namespace Histogram

open Function GridStride TransitionSystem

variable (d : Dialect) {G T : ℕ} {input : ℕ → BitVec 32} {n : BitVec 32} {res : Counters}
  {s t : SharedMem G T} {a : Thread G T}

/-! ### The counters -/

/-- How many of the indices of the block `b` have the value `v`. -/
def blockTally (input : ℕ → BitVec 32) (G T b v : ℕ) (indices : List ℕ) : ℕ :=
  indices.countP fun i => i % (G * T) / T = b ∧ (input i).toNat = v

/-- The counter `v` of the block of the index `i` has been added to the global ones. -/
def Combined (phase : Thread G T → Phase) (i v : ℕ) : Prop :=
  v < numBins ∧ ∃ b t, i % (G * T) / T = Fin.val b ∧ v = Fin.val t ∧ phase (b, t) = .done

instance (phase : Thread G T → Phase) (i v : ℕ) : Decidable (Combined phase i v) :=
  inferInstanceAs (Decidable (_ ∧ _))

/-- How many of the indices below `n` have the value `v` and are counted in the global counters. -/
def merged (input : ℕ → BitVec 32) (n : ℕ) (phase : Thread G T → Phase) (v : ℕ) : ℕ :=
  (List.range n).countP fun i => (input i).toNat = v ∧ Combined phase i v

/-- The block of a thread. -/
theorem number_div (a : Thread G T) : (number G T a : ℕ) / T = a.1 := by
  have hT : 0 < T := (Nat.zero_le _).trans_lt a.2.isLt
  rw [number_val, Nat.add_mul_div_left _ _ hT, Nat.div_eq_of_lt a.2.isLt, Nat.zero_add]

theorem blockTally_concat (input : ℕ → BitVec 32) (b v : ℕ) (indices : List ℕ) (i : ℕ) :
    blockTally input G T b v (indices ++ [i]) = blockTally input G T b v indices +
      if i % (G * T) / T = b ∧ (input i).toNat = v then 1 else 0 := by
  unfold blockTally
  rw [List.countP_append, List.countP_singleton]
  simp

/-- The elements with one of two properties that exclude each other. -/
theorem countP_or {p q r : ℕ → Bool} (hr : ∀ i, r i = (p i || q i))
    (hpq : ∀ i, p i = true → q i = false) (l : List ℕ) :
    l.countP r = l.countP p + l.countP q := by
  induction l with
  | nil => rfl
  | cons i l ih =>
    rw [List.countP_cons, List.countP_cons, List.countP_cons, ih, hr]
    cases hp : p i with
    | false =>
      cases q i with
      | false => rfl
      | true => simp; omega
    | true => simp [hpq i hp]; omega

/-- A thread that is not done adds nothing. -/
theorem merged_update_of_ne {phase : Thread G T → Phase} {q : Phase} (ha : phase a ≠ .done)
    (hq : q ≠ .done) (m v : ℕ) : merged input m (update phase a q) v = merged input m phase v := by
  have hiff : ∀ b, update phase a q b = .done ↔ phase b = .done := by
    intro b
    by_cases hb : b = a
    · subst hb
      simp [ha, hq]
    · rw [update_of_ne hb]
  refine List.countP_congr fun i _ => ?_
  rw [decide_eq_true_eq, decide_eq_true_eq]
  simp only [Combined, hiff]

/-- A thread that becomes done adds its counter of its block. -/
theorem combined_update_done {phase : Thread G T → Phase} {i v : ℕ} :
    Combined (update phase a .done) i v ↔
      Combined phase i v ∨ (v < numBins ∧ i % (G * T) / T = a.1 ∧ v = a.2) := by
  constructor
  · rintro ⟨hlt, b, t, hb, ht, hdone⟩
    by_cases hbt : (b, t) = a
    · subst hbt
      exact .inr ⟨hlt, hb, ht⟩
    · rw [update_of_ne hbt] at hdone
      exact .inl ⟨hlt, b, t, hb, ht, hdone⟩
  · rintro (⟨hlt, b, t, hb, ht, hdone⟩ | ⟨hlt, hb, ht⟩)
    · refine ⟨hlt, b, t, hb, ht, ?_⟩
      by_cases hbt : (b, t) = a
      · rw [hbt, update_self]
      · rwa [update_of_ne hbt]
    · exact ⟨hlt, a.1, a.2, hb, ht, update_self _ _ _⟩

/-- Before that the counter has not been added. -/
theorem not_combined {phase : Thread G T → Phase} (ha : phase a ≠ .done) {i : ℕ}
    (hblock : i % (G * T) / T = a.1) : ¬Combined phase i a.2 := by
  rintro ⟨-, b, t, hb, ht, hdone⟩
  have hba : (b, t) = a := Prod.ext (Fin.ext (hb.symm.trans hblock)) (Fin.ext ht.symm)
  exact ha (hba ▸ hdone)

/-- **A thread that becomes done adds the indices of its block.** -/
theorem merged_update_done {phase : Thread G T → Phase} (ha : phase a ≠ .done) (m v : ℕ) :
    merged input m (update phase a .done) v = merged input m phase v +
      if v = a.2 ∧ v < numBins then blockTally input G T a.1 v (List.range m) else 0 := by
  by_cases hv : v = a.2 ∧ v < numBins
  · rw [if_pos hv]
    refine countP_or (fun i => ?_) (fun i hi => ?_) _
    · -- the block of `i` has been added before, or is that of the thread
      rw [← Bool.decide_or, decide_eq_decide, combined_update_done]
      tauto
    · rw [decide_eq_true_eq, hv.1] at hi
      rw [decide_eq_false_iff_not]
      exact fun hblock => not_combined ha hblock.1 hi.2
  · rw [if_neg hv]
    refine List.countP_congr fun i _ => ?_
    rw [decide_eq_true_eq, decide_eq_true_eq, combined_update_done]
    tauto

/-- The counters of the blocks after an initialisation. -/
theorem clear_sRes (b : Fin G) (v : ℕ) :
    (s.clear a).sRes b v = if b = a.1 ∧ v = a.2 ∧ v < numBins then 0#32 else s.sRes b v := by
  unfold SharedMem.clear
  by_cases hlt : (a.2 : ℕ) < numBins
  · rw [if_pos hlt]
    dsimp only
    by_cases hb : b = a.1
    · subst hb
      rw [update_self]
      by_cases hv : v = a.2
      · subst hv
        rw [update_self, if_pos ⟨rfl, rfl, hlt⟩]
      · rw [update_of_ne hv, if_neg fun h => hv h.2.1]
    · rw [update_of_ne hb, if_neg fun h => hb h.1]
  · have hnot : ¬(b = a.1 ∧ v = a.2 ∧ v < numBins) := by
      rintro ⟨-, rfl, h⟩
      exact hlt h
    rw [if_neg hlt, if_neg hnot]

/-- The counters of the blocks after a pass. -/
theorem add_sRes (b : Fin G) (v : ℕ) :
    (s.add d input a).sRes b v = s.sRes b v +
      BitVec.ofNat 32 (if b = a.1 ∧ (input (s.i a).toNat).toNat = v then 1 else 0) := by
  unfold SharedMem.add increment
  dsimp only
  by_cases hb : b = a.1
  · subst hb
    rw [update_self]
    by_cases hv : (input (s.i a).toNat).toNat = v
    · subst hv
      simp
    · rw [update_of_ne (Ne.symm hv), if_neg (by simp [hv])]
      simp
  · rw [update_of_ne hb, if_neg (by simp [hb])]
    simp

/-- The global counters after an addition of a block. -/
theorem combine_res (v : ℕ) :
    (s.combine a).res v =
      s.res v + if v = a.2 ∧ v < numBins then s.sRes a.1 v else 0#32 := by
  unfold SharedMem.combine
  by_cases hlt : (a.2 : ℕ) < numBins
  · rw [if_pos hlt]
    dsimp only
    by_cases hv : v = a.2
    · subst hv
      rw [update_self, if_pos ⟨rfl, hlt⟩]
    · rw [update_of_ne hv, if_neg fun h => hv h.1, BitVec.add_zero]
  · have hnot : ¬(v = a.2 ∧ v < numBins) := by
      rintro ⟨rfl, h⟩
      exact hlt h
    rw [if_neg hlt, if_neg hnot, BitVec.add_zero]

/-! ### The invariant -/

/-- **The invariant.**  From its initialisation on a counter of a block counts the visited indices
of the block, and the global counters count the indices of the blocks that have been added. -/
structure SharedInv (input : ℕ → BitVec 32) (n : BitVec 32) (res : Counters)
    (s : SharedMem G T) : Prop where
  control : Control n.toNat s.phase fun a => (s.i a).toNat
  covered : Covered (number G T) n.toNat (fun a => (s.i a).toNat) s.visits
  shared : ∀ b t, Fin.val t < numBins → 1 ≤ (s.phase (b, t)).rank →
    s.sRes b t = BitVec.ofNat 32 (blockTally input G T b t s.visits)
  global : ∀ v, s.res v = res v + BitVec.ofNat 32 (merged input n.toNat s.phase v)

theorem sharedInv_start (hGT : G * T < 2 ^ 31) (sRes : Fin G → Counters) :
    SharedInv input n res (SharedMem.start d sRes res : SharedMem G T) where
  control :=
    { first := fun _ _ _ h => absurd h (Nat.not_succ_le_zero _)
      second := fun _ _ _ h => absurd h (Nat.not_succ_le_zero _)
      finished := fun _ h => absurd h (Nat.not_succ_le_zero _)
      unstarted := fun a _ => tid_toNat d hGT a }
  covered := by
    have hstart : (fun a => ((SharedMem.start d sRes res : SharedMem G T).i a).toNat) =
        fun a => (number G T a : ℕ) := funext (tid_toNat d hGT)
    rw [hstart]
    exact covered_start (number G T) n.toNat
  shared _ _ _ h := absurd h (Nat.not_succ_le_zero _)
  global v := by
    have hzero : merged input n.toNat (SharedMem.start d sRes res : SharedMem G T).phase v = 0 := by
      refine List.countP_eq_zero.mpr fun i _ => ?_
      simp [Combined, SharedMem.start]
    rw [hzero]
    simp [SharedMem.start]

namespace SharedInv

/-- The thread of an index of a block. -/
theorem block_of_mod {i : ℕ} {a : Thread G T} (h : i % (G * T) = number G T a) :
    i % (G * T) / T = a.1 := by
  rw [h, number_div]

/-- Before a thread has initialised its counter nothing has been visited by its block. -/
theorem blockTally_eq_zero (hpos : 0 < G * T) (h : SharedInv input n res s)
    (ha : s.phase a = .initializing) (v : ℕ) : blockTally input G T a.1 v s.visits = 0 := by
  refine List.countP_eq_zero.mpr fun i hi hblock => ?_
  obtain ⟨c, hc⟩ := exists_owner (number G T) hpos i
  rw [decide_eq_true_eq, block_of_mod hc] at hblock
  have hlt := ((h.covered.mem_iff i c hc).mp hi).2
  have hca : (c.1, a.2) = a := Prod.ext (Fin.ext hblock.1) rfl
  by_cases hrank : 2 ≤ (s.phase c).rank
  · -- the thread of the index is behind the first barrier
    have hle := h.control.first c.1 c.2 a.2 hrank
    rw [hca, ha] at hle
    exact absurd hle (by decide)
  · have hcursor := h.control.unstarted c (by omega)
    have hmod : i % (G * T) ≤ i := Nat.mod_le _ _
    omega

/-- Behind the second barrier all indices of the block have been visited. -/
theorem blockTally_eq_full (hpos : 0 < G * T) (h : SharedInv input n res s)
    (ha : 4 ≤ (s.phase a).rank) (v : ℕ) :
    blockTally input G T a.1 v s.visits = blockTally input G T a.1 v (List.range n.toNat) := by
  refine h.covered.countP_eq hpos _ fun i c hc hblock => ?_
  rw [decide_eq_true_eq, block_of_mod hc] at hblock
  have hca : (a.1, c.2) = c := Prod.ext (Fin.ext hblock.1.symm) rfl
  have hrank := h.control.second a.1 a.2 c.2 ha
  rw [hca] at hrank
  exact h.control.finished c hrank

/-- A thread goes on without a change of the counters. -/
theorem goto (h : SharedInv input n res s) {q : Phase} (hq : q.rank = (s.phase a).rank + 1)
    (hstarted : 1 ≤ (s.phase a).rank) (hdone : q ≠ .done)
    (hfirst : q = .adding → ∀ u, 1 ≤ (s.phase (a.1, u)).rank)
    (hsecond : q = .combining → ∀ u, 3 ≤ (s.phase (a.1, u)).rank)
    (hfinished : q = .secondBarrier → n.toNat ≤ (s.i a).toNat) :
    SharedInv input n res (s.goto a q) where
  control := h.control.goto hq hfirst hsecond hfinished
  covered := h.covered
  shared b t ht hrank := by
    refine h.shared b t ht ?_
    by_cases hb : (b, t) = a
    · rwa [hb]
    · have hphase : (s.goto a q).phase (b, t) = s.phase (b, t) := update_of_ne hb _ _
      rwa [hphase] at hrank
  global v := by
    have ha : s.phase a ≠ .done := by
      intro ha
      rw [ha] at hq
      cases q <;> exact absurd hq (by decide)
    rw [SharedMem.goto, merged_update_of_ne ha hdone]
    exact h.global v

/-- The first step of a thread. -/
theorem clear (hpos : 0 < G * T) (h : SharedInv input n res s)
    (ha : s.phase a = .initializing) :
    SharedInv input n res ((s.clear a).goto a .firstBarrier) where
  control := by
    have hcontrol : Control n.toNat (update s.phase a .firstBarrier) fun a => (s.i a).toNat :=
      h.control.goto (by rw [ha]; rfl) nofun nofun nofun
    simpa [SharedMem.goto] using hcontrol
  covered := by simpa [SharedMem.goto] using h.covered
  shared b t ht hrank := by
    have hsRes : ((s.clear a).goto a .firstBarrier).sRes b t = (s.clear a).sRes b t := rfl
    have hvisits : ((s.clear a).goto a .firstBarrier).visits = s.visits := clear_visits
    rw [hsRes, hvisits, clear_sRes]
    by_cases hb : (b, t) = a
    · subst hb
      rw [if_pos ⟨rfl, rfl, ht⟩, h.blockTally_eq_zero hpos ha]
    · have hne : ¬(b = a.1 ∧ (t : ℕ) = a.2 ∧ (t : ℕ) < numBins) := by
        rintro ⟨hba, hta, -⟩
        exact hb (Prod.ext hba (Fin.ext hta))
      have hphase : ((s.clear a).goto a .firstBarrier).phase (b, t) = s.phase (b, t) := by
        simp [SharedMem.goto, update_of_ne hb]
      rw [hphase] at hrank
      rw [if_neg hne]
      exact h.shared b t ht hrank
  global v := by
    have hne : s.phase a ≠ .done := by
      rw [ha]
      decide
    simp only [SharedMem.goto, clear_res, clear_phase]
    rw [merged_update_of_ne hne (by decide)]
    exact h.global v

/-- A pass of the loop. -/
theorem add (hGT : G * T < 2 ^ 31) (h : SharedInv input n res s) (ha : s.phase a = .adding)
    (hlt : s.i a < n.setWidth 64) : SharedInv input n res (s.add d input a) where
  control := by
    dsimp only [SharedMem.add]
    rw [toNat_update d hGT hlt]
    exact h.control.visit ha _
  covered := by
    dsimp only [SharedMem.add]
    rw [toNat_update d hGT hlt]
    exact h.covered.visit (lt_setWidth_iff.mp hlt)
  shared b t ht hrank := by
    have hblock : (s.i a).toNat % (G * T) / T = a.1 := block_of_mod (h.covered.residue a)
    have hvisits : (s.add d input a).visits = s.visits ++ [(s.i a).toNat] := rfl
    rw [add_sRes, h.shared b t ht hrank, hvisits, blockTally_concat, BitVec.ofNat_add, hblock]
    have hiff : (b = a.1 ∧ (input (s.i a).toNat).toNat = t) ↔
        ((a.1 : ℕ) = b ∧ (input (s.i a).toNat).toNat = t) := by
      rw [Fin.ext_iff, eq_comm]
    simp only [hiff]
  global := h.global

/-- The last step of a thread. -/
theorem combine (hpos : 0 < G * T) (h : SharedInv input n res s) (ha : s.phase a = .combining) :
    SharedInv input n res ((s.combine a).goto a .done) where
  control := by
    have hcontrol : Control n.toNat (update s.phase a .done) fun a => (s.i a).toNat :=
      h.control.goto (by rw [ha]; rfl) nofun nofun nofun
    simpa [SharedMem.goto] using hcontrol
  covered := by simpa [SharedMem.goto] using h.covered
  shared b t ht hrank := by
    have hstarted : 1 ≤ (s.phase (b, t)).rank := by
      by_cases hb : (b, t) = a
      · rw [hb, ha]
        decide
      · simpa [SharedMem.goto, update_of_ne hb] using hrank
    simpa [SharedMem.goto] using h.shared b t ht hstarted
  global v := by
    have hne : s.phase a ≠ .done := by
      rw [ha]
      decide
    have hrank : 4 ≤ (s.phase a).rank := by
      rw [ha]
      decide
    simp only [SharedMem.goto, combine_phase]
    rw [combine_res, merged_update_done hne, h.global, BitVec.ofNat_add, ← BitVec.add_assoc]
    congr 1
    split_ifs with hv
    · -- the counter of the block is complete
      rw [hv.1, h.shared a.1 a.2 (hv.1 ▸ hv.2) (by rw [ha]; decide),
        h.blockTally_eq_full hpos hrank]
    · rfl

/-- **The invariant is kept.** -/
theorem step (hpos : 0 < G * T) (hGT : G * T < 2 ^ 31) (h : SharedInv input n res s)
    (hstep : histogramGPUSharedMem d input n s a = some t) : SharedInv input n res t := by
  obtain ⟨ha, rfl⟩ | ⟨ha, hall, rfl⟩ | ⟨ha, hlt, rfl⟩ | ⟨ha, hge, rfl⟩ | ⟨ha, hall, rfl⟩ |
    ⟨ha, rfl⟩ := shared_step_cases d hstep
  · exact h.clear hpos ha
  · exact h.goto (by rw [ha]; rfl) (by rw [ha]; decide) nofun (fun _ => hall) nofun nofun
  · exact h.add d hGT ha hlt
  · rw [lt_setWidth_iff, not_lt] at hge
    exact h.goto (by rw [ha]; rfl) (by rw [ha]; decide) nofun nofun nofun fun _ => hge
  · exact h.goto (by rw [ha]; rfl) (by rw [ha]; decide) nofun nofun (fun _ => hall) nofun
  · exact h.combine hpos ha

theorem run (hpos : 0 < G * T) (hGT : G * T < 2 ^ 31) {sRes : Fin G → Counters}
    {as : List (Thread G T)}
    (hrun : run (histogramGPUSharedMem d input n) (SharedMem.start d sRes res) as = some s) :
    SharedInv input n res s :=
  Reachable.inv (SharedInv input n res) (fun _ _ _ h hstep => h.step d hpos hGT hstep)
    (sharedInv_start d hGT sRes) ⟨as, hrun⟩

end SharedInv

/-! ### The result -/

/-- When all threads are done, the counters below the size of a block count all indices. -/
theorem merged_of_all_done {phase : Thread G T → Phase} (hpos : 0 < G * T)
    (hdone : ∀ a, phase a = .done) (m v : ℕ) :
    merged input m phase v =
      if v < T ∧ v < numBins then tally input v (List.range m) else 0 := by
  have hcombined : ∀ i, Combined phase i v ↔ v < T ∧ v < numBins := by
    intro i
    constructor
    · rintro ⟨hlt, -, t, -, ht, -⟩
      exact ⟨ht ▸ t.isLt, hlt⟩
    · rintro ⟨hT, hlt⟩
      have hblock : i % (G * T) / T < G :=
        Nat.div_lt_of_lt_mul (Nat.mul_comm G T ▸ Nat.mod_lt i hpos)
      exact ⟨hlt, ⟨_, hblock⟩, ⟨v, hT⟩, rfl, rfl, hdone _⟩
  split_ifs with hv
  · refine List.countP_congr fun i _ => ?_
    rw [decide_eq_true_eq, decide_eq_true_eq, hcombined]
    exact and_iff_left hv
  · refine List.countP_eq_zero.mpr fun i _ => ?_
    rw [decide_eq_true_eq, hcombined]
    exact fun h => hv h.2

/-- **The counters at the end**, in whatever order the threads take their steps. -/
theorem shared_res_eq (hpos : 0 < G * T) (hGT : G * T < 2 ^ 31) {sRes : Fin G → Counters}
    {as : List (Thread G T)}
    (hrun : run (histogramGPUSharedMem d input n) (SharedMem.start d sRes res) as = some s)
    (hend : Terminal (histogramGPUSharedMem d input n) s) (v : ℕ) :
    s.res v = res v + BitVec.ofNat 32
      (if v < T ∧ v < numBins then tally input v (List.range n.toNat) else 0) := by
  rw [(SharedInv.run d hpos hGT hrun).global,
    merged_of_all_done hpos (all_done_of_terminal d hend)]

/-- Where all values are below the size of a block the count is the sequential one. -/
theorem shared_res_of_lt (hpos : 0 < G * T) (hGT : G * T < 2 ^ 31)
    (hinput : ∀ i < n.toNat, (input i).toNat < numBins)
    (hsmall : ∀ i < n.toNat, (input i).toNat < T) {sRes : Fin G → Counters}
    {as : List (Thread G T)}
    (hrun : run (histogramGPUSharedMem d input n) (SharedMem.start d sRes res) as = some s)
    (hend : Terminal (histogramGPUSharedMem d input n) s) :
    s.res = histogramCPU input res n := by
  funext v
  rw [shared_res_eq d hpos hGT hrun hend, histogramCPU_apply]
  split_ifs with hv
  · rfl
  · have hzero : tally input v (List.range n.toNat) = 0 := by
      refine List.countP_eq_zero.mpr fun i hi => ?_
      have hi' := List.mem_range.mp hi
      rw [decide_eq_true_eq]
      rintro rfl
      exact hv ⟨hsmall i hi', hinput i hi'⟩
    rw [hzero]

/-- **A value from the size of a block on is lost**, in every run. -/
theorem shared_res_ne (hpos : 0 < G * T) (hGT : G * T < 2 ^ 31) {i : ℕ} (hi : i < n.toNat)
    (hlarge : T ≤ (input i).toNat) {sRes : Fin G → Counters} {as : List (Thread G T)}
    (hrun : run (histogramGPUSharedMem d input n) (SharedMem.start d sRes res) as = some s)
    (hend : Terminal (histogramGPUSharedMem d input n) s) :
    s.res ≠ histogramCPU input res n := by
  intro heq
  have hv := congrFun heq (input i).toNat
  rw [shared_res_eq d hpos hGT hrun hend, histogramCPU_apply, if_neg (by omega)] at hv
  -- the sequential count is neither zero nor large enough to overflow
  have hcount : 0 < tally input (input i).toNat (List.range n.toNat) :=
    List.countP_pos_iff.mpr ⟨i, List.mem_range.mpr hi, by simp⟩
  have hle : tally input (input i).toNat (List.range n.toNat) ≤ n.toNat :=
    List.countP_le_length.trans_eq List.length_range
  have hn := n.isLt
  have hzero := congrArg BitVec.toNat (BitVec.add_right_inj _ |>.mp hv)
  rw [BitVec.toNat_ofNat, BitVec.toNat_ofNat, Nat.mod_eq_of_lt (hle.trans_lt hn)] at hzero
  omega

/-- **The inputs that are counted as by the sequential count**, in every order of the steps and
whatever the shared memory holds at first: those whose values are below the size of a block. -/
theorem histogramGPUSharedMem_eq_iff (hG : 1 ≤ G) (hT : 1 ≤ T) (hGT : G * T < 2 ^ 31)
    (hinput : ∀ i < n.toNat, (input i).toNat < numBins) :
    (∀ (sRes : Fin G → Counters) (res : Counters) (as : List (Thread G T)) (s : SharedMem G T),
      run (histogramGPUSharedMem d input n) (SharedMem.start d sRes res) as = some s →
        Terminal (histogramGPUSharedMem d input n) s → s.res = histogramCPU input res n) ↔
      ∀ i < n.toNat, (input i).toNat < T := by
  have hpos : 0 < G * T := Nat.mul_pos hG hT
  constructor
  · intro h i hi
    by_contra hlarge
    obtain ⟨-, as, s, hrun, hend⟩ := histogramGPUSharedMem_ends d hpos hGT input n
      (SharedMem.start d (fun _ _ => 0#32) (fun _ => 0#32))
    exact shared_res_ne d hpos hGT hi (not_lt.mp hlarge) hrun hend (h _ _ as s hrun hend)
  · intro hsmall sRes res as s hrun hend
    exact shared_res_of_lt d hpos hGT hinput hsmall hrun hend

theorem histogramGPUSharedMem_eq_iff_blocks :
    (∀ (sRes : Fin 512 → Counters) (res : Counters) (as : List (Thread 512 128))
        (s : SharedMem 512 128),
      run (histogramGPUSharedMem .cuda (fun _ => 100#32) 65536#32) (SharedMem.start .cuda sRes res)
          as = some s →
        Terminal (histogramGPUSharedMem .cuda (fun _ => 100#32) 65536#32) s →
          s.res = histogramCPU (fun _ => 100#32) res 65536#32) ↔
      ∀ i < (65536#32).toNat, (100#32).toNat < 128 :=
  histogramGPUSharedMem_eq_iff .cuda (by decide) (by decide) (by decide)
    fun _ _ => (by decide : (100#32).toNat < numBins)

/-- **A value that is not counted**: one block of 128 threads loses the value 200. -/
theorem histogramGPUSharedMem_loses :
    ¬∀ (sRes : Fin 1 → Counters) (res : Counters) (as : List (Thread 1 128)) (s : SharedMem 1 128),
      run (histogramGPUSharedMem .cuda (fun _ => 200#32) 1#32) (SharedMem.start .cuda sRes res)
          as = some s →
        Terminal (histogramGPUSharedMem .cuda (fun _ => 200#32) 1#32) s →
          s.res = histogramCPU (fun _ => 200#32) res 1#32 := by
  intro h
  obtain ⟨-, as, s, hrun, hend⟩ := histogramGPUSharedMem_ends .cuda (by decide) (by decide)
    (fun _ => 200#32) 1#32 (SharedMem.start .cuda (fun _ _ => 0#32) (fun _ => 0#32) :
      SharedMem 1 128)
  have hlarge : 128 ≤ (200#32).toNat := by decide
  exact shared_res_ne .cuda (by decide) (by decide) (i := 0) (by decide) hlarge hrun hend
    (h _ _ as s hrun hend)

end Histogram
