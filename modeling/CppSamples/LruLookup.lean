/-
**Which way the cache of `lru` gives up, and what `lookup` says about it.**

The bit matrix of a set holds, for any history of uses, which of two ways was used later.  A way
whose row is zero is therefore one that was never used, or, when all have been, the one whose last
use is the oldest, and there always is one.  `find_way` returns this way on a miss and the way of
the tag on a hit, but `lookup` does not pass it on: its output parameter keeps the value that the
caller's variable had before the call.

Main definitions:

* `Lru.IsLru` — the least recently used way of a history of uses;
* `Lru.Used`, `Lru.Cache.used` — a cache with the uses of its ways;
* `Lru.Reports` — what `lookup` is to report.

Main results:

* `Lru.getLru_isLru` — **the matrix finds the least recently used way**;
* `Lru.lookup_reports_iff` — **when `lookup` reports the way**;
* `Lru.lookup_keeps_way` — a miss on which it does not.
-/

import CppSamples.LruHistory

set_option relaxedAutoImplicit false
set_option autoImplicit false

namespace Lru

open Function Recency TransitionSystem

variable {NSETS NWAYS : ℕ} {T D : Type}

/-! ### The least recently used way -/

section Matrix

/-- Every other way was used after the last use of `v`. -/
def LastUseOldest (ways : List (Fin NWAYS)) (v : Fin NWAYS) : Prop :=
  ∃ earlier later, ways = earlier ++ v :: later ∧ v ∉ later ∧ ∀ w, w ≠ v → w ∈ later

/-- The least recently used way, for uses in the order of the list: the first of the ways that were
never used, or, when there is none, the one whose last use is the oldest. -/
def IsLru (ways : List (Fin NWAYS)) (v : Fin NWAYS) : Prop :=
  (v ∉ ways ∧ ∀ w, w ∉ ways → v ≤ w) ∨ (∀ w, w ∈ ways) ∧ LastUseOldest ways v

/-- In terms of the relation that the matrix holds. -/
theorem lastUseOldest_iff {ways : List (Fin NWAYS)} {v : Fin NWAYS} :
    LastUseOldest ways v ↔ v ∈ ways ∧ Oldest ways.reverse v := by
  constructor
  · rintro ⟨earlier, later, rfl, hv, holder⟩
    refine ⟨List.mem_append_right _ List.mem_cons_self, fun j hj => ?_⟩
    obtain ⟨after, before, heq, hnot, hne⟩ := newer_iff_append.1 hj
    -- what comes after the last use of `v` comes after any use of it
    have hsplit : before.reverse ++ v :: after.reverse = earlier ++ v :: later := by
      have hreverse := congrArg List.reverse heq
      simpa using hreverse.symm
    have hsub : ∀ w, w ∈ later → w ∈ after := by
      intro w hw
      rcases List.append_eq_append_iff.1 hsplit with ⟨m, -, hm⟩ | ⟨m, -, hm⟩
      · cases m with
        | nil =>
            obtain ⟨-, rfl⟩ := List.cons.inj hm
            exact List.mem_reverse.1 hw
        | cons a m =>
            obtain ⟨-, hm⟩ := List.cons.inj hm
            rw [← List.mem_reverse, hm]
            exact List.mem_append_right _ (List.mem_cons_of_mem _ hw)
      · cases m with
        | nil =>
            obtain ⟨-, rfl⟩ := List.cons.inj hm
            exact List.mem_reverse.1 hw
        | cons a m =>
            obtain ⟨-, rfl⟩ := List.cons.inj hm
            exact absurd (List.mem_append_right _ List.mem_cons_self) hv
    exact hnot (hsub j (holder j hne))
  · rintro ⟨hv, hold⟩
    obtain ⟨after, before, heq, hnot⟩ := List.eq_append_cons_of_mem (List.mem_reverse.2 hv)
    refine ⟨before.reverse, after.reverse, ?_, fun h => hnot (List.mem_reverse.1 h), ?_⟩
    · have hreverse := congrArg List.reverse heq
      simpa using hreverse
    · intro w hw
      by_contra hmem
      rw [List.mem_reverse] at hmem
      exact hold w (newer_iff_append.2 ⟨after, before, heq, hmem, hw⟩)

/-- There is only one least recently used way. -/
theorem IsLru.unique {ways : List (Fin NWAYS)} {v v' : Fin NWAYS} (h : IsLru ways v)
    (h' : IsLru ways v') : v = v' := by
  rcases h with ⟨hv, hfirst⟩ | ⟨hall, hold⟩
  · rcases h' with ⟨hv', hfirst'⟩ | ⟨hall, -⟩
    · exact le_antisymm (hfirst v' hv') (hfirst' v hv)
    · exact absurd (hall v) hv
  · rcases h' with ⟨hv', -⟩ | ⟨-, hold'⟩
    · exact absurd (hall v') hv'
    · exact (lastUseOldest_iff.1 hold).2.eq_of_mem (lastUseOldest_iff.1 hold').2
        (List.mem_reverse.2 (hall v'))

variable {s : CacheSet NWAYS T D} {ways : List (Fin NWAYS)}

/-- The matrix of a fresh set. -/
theorem holds_new [Inhabited T] [Inhabited D] :
    Holds (CacheSet.new : CacheSet NWAYS T D) [] := by
  intro i j
  exact iff_of_false (by simp [CacheSet.new]) id

/-- A use of a way, in a matrix that describes a history. -/
theorem Holds.concat (h : Holds s ways.reverse) (way : Fin NWAYS) :
    Holds (s.setMru way) (ways ++ [way]).reverse := by
  intro i j
  rw [List.reverse_append, List.reverse_singleton, List.singleton_append, Newer, ← h i j]
  simp only [CacheSet.setMru]
  by_cases hj : j = way
  · simp [hj]
  · by_cases hi : i = way
    · simp [hi, hj]
    · simp [hi, hj]

variable [NeZero NWAYS]

/-- Some row of the matrix is zero, and `get_lru` returns the first one. -/
theorem Holds.getLru_spec (h : Holds s ways.reverse) :
    s.zeroRow s.getLru = true ∧ ∀ w, s.zeroRow w = true → s.getLru ≤ w := by
  obtain ⟨i, hi⟩ := exists_oldest_history ways.reverse
  have hsome : (Fin.find? s.zeroRow).isSome := Fin.isSome_find?_iff.2 ⟨i, (h.zeroRow_iff i).2 hi⟩
  obtain ⟨v, hv⟩ := Option.isSome_iff_exists.1 hsome
  obtain ⟨hzero, hfirst⟩ := Fin.find?_eq_some_iff.1 hv
  have hlru : s.getLru = v := by
    rw [CacheSet.getLru, ← Fin.find?_eq_find?_finRange, hv, Option.getD_some]
  rw [hlru]
  refine ⟨hzero, fun w hw => ?_⟩
  by_contra hlt
  rw [hfirst w (not_le.1 hlt)] at hw
  exact Bool.false_ne_true hw

/-- **`get_lru` returns the least recently used way** of the history that the matrix describes. -/
theorem Holds.isLru (h : Holds s ways.reverse) : IsLru ways s.getLru := by
  obtain ⟨hzero, hfirst⟩ := h.getLru_spec
  have hold := (h.zeroRow_iff _).1 hzero
  by_cases hall : ∀ w, w ∈ ways
  · exact .inr ⟨hall, lastUseOldest_iff.2 ⟨hall _, hold⟩⟩
  · obtain ⟨w, hw⟩ := not_forall.1 hall
    refine .inl ⟨fun hmem => ?_, fun w hw => hfirst w ((h.zeroRow_iff w).2 ?_)⟩
    · exact hold.not_mem (fun h => hw (List.mem_reverse.1 h)) (List.mem_reverse.2 hmem)
    · exact oldest_of_not_mem fun h => hw (List.mem_reverse.1 h)

/-- Uses of the ways of a list, one after the other. -/
def CacheSet.setMrus (s : CacheSet NWAYS T D) (ways : List (Fin NWAYS)) : CacheSet NWAYS T D :=
  ways.foldl CacheSet.setMru s

omit [NeZero NWAYS] in
/-- The matrix after any uses. -/
theorem holds_setMrus [Inhabited T] [Inhabited D] (ways : List (Fin NWAYS)) :
    Holds ((CacheSet.new : CacheSet NWAYS T D).setMrus ways) ways.reverse := by
  induction ways using List.reverseRecOn with
  | nil => exact holds_new
  | append_singleton ways way ih =>
      rw [CacheSet.setMrus, List.foldl_append]
      exact ih.concat way

/-- **The matrix finds the least recently used way**, after any uses of a fresh set: a row is always
zero, and the way of the first such row is the only least recently used one. -/
theorem getLru_isLru [Inhabited T] [Inhabited D] (ways : List (Fin NWAYS)) :
    IsLru ways ((CacheSet.new : CacheSet NWAYS T D).setMrus ways).getLru ∧
      (∀ v, IsLru ways v → v = ((CacheSet.new : CacheSet NWAYS T D).setMrus ways).getLru) ∧
      ∃ i, ((CacheSet.new : CacheSet NWAYS T D).setMrus ways).zeroRow i = true := by
  have h := holds_setMrus (T := T) (D := D) ways
  exact ⟨h.isLru, fun v hv => hv.unique h.isLru, _, h.getLru_spec.1⟩

/-- Eight ways, used as in the test of the repository: the third one is the oldest. -/
theorem getLru_isLru_eight :
    IsLru [3, 7, 4, 5, 6, 2, 1, 4, 0]
        ((CacheSet.new : CacheSet 8 ℕ ℕ).setMrus [3, 7, 4, 5, 6, 2, 1, 4, 0]).getLru ∧
      (∀ v, IsLru [3, 7, 4, 5, 6, 2, 1, 4, 0] v →
        v = ((CacheSet.new : CacheSet 8 ℕ ℕ).setMrus [3, 7, 4, 5, 6, 2, 1, 4, 0]).getLru) ∧
      ∃ i, ((CacheSet.new : CacheSet 8 ℕ ℕ).setMrus [3, 7, 4, 5, 6, 2, 1, 4, 0]).zeroRow i = true :=
  getLru_isLru _

end Matrix

/-! ### The uses of the ways of a cache -/

section Lookup

variable [NeZero NSETS] [NeZero NWAYS] [DecidableEq T] (TAG : ℕ → T)

/-- A cache with the uses of the ways of its sets, in their order. -/
structure Used (NSETS NWAYS : ℕ) (T D : Type) where
  cache : Cache NSETS NWAYS T D
  uses : Fin NSETS → List (Fin NWAYS)

/-- The ways of a set that a call uses: the one that a fill or a lookup hits. -/
def Cache.used (c : Cache NSETS NWAYS T D) (set : Fin NSETS) :
    Call NSETS NWAYS D → List (Fin NWAYS)
  | .fill addr _ | .lookup addr =>
    let w := ((c.sets_ (setOf addr)).findWay TAG addr).1
    if setOf addr = set ∧ w.1 then [w.2] else []
  | .evict _ _ => []

/-- A call on a cache whose uses are recorded. -/
def Used.step (o : Used NSETS NWAYS T D) (call : Call NSETS NWAYS D) :
    Option (Used NSETS NWAYS T D) :=
  some ⟨o.cache.call TAG call, fun set => o.uses set ++ o.cache.used TAG set call⟩

/-- The matrices describe the uses. -/
def Recorded (o : Used NSETS NWAYS T D) : Prop :=
  ∀ set, Holds (o.cache.sets_ set) (o.uses set).reverse

variable {TAG}

/-- What `find_way` does to the matrix of a set. -/
theorem Holds.findWay (TAG : ℕ → T) {s : CacheSet NWAYS T D} {ways : List (Fin NWAYS)}
    (h : Holds s ways.reverse) (addr : ℕ) :
    Holds (s.findWay TAG addr).2
      (ways ++ if (s.findWay TAG addr).1.1 then [(s.findWay TAG addr).1.2] else []).reverse := by
  by_cases hres : s.Resident (TAG addr)
  · obtain ⟨way, -, -, hfind⟩ := findWay_of_resident TAG hres
    rw [hfind]
    exact h.concat way
  · rw [findWay_of_not_resident TAG hres, if_neg Bool.false_ne_true, List.append_nil]
    exact h

omit [NeZero NSETS] [NeZero NWAYS] [DecidableEq T] in
/-- The cache of a new object. -/
theorem recorded_new [Inhabited T] [Inhabited D] {c : Cache NSETS NWAYS T D}
    (h : Cache.new = .ok c) : Recorded ⟨c, fun _ => []⟩ := by
  unfold Cache.new at h
  split at h
  · cases h
    exact fun _ => holds_new
  · cases h

/-- **Every call keeps the matrices and the uses in step.** -/
theorem Recorded.step {o o' : Used NSETS NWAYS T D} {call : Call NSETS NWAYS D} (h : Recorded o)
    (hstep : o.step TAG call = some o') : Recorded o' := by
  obtain ⟨c, uses⟩ := o
  obtain rfl := Option.some.inj hstep
  intro set
  cases call with
  | fill addr data =>
      have hfind := (h (Cache.setOf addr)).findWay TAG addr
      by_cases hset : Cache.setOf addr = set
      · subst hset
        simp only [Cache.call, Cache.used, Cache.fill, update_self, true_and]
        split_ifs at hfind ⊢ with hhit
        · exact hfind
        · exact hfind
      · simp only [Cache.call, Cache.used, Cache.fill, update_of_ne (Ne.symm hset), hset, false_and,
          if_false, List.append_nil]
        exact h set
  | lookup addr =>
      have hfind := (h (Cache.setOf addr)).findWay TAG addr
      simp only [Cache.call, Cache.used, Cache.lookup, if_pos (Nat.pos_of_neZero NSETS)]
      by_cases hset : Cache.setOf addr = set
      · subst hset
        simp only [update_self, true_and]
        exact hfind
      · simp only [update_of_ne (Ne.symm hset), hset, false_and, if_false, List.append_nil]
        exact h set
  | evict way set' =>
      simp only [Cache.call, Cache.used, Cache.evict, List.append_nil]
      by_cases hset : set = set'
      · subst hset
        rw [update_self]
        exact h set
      · rw [update_of_ne hset]
        exact h set

/-! ### What `lookup` reports -/

variable (TAG)

/-- **What `lookup` is to report** to a caller whose variables are `way` and `set`: on a hit the way
that holds the tag, on a miss the least recently used way, which has been given up. -/
structure Reports (o : Used NSETS NWAYS T D) (addr way set : ℕ) : Prop where
  hit : (o.cache.lookup TAG addr way set).1.1 = true →
    ∃ (s : Fin NSETS) (w : Fin NWAYS), (o.cache.lookup TAG addr way set).1.2 = (↑w, ↑s) ∧
      (((o.cache.lookup TAG addr way set).2.sets_ s).line w).valid = true ∧
      (((o.cache.lookup TAG addr way set).2.sets_ s).line w).tag = TAG addr
  miss : (o.cache.lookup TAG addr way set).1.1 = false →
    ∃ (s : Fin NSETS) (w : Fin NWAYS), (o.cache.lookup TAG addr way set).1.2 = (↑w, ↑s) ∧
      IsLru (o.uses s) w ∧ w = ((o.cache.sets_ s).findWay TAG addr).1.2

/-- The number of the way that holds the tag, or, when there is none, of the least recently used
way. -/
def Names (o : Used NSETS NWAYS T D) (addr way : ℕ) : Prop :=
  ∃ w : Fin NWAYS, ↑w = way ∧
    if o.cache.Resident (Cache.setOf addr) (TAG addr) then
      ((o.cache.sets_ (Cache.setOf addr)).line w).valid = true ∧
        ((o.cache.sets_ (Cache.setOf addr)).line w).tag = TAG addr
    else IsLru (o.uses (Cache.setOf addr)) w

/-- What `lookup` does: the set is searched, and `way` comes back as the caller had it. -/
theorem Cache.lookup_eq (c : Cache NSETS NWAYS T D) (addr way set : ℕ) {s : Fin NSETS}
    (hs : s = Cache.setOf addr) :
    c.lookup TAG addr way set =
      ((((c.sets_ s).findWay TAG addr).1.1, way, ↑s),
        { c with sets_ := update c.sets_ s ((c.sets_ s).findWay TAG addr).2 }) := by
  rw [Cache.lookup, if_pos (Nat.pos_of_neZero NSETS), hs]

variable {TAG}

/-- On a hit the way reported has to be the one that holds the tag. -/
theorem reports_iff_of_resident {o : Used NSETS NWAYS T D} {addr way set : ℕ}
    (hres : o.cache.Resident (Cache.setOf addr) (TAG addr)) :
    Reports TAG o addr way set ↔ Names TAG o addr way := by
  obtain ⟨s, hs⟩ : ∃ s : Fin NSETS, s = Cache.setOf addr := ⟨_, rfl⟩
  have hlookup := Cache.lookup_eq TAG o.cache addr way set hs
  rw [← hs] at hres
  obtain ⟨w, -, -, hfind⟩ := findWay_of_resident TAG hres
  rw [hfind] at hlookup
  simp only [Names, ← hs, if_pos hres]
  constructor
  · intro hreports
    obtain ⟨s', w', heq, hvalid, htag⟩ := hreports.hit (by rw [hlookup])
    rw [hlookup] at heq hvalid htag
    obtain ⟨hway, hset⟩ := Prod.mk.inj heq
    obtain rfl : s = s' := Fin.ext hset
    simp only [update_self, CacheSet.setMru] at hvalid htag
    exact ⟨w', hway.symm, hvalid, htag⟩
  · rintro ⟨w', rfl, hvalid, htag⟩
    refine ⟨fun _ => ⟨s, w', ?_, ?_, ?_⟩, fun hmiss => ?_⟩
    · rw [hlookup]
    · rw [hlookup]
      simpa only [update_self, CacheSet.setMru] using hvalid
    · rw [hlookup]
      simpa only [update_self, CacheSet.setMru] using htag
    · rw [hlookup] at hmiss
      cases hmiss

/-- On a miss it has to be the way that the search gives up. -/
theorem Recorded.reports_iff_of_not_resident {o : Used NSETS NWAYS T D} (h : Recorded o)
    {addr way set : ℕ} (hres : ¬ o.cache.Resident (Cache.setOf addr) (TAG addr)) :
    Reports TAG o addr way set ↔ Names TAG o addr way := by
  obtain ⟨s, hs⟩ : ∃ s : Fin NSETS, s = Cache.setOf addr := ⟨_, rfl⟩
  have hlookup := Cache.lookup_eq TAG o.cache addr way set hs
  rw [← hs] at hres
  have hfind := findWay_of_not_resident TAG (s := o.cache.sets_ s) hres
  rw [hfind] at hlookup
  simp only [Names, ← hs, if_neg hres]
  have hlru := (h s).isLru
  constructor
  · intro hreports
    obtain ⟨s', w', heq, hlast, -⟩ := hreports.miss (by rw [hlookup])
    rw [hlookup] at heq
    obtain ⟨hway, hset⟩ := Prod.mk.inj heq
    obtain rfl : s = s' := Fin.ext hset
    exact ⟨w', hway.symm, hlast⟩
  · rintro ⟨w', rfl, hlast⟩
    refine ⟨fun hhit => ?_, fun _ => ⟨s, w', ?_, hlast, ?_⟩⟩
    · rw [hlookup] at hhit
      cases hhit
    · rw [hlookup]
    · rw [hfind]
      exact hlast.unique hlru

/-- When the matrices describe the uses. -/
theorem Recorded.reports_iff {o : Used NSETS NWAYS T D} (h : Recorded o) (addr way set : ℕ) :
    Reports TAG o addr way set ↔ Names TAG o addr way := by
  by_cases hres : o.cache.Resident (Cache.setOf addr) (TAG addr)
  · exact reports_iff_of_resident hres
  · exact h.reports_iff_of_not_resident hres

/-- **When `lookup` reports the way**: in every state that calls lead to, exactly when the variable
of the caller has the right value before the call. -/
theorem lookup_reports_iff [Inhabited T] [Inhabited D] {c₀ : Cache NSETS NWAYS T D}
    {calls : List (Call NSETS NWAYS D)} {o : Used NSETS NWAYS T D} (hnew : Cache.new = .ok c₀)
    (hrun : run (Used.step TAG) ⟨c₀, fun _ => []⟩ calls = some o) (addr way set : ℕ) :
    Reports TAG o addr way set ↔ Names TAG o addr way := by
  have hrecorded : Recorded o :=
    Reachable.inv Recorded (fun _ _ _ h hstep => h.step hstep) (recorded_new hnew) ⟨calls, hrun⟩
  exact hrecorded.reports_iff addr way set

/-- A line is stored and found again. -/
theorem lookup_reports_iff_stored : ∃ (c : Cache 2 2 ℕ ℕ) (o : Used 2 2 ℕ ℕ), Cache.new = .ok c ∧
    run (Used.step id) ⟨c, fun _ => []⟩ [.fill 4 40, .lookup 4] = some o ∧
      (Reports id o 4 1 0 ↔ Names id o 4 1) := by
  have hnew : (Cache.new : Except String (Cache 2 2 ℕ ℕ)) = .ok ⟨1, fun _ => .new⟩ := by rfl
  have hrun : ∃ o, run (Used.step id) ⟨⟨1, fun _ => CacheSet.new⟩, fun _ => []⟩
      [.fill 4 40, .lookup 4] = some (o : Used 2 2 ℕ ℕ) := ⟨_, rfl⟩
  obtain ⟨o, hrun⟩ := hrun
  exact ⟨_, o, hnew, hrun, lookup_reports_iff hnew hrun 4 1 0⟩

/-- **A miss that is not reported**: the first way of a fresh set is given up, and the variable of
the caller still says that it is the second one. -/
theorem lookup_keeps_way : ∃ c : Cache 2 2 ℕ ℕ, Cache.new = .ok c ∧
    (c.lookup id 4 1 0).1 = (false, 1, 0) ∧
      ¬Reports id (⟨c, fun _ => []⟩ : Used 2 2 ℕ ℕ) 4 1 0 := by
  have hnew : (Cache.new : Except String (Cache 2 2 ℕ ℕ)) = .ok ⟨1, fun _ => .new⟩ := by rfl
  have hlookup : ((⟨1, fun _ => .new⟩ : Cache 2 2 ℕ ℕ).lookup id 4 1 0).1 = (false, 1, 0) := by rfl
  refine ⟨_, hnew, hlookup, fun hreports => ?_⟩
  obtain ⟨s, w, heq, hlru, -⟩ := hreports.miss (by rw [hlookup])
  rw [hlookup] at heq
  obtain rfl : w = 1 := Fin.ext (Prod.mk.inj heq).1.symm
  rcases hlru with ⟨-, hfirst⟩ | ⟨hall, -⟩
  · exact absurd (hfirst 0 List.not_mem_nil) (by decide)
  · exact absurd (hall 0) List.not_mem_nil

end Lookup

end Lru
