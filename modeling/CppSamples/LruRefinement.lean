/-
**When the cache of `lru` is a least-recently-used cache.**

A hit makes its way the most recent one, but storing a line does not: `CACHE::fill` never calls
`set_mru` for the way it fills.  The way therefore stays the first candidate for eviction, and the
next line stored in the set replaces it.  The cache keeps the content of the reference exactly as
long as each stored line is used again, or is overtaken by all others, before the next one is
stored in its set.

The invariant relates a set to its reference through two lists of ways: `R`, the ways that were
ever used, which the matrix describes, and `ways`, the ways of the resident tags in the order of
the reference.  They agree up to the way that was filled last, which is still the oldest in `R`.

Main definitions:

* `Lru.Tracks` — the invariant.

Main results:

* `Lru.findWay_of_resident`, `Lru.findWay_of_not_resident` — what `find_way` does;
* `Lru.Tracks.use`, `Lru.Tracks.store` — the two steps keep the invariant;
* `Lru.Tracks.not_settled` — an unsettled fill loses a tag the reference keeps;
* `Lru.cache_refines_iff` — **the runs in which the contents agree throughout** are those in which
  every fill finds its set settled;
* `Lru.cache_loses_a_line` — two tags stored one after the other in a fresh set.
-/

import CppSamples.LruCache
import Mathlib.Data.Fintype.Card
import Mathlib.Data.List.Induction

set_option relaxedAutoImplicit false
set_option autoImplicit false

namespace Lru

open Function Recency TransitionSystem

variable {NSETS NWAYS : ℕ} {T D : Type*}

/-! ### The matrix -/

section Matrix

variable {s s' : CacheSet NWAYS T D} {R : List (Fin NWAYS)}

/-- The matrix describes a recency order. -/
def Holds (s : CacheSet NWAYS T D) (R : List (Fin NWAYS)) : Prop :=
  ∀ i j, s.lru_ i j = true ↔ Newer R i j

/-- A zero row is the row of an oldest way. -/
theorem Holds.zeroRow_iff (h : Holds s R) (i : Fin NWAYS) : s.zeroRow i = true ↔ Oldest R i := by
  simp only [CacheSet.zeroRow, Bool.not_eq_true', List.any_eq_false, List.mem_finRange,
    forall_const, Oldest, ← h i]

/-- A use of a way is a use of its element. -/
theorem Holds.setMru (h : Holds s R) (way : Fin NWAYS) : Holds (s.setMru way) (touch way R) := by
  intro i j
  rw [newer_touch, ← h i j]
  simp only [CacheSet.setMru]
  by_cases hj : j = way
  · simp [hj]
  · by_cases hi : i = way
    · simp [hi, hj]
    · simp [hi, hj]

variable [NeZero NWAYS]

/-- `get_lru` returns an oldest way. -/
theorem Holds.oldest_getLru (h : Holds s R) (hR : R.Nodup) : Oldest R s.getLru := by
  obtain ⟨i, hi⟩ := exists_oldest hR
  have hsome : ((List.finRange NWAYS).find? s.zeroRow).isSome :=
    List.find?_isSome.2 ⟨i, List.mem_finRange i, (h.zeroRow_iff i).2 hi⟩
  obtain ⟨v, hv⟩ := Option.isSome_iff_exists.1 hsome
  rw [CacheSet.getLru, hv]
  exact (h.zeroRow_iff v).1 (List.find?_some hv)

/-- The victim depends on the oldest ways only. -/
theorem Holds.getLru_congr {R' : List (Fin NWAYS)} (h : Holds s R) (h' : Holds s' R')
    (heq : ∀ i, Oldest R i ↔ Oldest R' i) : s.getLru = s'.getLru := by
  have hrow : s.zeroRow = s'.zeroRow := by
    funext i
    rw [Bool.eq_iff_iff, h.zeroRow_iff, h'.zeroRow_iff, heq]
  rw [CacheSet.getLru, CacheSet.getLru, hrow]

end Matrix

/-! ### What `find_way` does -/

section FindWay

variable [NeZero NSETS] [NeZero NWAYS] [DecidableEq T] (TAG : ℕ → T) {s : CacheSet NWAYS T D}
  {addr : ℕ}

/-- A tag that is held is found and used. -/
theorem findWay_of_resident (h : s.Resident (TAG addr)) :
    ∃ way, (s.line way).valid = true ∧ (s.line way).tag = TAG addr ∧
      s.findWay TAG addr = ((true, way), s.setMru way) := by
  obtain ⟨w, hvalid, htag⟩ := h
  have hsome : ((List.finRange NWAYS).find? fun way =>
      (s.line way).valid && (s.line way).tag = TAG addr).isSome :=
    List.find?_isSome.2 ⟨w, List.mem_finRange w, by simp [hvalid, htag]⟩
  obtain ⟨way, hway⟩ := Option.isSome_iff_exists.1 hsome
  have hhit := List.find?_some hway
  simp only [Bool.and_eq_true, decide_eq_true_eq] at hhit
  refine ⟨way, hhit.1, hhit.2, ?_⟩
  simp only [CacheSet.findWay, hway]

/-- For a tag that is not held, the line of the least recently used way is given up. -/
theorem findWay_of_not_resident (h : ¬s.Resident (TAG addr)) :
    s.findWay TAG addr = ((false, s.getLru), { s with
      line := update s.line s.getLru { s.line s.getLru with valid := false } }) := by
  have hnone : ((List.finRange NWAYS).find? fun way =>
      (s.line way).valid && (s.line way).tag = TAG addr) = none := by
    rw [List.find?_eq_none]
    intro way _ hway
    simp only [Bool.and_eq_true, decide_eq_true_eq] at hway
    exact h ⟨way, hway⟩
  simp only [CacheSet.findWay, hnone]

/-- `find_way` reports a hit exactly when the tag is held. -/
theorem findWay_eq_true_iff : (s.findWay TAG addr).1.1 = true ↔ s.Resident (TAG addr) := by
  constructor
  · intro h
    by_contra hnot
    simp [findWay_of_not_resident TAG hnot] at h
  · intro h
    obtain ⟨way, _, _, hfind⟩ := findWay_of_resident TAG h
    rw [hfind]

/-- **`lookup` reports a hit exactly when the tag is resident** in the set of the address. -/
theorem lookup_eq_true_iff {c : Cache NSETS NWAYS T D} {way set : ℕ} :
    (c.lookup TAG addr way set).1.1 = true ↔ c.Resident (Cache.setOf addr) (TAG addr) := by
  rw [Cache.lookup, if_pos (Nat.pos_of_neZero NSETS)]
  exact findWay_eq_true_iff TAG

end FindWay

/-! ### The invariant -/

/-- A list of all ways without repetition is as long as the set. -/
theorem length_eq_of_forall_mem {l : List (Fin NWAYS)} (hl : l.Nodup) (h : ∀ i, i ∈ l) :
    l.length = NWAYS := by
  have hle := hl.length_le_card
  have hge := ((List.nodup_finRange NWAYS).subperm fun i _ => h i).length_le
  rw [Fintype.card_fin] at hle
  rw [List.length_finRange] at hge
  exact le_antisymm hle hge

/-- The last element of a list without repetition is removed by `dropLast`. -/
theorem eq_erase_append_of_getLast? {l : List (Fin NWAYS)} (hl : l.Nodup) {v : Fin NWAYS}
    (h : l.getLast? = some v) : l = l.erase v ++ [v] := by
  obtain ⟨l', rfl⟩ := List.getLast?_eq_some_iff.1 h
  have hv : v ∉ l' := fun hv => (List.nodup_append.1 hl).2.2 v hv v (List.mem_singleton_self v) rfl
  rw [List.erase_append_right _ hv]
  simp

/-- The set `s` holds what the reference `r` holds.  The matrix describes the order `R` of the ways
that were ever used, the resident tags sit in `ways` in the order of the reference, and the two
lists agree up to the way that was filled last and not used since. -/
structure Tracks [NeZero NWAYS] (s : CacheSet NWAYS T D) (r : RefSet T)
    (R ways : List (Fin NWAYS)) : Prop where
  nodup : R.Nodup
  matrix : Holds s R
  nodup_ways : ways.Nodup
  valid_iff : ∀ i, (s.line i).valid = true ↔ i ∈ ways
  inj : ∀ i ∈ ways, ∀ j ∈ ways, (s.line i).tag = (s.line j).tag → i = j
  recent : r.recent = ways.map fun i => (s.line i).tag
  unused : r.unused = none ∧ ways = R ∨
    r.unused = some (s.line s.getLru).tag ∧ s.getLru ∈ ways ∧
      ways.erase s.getLru = R.erase s.getLru

namespace Tracks

variable [NeZero NWAYS] {s : CacheSet NWAYS T D} {r : RefSet T} {R ways : List (Fin NWAYS)} {tag : T}

theorem resident_iff (h : Tracks s r R ways) : s.Resident tag ↔ tag ∈ r.recent := by
  rw [h.recent, List.mem_map]
  constructor
  · rintro ⟨way, hvalid, htag⟩
    exact ⟨way, (h.valid_iff way).1 hvalid, htag⟩
  · rintro ⟨way, hway, htag⟩
    exact ⟨way, (h.valid_iff way).2 hway, htag⟩

/-- Apart from the victim, the two lists of ways agree. -/
theorem erase_eq (h : Tracks s r R ways) : ways.erase s.getLru = R.erase s.getLru := by
  rcases h.unused with ⟨_, rfl⟩ | ⟨_, _, heq⟩
  · rfl
  · exact heq

/-- A use of another way than the victim leaves the victim as it is. -/
theorem getLru_setMru (h : Tracks s r R ways) {way : Fin NWAYS} (hway : way ∈ ways)
    (hne : way ≠ s.getLru) : (s.setMru way).getLru = s.getLru := by
  have hwayR : way ∈ R := by
    have hmem : way ∈ R.erase s.getLru := h.erase_eq ▸ (List.mem_erase_of_ne hne).2 hway
    exact List.mem_of_mem_erase hmem
  have hold := h.matrix.oldest_getLru h.nodup
  have hnot : ¬Oldest R way := fun hw => hne (hold.eq_of_mem hw hwayR).symm
  exact (h.matrix.setMru way).getLru_congr h.matrix (oldest_touch_iff h.nodup hnot)

/-- When a fill finds the set settled, the tags that stay are those of the other ways. -/
theorem room (h : Tracks s r R ways)
    (hsettled : ∀ p, r.unused = some p → r.recent.length = NWAYS ∧ r.recent.getLast? = some p) :
    (if r.recent.length < NWAYS then r.recent else r.recent.dropLast) =
      (ways.erase s.getLru).map fun i => (s.line i).tag := by
  have hlength : r.recent.length = ways.length := by rw [h.recent, List.length_map]
  have hold := h.matrix.oldest_getLru h.nodup
  by_cases hv : s.getLru ∈ ways
  · -- the victim is the last of a full list
    have hlast : ways = ways.erase s.getLru ++ [s.getLru] ∧ ways.length = NWAYS := by
      rcases h.unused with ⟨_, rfl⟩ | ⟨hsome, _, _⟩
      · have hall : ∀ j, j ∈ ways := fun j => by
          by_contra hj
          exact hold.not_mem hj hv
        exact ⟨eq_erase_append_of_oldest h.nodup_ways hv fun j _ => hold j,
          length_eq_of_forall_mem h.nodup_ways hall⟩
      · obtain ⟨hfull, hlast⟩ := hsettled _ hsome
        refine ⟨?_, hlength ▸ hfull⟩
        rw [h.recent, List.getLast?_map, Option.map_eq_some_iff] at hlast
        obtain ⟨w, hw, htag⟩ := hlast
        have hwmem := List.mem_of_getLast? hw
        obtain rfl : w = s.getLru := h.inj w hwmem _ hv htag
        exact eq_erase_append_of_getLast? h.nodup_ways hw
    rw [if_neg (by omega), h.recent]
    nth_rewrite 1 [hlast.1]
    rw [List.map_append, List.map_singleton, List.dropLast_concat]
  · have hlt : ways.length < NWAYS := by
      have hnodup : (s.getLru :: ways).Nodup := List.nodup_cons.2 ⟨hv, h.nodup_ways⟩
      have hle := hnodup.length_le_card
      rw [Fintype.card_fin] at hle
      exact hle
    rw [if_pos (by omega), h.recent, List.erase_of_not_mem hv]

/-- **Storing a tag in a settled set keeps the invariant.** -/
theorem store (h : Tracks s r R ways) (htag : tag ∉ r.recent)
    (hsettled : ∀ p, r.unused = some p → r.recent.length = NWAYS ∧ r.recent.getLast? = some p)
    (data : D) :
    Tracks (s.fill s.getLru tag data) (r.store NWAYS tag) R (touch s.getLru ways) where
  nodup := h.nodup
  matrix := h.matrix
  nodup_ways := nodup_touch h.nodup_ways _
  valid_iff i := by
    rw [mem_touch, CacheSet.fill]
    by_cases hi : i = s.getLru
    · simp [hi]
    · simp [hi, update_of_ne, h.valid_iff i]
  inj i hi j hj hij := by
    have hnew : ∀ k ∈ ways, (s.line k).tag ≠ tag := fun k hk hktag =>
      htag (h.recent ▸ List.mem_map.2 ⟨k, hk, hktag⟩)
    rw [mem_touch] at hi hj
    simp only [CacheSet.fill, update_apply] at hij
    split_ifs at hij with hiv hjv hjv
    · rw [hiv, hjv]
    · exact absurd hij.symm (hnew j (hj.resolve_left hjv))
    · exact absurd hij (hnew i (hi.resolve_left hiv))
    · exact h.inj i (hi.resolve_left hiv) j (hj.resolve_left hjv) hij
  recent := by
    rw [RefSet.store, h.room hsettled, touch, List.map_cons]
    simp only [CacheSet.fill, update_self]
    congr 1
    refine List.map_congr_left ?_
    intro i hi
    rw [update_of_ne]
    rintro rfl
    exact h.nodup_ways.not_mem_erase hi
  unused := by
    have hlru : (s.fill s.getLru tag data).getLru = s.getLru := rfl
    refine Or.inr ?_
    rw [hlru]
    refine ⟨?_, mem_touch.2 (Or.inl rfl), ?_⟩
    · simp [RefSet.store, CacheSet.fill]
    · rw [touch, List.erase_cons_head, h.erase_eq]

/-- **An unsettled fill** loses the tag stored last, which the reference keeps. -/
theorem not_settled (h : Tracks s r R ways) (htag : tag ∉ r.recent)
    (hsettled : ¬∀ p, r.unused = some p → r.recent.length = NWAYS ∧ r.recent.getLast? = some p)
    (data : D) : ∃ p, p ∈ (r.store NWAYS tag).recent ∧ ¬(s.fill s.getLru tag data).Resident p := by
  obtain ⟨p, hp⟩ := not_forall.1 hsettled
  obtain ⟨hunused, hlast⟩ := Classical.not_imp.1 hp
  rcases h.unused with ⟨hnone, _⟩ | ⟨hsome, hv, _⟩
  · rw [hnone] at hunused
    exact absurd hunused (by simp)
  · obtain rfl : (s.line s.getLru).tag = p := Option.some.inj (hsome.symm.trans hunused)
    have hmem : (s.line s.getLru).tag ∈ r.recent := by
      rw [h.recent]
      exact List.mem_map.2 ⟨_, hv, rfl⟩
    refine ⟨(s.line s.getLru).tag, List.mem_cons_of_mem _ ?_, ?_⟩
    · split_ifs with hlt
      · exact hmem
      · have hle : r.recent.length ≤ NWAYS := by
          rw [h.recent, List.length_map]
          exact (h.nodup_ways.length_le_card).trans (Fintype.card_fin NWAYS).le
        have hne : r.recent ≠ [] := List.ne_nil_of_mem hmem
        have hnotlast : (s.line s.getLru).tag ≠ r.recent.getLast hne := fun heq =>
          hlast ⟨le_antisymm hle (not_lt.1 hlt), by rw [List.getLast?_eq_some_getLast hne, ← heq]⟩
        rw [← List.dropLast_append_getLast hne, List.mem_append, List.mem_singleton] at hmem
        exact hmem.resolve_right hnotlast
    · rintro ⟨way, hvalid, hway⟩
      by_cases hwv : way = s.getLru
      · simp only [CacheSet.fill, hwv, update_self] at hway
        exact htag (hway ▸ hmem)
      · simp only [CacheSet.fill, update_of_ne hwv] at hvalid hway
        exact hwv (h.inj way ((h.valid_iff way).1 hvalid) _ hv hway)

variable [DecidableEq T]

/-- **A use keeps the invariant.** -/
theorem use (h : Tracks s r R ways) {way : Fin NWAYS} (hway : way ∈ ways) :
    Tracks (s.setMru way) (r.use (s.line way).tag) (touch way R) (touch way ways) where
  nodup := nodup_touch h.nodup way
  matrix := h.matrix.setMru way
  nodup_ways := nodup_touch h.nodup_ways way
  valid_iff i := by
    rw [mem_touch, ← h.valid_iff i]
    constructor
    · exact Or.inr
    · rintro (rfl | hi)
      · exact (h.valid_iff i).2 hway
      · exact hi
  inj i hi j hj htag := by
    have hmem : ∀ i, i ∈ touch way ways → i ∈ ways := by
      intro i hi
      rcases mem_touch.1 hi with rfl | hi
      · exact hway
      · exact hi
    exact h.inj i (hmem i hi) j (hmem j hj) htag
  recent := by
    have hmap := map_touch (f := fun i => (s.line i).tag) fun i hi htag => h.inj i hi way hway htag
    rw [RefSet.use, h.recent]
    exact hmap.symm
  unused := by
    rcases h.unused with ⟨hnone, rfl⟩ | ⟨hsome, hmem, heq⟩
    · refine Or.inl ⟨?_, rfl⟩
      rw [RefSet.use, hnone]
      simp
    · by_cases hv : way = s.getLru
      · -- the line stored last is used
        refine Or.inl ⟨?_, ?_⟩
        · rw [RefSet.use, hsome, hv, if_pos rfl]
        · rw [touch, touch, hv, heq]
      · have htag : (s.line s.getLru).tag ≠ (s.line way).tag := fun htag =>
          hv (h.inj _ hmem way hway htag).symm
        refine Or.inr ?_
        rw [h.getLru_setMru hway hv]
        refine ⟨?_, mem_touch.2 (Or.inr hmem), ?_⟩
        · rw [RefSet.use, hsome, if_neg (by simpa using htag)]
          rfl
        · rw [erase_touch_of_ne hv, erase_touch_of_ne hv, heq]

end Tracks

/-! ### The whole cache -/

section Contents

variable [NeZero NWAYS] {c : Cache NSETS NWAYS T D} {r : Ref NSETS T}

/-- Every set tracks its reference. -/
def TracksAll (c : Cache NSETS NWAYS T D) (r : Ref NSETS T) : Prop :=
  ∀ set, ∃ R ways, Tracks (c.sets_ set) (r set) R ways

/-- The contents of the cache are those of the reference. -/
def SameContents (c : Cache NSETS NWAYS T D) (r : Ref NSETS T) : Prop :=
  ∀ set tag, c.Resident set tag ↔ tag ∈ (r set).recent

theorem TracksAll.sameContents (h : TracksAll c r) : SameContents c r := by
  intro set tag
  obtain ⟨R, ways, ht⟩ := h set
  exact ht.resident_iff

/-- A fresh cache tracks the empty reference. -/
theorem tracksAll_new [Inhabited T] [Inhabited D] (h : Cache.new = .ok c) :
    TracksAll c Ref.new := by
  unfold Cache.new at h
  split at h
  · cases h
    refine fun set => ⟨[], [], List.nodup_nil, fun i j => ?_, List.nodup_nil, fun i => ?_, ?_, rfl,
      Or.inl ⟨rfl, rfl⟩⟩
    · simp [CacheSet.new, Newer]
    · simp [CacheSet.new]
    · simp
  · cases h

/-- An operation on one set keeps the invariant of the others. -/
theorem TracksAll.update (h : TracksAll c r) {set : Fin NSETS} {s : CacheSet NWAYS T D}
    {q : RefSet T} (hs : ∃ R ways, Tracks s q R ways) :
    TracksAll { c with sets_ := Function.update c.sets_ set s } (Function.update r set q) := by
  intro set'
  by_cases hset : set' = set
  · subst hset
    simpa using hs
  · simpa only [update_of_ne hset] using h set'

end Contents

variable [NeZero NSETS] [DecidableEq T] (TAG : ℕ → T)

/-- The reference takes every operation. -/
theorem exists_step_ref (NWAYS : ℕ) (r : Ref NSETS T) (op : Op D) :
    ∃ r', r.step TAG NWAYS op = some r' := by
  cases op with
  | fill addr data => exact ⟨_, rfl⟩
  | lookup addr => exact ⟨_, rfl⟩

theorem exists_run_ref (NWAYS : ℕ) (r : Ref NSETS T) (ops : List (Op D)) :
    ∃ r', run (Ref.step TAG NWAYS) r ops = some r' := by
  induction ops generalizing r with
  | nil => exact ⟨r, rfl⟩
  | cons op ops ih =>
      obtain ⟨r₁, hr₁⟩ := exists_step_ref TAG NWAYS r op
      obtain ⟨r', hr'⟩ := ih r₁
      exact ⟨r', run_cons_eq_some.2 ⟨r₁, hr₁, hr'⟩⟩

variable [NeZero NWAYS] {c c' : Cache NSETS NWAYS T D} {r r' : Ref NSETS T} {addr : ℕ}

/-- A fill of a tag that is held is a use of its way. -/
theorem fill_of_resident (h : c.Resident (Cache.setOf addr) (TAG addr)) (data : D) :
    ∃ way, ((c.sets_ (Cache.setOf addr)).line way).valid = true ∧
      ((c.sets_ (Cache.setOf addr)).line way).tag = TAG addr ∧
      c.fill TAG addr data = { c with
        sets_ := Function.update c.sets_ (Cache.setOf addr)
          ((c.sets_ (Cache.setOf addr)).setMru way) } := by
  obtain ⟨way, hvalid, htag, hfind⟩ := findWay_of_resident TAG h
  refine ⟨way, hvalid, htag, ?_⟩
  rw [Cache.fill, hfind]
  rfl

/-- A fill of a tag that is not held replaces the line of the victim, and does not use its way. -/
theorem fill_of_not_resident (h : ¬c.Resident (Cache.setOf addr) (TAG addr)) (data : D) :
    c.fill TAG addr data = { c with
      sets_ := Function.update c.sets_ (Cache.setOf addr)
        ((c.sets_ (Cache.setOf addr)).fill (c.sets_ (Cache.setOf addr)).getLru (TAG addr) data) } := by
  rw [Cache.fill, findWay_of_not_resident TAG h]
  simp [CacheSet.fill]

/-- A lookup that hits is a use of the way. -/
theorem step_lookup (h : c.step TAG (.lookup addr) = some c') :
    ∃ way, ((c.sets_ (Cache.setOf addr)).line way).valid = true ∧
      ((c.sets_ (Cache.setOf addr)).line way).tag = TAG addr ∧
      c' = { c with
        sets_ := Function.update c.sets_ (Cache.setOf addr)
          ((c.sets_ (Cache.setOf addr)).setMru way) } := by
  simp only [Cache.step] at h
  split_ifs at h with hhit
  obtain ⟨way, hvalid, htag, hfind⟩ := findWay_of_resident TAG ((lookup_eq_true_iff TAG).1 hhit)
  simp only [Cache.lookup, if_pos (Nat.pos_of_neZero NSETS), hfind] at h
  exact ⟨way, hvalid, htag, (Option.some.inj h).symm⟩

/-- **A settled operation keeps the invariant.** -/
theorem TracksAll.step {op : Op D} (h : TracksAll c r) (hsettled : r.Settled TAG NWAYS op)
    (hc : c.step TAG op = some c') (hr : r.step TAG NWAYS op = some r') : TracksAll c' r' := by
  cases op with
  | fill addr data =>
      obtain rfl : c.fill TAG addr data = c' := Option.some.inj hc
      obtain rfl := Option.some.inj hr
      obtain ⟨R, ways, ht⟩ := h (Cache.setOf addr)
      by_cases hres : c.Resident (Cache.setOf addr) (TAG addr)
      · obtain ⟨way, hvalid, htag, hfill⟩ := fill_of_resident TAG hres data
        rw [hfill, RefSet.fill, if_pos (ht.resident_iff.1 hres), ← htag]
        exact h.update ⟨_, _, ht.use ((ht.valid_iff way).1 hvalid)⟩
      · have hmem := fun hmem => hres (ht.resident_iff.2 hmem)
        rw [fill_of_not_resident TAG hres, RefSet.fill, if_neg hmem]
        exact h.update ⟨_, _, ht.store hmem (hsettled hmem) data⟩
  | lookup addr =>
      obtain rfl := Option.some.inj hr
      obtain ⟨R, ways, ht⟩ := h (Cache.setOf addr)
      obtain ⟨way, hvalid, htag, rfl⟩ := step_lookup TAG hc
      have hmem := ht.resident_iff.1 ⟨way, hvalid, htag⟩
      rw [RefSet.lookup, if_pos hmem, ← htag]
      exact h.update ⟨_, _, ht.use ((ht.valid_iff way).1 hvalid)⟩

/-- **An unsettled operation** makes the contents differ. -/
theorem TracksAll.not_settled {op : Op D} (h : TracksAll c r) (hsettled : ¬r.Settled TAG NWAYS op)
    (hc : c.step TAG op = some c') (hr : r.step TAG NWAYS op = some r') : ¬SameContents c' r' := by
  intro hsame
  cases op with
  | fill addr data =>
      obtain rfl : c.fill TAG addr data = c' := Option.some.inj hc
      obtain rfl := Option.some.inj hr
      obtain ⟨R, ways, ht⟩ := h (Cache.setOf addr)
      obtain ⟨hmem, hnot⟩ := Classical.not_imp.1 hsettled
      have hres := fun hres => hmem (ht.resident_iff.1 hres)
      obtain ⟨p, hp, hlost⟩ := ht.not_settled hmem hnot data
      have hcontents := hsame (Cache.setOf addr) p
      simp only [fill_of_not_resident TAG hres, Cache.Resident, update_self, RefSet.fill,
        if_neg hmem] at hcontents
      exact hlost (hcontents.2 hp)
  | lookup addr => exact hsettled trivial

/-- Along a settled run every set tracks its reference. -/
theorem tracksAll_of_along [Inhabited T] [Inhabited D] {c₀ : Cache NSETS NWAYS T D}
    {ops : List (Op D)} (hnew : Cache.new = .ok c₀)
    (halong : Along (Ref.step TAG NWAYS) (Ref.Settled TAG NWAYS) (Ref.new : Ref NSETS T) ops)
    (hc : run (Cache.step TAG) c₀ ops = some c)
    (hr : run (Ref.step TAG NWAYS) Ref.new ops = some r) : TracksAll c r := by
  refine run_rel TracksAll ?_ (tracksAll_new hnew) halong hc hr
  intro c r op c' r' h hsettled hc hr
  exact h.step TAG hsettled hc hr

/-- **The cache keeps the contents of the reference throughout a run exactly when every fill of the
run finds its set settled.** -/
theorem cache_refines_iff [Inhabited T] [Inhabited D] {c₀ : Cache NSETS NWAYS T D}
    {ops : List (Op D)} (hnew : Cache.new = .ok c₀)
    (hrun : run (Cache.step TAG) c₀ ops = some c) :
    (∀ ops' c', ops' <+: ops → run (Cache.step TAG) c₀ ops' = some c' →
      ∃ r', run (Ref.step TAG NWAYS) Ref.new ops' = some r' ∧ SameContents c' r') ↔
      Along (Ref.step TAG NWAYS) (Ref.Settled TAG NWAYS) (Ref.new : Ref NSETS T) ops := by
  constructor
  · intro hsame
    induction ops using List.reverseRecOn generalizing c with
    | nil => trivial
    | append_singleton ops op ih =>
        obtain ⟨c₁, hc₁, hstep⟩ := run_concat_eq_some.1 hrun
        have halong := ih hc₁ fun ops' c' hops =>
          hsame ops' c' (hops.trans (List.prefix_append ops [op]))
        refine halong.concat ?_
        intro r₁ hr₁
        by_contra hnot
        obtain ⟨r', hr', hcontents⟩ := hsame _ c List.prefix_rfl hrun
        obtain ⟨r₂, hr₂, hstep'⟩ := run_concat_eq_some.1 hr'
        obtain rfl : r₁ = r₂ := Option.some.inj (hr₁.symm.trans hr₂)
        have htracks := tracksAll_of_along TAG hnew halong hc₁ hr₁
        exact htracks.not_settled TAG hnot hstep hstep' hcontents
  · rintro halong ops' c' ⟨rest, rfl⟩ hc'
    obtain ⟨r', hr'⟩ := exists_run_ref TAG NWAYS (Ref.new : Ref NSETS T) ops'
    exact ⟨r', hr', (tracksAll_of_along TAG hnew halong.of_append hc' hr').sameContents⟩

/-- Two tags of one set, the first of them looked up before the second is stored: both stay. -/
theorem cache_refines_iff_touched : ∃ c : Cache 2 2 ℕ Unit,
    run (Cache.step (· / 2)) ⟨1, fun _ => .new⟩ [.fill 4 (), .lookup 4, .fill 6 ()] = some c ∧
      ∃ r, run (Ref.step (· / 2) 2) Ref.new [.fill 4 (), .lookup 4, .fill 6 ()] = some r ∧
        SameContents c r := by
  obtain ⟨c, hc⟩ : ∃ c : Cache 2 2 ℕ Unit, run (Cache.step (· / 2)) ⟨1, fun _ => .new⟩
      [.fill 4 (), .lookup 4, .fill 6 ()] = some c := ⟨_, rfl⟩
  refine ⟨c, hc, (cache_refines_iff (· / 2) rfl hc).2 ?_ _ c List.prefix_rfl hc⟩
  refine ⟨fun _ p hp => ?_, ?_⟩
  · exact absurd (show none = some p from hp) (by simp)
  · rintro _ ⟨⟩
    refine ⟨trivial, ?_⟩
    rintro _ ⟨⟩
    refine ⟨fun _ p hp => ?_, fun _ _ => trivial⟩
    exact absurd (show none = some p from hp) (by simp)

/-- **A line is lost**: of two tags stored one after the other in a fresh set of two ways only the
second stays. -/
theorem cache_loses_a_line : ¬∀ (c₀ c : Cache 1 2 ℕ Unit) (ops : List (Op Unit)) (r : Ref 1 ℕ),
    Cache.new = .ok c₀ → run (Cache.step id) c₀ ops = some c →
      run (Ref.step id 2) Ref.new ops = some r → SameContents c r := by
  intro h
  have hsame := h ⟨0, fun _ => .new⟩ _ [.fill 1 (), .fill 2 ()] _ rfl rfl rfl 0 1
  exact absurd (hsame.2 (by decide)) (by decide)

end Lru
