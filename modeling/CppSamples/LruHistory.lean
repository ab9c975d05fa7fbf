/-
**What the cache of `lru` holds after any history.**

Lines come and go in three ways: a fill that misses stores a line, a fill or a lookup that misses
gives up the line of its victim, and `evict` gives up a line.  This module records these events, and
states the content of the cache by the record: a tag is held as long as nothing was done to the way
of its last stored line, and no tag is held twice.

Main definitions:

* `Lru.Call`, `Lru.Cache.call` — the calls on a cache, lookups that miss and `evict` among them;
* `Lru.Record`, `Lru.Observed` — the events, and a cache with its history;
* `Lru.LiveAt` — the last stored line of a tag is still there;
* `Lru.Content` — the content of a cache, by its history.

Main results:

* `Lru.LiveAt.unique` — a history has one live line for a tag;
* `Lru.Accounted.call` — every call keeps the lines and the history in step;
* `Lru.content_of_run` — **the content of every cache**.
-/

import CppSamples.LruRefinement

set_option relaxedAutoImplicit false
set_option autoImplicit false

namespace Lru

open Function TransitionSystem

variable {NSETS NWAYS : ℕ} {T D : Type}

/-! ### Histories -/

/-- What happens to the lines. -/
inductive Record (NSETS NWAYS : ℕ) (D : Type)
  /-- a fill stores a line -/
  | stored (set : Fin NSETS) (way : Fin NWAYS) (addr : ℕ) (data : D)
  /-- a way is selected as the victim of a miss -/
  | victim (set : Fin NSETS) (way : Fin NWAYS)
  /-- a line is evicted -/
  | evicted (set : Fin NSETS) (way : Fin NWAYS)

variable (TAG : ℕ → T)

/-- The event stores a line for the tag in the set. -/
def Record.Stores (set : Fin NSETS) (tag : T) : Record NSETS NWAYS D → Prop
  | .stored set' _ addr _ => set' = set ∧ TAG addr = tag
  | _ => False

/-- The event takes the line of the way. -/
def Record.Drops (set : Fin NSETS) (way : Fin NWAYS) : Record NSETS NWAYS D → Prop
  | .stored .. => False
  | .victim set' way' => set' = set ∧ way' = way
  | .evicted set' way' => set' = set ∧ way' = way

/-- The last fill that stored a line for the tag in the set stored `data` in the way, and neither an
evict nor a victim selection of the way has come after it. -/
def LiveAt (history : List (Record NSETS NWAYS D)) (set : Fin NSETS) (way : Fin NWAYS) (tag : T)
    (data : D) : Prop :=
  ∃ later addr earlier, history = later ++ .stored set way addr data :: earlier ∧ TAG addr = tag ∧
    ∀ e ∈ later, ¬e.Stores TAG set tag ∧ ¬e.Drops set way

section LiveAt

variable {TAG} {history : List (Record NSETS NWAYS D)} {e : Record NSETS NWAYS D}
  {set set' : Fin NSETS} {way way' : Fin NWAYS} {tag : T} {data data' : D} {addr : ℕ}

theorem liveAt_nil : ¬LiveAt TAG ([] : List (Record NSETS NWAYS D)) set way tag data := by
  rintro ⟨later, addr, earlier, h, -⟩
  cases later <;> cases h

/-- One event more. -/
theorem liveAt_cons : LiveAt TAG (e :: history) set way tag data ↔
    (∃ addr, e = .stored set way addr data ∧ TAG addr = tag) ∨
      (¬e.Stores TAG set tag ∧ ¬e.Drops set way) ∧ LiveAt TAG history set way tag data := by
  constructor
  · rintro ⟨later, addr, earlier, h, htag, hlater⟩
    cases later with
    | nil =>
        cases h
        exact .inl ⟨addr, rfl, htag⟩
    | cons e' later =>
        cases h
        refine .inr ⟨hlater _ List.mem_cons_self, later, addr, earlier, rfl, htag, ?_⟩
        exact fun e he => hlater e (List.mem_cons_of_mem _ he)
  · rintro (⟨addr, rfl, htag⟩ | ⟨he, later, addr, earlier, rfl, htag, hlater⟩)
    · exact ⟨[], addr, history, rfl, htag, fun _ h => absurd h List.not_mem_nil⟩
    · exact ⟨e :: later, addr, earlier, rfl, htag, List.forall_mem_cons.2 ⟨he, hlater⟩⟩

/-- **A history has one live line for a tag.** -/
theorem LiveAt.unique (h : LiveAt TAG history set way tag data)
    (h' : LiveAt TAG history set way' tag data') : way = way' ∧ data = data' := by
  induction history with
  | nil => exact absurd h liveAt_nil
  | cons e history ih =>
      rcases liveAt_cons.1 h with ⟨addr, rfl, htag⟩ | ⟨hnot, hlive⟩
      · rcases liveAt_cons.1 h' with ⟨addr', heq, -⟩ | ⟨hnot, -⟩
        · cases heq
          exact ⟨rfl, rfl⟩
        · exact absurd ⟨rfl, htag⟩ hnot.1
      · rcases liveAt_cons.1 h' with ⟨addr', rfl, htag⟩ | ⟨-, hlive'⟩
        · exact absurd ⟨rfl, htag⟩ hnot.1
        · exact ih hlive hlive'

variable (set' way') in
/-- After a victim selection or an evict. -/
theorem liveAt_cons_drop (he : ∀ set way, e.Drops set way ↔ set' = set ∧ way' = way)
    (hstores : ∀ set tag, ¬e.Stores TAG set tag) :
    LiveAt TAG (e :: history) set way tag data ↔
      ¬(set' = set ∧ way' = way) ∧ LiveAt TAG history set way tag data := by
  have hne : ∀ addr, e ≠ .stored set way addr data := by
    rintro addr rfl
    exact (he set' way').2 ⟨rfl, rfl⟩
  rw [liveAt_cons, he]
  simp [hne, hstores]

/-- After a line was stored. -/
theorem liveAt_cons_stored :
    LiveAt TAG (.stored set' way' addr data' :: history) set way tag data ↔
      (set' = set ∧ TAG addr = tag) ∧ (way' = way ∧ data' = data) ∨
        ¬(set' = set ∧ TAG addr = tag) ∧ LiveAt TAG history set way tag data := by
  rw [liveAt_cons]
  simp only [Record.stored.injEq, Record.Stores, Record.Drops, not_false_eq_true, and_true]
  refine or_congr ⟨?_, ?_⟩ Iff.rfl
  · rintro ⟨addr', ⟨rfl, rfl, rfl, rfl⟩, htag⟩
    exact ⟨⟨rfl, htag⟩, rfl, rfl⟩
  · rintro ⟨⟨rfl, htag⟩, rfl, rfl⟩
    exact ⟨addr, ⟨rfl, rfl, rfl, rfl⟩, htag⟩

end LiveAt

/-- A cache with its history, the latest event first. -/
structure Observed (NSETS NWAYS : ℕ) (T D : Type) where
  cache : Cache NSETS NWAYS T D
  history : List (Record NSETS NWAYS D)

/-! ### The lines and the history -/

/-- The way holds a valid line with the tag and the data. -/
def CacheSet.Has (s : CacheSet NWAYS T D) (way : Fin NWAYS) (tag : T) (data : D) : Prop :=
  (s.line way).valid = true ∧ (s.line way).tag = tag ∧ (s.line way).data = data

section Has

variable {s : CacheSet NWAYS T D} {w way : Fin NWAYS} {tag tag' : T} {data data' : D}

theorem has_drop : CacheSet.Has { s with
    line := update s.line w { s.line w with valid := false } } way tag data ↔
      ¬w = way ∧ s.Has way tag data := by
  by_cases hway : w = way
  · simp [CacheSet.Has, hway]
  · simp [CacheSet.Has, hway, update_of_ne (Ne.symm hway)]

theorem has_fill : (s.fill w tag' data').Has way tag data ↔
    (w = way ∧ tag' = tag ∧ data' = data) ∨ ¬w = way ∧ s.Has way tag data := by
  by_cases hway : w = way
  · simp [CacheSet.Has, CacheSet.fill, hway]
  · simp [CacheSet.Has, CacheSet.fill, hway, update_of_ne (Ne.symm hway)]

theorem CacheSet.Has.resident (h : s.Has way tag data) : s.Resident tag := ⟨way, h.1, h.2.1⟩

end Has

variable [NeZero NSETS]

/-- The valid lines are the live ones of the history, and every line was stored in the set of its
address. -/
structure Accounted (o : Observed NSETS NWAYS T D) : Prop where
  lines : ∀ set way tag data, (o.cache.sets_ set).Has way tag data ↔
    LiveAt TAG o.history set way tag data
  sets : ∀ set way addr data, .stored set way addr data ∈ o.history → Cache.setOf addr = set

section Accounted

variable {TAG} {c : Cache NSETS NWAYS T D} {history : List (Record NSETS NWAYS D)}

/-- A fresh cache. -/
theorem accounted_new [Inhabited T] [Inhabited D] (h : Cache.new = .ok c) :
    Accounted TAG ⟨c, []⟩ := by
  unfold Cache.new at h
  split at h
  · cases h
    refine ⟨fun set way tag data => iff_of_false ?_ liveAt_nil, fun _ _ _ _ hmem => ?_⟩
    · simp [CacheSet.Has, CacheSet.new]
    · cases hmem
  · cases h

/-- A call that only uses a way. -/
theorem Accounted.use (h : Accounted TAG ⟨c, history⟩) (set : Fin NSETS) (way : Fin NWAYS) :
    Accounted TAG ⟨{ c with sets_ := update c.sets_ set ((c.sets_ set).setMru way) }, history⟩ := by
  refine ⟨fun set' way' tag data => ?_, h.sets⟩
  rw [← h.lines]
  by_cases hset : set' = set
  · subst hset
    simp [CacheSet.Has, CacheSet.setMru]
  · simp [hset]

/-- A line is given up. -/
theorem Accounted.drop (h : Accounted TAG ⟨c, history⟩) {set : Fin NSETS} {way : Fin NWAYS}
    {e : Record NSETS NWAYS D} (he : e = .victim set way ∨ e = .evicted set way) :
    Accounted TAG ⟨{ c with sets_ := update c.sets_ set { c.sets_ set with
      line := update (c.sets_ set).line way { (c.sets_ set).line way with valid := false } } },
        e :: history⟩ := by
  refine ⟨fun set' way' tag data => ?_, fun set' way' addr data hmem => ?_⟩
  · rw [liveAt_cons_drop set way, ← h.lines]
    · by_cases hset : set = set'
      · subst hset
        simp [has_drop]
      · simp [hset, update_of_ne (Ne.symm hset)]
    · rcases he with rfl | rfl
      all_goals exact fun _ _ => Iff.rfl
    · rcases he with rfl | rfl
      all_goals exact fun _ _ => id
  · rcases List.mem_cons.1 hmem with rfl | hmem
    · rcases he with he | he
      all_goals cases he
    · exact h.sets set' way' addr data hmem

/-- A line is stored, for a tag that is not held, in the way that was given up for it. -/
theorem Accounted.store (h : Accounted TAG ⟨c, history⟩) {addr : ℕ} {data : D} {way : Fin NWAYS}
    (hnot : ¬c.Resident (Cache.setOf addr) (TAG addr)) :
    Accounted TAG ⟨{ c with
      sets_ := update c.sets_ (Cache.setOf addr)
        ((c.sets_ (Cache.setOf addr)).fill way (TAG addr) data) },
      .stored (Cache.setOf addr) way addr data :: .victim (Cache.setOf addr) way :: history⟩ := by
  refine ⟨fun set' way' tag data' => ?_, fun set' way' addr' data' hmem => ?_⟩
  · rw [liveAt_cons_stored, liveAt_cons_drop (Cache.setOf addr) way
      (fun _ _ => Iff.rfl) (fun _ _ => id), ← h.lines]
    by_cases hset : Cache.setOf addr = set'
    · subst hset
      have hfree : (c.sets_ (Cache.setOf addr)).Has way' tag data' → ¬TAG addr = tag := by
        rintro hhas rfl
        exact hnot hhas.resident
      simp only [update_self, has_fill, true_and]
      tauto
    · simp [hset, update_of_ne (Ne.symm hset)]
  · rcases List.mem_cons.1 hmem with heq | hmem
    · cases heq
      rfl
    · rcases List.mem_cons.1 hmem with heq | hmem
      · cases heq
      · exact h.sets set' way' addr' data' hmem

end Accounted

/-! ### Calls and their events -/

/-- `evict` -/
def Cache.evict (c : Cache NSETS NWAYS T D) (way : Fin NWAYS) (set : Fin NSETS) :
    Cache NSETS NWAYS T D :=
  let s := c.sets_ set
  { c with
    sets_ := update c.sets_ set { s with
      line := update s.line way { s.line way with valid := false } } }

/-- The calls on a cache. -/
inductive Call (NSETS NWAYS : ℕ) (D : Type)
  | fill (addr : ℕ) (data : D)
  | lookup (addr : ℕ)
  | evict (way : Fin NWAYS) (set : Fin NSETS)

variable [NeZero NWAYS] [DecidableEq T]

/-- A call; the results of a lookup are left out. -/
def Cache.call (c : Cache NSETS NWAYS T D) : Call NSETS NWAYS D → Cache NSETS NWAYS T D
  | .fill addr data => c.fill TAG addr data
  | .lookup addr => (c.lookup TAG addr 0 0).2
  | .evict way set => c.evict way set

/-- The events of a call, the latest first. -/
def Cache.events (c : Cache NSETS NWAYS T D) : Call NSETS NWAYS D → List (Record NSETS NWAYS D)
  | .fill addr data =>
    let set := setOf addr
    let w := ((c.sets_ set).findWay TAG addr).1
    if w.1 then [] else [.stored set w.2 addr data, .victim set w.2]
  | .lookup addr =>
    let set := setOf addr
    let w := ((c.sets_ set).findWay TAG addr).1
    if w.1 then [] else [.victim set w.2]
  | .evict way set => [.evicted set way]

/-- A call on a cache whose events are recorded. -/
def Observed.step (o : Observed NSETS NWAYS T D) (call : Call NSETS NWAYS D) :
    Option (Observed NSETS NWAYS T D) :=
  some ⟨o.cache.call TAG call, o.cache.events TAG call ++ o.history⟩

/-- **Every call keeps the lines and the history in step.** -/
theorem Accounted.call {o o' : Observed NSETS NWAYS T D} {call : Call NSETS NWAYS D}
    (h : Accounted TAG o) (hstep : o.step TAG call = some o') : Accounted TAG o' := by
  obtain ⟨c, history⟩ := o
  obtain rfl := Option.some.inj hstep
  cases call with
  | fill addr data =>
      by_cases hres : c.Resident (Cache.setOf addr) (TAG addr)
      · obtain ⟨way, -, -, hfill⟩ := fill_of_resident TAG hres data
        have hhit := (findWay_eq_true_iff TAG).2 hres
        simp only [Cache.call, Cache.events, hfill, hhit, if_true, List.nil_append]
        exact h.use _ way
      · simp only [Cache.call, Cache.events, fill_of_not_resident TAG hres,
          findWay_of_not_resident TAG hres]
        exact h.store hres
  | lookup addr =>
      simp only [Cache.call, Cache.events, Cache.lookup, if_pos (Nat.pos_of_neZero NSETS)]
      by_cases hres : c.Resident (Cache.setOf addr) (TAG addr)
      · obtain ⟨way, -, -, hfind⟩ := findWay_of_resident TAG hres
        simp only [hfind, if_true, List.nil_append]
        exact h.use _ way
      · rw [findWay_of_not_resident TAG hres]
        exact h.drop (.inl rfl)
  | evict way set => exact h.drop (.inr rfl)

/-! ### The content -/

/-- **The content of a cache, by its history.** -/
structure Content (o : Observed NSETS NWAYS T D) : Prop where
  /-- no tag is held twice -/
  unique : ∀ set way way', ((o.cache.sets_ set).line way).valid = true →
    ((o.cache.sets_ set).line way').valid = true →
      ((o.cache.sets_ set).line way).tag = ((o.cache.sets_ set).line way').tag → way = way'
  /-- a valid line was stored by a fill of its set and its tag, and holds the data of that fill -/
  origin : ∀ set way, ((o.cache.sets_ set).line way).valid = true →
    ∃ addr data, .stored set way addr data ∈ o.history ∧ Cache.setOf addr = set ∧
      ((o.cache.sets_ set).line way).tag = TAG addr ∧ ((o.cache.sets_ set).line way).data = data
  /-- a lookup hits exactly when the last stored line of its tag is still there -/
  hit : ∀ addr way set, (o.cache.lookup TAG addr way set).1.1 = true ↔
    ∃ way data, LiveAt TAG o.history (Cache.setOf addr) way (TAG addr) data

variable {TAG}

/-- A cache in step with its history has the content of it. -/
theorem Accounted.content {o : Observed NSETS NWAYS T D} (h : Accounted TAG o) : Content TAG o where
  unique set way way' hvalid hvalid' htag := by
    have hlive := (h.lines set way _ _).1 ⟨hvalid, rfl, rfl⟩
    have hlive' := (h.lines set way' _ _).1 ⟨hvalid', htag.symm, rfl⟩
    exact (hlive.unique hlive').1
  origin set way hvalid := by
    obtain ⟨later, addr, earlier, hhistory, htag, -⟩ := (h.lines set way _ _).1 ⟨hvalid, rfl, rfl⟩
    have hmem : .stored set way addr ((o.cache.sets_ set).line way).data ∈ o.history := by
      rw [hhistory]
      exact List.mem_append_right _ List.mem_cons_self
    exact ⟨addr, _, hmem, h.sets _ _ _ _ hmem, htag.symm, rfl⟩
  hit addr way set := by
    rw [lookup_eq_true_iff]
    constructor
    · rintro ⟨way, hvalid, htag⟩
      exact ⟨way, _, (h.lines _ way _ _).1 ⟨hvalid, htag, rfl⟩⟩
    · rintro ⟨way, data, hlive⟩
      exact ((h.lines _ way _ data).2 hlive).resident

/-- **The content of every cache**: after any calls on a new one, its content is the one of its
history. -/
theorem content_of_run [Inhabited T] [Inhabited D] {c₀ : Cache NSETS NWAYS T D}
    {calls : List (Call NSETS NWAYS D)} {o : Observed NSETS NWAYS T D} (hnew : Cache.new = .ok c₀)
    (hrun : run (Observed.step TAG) ⟨c₀, []⟩ calls = some o) : Content TAG o := by
  have haccounted : Accounted TAG o :=
    Reachable.inv (Accounted TAG) (fun _ _ _ h hstep => h.call TAG hstep) (accounted_new hnew)
      ⟨calls, hrun⟩
  exact haccounted.content

/-- Two tags stored one after the other in a fresh set: the line of the first is the victim of the
second, and the second is found until it is evicted. -/
theorem content_of_run_replaced : ∃ (c : Cache 2 2 ℕ ℕ) (o : Observed 2 2 ℕ ℕ), Cache.new = .ok c ∧
    run (Observed.step id) ⟨c, []⟩ [.fill 4 40, .fill 6 60, .lookup 6, .evict 1 0] = some o ∧
      Content id o := by
  have hnew : (Cache.new : Except String (Cache 2 2 ℕ ℕ)) = .ok ⟨1, fun _ => .new⟩ := by rfl
  have hrun : ∃ o, run (Observed.step id) ⟨⟨1, fun _ => CacheSet.new⟩, []⟩
      [.fill 4 40, .fill 6 60, .lookup 6, .evict 1 0] = some (o : Observed 2 2 ℕ ℕ) := ⟨_, rfl⟩
  obtain ⟨o, hrun⟩ := hrun
  exact ⟨_, o, hnew, hrun, content_of_run hnew hrun⟩

end Lru
