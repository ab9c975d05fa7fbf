/-
**The lock-free stack of `parallel_ds`.**

`stack_lock_free` is a linked list whose head is an atomic pointer.  `push` links a new node before
the head with a compare-exchange and retries when it fails; `pop` exchanges the head for the
`next` of the node it saw there, reads the node and deletes it.  This module has the two operations
as their sequence of atomic steps, run by any number of threads in any order, over a heap whose
allocator may hand out the address of a deleted node again.

A node that was deleted keeps its content until its address is used again, so a thread that still
holds the address goes on with it; whether a step touches such a node is what safety is about.

Main definitions:

* `TreiberStack.step` — one atomic step of a thread;
* `TreiberStack.Safe` — no thread is about to touch a deleted node, and nothing is lost or taken
  twice;
* `TreiberStack.Careful` — the two situations that break it are avoided.

Main results:

* `TreiberStack.Inv.step` — the careful steps keep the invariant;
* `TreiberStack.safe_of_careful` — **the stack is safe in every careful run**;
* `TreiberStack.not_safe_of_delete` — deleting a node another pop is about to read is never safe;
* `TreiberStack.use_after_free` — a run in which a pop is about to read a deleted node.
-/

import CppSamples.HeapList
import CppSamples.TransitionSystem
import Mathlib.Data.List.Perm.Basic

set_option relaxedAutoImplicit false
set_option autoImplicit false

namespace TreiberStack

open Function HeapList TransitionSystem
open scoped List

/-! ### The atomic steps -/

/-- A node; `live` tells whether it is allocated and not deleted. -/
structure Node (A T : Type*) where
  data : T
  next : Option A
  live : Bool

/-- What a thread is about to do. -/
inductive Phase (A T : Type*)
  /-- nothing: outside `push` and `pop` -/
  | idle
  /-- `newNode->next = head.load()` -/
  | loading (newNode : A) (i : T)
  /-- `head.compare_exchange_weak(newNode->next, newNode)` -/
  | linking (newNode : A) (i : T)
  /-- `candidate != nullptr`, and then the reading of `candidate->next` -/
  | testing (candidate : Option A)
  /-- `head.compare_exchange_weak(candidate, next)` with the `next` it has read -/
  | unlinking (candidate : A) (next : Option A)
  /-- `T tmp = candidate->data` -/
  | reading (candidate : A)
  /-- `delete candidate` -/
  | deleting (candidate : A) (tmp : T)

/-- The heap, the head and the threads; the values pushed and the values read by pops, in the order
of the compare-exchanges and of the reads; and the nodes taken by a pop that has not read them. -/
structure State (τ A T : Type*) where
  heap : A → Node A T
  head : Option A
  phase : τ → Phase A T
  pushed : List T
  returned : List T
  claimed : List A

/-- The steps of a thread: the allocator's choice of an address and the spurious failures of a
weak compare-exchange are part of them. -/
inductive Action (τ A T : Type*)
  | new (t : τ) (i : T) (newNode : A)
  | loadNext (t : τ)
  | pushCas (t : τ) (spurious : Bool)
  | loadHead (t : τ)
  | readNext (t : τ)
  | popCas (t : τ) (spurious : Bool)
  | readData (t : τ)
  | delete (t : τ)

variable {τ A T : Type*}

/-- An empty stack on an empty heap. -/
def State.init [Inhabited T] : State τ A T :=
  ⟨fun _ => ⟨default, none, false⟩, none, fun _ => .idle, [], [], []⟩

section Step

variable [DecidableEq τ]

/-- The thread `t` goes on to the phase `p`. -/
def State.goto (s : State τ A T) (t : τ) (p : Phase A T) : State τ A T :=
  { s with phase := update s.phase t p }

variable [DecidableEq A]

/-- One atomic step. -/
def step (s : State τ A T) : Action τ A T → Option (State τ A T)
  | .new t i newNode =>
    match s.phase t with
    | .idle =>
      -- any address that is not in use
      if (s.heap newNode).live then none
      else some (State.goto
        { s with heap := update s.heap newNode ⟨i, (s.heap newNode).next, true⟩ }
        t (.loading newNode i))
    | _ => none
  | .loadNext t =>
    match s.phase t with
    | .loading newNode i => some (State.goto
        { s with heap := update s.heap newNode { s.heap newNode with next := s.head } }
        t (.linking newNode i))
    | _ => none
  | .pushCas t spurious =>
    match s.phase t with
    | .linking newNode i =>
      if s.head = (s.heap newNode).next ∧ spurious = false then
        some (State.goto { s with head := some newNode, pushed := s.pushed ++ [i] } t .idle)
      else some (State.goto
        { s with heap := update s.heap newNode { s.heap newNode with next := s.head } }
        t (.linking newNode i))
    | _ => none
  | .loadHead t =>
    match s.phase t with
    | .idle => some (s.goto t (.testing s.head))
    | _ => none
  | .readNext t =>
    match s.phase t with
    -- the pop of an empty stack throws
    | .testing none => some (s.goto t .idle)
    | .testing (some candidate) => some (s.goto t (.unlinking candidate (s.heap candidate).next))
    | _ => none
  | .popCas t spurious =>
    match s.phase t with
    | .unlinking candidate next =>
      if s.head = some candidate ∧ spurious = false then
        some (State.goto { s with head := next, claimed := candidate :: s.claimed }
          t (.reading candidate))
      else some (s.goto t (.testing s.head))
    | _ => none
  | .readData t =>
    match s.phase t with
    | .reading candidate =>
      let tmp := (s.heap candidate).data
      some (State.goto
        { s with returned := s.returned ++ [tmp], claimed := s.claimed.erase candidate }
        t (.deleting candidate tmp))
    | _ => none
  | .delete t =>
    match s.phase t with
    | .deleting candidate _ => some (State.goto
        { s with heap := update s.heap candidate { s.heap candidate with live := false } } t .idle)
    | _ => none

end Step

/-! ### Safety -/

/-- The node that the next step of a thread reads, writes or frees. -/
def Phase.touches : Phase A T → Option A
  | .loading newNode _ => some newNode
  | .linking newNode _ => some newNode
  | .testing candidate => candidate
  | .reading candidate => some candidate
  | .deleting candidate _ => some candidate
  | _ => none

/-- The `next` fields of a heap. -/
def State.next (s : State τ A T) (a : A) : Option A := (s.heap a).next

/-- The values of a list of nodes. -/
def State.values (s : State τ A T) (l : List A) : List T := l.map fun a => (s.heap a).data

/-- The values taken by the pops whose compare-exchange has succeeded: those that have been read,
and those in the nodes that are about to be. -/
def State.taken (s : State τ A T) : List T := s.returned ++ s.values s.claimed

/-- **Safety**: no thread is about to touch a deleted node, the nodes reachable from the head are
not deleted, and the values taken together with those of these nodes are the values pushed. -/
def Safe (s : State τ A T) : Prop :=
  (∀ t a, (s.phase t).touches = some a → (s.heap a).live = true) ∧
    ∃ l, Chain s.next s.head l ∧ (∀ a ∈ l, (s.heap a).live = true) ∧
      s.taken ++ s.values l ~ s.pushed

/-- A step avoids the two hazards: a node is deleted only when no other pop is about to read its
`next`, and the compare-exchange of a pop succeeds only while the `next` of its candidate is still
the one the pop has read. -/
def Careful (s : State τ A T) : Action τ A T → Prop
  | .delete t => ∀ candidate tmp, s.phase t = .deleting candidate tmp →
      ∀ u, s.phase u ≠ .testing (some candidate)
  | .popCas t spurious => ∀ candidate next, s.phase t = .unlinking candidate next →
      s.head = some candidate → spurious = false → s.next candidate = next
  | _ => True

/-! ### The invariant -/

/-- The node that belongs to a thread alone: the one it is about to link, or the one it has taken.
-/
def Phase.owned : Phase A T → Option A
  | .loading newNode _ => some newNode
  | .linking newNode _ => some newNode
  | .reading candidate => some candidate
  | .deleting candidate _ => some candidate
  | _ => none

/-- What the shared state grants to a thread in a phase, when `l` are the nodes of the stack. -/
def Granted (s : State τ A T) (l : List A) : Phase A T → Prop
  | .loading a i => (s.heap a).live = true ∧ a ∉ l ∧ a ∉ s.claimed ∧ (s.heap a).data = i
  | .linking a i => (s.heap a).live = true ∧ a ∉ l ∧ a ∉ s.claimed ∧ (s.heap a).data = i
  | .testing (some a) => (s.heap a).live = true
  | .reading a => (s.heap a).live = true ∧ a ∉ l ∧ a ∈ s.claimed
  | .deleting a _ => (s.heap a).live = true ∧ a ∉ l ∧ a ∉ s.claimed
  | _ => True

/-- The shared state: the nodes `l` of the stack and the nodes just taken are in use and apart, and
no value is lost or taken twice. -/
structure Shared (s : State τ A T) (l : List A) : Prop where
  chain : Chain s.next s.head l
  live : ∀ a ∈ l, (s.heap a).live = true
  claimed : ∀ a ∈ s.claimed, (s.heap a).live = true ∧ a ∉ l
  nodup : s.claimed.Nodup
  values : s.taken ++ s.values l ~ s.pushed

/-- The invariant of the careful runs. -/
structure Inv (s : State τ A T) (l : List A) : Prop where
  shared : Shared s l
  granted : ∀ t, Granted s l (s.phase t)
  disjoint : ∀ t u a, (s.phase t).owned = some a → (s.phase u).owned = some a → t = u

section Invariant

variable {s s₁ s' : State τ A T} {l l₁ : List A} {t : τ} {p q : Phase A T} {a b : A} {i : T}

theorem Granted.live_of_owned (h : Granted s l p) (ha : p.owned = some a) :
    (s.heap a).live = true ∧ a ∉ l := by
  cases p with
  | loading b i => cases ha; exact ⟨h.1, h.2.1⟩
  | linking b i => cases ha; exact ⟨h.1, h.2.1⟩
  | reading b => cases ha; exact ⟨h.1, h.2.1⟩
  | deleting b tmp => cases ha; exact ⟨h.1, h.2.1⟩
  | _ => cases ha

/-- What a phase is granted stays granted when its own node is left alone and the node it is about
to test stays in use. -/
theorem Granted.mono (h : Granted s l q)
    (hown : ∀ a, q.owned = some a →
      s₁.heap a = s.heap a ∧ (a ∈ s₁.claimed ↔ a ∈ s.claimed) ∧ (a ∉ l → a ∉ l₁))
    (hlive : ∀ a, q = .testing (some a) → (s.heap a).live = true → (s₁.heap a).live = true) :
    Granted s₁ l₁ q := by
  cases q with
  | loading a i =>
      obtain ⟨hheap, hclaimed, hmem⟩ := hown a rfl
      exact ⟨hheap ▸ h.1, hmem h.2.1, fun hc => h.2.2.1 (hclaimed.1 hc), hheap ▸ h.2.2.2⟩
  | linking a i =>
      obtain ⟨hheap, hclaimed, hmem⟩ := hown a rfl
      exact ⟨hheap ▸ h.1, hmem h.2.1, fun hc => h.2.2.1 (hclaimed.1 hc), hheap ▸ h.2.2.2⟩
  | testing c =>
      cases c with
      | none => trivial
      | some a => exact hlive a rfl h
  | reading a =>
      obtain ⟨hheap, hclaimed, hmem⟩ := hown a rfl
      exact ⟨hheap ▸ h.1, hmem h.2.1, hclaimed.2 h.2.2⟩
  | deleting a tmp =>
      obtain ⟨hheap, hclaimed, hmem⟩ := hown a rfl
      exact ⟨hheap ▸ h.1, hmem h.2.1, fun hc => h.2.2 (hclaimed.1 hc)⟩
  | _ => trivial

/-- Nobody else owns the node of a thread. -/
theorem Inv.owned_ne (h : Inv s l) (ht : (s.phase t).owned = some a) {u : τ} (hu : u ≠ t) :
    (s.phase u).owned ≠ some a := fun hua => hu (h.disjoint u t a hua ht)

/-- Values of nodes whose data is left alone. -/
theorem values_congr {l : List A} (h : ∀ a ∈ l, (s₁.heap a).data = (s.heap a).data) :
    s₁.values l = s.values l := List.map_congr_left h

/-- The head is in use. -/
theorem Inv.granted_head (h : Inv s l) : Granted s l (.testing s.head) := by
  cases hhead : s.head with
  | none => trivial
  | some a =>
      have hchain := h.shared.chain
      rw [hhead] at hchain
      obtain ⟨l', rfl, _⟩ := hchain.eq_cons
      exact h.shared.live a List.mem_cons_self

/-- Writing a node that is neither in the stack nor just taken. -/
theorem Shared.write [DecidableEq A] (h : Shared s l) (ha : a ∉ l) (hc : a ∉ s.claimed)
    (n : Node A T) :
    Shared { s with heap := update s.heap a n } l where
  chain := h.chain.congr fun b hb => by
    have hba : b ≠ a := fun hba => ha (hba ▸ hb)
    simp only [State.next, update_of_ne hba]
  live b hb := by
    have hba : b ≠ a := fun hba => ha (hba ▸ hb)
    simpa only [update_of_ne hba] using h.live b hb
  claimed b hb := by
    have hba : b ≠ a := fun hba => hc (hba ▸ hb)
    simpa only [update_of_ne hba] using h.claimed b hb
  nodup := h.nodup
  values := by
    have hdata : ∀ k : List A, a ∉ k →
        State.values { s with heap := update s.heap a n } k = s.values k := fun k hk =>
      values_congr fun b hb => by
        have hba : b ≠ a := fun hba => hk (hba ▸ hb)
        simp only [update_of_ne hba]
    have hvalues := h.values
    rw [State.taken, hdata s.claimed hc, hdata l ha]
    exact hvalues

/-- The invariant implies safety. -/
theorem Inv.safe (h : Inv s l) : Safe s := by
  refine ⟨fun t a ha => ?_, l, h.shared.chain, h.shared.live, h.shared.values⟩
  have hg := h.granted t
  cases hp : s.phase t with
  | testing candidate =>
      rw [hp] at ha hg
      obtain rfl : candidate = some a := ha
      exact hg
  | idle => simp [hp, Phase.touches] at ha
  | unlinking b next => simp [hp, Phase.touches] at ha
  | _ =>
      have hown : (s.phase t).owned = some a := by rw [hp] at ha ⊢; exact ha
      exact (hg.live_of_owned hown).1

/-- The empty stack. -/
theorem inv_init [Inhabited T] : Inv (State.init : State τ A T) [] where
  shared := ⟨.nil, by simp, by simp [State.init], List.nodup_nil, List.Perm.refl _⟩
  granted _ := trivial
  disjoint t u a ht := by simp [State.init, Phase.owned] at ht

variable [DecidableEq τ]

/-- A step of one thread: the shared state is as it should be, the thread gets what its new phase
needs, and the others keep what they have. -/
theorem Inv.goto (h : Inv s l) (hshared : Shared s₁ l₁) (hphase : s₁.phase = s.phase)
    (hgranted : Granted s₁ l₁ p) (hothers : ∀ u, u ≠ t → Granted s₁ l₁ (s.phase u))
    (hdisjoint : ∀ u, u ≠ t → ∀ a, p.owned = some a → (s.phase u).owned ≠ some a) :
    Inv (s₁.goto t p) l₁ where
  shared := ⟨hshared.chain, hshared.live, hshared.claimed, hshared.nodup, hshared.values⟩
  granted u := by
    change Granted s₁ l₁ (update s₁.phase t p u)
    by_cases hu : u = t
    · rw [hu, update_self]
      exact hgranted
    · rw [update_of_ne hu, hphase]
      exact hothers u hu
  disjoint u v a hu hv := by
    simp only [State.goto, hphase] at hu hv
    by_cases hut : u = t
    · by_cases hvt : v = t
      · rw [hut, hvt]
      · rw [hut, update_self] at hu
        rw [update_of_ne hvt] at hv
        exact absurd hv (hdisjoint v hvt a hu)
    · rw [update_of_ne hut] at hu
      by_cases hvt : v = t
      · rw [hvt, update_self] at hv
        exact absurd hu (hdisjoint u hut a hv)
      · rw [update_of_ne hvt] at hv
        exact h.disjoint u v a hu hv

/-- A step that only moves on a thread without a node of its own. -/
theorem Inv.move (h : Inv s l) (hp : p.owned = none) (hg : Granted s l p) : Inv (s.goto t p) l :=
  h.goto h.shared rfl hg (fun u _ => h.granted u) fun u _ a ha => by simp [hp] at ha

/-! ### The steps -/

/-- The compare-exchange of a push links the node. -/
theorem Inv.link (h : Inv s l) (ht : s.phase t = .linking a i) (hnext : s.head = s.next a) :
    Inv (State.goto { s with head := some a, pushed := s.pushed ++ [i] } t .idle) (a :: l) := by
  have hg := h.granted t
  rw [ht] at hg
  obtain ⟨hlive, hal, hac, hdata⟩ := hg
  have hown : (s.phase t).owned = some a := by rw [ht]; rfl
  refine h.goto ?_ rfl trivial (fun u hu => ?_) (by rintro u _ b ⟨⟩)
  · refine ⟨.cons ?_, ?_, ?_, h.shared.nodup, ?_⟩
    · exact hnext ▸ h.shared.chain
    · intro b hb
      rcases List.mem_cons.1 hb with rfl | hb
      · exact hlive
      · exact h.shared.live b hb
    · intro b hb
      refine ⟨(h.shared.claimed b hb).1, ?_⟩
      rw [List.mem_cons, not_or]
      exact ⟨fun hba => hac (hba ▸ hb), (h.shared.claimed b hb).2⟩
    · have hvalues : s.taken ++ (i :: s.values l) ~ s.pushed ++ [i] := by
        refine List.perm_middle.trans ?_
        exact (h.shared.values.cons i).trans (List.perm_append_singleton i _).symm
      rw [← hdata] at hvalues ⊢
      exact hvalues
  · refine (h.granted u).mono (fun b hb => ⟨rfl, Iff.rfl, fun hbl => ?_⟩) fun _ _ => id
    rw [List.mem_cons, not_or]
    exact ⟨fun hba => h.owned_ne hown hu (hba ▸ hb), hbl⟩

/-- The compare-exchange of a pop takes the first node. -/
theorem Inv.unlink (h : Inv s (a :: l)) (hhead : s.head = some a) :
    Inv (State.goto { s with head := s.next a, claimed := a :: s.claimed } t (.reading a)) l := by
  have hnodup := h.shared.chain.nodup
  have hal : a ∉ l := (List.nodup_cons.1 hnodup).1
  have hchain := h.shared.chain
  rw [hhead] at hchain
  obtain ⟨l', hl', htail⟩ := hchain.eq_cons
  obtain rfl : l = l' := (List.cons.inj hl').2
  have hlive := h.shared.live a List.mem_cons_self
  have hac : a ∉ s.claimed := fun hac => (h.shared.claimed a hac).2 List.mem_cons_self
  refine h.goto ?_ rfl ⟨hlive, hal, List.mem_cons_self⟩ (fun u _ => ?_) ?_
  · refine ⟨htail, fun b hb => h.shared.live b (List.mem_cons_of_mem a hb), ?_,
      List.nodup_cons.2 ⟨hac, h.shared.nodup⟩, ?_⟩
    · intro b hb
      rcases List.mem_cons.1 hb with rfl | hb
      · exact ⟨hlive, hal⟩
      · have hc := h.shared.claimed b hb
        exact ⟨hc.1, fun hbl => hc.2 (List.mem_cons_of_mem a hbl)⟩
    · -- the value moves from the stack to the values taken
      refine List.Perm.trans ?_ h.shared.values
      have hmove : s.returned ++ ((s.heap a).data :: s.values s.claimed) ++ s.values l ~
          s.returned ++ s.values s.claimed ++ ((s.heap a).data :: s.values l) := by
        rw [List.append_assoc, List.append_assoc]
        exact (List.perm_middle.symm).append_left s.returned
      exact hmove
  · refine (h.granted u).mono (fun b hb => ⟨rfl, ?_, ?_⟩) fun _ _ => id
    · have hbl := ((h.granted u).live_of_owned hb).2
      have hba : b ≠ a := fun hba => hbl (hba ▸ List.mem_cons_self)
      simp [hba]
    · exact fun hbl hb => hbl (List.mem_cons_of_mem a hb)
  · rintro u _ b ⟨⟩ hb
    exact ((h.granted u).live_of_owned hb).2 List.mem_cons_self

variable [DecidableEq A]

/-- A new node is filled. -/
theorem Inv.new (h : Inv s l) (ha : (s.heap a).live = false) :
    Inv (State.goto { s with heap := update s.heap a ⟨i, (s.heap a).next, true⟩ }
      t (.loading a i)) l := by
  have hal : a ∉ l := fun hal => by simp [h.shared.live a hal] at ha
  have hac : a ∉ s.claimed := fun hac => by simp [(h.shared.claimed a hac).1] at ha
  have hne : ∀ u b, (s.phase u).owned = some b → b ≠ a := fun u b hb hba => by
    simp [hba ▸ ((h.granted u).live_of_owned hb).1] at ha
  refine h.goto (h.shared.write hal hac _) rfl ⟨by simp, hal, hac, by simp⟩ (fun u _ => ?_) ?_
  · refine (h.granted u).mono (fun b hb => ⟨update_of_ne (hne u b hb) _ _, Iff.rfl, id⟩) ?_
    intro b _ hlive
    by_cases hba : b = a
    · simp [hba]
    · simpa only [update_of_ne hba] using hlive
  · rintro u _ b ⟨⟩ hb
    exact hne u a hb rfl

/-- The owner of a node that is about to be linked writes its `next`. -/
theorem Inv.writeNext (h : Inv s l) (ht : (s.phase t).owned = some a)
    (hg : Granted s l (.linking a i)) (next : Option A) :
    Inv (State.goto { s with heap := update s.heap a { s.heap a with next } } t (.linking a i)) l := by
  obtain ⟨hlive, hal, hac, hdata⟩ := hg
  refine h.goto (h.shared.write hal hac _) rfl ⟨by simpa using hlive, hal, hac, by simpa using hdata⟩
    (fun u hu => ?_) ?_
  · refine (h.granted u).mono (fun b hb => ?_) ?_
    · have hba : b ≠ a := fun hba => h.owned_ne ht hu (hba ▸ hb)
      exact ⟨update_of_ne hba _ _, Iff.rfl, id⟩
    · intro b _ hblive
      by_cases hba : b = a
      · simpa [hba] using hlive
      · simpa only [update_of_ne hba] using hblive
  · rintro u hu b ⟨⟩
    exact h.owned_ne ht hu

/-- A pop reads the node it has taken. -/
theorem Inv.read (h : Inv s l) (ht : s.phase t = .reading a) :
    Inv (State.goto
      { s with returned := s.returned ++ [(s.heap a).data], claimed := s.claimed.erase a }
      t (.deleting a (s.heap a).data)) l := by
  have hg := h.granted t
  rw [ht] at hg
  obtain ⟨hlive, hal, hac⟩ := hg
  have hown : (s.phase t).owned = some a := by rw [ht]; rfl
  refine h.goto ?_ rfl ⟨hlive, hal, h.shared.nodup.not_mem_erase⟩ (fun u hu => ?_) ?_
  · refine ⟨h.shared.chain, h.shared.live, fun b hb => h.shared.claimed b (List.mem_of_mem_erase hb),
      h.shared.nodup.erase a, ?_⟩
    refine List.Perm.trans ?_ h.shared.values
    have hsplit : s.values s.claimed ~ (s.heap a).data :: s.values (s.claimed.erase a) :=
      (List.perm_cons_erase hac).map _
    have hmove : s.returned ++ [(s.heap a).data] ++ s.values (s.claimed.erase a) ~
        s.returned ++ s.values s.claimed := by
      rw [List.append_assoc]
      exact hsplit.symm.append_left s.returned
    exact hmove.append_right (s.values l)
  · refine (h.granted u).mono (fun b hb => ⟨rfl, ?_, id⟩) fun _ _ => id
    have hba : b ≠ a := fun hba => h.owned_ne hown hu (hba ▸ hb)
    exact List.mem_erase_of_ne hba
  · rintro u hu b ⟨⟩
    exact h.owned_ne hown hu

/-- A pop deletes the node it has read, which no other pop is about to test. -/
theorem Inv.delete {tmp : T} (h : Inv s l) (ht : s.phase t = .deleting a tmp)
    (htest : ∀ u, s.phase u ≠ .testing (some a)) :
    Inv (State.goto { s with heap := update s.heap a { s.heap a with live := false } } t .idle) l := by
  have hg := h.granted t
  rw [ht] at hg
  obtain ⟨_, hal, hac⟩ := hg
  have hown : (s.phase t).owned = some a := by rw [ht]; rfl
  refine h.goto (h.shared.write hal hac _) rfl trivial (fun u hu => ?_) (by rintro u _ b ⟨⟩)
  refine (h.granted u).mono (fun b hb => ?_) ?_
  · have hba : b ≠ a := fun hba => h.owned_ne hown hu (hba ▸ hb)
    exact ⟨update_of_ne hba _ _, Iff.rfl, id⟩
  · intro b hb hlive
    have hba : b ≠ a := fun hba => htest u (hba ▸ hb)
    simpa only [update_of_ne hba] using hlive

/-- **A careful step keeps the invariant.** -/
theorem Inv.step {act : Action τ A T} (h : Inv s l) (hcareful : Careful s act)
    (hstep : step s act = some s') : ∃ l', Inv s' l' := by
  cases act with
  | new t i a =>
      cases ht : s.phase t with
      | idle =>
          simp only [TreiberStack.step, ht] at hstep
          split_ifs at hstep with hlive
          obtain rfl := Option.some.inj hstep
          exact ⟨l, h.new (eq_false_of_ne_true hlive)⟩
      | _ => simp [TreiberStack.step, ht] at hstep
  | loadNext t =>
      have hg := h.granted t
      cases ht : s.phase t with
      | loading a i =>
          simp only [TreiberStack.step, ht] at hstep
          obtain rfl := Option.some.inj hstep
          rw [ht] at hg
          exact ⟨l, h.writeNext (by rw [ht]; rfl) hg s.head⟩
      | _ => simp [TreiberStack.step, ht] at hstep
  | pushCas t spurious =>
      have hg := h.granted t
      cases ht : s.phase t with
      | linking a i =>
          simp only [TreiberStack.step, ht] at hstep
          rw [ht] at hg
          split_ifs at hstep with hcas
          · obtain rfl := Option.some.inj hstep
            exact ⟨a :: l, h.link ht hcas.1⟩
          · obtain rfl := Option.some.inj hstep
            exact ⟨l, h.writeNext (by rw [ht]; rfl) hg s.head⟩
      | _ => simp [TreiberStack.step, ht] at hstep
  | loadHead t =>
      cases ht : s.phase t with
      | idle =>
          simp only [TreiberStack.step, ht] at hstep
          obtain rfl := Option.some.inj hstep
          exact ⟨l, h.move rfl h.granted_head⟩
      | _ => simp [TreiberStack.step, ht] at hstep
  | readNext t =>
      cases ht : s.phase t with
      | testing candidate =>
          cases candidate with
          | none =>
              simp only [TreiberStack.step, ht] at hstep
              obtain rfl := Option.some.inj hstep
              exact ⟨l, h.move rfl trivial⟩
          | some a =>
              simp only [TreiberStack.step, ht] at hstep
              obtain rfl := Option.some.inj hstep
              exact ⟨l, h.move rfl trivial⟩
      | _ => simp [TreiberStack.step, ht] at hstep
  | popCas t spurious =>
      cases ht : s.phase t with
      | unlinking a next =>
          simp only [TreiberStack.step, ht] at hstep
          split_ifs at hstep with hcas
          · obtain rfl := Option.some.inj hstep
            -- the `next` that was read is the one the candidate has now
            obtain rfl := hcareful a next ht hcas.1 hcas.2
            have hchain := h.shared.chain
            rw [hcas.1] at hchain
            obtain ⟨l', rfl, _⟩ := hchain.eq_cons
            exact ⟨l', h.unlink hcas.1⟩
          · obtain rfl := Option.some.inj hstep
            exact ⟨l, h.move rfl h.granted_head⟩
      | _ => simp [TreiberStack.step, ht] at hstep
  | readData t =>
      cases ht : s.phase t with
      | reading a =>
          simp only [TreiberStack.step, ht] at hstep
          obtain rfl := Option.some.inj hstep
          exact ⟨l, h.read ht⟩
      | _ => simp [TreiberStack.step, ht] at hstep
  | delete t =>
      cases ht : s.phase t with
      | deleting a tmp =>
          simp only [TreiberStack.step, ht] at hstep
          obtain rfl := Option.some.inj hstep
          exact ⟨l, h.delete ht (hcareful a tmp ht)⟩
      | _ => simp [TreiberStack.step, ht] at hstep

/-- **The stack is safe in every careful run**, for any number of threads, any order of their steps
and any choice of addresses by the allocator. -/
theorem safe_of_careful [Inhabited T] {acts : List (Action τ A T)}
    (hcareful : Along TreiberStack.step Careful State.init acts)
    (hrun : run TreiberStack.step State.init acts = some s) : Safe s := by
  have hinv : ∃ l, Inv s l := by
    refine run_inv (fun s => ∃ l, Inv s l) ?_ ⟨[], inv_init⟩ hcareful hrun
    rintro s act s' ⟨l, h⟩ hc hstep
    exact h.step hc hstep
  obtain ⟨l, h⟩ := hinv
  exact h.safe

/-- **Deleting a node that another pop is about to read is never safe.** -/
theorem not_safe_of_delete {u : τ} {tmp : T} (ht : s.phase t = .deleting a tmp)
    (hu : s.phase u = .testing (some a)) (hstep : TreiberStack.step s (.delete t) = some s') :
    ¬Safe s' := by
  intro hsafe
  simp only [TreiberStack.step, ht] at hstep
  obtain rfl := Option.some.inj hstep
  have hut : u ≠ t := by
    rintro rfl
    rw [hu] at ht
    cases ht
  have hlive := hsafe.1 u a (by simp [State.goto, update_of_ne hut, hu, Phase.touches])
  simp [State.goto] at hlive

end Invariant

/-- Two threads push a node each and pop: the push of the second thread and its pop lose their
first compare-exchange, and the first thread reads and deletes the node it has taken. -/
theorem safe_of_careful_two : ∃ s : State (Fin 2) ℕ ℕ,
    run step State.init [.new 0 7 0, .loadNext 0, .new 1 8 1, .loadNext 1, .pushCas 0 false,
      .pushCas 1 false, .pushCas 1 false, .loadHead 0, .readNext 0, .loadHead 1, .readNext 1,
      .popCas 0 false, .popCas 1 false, .readData 0, .delete 0] = some s ∧ s.returned = [8] ∧
      Safe s := by
  obtain ⟨s, hs, hreturned⟩ : ∃ s : State (Fin 2) ℕ ℕ, run step State.init [.new 0 7 0, .loadNext 0,
      .new 1 8 1, .loadNext 1, .pushCas 0 false, .pushCas 1 false, .pushCas 1 false, .loadHead 0,
      .readNext 0, .loadHead 1, .readNext 1, .popCas 0 false, .popCas 1 false, .readData 0,
      .delete 0] = some s ∧ s.returned = [8] := ⟨_, rfl, rfl⟩
  refine ⟨s, hs, hreturned, safe_of_careful ?_ hs⟩
  -- up to the two compare-exchanges of the pops nothing can go wrong
  iterate 11
    refine ⟨trivial, ?_⟩
    rintro _ ⟨⟩
  iterate 2
    refine ⟨by rintro candidate next ⟨⟩ _ _; rfl, ?_⟩
    rintro _ ⟨⟩
  refine ⟨trivial, ?_⟩
  rintro _ ⟨⟩
  refine ⟨?_, fun _ _ => trivial⟩
  -- the second thread is about to test the other node
  rintro candidate tmp ⟨⟩ u hu
  rcases (by decide : ∀ u : Fin 2, u = 0 ∨ u = 1) u with rfl | rfl
  · cases hu
  · cases hu

/-- **Use after free**: the second thread has loaded the head when the first one takes the node and
deletes it, and goes on to read its `next`. -/
theorem use_after_free : ¬∀ (acts : List (Action (Fin 2) ℕ ℕ)) (s : State (Fin 2) ℕ ℕ),
    run step State.init acts = some s → Safe s := by
  intro h
  have hsafe := h [.new 0 7 0, .loadNext 0, .pushCas 0 false, .loadHead 1, .loadHead 0, .readNext 0,
    .popCas 0 false, .readData 0, .delete 0] _ rfl
  exact absurd (hsafe.1 1 0 rfl) (by decide)

end TreiberStack
