/-
**Ordered maps over a comparison that may not be an order.**

An ordered map of the C++ library is a red-black tree.  It finds its keys by walking down with the
comparison `lt` it is given: `find` looks for the leftmost node that is not less than the key, and
`insert` hangs a red node below the last node it meets, unless its predecessor is not less than the
key, and then recolours and rotates the tree.  The library asks for a strict weak order.  Here `lt`
only has to tell different keys apart, so that one can say what becomes of a map whose comparison is
not transitive or not asymmetric.

Rotations keep the order of the nodes but not who is above whom, so a key may be found or missed
after the insertion of another one.  What decides is where its node is and what the comparison says
of the nodes on the way there.

Nothing here mentions a particular program.

Main definitions:

* `SearchTree.StrictWeakOn` — what the library asks for;
* `SearchTree.Tree`, `SearchTree.find`, `SearchTree.insert` — the map;
* `SearchTree.place` — the nodes on the way to a key, by where the key is;
* `SearchTree.Guided` — the comparison says the same.

Main results:

* `SearchTree.insert_perm` — a new key gets a node, whatever the comparison is;
* `SearchTree.find_of_guided`, `SearchTree.find_of_not_guided` — **a key is found exactly when the
  comparison guides to it**;
* `SearchTree.sorted_insert`, `SearchTree.guided_of_sorted` — under a strict weak order it always
  does.
-/

import Mathlib.Data.List.Nodup
import Mathlib.Data.Set.Defs
import Mathlib.Tactic.Common

set_option relaxedAutoImplicit false
set_option autoImplicit false

namespace SearchTree

variable {α β : Type*}

/-! ### The map -/

/-- The colour of a node. -/
inductive Color
  | red
  | black
  deriving DecidableEq

/-- A side of a node. -/
inductive Side
  | left
  | right
  deriving DecidableEq

/-- The nodes of a map. -/
inductive Tree (α β : Type*)
  | leaf
  | node (c : Color) (l : Tree α β) (k : α) (v : β) (r : Tree α β)

/-- A node that a way down has passed: the side to which the way goes on, and the node without the
subtree there. -/
structure Frame (α β : Type*) where
  side : Side
  color : Color
  key : α
  value : β
  other : Tree α β

/-- The comparison tells different keys apart. -/
structure Separates (lt : α → α → Bool) : Prop where
  irrefl : ∀ a, lt a a = false
  eq_of_not : ∀ a b, lt a b = false → lt b a = false → a = b

/-- What the library asks of the comparison of a map with keys in `S`: a strict weak order in which
only equal keys are equivalent. -/
structure StrictWeakOn (lt : α → α → Bool) (S : Set α) : Prop where
  irrefl : ∀ a ∈ S, lt a a = false
  asymm : ∀ a ∈ S, ∀ b ∈ S, lt a b = true → lt b a = false
  trans : ∀ a ∈ S, ∀ b ∈ S, ∀ c ∈ S, lt a b = true → lt b c = true → lt a c = true
  eq_of_not : ∀ a ∈ S, ∀ b ∈ S, lt a b = false → lt b a = false → a = b

/-- The comparison is a strict order of all keys. -/
structure Lawful (lt : α → α → Bool) : Prop extends Separates lt where
  asymm : ∀ a b, lt a b = true → lt b a = false
  trans : ∀ a b c, lt a b = true → lt b c = true → lt a c = true

theorem Lawful.strictWeakOn {lt : α → α → Bool} (h : Lawful lt) (S : Set α) : StrictWeakOn lt S :=
  ⟨fun a _ => h.irrefl a, fun a _ b _ => h.asymm a b, fun a _ b _ c _ => h.trans a b c,
    fun a _ b _ => h.eq_of_not a b⟩

theorem StrictWeakOn.mono {lt : α → α → Bool} {S S' : Set α} (h : StrictWeakOn lt S)
    (hsub : ∀ a ∈ S', a ∈ S) : StrictWeakOn lt S' where
  irrefl a ha := h.irrefl a (hsub a ha)
  asymm a ha b hb := h.asymm a (hsub a ha) b (hsub b hb)
  trans a ha b hb c hc := h.trans a (hsub a ha) b (hsub b hb) c (hsub c hc)
  eq_of_not a ha b hb := h.eq_of_not a (hsub a ha) b (hsub b hb)

/-- The pairs of a map, in order. -/
def entries : Tree α β → List (α × β)
  | .leaf => []
  | .node _ l k v r => entries l ++ (k, v) :: entries r

/-- The keys of a map, in order. -/
def keys (t : Tree α β) : List α := (entries t).map Prod.fst

/-- A subtree below a node. -/
def Frame.attach (f : Frame α β) (t : Tree α β) : Tree α β :=
  match f.side with
  | .left => .node f.color t f.key f.value f.other
  | .right => .node f.color f.other f.key f.value t

/-- A subtree at the end of a way, which is listed from there to the root. -/
def plug : Tree α β → List (Frame α β) → Tree α β
  | t, [] => t
  | t, f :: up => plug (f.attach t) up

/-- The rotations of a red node `x`, its red parent `p` and its grandparent `g`, one if `x` is on the
outer side of `p` and two if it is on the inner side.  The node that comes up is black and the other
two are red. -/
def rotate (x : Tree α β) (p g : Frame α β) : Tree α β :=
  match g.side, p.side, x with
  | .left, .left, x => .node .black x p.key p.value (.node .red p.other g.key g.value g.other)
  | .right, .right, x => .node .black (.node .red g.other g.key g.value p.other) p.key p.value x
  | .left, .right, .node _ a k v b =>
    .node .black (.node .red p.other p.key p.value a) k v (.node .red b g.key g.value g.other)
  | .right, .left, .node _ a k v b =>
    .node .black (.node .red g.other g.key g.value a) k v (.node .red b p.key p.value p.other)
  | _, _, .leaf => g.attach (p.attach .leaf)

/-- The tree with a red node `x` at the end of a way, after the parents that are red have been dealt
with: a red uncle is made black like the parent, and the grandparent is the next red node; otherwise
the rotations end the loop.  The root is black, so that a red parent has a parent. -/
def rebalance : Tree α β → List (Frame α β) → Tree α β
  | x, [] => x
  | x, [p] => p.attach x
  | x, p :: g :: up =>
    match p.color, g.other with
    | .black, _ => plug x (p :: g :: up)
    | .red, .node .red l k v r =>
      rebalance (Frame.attach { g with color := .red, other := .node .black l k v r }
        (Frame.attach { p with color := .black } x)) up
    | .red, _ => plug (rotate x p g) up

/-- The root is made black. -/
def blacken : Tree α β → Tree α β
  | .leaf => .leaf
  | .node _ l k v r => .node .black l k v r

variable (lt : α → α → Bool)

/-- `lower_bound`: the last node on the way down that is not less than `p`. -/
def lowerBound (p : α) : Tree α β → Option (α × β) → Option (α × β)
  | .leaf, best => best
  | .node _ l k v r, best =>
    if lt k p then lowerBound p r best else lowerBound p l (some (k, v))

/-- `find` -/
def find (t : Tree α β) (p : α) : Option β :=
  match lowerBound lt p t none with
  | some (k, v) => if lt p k then none else some v
  | none => none

/-- The way down to where a node for `p` would be, below the nodes passed before. -/
def way (p : α) : Tree α β → List (Frame α β) → List (Frame α β)
  | .leaf, up => up
  | .node c l k v r, up =>
    if lt p k then way p l (⟨.left, c, k, v, r⟩ :: up) else way p r (⟨.right, c, k, v, l⟩ :: up)

/-- `insert` of a pair, which does nothing when the node before its place is not less. -/
def insert (t : Tree α β) (p : α) (v : β) : Tree α β :=
  let up := way lt p t []
  let pred := up.find? fun f => f.side = .right
  if pred.all fun f => lt f.key p then blacken (rebalance (.node .red .leaf p v .leaf) up) else t

/-! ### What is found is there -/

variable {lt} {p : α} {v : β} {t : Tree α β}

theorem mem_keys (h : (p, v) ∈ entries t) : p ∈ keys t := List.mem_map.2 ⟨_, h, rfl⟩

theorem mem_keys_node {c : Color} {l r : Tree α β} {k a : α} :
    a ∈ keys (.node c l k v r) ↔ a ∈ keys l ∨ a = k ∨ a ∈ keys r := by
  simp only [keys, entries, List.map_append, List.map_cons, List.mem_append, List.mem_cons]

theorem lowerBound_mem (p : α) (t : Tree α β) (best : Option (α × β)) :
    lowerBound lt p t best = best ∨
      ∃ e ∈ entries t, lowerBound lt p t best = some e ∧ lt e.1 p = false := by
  induction t generalizing best with
  | leaf => exact .inl rfl
  | node c l k v r ihl ihr =>
      rw [lowerBound]
      split_ifs with hk
      · rcases ihr best with hbest | ⟨e, he, hfound⟩
        · exact .inl hbest
        · exact .inr ⟨e, List.mem_append_right _ (List.mem_cons_of_mem _ he), hfound⟩
      · rcases ihl (some (k, v)) with hbest | ⟨e, he, hfound⟩
        · refine .inr ⟨(k, v), ?_, hbest, Bool.not_eq_true _ ▸ hk⟩
          exact List.mem_append_right _ List.mem_cons_self
        · exact .inr ⟨e, List.mem_append_left _ he, hfound⟩

/-- Two ways for a key to be found. -/
theorem find_eq_some_iff :
    find lt t p = some v ↔ ∃ k, lowerBound lt p t none = some (k, v) ∧ lt p k = false := by
  rw [find]
  cases lowerBound lt p t none with
  | none => simp
  | some e =>
      rcases e with ⟨k, w⟩
      cases hk : lt p k with
      | false => simp [hk]
      | true =>
          simp only [hk, if_true]
          simp [hk]

/-- A key that is found is the one that was looked for. -/
theorem lowerBound_of_find (h : Separates lt) (hfind : find lt t p = some v) :
    lowerBound lt p t none = some (p, v) ∧ (p, v) ∈ entries t := by
  obtain ⟨k, hbound, hk⟩ := find_eq_some_iff.1 hfind
  rcases lowerBound_mem p t none with hnone | ⟨e, he, hsome, hlt⟩
  · exact absurd (hnone.symm.trans hbound) (by simp)
  · obtain rfl : e = (k, v) := Option.some.inj (hsome.symm.trans hbound)
    obtain rfl := h.eq_of_not p k hk hlt
    exact ⟨hbound, he⟩

/-- **What is found is there.** -/
theorem find_of_not_mem (h : Separates lt) (hnot : p ∉ keys t) : find lt t p = none := by
  rw [Option.eq_none_iff_forall_not_mem]
  intro w hw
  exact hnot (mem_keys (lowerBound_of_find h hw).2)

/-! ### Rotations keep the order of the nodes -/

theorem entries_attach_congr (f : Frame α β) {t t' : Tree α β} (h : entries t = entries t') :
    entries (f.attach t) = entries (f.attach t') := by
  unfold Frame.attach
  cases f.side <;> simp only [entries, h]

theorem entries_plug_congr (up : List (Frame α β)) {t t' : Tree α β}
    (h : entries t = entries t') : entries (plug t up) = entries (plug t' up) := by
  induction up generalizing t t' with
  | nil => exact h
  | cons f up ih => exact ih (entries_attach_congr f h)

theorem entries_rotate (x : Tree α β) (p g : Frame α β) :
    entries (rotate x p g) = entries (g.attach (p.attach x)) := by
  unfold rotate Frame.attach
  cases g.side <;> cases p.side <;> cases x <;> simp [entries]

/-- **The loop keeps the order of the nodes.** -/
theorem entries_rebalance (x : Tree α β) (up : List (Frame α β)) :
    entries (rebalance x up) = entries (plug x up) := by
  fun_induction rebalance x up with
  | case1 x => rfl
  | case2 x p => rfl
  | case3 x p g up => rfl
  | case4 x p g up l k v r hg hp ih =>
      rw [ih]
      refine entries_plug_congr up ?_
      unfold Frame.attach
      cases g.side <;> cases p.side <;> simp [entries, hg]
  | case5 x p g up hp hg => exact entries_plug_congr up (entries_rotate x p g)

theorem entries_blacken (t : Tree α β) : entries (blacken t) = entries t := by
  cases t <;> rfl

/-! ### A new key -/

variable (lt) in
/-- A node for a new key, without rotations. -/
def graft (p : α) (v : β) : Tree α β → Tree α β
  | .leaf => .node .red .leaf p v .leaf
  | .node c l k w r =>
    if lt p k then .node c (graft p v l) k w r else .node c l k w (graft p v r)

theorem plug_way (p : α) (v : β) (t : Tree α β) (up : List (Frame α β)) :
    plug (.node .red .leaf p v .leaf) (way lt p t up) = plug (graft lt p v t) up := by
  induction t generalizing up with
  | leaf => rfl
  | node c l k w r ihl ihr =>
      rw [way, graft]
      split_ifs
      · exact ihl _
      · exact ihr _

/-- The nodes from which the way goes on to the right. -/
theorem mem_way {f : Frame α β} {up : List (Frame α β)} (hf : f ∈ way lt p t up)
    (hright : f.side = .right) : f ∈ up ∨ f.key ∈ keys t ∧ lt p f.key = false := by
  induction t generalizing up with
  | leaf => exact .inl hf
  | node c l k w r ihl ihr =>
      rw [way] at hf
      split_ifs at hf with hlt
      · rcases ihl hf with hup | ⟨hin, hle⟩
        · rcases List.mem_cons.1 hup with rfl | hup
          · cases hright
          · exact .inl hup
        · exact .inr ⟨mem_keys_node.2 (.inl hin), hle⟩
      · rcases ihr hf with hup | ⟨hin, hle⟩
        · rcases List.mem_cons.1 hup with rfl | hup
          · exact .inr ⟨mem_keys_node.2 (.inr (.inl rfl)), Bool.not_eq_true _ ▸ hlt⟩
          · exact .inl hup
        · exact .inr ⟨mem_keys_node.2 (.inr (.inr hin)), hle⟩

/-- **A new key gets a node**, where the way down ends. -/
theorem entries_insert (h : Separates lt) (hnew : p ∉ keys t) (v : β) :
    entries (insert lt t p v) = entries (graft lt p v t) := by
  have hpred : ((way lt p t []).find? fun f => f.side = .right).all (fun f => lt f.key p) := by
    rw [Option.all_eq_true]
    intro f hf
    rcases mem_way (List.mem_of_find?_eq_some hf) (by simpa using List.find?_some hf) with
      hin | ⟨hin, hle⟩
    · exact absurd hin List.not_mem_nil
    · by_contra hnot
      exact hnew (h.eq_of_not p f.key hle (Bool.not_eq_true _ ▸ hnot) ▸ hin)
  simp only [insert]
  rw [if_pos hpred, entries_blacken, entries_rebalance, plug_way]
  rfl

theorem graft_perm (p : α) (v : β) (t : Tree α β) :
    (entries (graft lt p v t)).Perm ((p, v) :: entries t) := by
  induction t with
  | leaf => exact List.Perm.refl _
  | node c l k w r ihl ihr =>
      rw [graft]
      split_ifs
      · exact ihl.append_right _
      · refine (((ihr.cons (k, w)).trans (.swap ..)).append_left (entries l)).trans ?_
        exact List.perm_middle

/-- **The pairs after an insertion.** -/
theorem insert_perm (h : Separates lt) (hnew : p ∉ keys t) (v : β) :
    (entries (insert lt t p v)).Perm ((p, v) :: entries t) :=
  entries_insert h hnew v ▸ graft_perm p v t

/-! ### The keys that are found -/

/-- The nodes down the right edge, all of which the place behind the last key is to the right of. -/
def spine : Tree α β → List (α × Side)
  | .leaf => []
  | .node _ _ k _ r => (k, .right) :: spine r

/-- The nodes on the way to the place before `p`, and the sides that the place is on. -/
def place [DecidableEq α] (p : α) : Tree α β → List (α × Side)
  | .leaf => []
  | .node _ l k _ r =>
    if k = p then (k, .left) :: spine l
    else if p ∈ keys l then (k, .left) :: place p l
    else (k, .right) :: place p r

variable (lt) in
/-- The comparison guides along a way to `p`: the nodes that are less are those which the place of
`p` is to the right of. -/
def Guides (nodes : List (α × Side)) (p : α) : Prop :=
  ∀ s ∈ nodes, (lt s.1 p = true ↔ s.2 = .right)

theorem guides_cons {k : α} {side : Side} {nodes : List (α × Side)} :
    Guides lt ((k, side) :: nodes) p ↔ (lt k p = true ↔ side = .right) ∧ Guides lt nodes p :=
  List.forall_mem_cons

variable (lt) in
/-- **The comparison guides to `p`.** -/
def Guided [DecidableEq α] (t : Tree α β) (p : α) : Prop := Guides lt (place p t) p

/-- The way down where `p` is not: it stays at the node before, if all nodes at the edge are less. -/
theorem lowerBound_of_spine (best : Option (α × β)) (h : Guides lt (spine t) p) :
    lowerBound lt p t best = best := by
  induction t with
  | leaf => rfl
  | node c l k v r ihl ihr =>
      obtain ⟨hk, hr⟩ := guides_cons.1 h
      rw [lowerBound, if_pos (hk.2 rfl)]
      exact ihr hr

theorem exists_lowerBound_of_spine (best : Option (α × β)) (h : ¬Guides lt (spine t) p) :
    ∃ e ∈ entries t, lowerBound lt p t best = some e := by
  induction t generalizing best with
  | leaf => exact absurd (fun _ hs => absurd hs List.not_mem_nil) h
  | node c l k v r ihl ihr =>
      rw [spine, guides_cons] at h
      rw [lowerBound]
      split_ifs with hlt
      · obtain ⟨e, he, hbound⟩ := ihr best fun hr => h ⟨iff_of_true hlt rfl, hr⟩
        exact ⟨e, by simp [entries, he], hbound⟩
      · rcases lowerBound_mem p l (some (k, v)) with hbound | ⟨e, he, hbound, -⟩
        · exact ⟨(k, v), by simp [entries], hbound⟩
        · exact ⟨e, by simp [entries, he], hbound⟩

/-- A key that is not there is not found. -/
theorem lowerBound_ne (hnot : p ∉ keys t) {best : Option (α × β)}
    (hbest : ∀ e ∈ best, e.1 ≠ p) : ∀ e ∈ lowerBound lt p t best, e.1 ≠ p := by
  intro e he
  rcases lowerBound_mem p t best with hsame | ⟨e', he', hsome, -⟩
  · exact hbest e (hsame ▸ he)
  · rw [hsome, Option.mem_some_iff] at he
    subst he
    exact fun heq => hnot (List.mem_map.2 ⟨e', he', heq⟩)

theorem nodup_node {c : Color} {l r : Tree α β} {k : α} (h : (keys (.node c l k v r)).Nodup) :
    (keys l).Nodup ∧ (keys r).Nodup ∧ k ∉ keys l ∧ k ∉ keys r ∧ ∀ a ∈ keys l, a ∉ keys r := by
  rw [keys, entries, List.map_append, List.map_cons, List.nodup_append', List.nodup_cons] at h
  obtain ⟨hl, ⟨hkr, hr⟩, hdisj⟩ := h
  exact ⟨hl, hr, fun hkl => hdisj hkl List.mem_cons_self, hkr,
    fun a ha har => hdisj ha (List.mem_cons_of_mem _ har)⟩

/-- Where a pair of a map with different keys is. -/
theorem mem_entries_node {c : Color} {l r : Tree α β} {k : α} {w : β}
    (hnodup : (keys (.node c l k w r)).Nodup) (hmem : (p, v) ∈ entries (.node c l k w r)) :
    p = k ∧ v = w ∨ k ≠ p ∧ p ∉ keys r ∧ (p, v) ∈ entries l ∨
      k ≠ p ∧ p ∉ keys l ∧ (p, v) ∈ entries r := by
  obtain ⟨-, -, hkl, hkr, hlr⟩ := nodup_node hnodup
  rcases List.mem_append.1 hmem with hl | hmem
  · exact .inr (.inl ⟨fun heq => hkl (heq ▸ mem_keys hl), hlr p (mem_keys hl), hl⟩)
  · rcases List.mem_cons.1 hmem with heq | hr
    · exact .inl (Prod.mk.inj heq)
    · exact .inr (.inr ⟨fun heq => hkr (heq ▸ mem_keys hr), fun hl => hlr p hl (mem_keys hr), hr⟩)

section Found

variable [DecidableEq α] (h : Separates lt)

include h

/-- The walk down for the key of the root goes to its left and then along the edge. -/
theorem lowerBound_root {c : Color} {l r : Tree α β} {k : α} (hk : k ∉ keys l)
    (best : Option (α × β)) :
    (Guided lt (.node c l k v r) k → lowerBound lt k (.node c l k v r) best = some (k, v)) ∧
      (¬Guided lt (.node c l k v r) k →
        ∀ e ∈ lowerBound lt k (.node c l k v r) best, e.1 ≠ k) := by
  have hroot : lt k k = true ↔ Side.left = .right := by simp [h.irrefl]
  rw [lowerBound, h.irrefl, if_neg Bool.false_ne_true, Guided, place, if_pos rfl, guides_cons,
    and_iff_right hroot]
  constructor
  · exact fun hspine => lowerBound_of_spine _ hspine
  · intro hspine e he
    obtain ⟨e', he', hbound⟩ := exists_lowerBound_of_spine (some (k, v)) hspine
    rw [hbound, Option.mem_some_iff] at he
    subst he
    exact fun heq => hk (List.mem_map.2 ⟨e', he', heq⟩)

/-- **The walk down for a key of the map** ends at the key or misses it. -/
theorem lowerBound_of_mem (hnodup : (keys t).Nodup) (hmem : (p, v) ∈ entries t)
    (best : Option (α × β)) (hbest : ∀ e ∈ best, e.1 ≠ p) :
    (Guided lt t p → lowerBound lt p t best = some (p, v)) ∧
      (¬Guided lt t p → ∀ e ∈ lowerBound lt p t best, e.1 ≠ p) := by
  induction t generalizing best with
  | leaf => cases hmem
  | node c l k w r ihl ihr =>
      obtain ⟨hl, hr, hkl, -, -⟩ := nodup_node hnodup
      rcases mem_entries_node hnodup hmem with ⟨rfl, rfl⟩ | ⟨hp, hpr, hin⟩ | ⟨hp, hpl, hin⟩
      · exact lowerBound_root h hkl best
      · -- the key is on the left: the walk must not go to the right
        have hnext : ∀ e ∈ some (k, w), e.1 ≠ p := fun e he => Option.mem_some_iff.1 he ▸ hp
        obtain ⟨hyes, hno⟩ := ihl hl hin (some (k, w)) hnext
        rw [lowerBound, Guided, place, if_neg hp, if_pos (mem_keys hin), guides_cons]
        cases hlt : lt k p with
        | false =>
            have hside : false = true ↔ Side.left = .right := by decide
            rw [if_neg Bool.false_ne_true, and_iff_right hside]
            exact ⟨hyes, hno⟩
        | true =>
            rw [if_pos rfl]
            exact ⟨fun hguided => by simp at hguided, fun _ => lowerBound_ne hpr hbest⟩
      · -- the key is on the right: the walk must go there
        have hnext : ∀ e ∈ some (k, w), e.1 ≠ p := fun e he => Option.mem_some_iff.1 he ▸ hp
        obtain ⟨hyes, hno⟩ := ihr hr hin best hbest
        rw [lowerBound, Guided, place, if_neg hp, if_neg hpl, guides_cons]
        cases hlt : lt k p with
        | false =>
            rw [if_neg Bool.false_ne_true]
            exact ⟨fun hguided => by simp at hguided, fun _ => lowerBound_ne hpl hnext⟩
        | true =>
            have hside : true = true ↔ Side.right = .right := by decide
            rw [if_pos rfl, and_iff_right hside]
            exact ⟨hyes, hno⟩

/-- **A key to which the comparison guides is found**, with its own value. -/
theorem find_of_guided (hnodup : (keys t).Nodup) (hmem : (p, v) ∈ entries t)
    (hguided : Guided lt t p) : find lt t p = some v :=
  find_eq_some_iff.2 ⟨p, (lowerBound_of_mem h hnodup hmem none (by simp)).1 hguided, h.irrefl p⟩

/-- **Another one is not found.** -/
theorem find_of_not_guided (hnodup : (keys t).Nodup) (hmem : (p, v) ∈ entries t)
    (hnot : ¬Guided lt t p) : find lt t p = none := by
  rw [Option.eq_none_iff_forall_not_mem]
  intro w hw
  have hne := (lowerBound_of_mem h hnodup hmem none (by simp)).2 hnot (p, w)
  exact hne (lowerBound_of_find h hw).1 rfl

end Found

/-! ### Maps in order -/

variable (lt) in
/-- The keys are in order. -/
def Sorted (t : Tree α β) : Prop := (keys t).Pairwise fun a b => lt a b = true

theorem sorted_node {c : Color} {l r : Tree α β} {k : α} :
    Sorted lt (.node c l k v r) ↔ Sorted lt l ∧ Sorted lt r ∧ (∀ a ∈ keys l, lt a k = true) ∧
      (∀ b ∈ keys r, lt k b = true) ∧ ∀ a ∈ keys l, ∀ b ∈ keys r, lt a b = true := by
  simp only [Sorted, keys, entries, List.map_append, List.map_cons, List.pairwise_append,
    List.pairwise_cons, List.mem_cons, forall_eq_or_imp]
  constructor
  · rintro ⟨hl, ⟨hkr, hr⟩, hlr⟩
    exact ⟨hl, hr, fun a ha => (hlr a ha).1, hkr, fun a ha => (hlr a ha).2⟩
  · rintro ⟨hl, hr, hlk, hkr, hlr⟩
    exact ⟨hl, ⟨hkr, hr⟩, fun a ha => ⟨hlk a ha, hlr a ha⟩⟩

theorem mem_keys_graft {a : α} : a ∈ keys (graft lt p v t) ↔ a = p ∨ a ∈ keys t := by
  rw [keys, ((graft_perm p v t).map Prod.fst).mem_iff, List.map_cons, List.mem_cons]
  rfl

/-- **A new key comes to its place** in a map that is in order. -/
theorem sorted_graft {S : Set α} (h : StrictWeakOn lt S) (hkeys : ∀ a ∈ keys t, a ∈ S) (hp : p ∈ S)
    (hnew : p ∉ keys t) (hsorted : Sorted lt t) : Sorted lt (graft lt p v t) := by
  induction t with
  | leaf => simp [graft, Sorted, keys, entries]
  | node c l k w r ihl ihr =>
      obtain ⟨hl, hr, hlk, hkr, hlr⟩ := sorted_node.1 hsorted
      simp only [mem_keys_node, not_or] at hkeys hnew
      have hkl : ∀ a ∈ keys l, a ∈ S := fun a ha => hkeys a (.inl ha)
      have hk : k ∈ S := hkeys k (.inr (.inl rfl))
      have hkr' : ∀ a ∈ keys r, a ∈ S := fun a ha => hkeys a (.inr (.inr ha))
      rw [graft]
      split_ifs with hlt
      · refine sorted_node.2 ⟨ihl hkl hnew.1 hl, hr, fun a ha => ?_, hkr, fun a ha b hb => ?_⟩
        · rcases mem_keys_graft.1 ha with rfl | ha
          · exact hlt
          · exact hlk a ha
        · rcases mem_keys_graft.1 ha with rfl | ha
          · exact h.trans a hp k hk b (hkr' b hb) hlt (hkr b hb)
          · exact hlr a ha b hb
      · have hgt : lt k p = true := by
          by_contra hnot
          exact hnew.2.1 (h.eq_of_not p hp k hk (Bool.not_eq_true _ ▸ hlt) (Bool.not_eq_true _ ▸ hnot))
        refine sorted_node.2 ⟨hl, ihr hkr' hnew.2.2 hr, hlk, fun b hb => ?_, fun a ha b hb => ?_⟩
        · rcases mem_keys_graft.1 hb with rfl | hb
          · exact hgt
          · exact hkr b hb
        · rcases mem_keys_graft.1 hb with rfl | hb
          · exact h.trans a (hkl a ha) k hk b hp (hlk a ha) hgt
          · exact hlr a ha b hb

/-- **An insertion keeps a map in order.** -/
theorem sorted_insert (hlt : Separates lt) {S : Set α} (h : StrictWeakOn lt S)
    (hkeys : ∀ a ∈ keys t, a ∈ S) (hp : p ∈ S) (hnew : p ∉ keys t) (hsorted : Sorted lt t) :
    Sorted lt (insert lt t p v) := by
  rw [Sorted, keys, entries_insert hlt hnew]
  exact sorted_graft h hkeys hp hnew hsorted

theorem guides_spine (h : ∀ a ∈ keys t, lt a p = true) : Guides lt (spine t) p := by
  induction t with
  | leaf => exact fun _ hs => absurd hs List.not_mem_nil
  | node c l k v r ihl ihr =>
      refine guides_cons.2 ⟨iff_of_true (h k (mem_keys_node.2 (.inr (.inl rfl)))) rfl, ?_⟩
      exact ihr fun a ha => h a (mem_keys_node.2 (.inr (.inr ha)))

/-- **In a map in order the comparison guides to every key.** -/
theorem guided_of_sorted [DecidableEq α] {S : Set α} (h : StrictWeakOn lt S)
    (hkeys : ∀ a ∈ keys t, a ∈ S) (hsorted : Sorted lt t) (hp : p ∈ keys t) : Guided lt t p := by
  induction t with
  | leaf => cases hp
  | node c l k v r ihl ihr =>
      obtain ⟨hl, hr, hlk, hkr, -⟩ := sorted_node.1 hsorted
      simp only [mem_keys_node] at hkeys hp
      have hk : k ∈ S := hkeys k (.inr (.inl rfl))
      rw [Guided, place]
      split_ifs with heq hin
      · subst heq
        refine guides_cons.2 ⟨by simp [h.irrefl k hk], guides_spine hlk⟩
      · refine guides_cons.2 ⟨by simp [h.asymm p (hkeys p (.inl hin)) k hk (hlk p hin)], ?_⟩
        exact ihl (fun a ha => hkeys a (.inl ha)) hl hin
      · have hright : p ∈ keys r := (hp.resolve_left hin).resolve_left fun hpk => heq hpk.symm
        refine guides_cons.2 ⟨iff_of_true (hkr p hright) rfl, ?_⟩
        exact ihr (fun a ha => hkeys a (.inr (.inr ha))) hr hright

end SearchTree
