/-
**The vertex table of the triangle meshes.**

`TriMesh` of `tiny_trimesh.h` and `MyTriMeshRefiner` of `synthetic_seam_collinear_test.cpp` keep
their vertices in the same way: a vector of points, a `std::map` from the points to their indices,
and a counter.  `addVertex` looks a point up in the map and appends it when it is not found.  The
two differ in the type of the points and its comparison, which are the parameters here.

Main definitions:

* `VertexTable`, `VertexTable.addVertex` — the table;
* `VertexTable.Built` — the map knows the vertices;
* `VertexTable.Deduplicated` — what the table is for.

Main results:

* `VertexTable.addVertex_of_not_mem`, `VertexTable.addVertex_of_mem`,
  `VertexTable.addVertex_of_not_guided` — what `addVertex` does with a new point, with a known
  point, and with a known point that the map does not find;
* `VertexTable.addVertex_of_lawful` — the same under a lawful comparison;
* `VertexTable.deduplicated_iff` — **the calls after which the vertices are deduplicated** are those
  in which the comparison guides to every known point;
* `VertexTable.deduplicated_of_strictWeakOn` — points among which the comparison is an order.
-/

import CppSamples.SearchTree
import Mathlib.Data.Finset.Card
import Mathlib.Data.List.Induction

set_option relaxedAutoImplicit false
set_option autoImplicit false

open SearchTree

/-- The members of a mesh that `addVertex` reads and writes. -/
structure VertexTable (α : Type*) where
  vertices_ : List α
  vertexIndicesMap_ : Tree α ℕ
  vertexCounter_ : ℕ

namespace VertexTable

variable {α : Type*}

/-- The table of a fresh mesh. -/
def new : VertexTable α := ⟨[], .leaf, 0⟩

/-- `n_Vertices` -/
def n_Vertices (m : VertexTable α) : ℕ := m.vertices_.length

/-- `getVertex`, which throws when there is no such vertex -/
def getVertex (m : VertexTable α) (idx : ℕ) : Option α := m.vertices_[idx]?

variable (lt : α → α → Bool)

/-- `addVertex` -/
def addVertex (m : VertexTable α) (p : α) : ℕ × VertexTable α :=
  match find lt m.vertexIndicesMap_ p with
  | none =>
    let vertexIndicesMap_ := insert lt m.vertexIndicesMap_ p m.vertexCounter_
    let vertexCounter_ := m.vertexCounter_ + 1
    (vertexCounter_ - 1, { vertices_ := m.vertices_ ++ [p], vertexIndicesMap_, vertexCounter_ })
  | some idx => (idx, m)

/-- `addVertices`, with the indices that the calls of `addVertex` return. -/
def addVertices (m : VertexTable α) : List α → List ℕ × VertexTable α
  | [] => ([], m)
  | p :: ps =>
    let (idx, m) := addVertex lt m p
    let (idxs, m) := addVertices m ps
    (idx :: idxs, m)

/-! ### A call -/

variable {lt} {m m' : VertexTable α} {p : α} {ps : List α}

/-- The map has the vertices with their indices, and is in order where the comparison is one. -/
structure Built (lt : α → α → Bool) (m : VertexTable α) : Prop where
  nodup : m.vertices_.Nodup
  counter : m.vertexCounter_ = m.vertices_.length
  map : (entries m.vertexIndicesMap_).Perm m.vertices_.zipIdx
  sorted : StrictWeakOn lt {p | p ∈ m.vertices_} → Sorted lt m.vertexIndicesMap_

theorem Built.new : Built lt (new : VertexTable α) :=
  ⟨List.nodup_nil, rfl, List.Perm.refl _, fun _ => List.Pairwise.nil⟩

theorem Built.keys_perm (h : Built lt m) : (keys m.vertexIndicesMap_).Perm m.vertices_ := by
  have hperm := h.map.map Prod.fst
  rwa [List.zipIdx_map_fst] at hperm

theorem Built.nodup_keys (h : Built lt m) : (keys m.vertexIndicesMap_).Nodup :=
  h.keys_perm.nodup_iff.2 h.nodup

/-- A known point has its index in the map. -/
theorem Built.mem_entries [DecidableEq α] (h : Built lt m) (hp : p ∈ m.vertices_) :
    (p, m.vertices_.idxOf p) ∈ entries m.vertexIndicesMap_ := by
  rw [h.map.mem_iff, List.mk_mem_zipIdx_iff_getElem?]
  exact List.getElem?_idxOf hp

/-- Among points that the comparison orders it guides to every one of them. -/
theorem Built.guided [DecidableEq α] (h : Built lt m)
    (hlt : StrictWeakOn lt {p | p ∈ m.vertices_}) (hp : p ∈ m.vertices_) :
    Guided lt m.vertexIndicesMap_ p :=
  guided_of_sorted hlt (fun _ ha => h.keys_perm.mem_iff.1 ha) (h.sorted hlt)
    (h.keys_perm.mem_iff.2 hp)

/-- **A point that is not found is appended**, whether it is there or not. -/
theorem addVertex_of_find (h : find lt m.vertexIndicesMap_ p = none) :
    addVertex lt m p = (m.vertexCounter_,
      ⟨m.vertices_ ++ [p], insert lt m.vertexIndicesMap_ p m.vertexCounter_, m.vertexCounter_ + 1⟩) := by
  rw [addVertex, h]
  rfl

variable (hlt : Separates lt)

include hlt

/-- **A new point is appended to a table that stays in order.** -/
theorem addVertex_of_not_mem (h : Built lt m) (hp : p ∉ m.vertices_) :
    ∃ m', addVertex lt m p = (m.vertices_.length, m') ∧ m'.vertices_ = m.vertices_ ++ [p] ∧
      Built lt m' := by
  have hnew : p ∉ keys m.vertexIndicesMap_ := fun hin => hp (h.keys_perm.mem_iff.1 hin)
  have hmem : ∀ q, q ∈ m.vertices_ ++ [p] ↔ q ∈ m.vertices_ ∨ q = p := by simp
  refine ⟨_, (addVertex_of_find (find_of_not_mem hlt hnew)).trans (by rw [h.counter]), rfl,
    ?_, ?_, ?_, ?_⟩
  · rw [← List.concat_eq_append]
    exact h.nodup.concat hp
  · rw [List.length_append, List.length_singleton]
  · rw [List.zipIdx_append, Nat.zero_add]
    exact (insert_perm hlt hnew _).trans ((h.map.cons _).trans (List.perm_append_singleton _ _).symm)
  · intro horder
    refine sorted_insert hlt horder (fun a ha => ?_) ((hmem p).2 (.inr rfl)) hnew (h.sorted ?_)
    · exact (hmem a).2 (.inl (h.keys_perm.mem_iff.1 ha))
    · exact horder.mono fun a ha => (hmem a).2 (.inl ha)

variable [DecidableEq α]

/-- **A known point to which the comparison guides keeps its index.** -/
theorem addVertex_of_mem (h : Built lt m) (hp : p ∈ m.vertices_)
    (hguided : Guided lt m.vertexIndicesMap_ p) :
    addVertex lt m p = (m.vertices_.idxOf p, m) := by
  rw [addVertex, find_of_guided hlt h.nodup_keys (h.mem_entries hp) hguided]

/-- **Another known point gets another index.** -/
theorem addVertex_of_not_guided (h : Built lt m) (hp : p ∈ m.vertices_)
    (hnot : ¬Guided lt m.vertexIndicesMap_ p) : (addVertex lt m p).1 = m.vertices_.length := by
  rw [addVertex_of_find (find_of_not_guided hlt h.nodup_keys (h.mem_entries hp) hnot), h.counter]

omit hlt

/-- **Under a lawful comparison** a call returns the index that its point has from then on. -/
theorem addVertex_of_lawful (hlt : Lawful lt) (h : Built lt m) (p : α) :
    ∃ m', addVertex lt m p = (m'.vertices_.idxOf p, m') ∧ Built lt m' ∧
      m.vertices_ <+: m'.vertices_ ∧ p ∈ m'.vertices_ := by
  by_cases hp : p ∈ m.vertices_
  · have hcall := addVertex_of_mem hlt.toSeparates h hp (h.guided (hlt.strictWeakOn _) hp)
    exact ⟨m, hcall, h, List.prefix_rfl, hp⟩
  · obtain ⟨m', hcall, hvertices, hbuilt⟩ := addVertex_of_not_mem hlt.toSeparates h hp
    refine ⟨m', ?_, hbuilt, ?_, ?_⟩
    · rw [hcall, hvertices, List.idxOf_append_of_notMem hp]
      simp
    · rw [hvertices]
      exact List.prefix_append _ _
    · rw [hvertices]
      exact List.mem_append_right _ (List.mem_singleton_self p)

/-! ### A sequence of calls -/

omit [DecidableEq α] in
theorem addVertices_concat (m : VertexTable α) (ps : List α) (p : α) :
    addVertices lt m (ps ++ [p]) =
      ((addVertices lt m ps).1 ++ [(addVertex lt (addVertices lt m ps).2 p).1],
        (addVertex lt (addVertices lt m ps).2 p).2) := by
  induction ps generalizing m with
  | nil => rfl
  | cons q ps ih =>
      have hrest := ih (addVertex lt m q).2
      simp only [List.cons_append, addVertices, hrest]

/-- Under a lawful comparison the calls return the indices that their points have from then on. -/
theorem addVertices_of_lawful (hlt : Lawful lt) (h : Built lt m) (ps : List α) :
    ∃ m', addVertices lt m ps = (ps.map fun p => m'.vertices_.idxOf p, m') ∧ Built lt m' ∧
      m.vertices_ <+: m'.vertices_ ∧ ∀ p ∈ ps, p ∈ m'.vertices_ := by
  induction ps generalizing m with
  | nil => exact ⟨m, rfl, h, List.prefix_rfl, fun _ hp => absurd hp List.not_mem_nil⟩
  | cons p ps ih =>
      obtain ⟨m₁, hcall, hbuilt₁, hgrow₁, hmem₁⟩ := addVertex_of_lawful hlt h p
      obtain ⟨m₂, hcalls, hbuilt₂, hgrow₂, hmem₂⟩ := ih hbuilt₁
      obtain ⟨rest, hrest⟩ := hgrow₂
      refine ⟨m₂, ?_, hbuilt₂, hgrow₁.trans ⟨rest, hrest⟩, fun q hq => ?_⟩
      · simp only [addVertices, hcall, hcalls, List.map_cons]
        rw [← hrest, List.idxOf_append_of_mem hmem₁]
      · rcases List.mem_cons.1 hq with rfl | hq
        · exact hrest ▸ List.mem_append_left _ hmem₁
        · exact hmem₂ q hq

/-- The points in the order of their first occurrences. -/
def firsts (ps : List α) : List α :=
  ps.foldl (fun seen p => if p ∈ seen then seen else seen ++ [p]) []

theorem firsts_concat (ps : List α) (p : α) :
    firsts (ps ++ [p]) = if p ∈ firsts ps then firsts ps else firsts ps ++ [p] := by
  rw [firsts, List.foldl_append]
  rfl

theorem mem_firsts : p ∈ firsts ps ↔ p ∈ ps := by
  induction ps using List.reverseRecOn with
  | nil => exact Iff.rfl
  | append_singleton ps q ih =>
      rw [firsts_concat, List.mem_append, List.mem_singleton, ← ih]
      split_ifs with hq
      · refine ⟨.inl, fun h => h.elim id ?_⟩
        rintro rfl
        exact hq
      · rw [List.mem_append, List.mem_singleton]

theorem nodup_firsts (ps : List α) : (firsts ps).Nodup := by
  induction ps using List.reverseRecOn with
  | nil => exact List.nodup_nil
  | append_singleton ps q ih =>
      rw [firsts_concat]
      split_ifs with hq
      · exact ih
      · rw [← List.concat_eq_append]
        exact ih.concat hq

theorem length_firsts (ps : List α) : (firsts ps).length = ps.toFinset.card := by
  rw [← List.toFinset_card_of_nodup (nodup_firsts ps)]
  refine congrArg Finset.card (Finset.ext fun p => ?_)
  rw [List.mem_toFinset, List.mem_toFinset, mem_firsts]

variable (lt) in
/-- **What the table is for.**  After some calls, two of them have returned the same index exactly
when their points are equal, each index has the point of its call, and there are as many vertices as
different points. -/
structure Deduplicated (ps : List α) : Prop where
  index : ∀ i j, i < ps.length → j < ps.length →
    ((addVertices lt new ps).1[i]? = (addVertices lt new ps).1[j]? ↔ ps[i]? = ps[j]?)
  vertex : ∀ i : ℕ, (addVertices lt new ps).1[i]?.bind (getVertex (addVertices lt new ps).2) = ps[i]?
  count : (addVertices lt new ps).2.n_Vertices = ps.toFinset.card

variable (lt) in
/-- Whenever a known point is added, the comparison guides to it in the map that there is. -/
def GuidedCalls (ps : List α) : Prop :=
  ∀ qs p, qs ++ [p] <+: ps → p ∈ qs → Guided lt (addVertices lt new qs).2.vertexIndicesMap_ p

theorem guidedCalls_concat :
    GuidedCalls lt (ps ++ [p]) ↔ GuidedCalls lt ps ∧
      (p ∈ ps → Guided lt (addVertices lt new ps).2.vertexIndicesMap_ p) := by
  constructor
  · exact fun h => ⟨fun qs q hqs => h qs q (hqs.trans (List.prefix_append ps [p])),
      h ps p List.prefix_rfl⟩
  · rintro ⟨h, hp⟩ qs q hqs
    rcases List.prefix_concat_iff.1 hqs with heq | hqs
    · obtain ⟨rfl, rfl⟩ := List.append_singleton_inj.1 heq
      exact hp
    · exact h qs q hqs

/-- **While the comparison guides to the known points**, the table has the distinct points in order,
and every call has returned the index of its point. -/
theorem addVertices_of_guidedCalls (hlt : Separates lt) (h : GuidedCalls lt ps) :
    ∃ m, addVertices lt new ps = (ps.map fun p => (firsts ps).idxOf p, m) ∧
      m.vertices_ = firsts ps ∧ Built lt m := by
  induction ps using List.reverseRecOn with
  | nil => exact ⟨new, rfl, rfl, Built.new⟩
  | append_singleton ps p ih =>
      obtain ⟨hps, hp⟩ := guidedCalls_concat.1 h
      obtain ⟨m, hcalls, hvertices, hbuilt⟩ := ih hps
      rw [hcalls] at hp
      rw [addVertices_concat, hcalls, firsts_concat, List.map_append, List.map_singleton]
      by_cases hmem : p ∈ firsts ps
      · have hcall := addVertex_of_mem hlt hbuilt (hvertices ▸ hmem) (hp (mem_firsts.1 hmem))
        exact ⟨m, by rw [if_pos hmem, hcall, hvertices], by rw [if_pos hmem, hvertices], hbuilt⟩
      · obtain ⟨m', hcall, hvertices', hbuilt'⟩ := addVertex_of_not_mem hlt hbuilt (hvertices ▸ hmem)
        refine ⟨m', ?_, by rw [if_neg hmem, hvertices', hvertices], hbuilt'⟩
        rw [if_neg hmem, hcall, hvertices, List.idxOf_append_of_notMem hmem]
        have hold : ∀ q ∈ ps, (firsts ps).idxOf q = (firsts ps ++ [p]).idxOf q := fun q hq =>
          (List.idxOf_append_of_mem (mem_firsts.2 hq)).symm
        rw [List.map_congr_left hold]
        simp

theorem deduplicated_of_guidedCalls (hlt : Separates lt) (h : GuidedCalls lt ps) :
    Deduplicated lt ps := by
  obtain ⟨m, hcalls, hvertices, -⟩ := addVertices_of_guidedCalls hlt h
  refine ⟨fun i j hi hj => ?_, fun i => ?_, ?_⟩
  · rw [hcalls, List.getElem?_map, List.getElem?_map, List.getElem?_eq_getElem hi,
      List.getElem?_eq_getElem hj, Option.map_some, Option.map_some, Option.some_inj,
      Option.some_inj]
    exact List.idxOf_inj (mem_firsts.2 (List.getElem_mem hi))
  · rw [hcalls, List.getElem?_map, Option.bind_map]
    cases hi : ps[i]? with
    | none => rfl
    | some p =>
        have hp : p ∈ firsts ps := mem_firsts.2 (List.mem_of_getElem? hi)
        exact (congrArg (fun l => l[_]?) hvertices).trans (List.getElem?_idxOf hp)
  · rw [hcalls, n_Vertices, hvertices, length_firsts]

/-- A known point that the comparison does not guide to has two indices. -/
theorem not_deduplicated_concat (hlt : Separates lt) (h : GuidedCalls lt ps) (hp : p ∈ ps)
    (hnot : ¬Guided lt (addVertices lt new ps).2.vertexIndicesMap_ p) :
    ¬Deduplicated lt (ps ++ [p]) := by
  intro hdedup
  obtain ⟨m, hcalls, hvertices, hbuilt⟩ := addVertices_of_guidedCalls hlt h
  obtain ⟨i, hi, hpi⟩ := List.getElem_of_mem hp
  have hlast : (ps ++ [p]).length = ps.length + 1 := List.length_append
  have hindex := hdedup.index i ps.length (hlast ▸ Nat.lt_succ_of_lt hi) (hlast ▸ Nat.lt_succ_self _)
  rw [hcalls] at hnot
  rw [addVertices_concat, hcalls, List.getElem?_append_left (by simpa using hi),
    List.getElem?_append_right (by simp), List.getElem?_append_left hi,
    List.getElem?_append_right le_rfl, List.getElem?_map, List.getElem?_eq_getElem hi, hpi] at hindex
  have heq : some ((firsts ps).idxOf p) = some (addVertex lt m p).1 := by simpa using hindex
  rw [addVertex_of_not_guided hlt hbuilt (hvertices ▸ mem_firsts.2 hp) hnot, hvertices,
    Option.some_inj] at heq
  exact absurd heq (Nat.ne_of_lt (List.idxOf_lt_length_of_mem (mem_firsts.2 hp)))

/-- **The calls after which the vertices are deduplicated**, at every moment. -/
theorem deduplicated_iff (hlt : Separates lt) (ps : List α) :
    (∀ qs, qs <+: ps → Deduplicated lt qs) ↔ GuidedCalls lt ps := by
  constructor
  · intro h
    induction ps using List.reverseRecOn with
    | nil => exact fun qs p hqs => absurd (List.prefix_nil.1 hqs) (by simp)
    | append_singleton ps p ih =>
        have hps := ih fun qs hqs => h qs (hqs.trans (List.prefix_append ps [p]))
        refine guidedCalls_concat.2 ⟨hps, fun hp => ?_⟩
        by_contra hnot
        exact not_deduplicated_concat hlt hps hp hnot (h _ List.prefix_rfl)
  · rintro h qs ⟨rs, rfl⟩
    exact deduplicated_of_guidedCalls hlt fun qs' p hqs =>
      h qs' p (hqs.trans (List.prefix_append _ _))

/-- **Points among which the comparison is an order** are deduplicated. -/
theorem deduplicated_of_strictWeakOn (hlt : Separates lt)
    (h : StrictWeakOn lt {p | p ∈ ps}) : Deduplicated lt ps := by
  refine deduplicated_of_guidedCalls hlt ?_
  induction ps using List.reverseRecOn with
  | nil => exact fun qs p hqs => absurd (List.prefix_nil.1 hqs) (by simp)
  | append_singleton ps p ih =>
      have hps : StrictWeakOn lt {q | q ∈ ps} := h.mono fun q hq => List.mem_append_left _ hq
      have hcalls := ih hps
      refine guidedCalls_concat.2 ⟨hcalls, fun hp => ?_⟩
      obtain ⟨m, hm, hvertices, hbuilt⟩ := addVertices_of_guidedCalls hlt hcalls
      rw [hm]
      have horder : StrictWeakOn lt {q | q ∈ m.vertices_} :=
        hps.mono fun q hq => mem_firsts.1 (hvertices ▸ hq)
      exact hbuilt.guided horder (hvertices ▸ mem_firsts.2 hp)

end VertexTable
