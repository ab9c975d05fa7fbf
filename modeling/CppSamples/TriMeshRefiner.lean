/-
**Mesh refinement in `MyTriMeshRefiner`.**

`refine` replaces every face by four, with new vertices at the midpoints of its edges.  The new
vertices go through `addVertex`, so two faces that share an edge get the same vertex for its
midpoint only because the vertex table finds the point that the first of them has added.  With a
lawful order on the points it does, and the refined mesh is the one whose faces are split at a
vertex for every edge.

Main definitions:

* `MyTriMeshRefiner`, `MyTriMeshRefiner.refine` — the class;
* `MyTriMeshRefiner.WellFormed` — the faces are triangles over the vertex table;
* `MyTriMeshRefiner.Keeps` — what a refinement keeps.

Main results:

* `MyTriMeshRefiner.refine_eq` — `refine` splits every face at the vertices of its edges;
* `MyTriMeshRefiner.refine_keeps` — **every refinement keeps the surface**, after any number of
  them.
-/

import CppSamples.MidpointSubdivision
import CppSamples.Numerals
import CppSamples.TriMesh
import Mathlib.Algebra.BigOperators.Group.List.Basic
import Mathlib.Algebra.Field.Basic
import Mathlib.Tactic.FieldSimp
import Mathlib.Tactic.Ring

set_option relaxedAutoImplicit false
set_option autoImplicit false

open SearchTree VertexTable Subdivision
open scoped List

variable {K : Type}

namespace Point3

/-- `CGAL::midpoint` -/
def midpoint [Field K] (p q : Point3 K) : Point3 K :=
  ⟨(p.x + q.x) / 2, (p.y + q.y) / 2, (p.z + q.z) / 2⟩

theorem midpoint_comm [Field K] (p q : Point3 K) : midpoint p q = midpoint q p := by
  rw [midpoint, midpoint, add_comm p.x, add_comm p.y, add_comm p.z]

/-- `operator<` of the points: the first coordinate that differs decides. -/
def lexLt [LinearOrder K] (p q : Point3 K) : Bool :=
  p.x < q.x ∨ p.x = q.x ∧ (p.y < q.y ∨ p.y = q.y ∧ p.z < q.z)

theorem lexLt_iff [LinearOrder K] {p q : Point3 K} : lexLt p q = true ↔
    p.x < q.x ∨ p.x = q.x ∧ (p.y < q.y ∨ p.y = q.y ∧ p.z < q.z) := decide_eq_true_iff

/-- **The order of the points is lawful.** -/
theorem lawful_lexLt [LinearOrder K] : Lawful (lexLt (K := K)) := by
  refine ⟨⟨fun p => ?_, fun p q hpq hqp => ?_⟩, fun p q hpq => ?_, fun p q r hpq hqr => ?_⟩
  · rw [← Bool.not_eq_true, lexLt_iff]
    simp
  · rw [← Bool.not_eq_true, lexLt_iff, not_or] at hpq hqp
    have hx : p.x = q.x := le_antisymm (not_lt.1 hqp.1) (not_lt.1 hpq.1)
    simp only [hx, true_and, not_or] at hpq hqp
    have hy : p.y = q.y := le_antisymm (not_lt.1 hqp.2.1) (not_lt.1 hpq.2.1)
    simp only [hy, true_and] at hpq hqp
    have hz : p.z = q.z := le_antisymm (not_lt.1 hqp.2.2) (not_lt.1 hpq.2.2)
    cases p
    cases q
    rw [mk.injEq]
    exact ⟨hx, hy, hz⟩
  · rw [← Bool.not_eq_true, lexLt_iff]
    rw [lexLt_iff] at hpq
    rcases hpq with hx | ⟨hx, hy | ⟨hy, hz⟩⟩
    · simp [not_lt_of_gt hx, ne_of_gt hx]
    · simp [hx, not_lt_of_gt hy, ne_of_gt hy]
    · simp [hx, hy, le_of_lt hz]
  · rw [lexLt_iff] at hpq hqr ⊢
    rcases hpq with hx | ⟨hx, hpq⟩
    · rcases hqr with hx' | ⟨hx', -⟩
      · exact .inl (hx.trans hx')
      · exact .inl (hx'.symm ▸ hx)
    · refine hqr.imp (fun hx' => hx.symm ▸ hx') fun ⟨hx', hqr⟩ => ⟨hx.trans hx', ?_⟩
      rcases hpq with hy | ⟨hy, hz⟩
      · rcases hqr with hy' | ⟨hy', -⟩
        · exact .inl (hy.trans hy')
        · exact .inl (hy'.symm ▸ hy)
      · exact hqr.imp (fun hy' => hy.symm ▸ hy') fun ⟨hy', hz'⟩ => ⟨hy.trans hy', hz.trans hz'⟩

/-- The determinant of three points: six times the signed volume of their tetrahedron with the
origin. -/
def det [Field K] (p q r : Point3 K) : K :=
  p.x * (q.y * r.z - q.z * r.y) - p.y * (q.x * r.z - q.z * r.x) + p.z * (q.x * r.y - q.y * r.x)

/-- The four parts of a triangle have its volume. -/
theorem det_midpoints [Field K] (h : (2 : K) ≠ 0) (p q r : Point3 K) :
    det p (midpoint p q) (midpoint r p) + det (midpoint p q) q (midpoint q r) +
      det (midpoint r p) (midpoint q r) r + det (midpoint p q) (midpoint q r) (midpoint r p) =
        det p q r := by
  unfold det midpoint
  field_simp
  ring

end Point3

/-- `MyTriMeshRefiner`: the members for the vertices, and the faces. -/
structure MyTriMeshRefiner (K : Type) extends VertexTable (Point3 K) where
  faces_ : List (List ℕ)

namespace MyTriMeshRefiner

section Code

variable [Field K] (lt : Point3 K → Point3 K → Bool)

/-- `n_Faces` -/
def n_Faces (m : MyTriMeshRefiner K) : ℕ := m.faces_.length

/-- The constructor, from the points of the faces of a polyhedron. -/
def ofPolyhedron (faces : List (List (Point3 K))) : MyTriMeshRefiner K :=
  faces.foldl (fun m face =>
    let (tri, table) := addVertices lt m.toVertexTable face
    ⟨table, m.faces_ ++ [tri]⟩) ⟨new, []⟩

/-- The body of the loop of `refine`; an access outside of a vector has no result. -/
def refineFace (table : VertexTable (Point3 K)) (face : List ℕ) :
    Option (List (List ℕ) × VertexTable (Point3 K)) := do
  let a_idx ← face[0]?
  let b_idx ← face[1]?
  let c_idx ← face[2]?
  let a ← table.vertices_[a_idx]?
  let b ← table.vertices_[b_idx]?
  let c ← table.vertices_[c_idx]?
  let (ab_idx, table) := addVertex lt table (a.midpoint b)
  let (bc_idx, table) := addVertex lt table (b.midpoint c)
  let (ca_idx, table) := addVertex lt table (c.midpoint a)
  some ([[a_idx, ab_idx, ca_idx], [ab_idx, b_idx, bc_idx], [ca_idx, bc_idx, c_idx],
    [ab_idx, bc_idx, ca_idx]], table)

/-- The loop of `refine`, with the faces it appends to `new_faces`. -/
def refineFaces (table : VertexTable (Point3 K)) :
    List (List ℕ) → Option (List (List ℕ) × VertexTable (Point3 K))
  | [] => some ([], table)
  | face :: faces => do
    let (tris, table) ← refineFace lt table face
    let (new_faces, table) ← refineFaces table faces
    some (tris ++ new_faces, table)

/-- `refine` -/
def refine (m : MyTriMeshRefiner K) : Option (MyTriMeshRefiner K) := do
  let (new_faces, table) ← refineFaces lt m.toVertexTable m.faces_
  some ⟨table, new_faces⟩

/-- Some calls of `refine`. -/
def refines : ℕ → MyTriMeshRefiner K → Option (MyTriMeshRefiner K)
  | 0, m => some m
  | n + 1, m => (refines n m).bind (refine lt)

end Code

/-! ### What a refinement keeps -/

/-- The point of a vertex. -/
def point [Zero K] (vertices_ : List (Point3 K)) (i : ℕ) : Point3 K := vertices_.getD i ⟨0, 0, 0⟩

/-- The directed edges of the faces. -/
def directedEdges (m : MyTriMeshRefiner K) : List (ℕ × ℕ) :=
  m.faces_.flatMap fun face => face.zip (face.rotate 1)

/-- Every directed edge occurs as often as its reverse. -/
def Closed (m : MyTriMeshRefiner K) : Prop :=
  ∀ u v, m.directedEdges.count (u, v) = m.directedEdges.count (v, u)

/-- The determinant of the points of a face. -/
def faceDet [Field K] (vertices_ : List (Point3 K)) : List ℕ → K
  | [a, b, c] => (point vertices_ a).det (point vertices_ b) (point vertices_ c)
  | _ => 0

/-- The total signed volume, up to the factor six. -/
def volume [Field K] (m : MyTriMeshRefiner K) : K := (m.faces_.map (faceDet m.vertices_)).sum

/-- **What a refinement keeps.** -/
structure Keeps [Field K] (m m' : MyTriMeshRefiner K) : Prop where
  faces : m'.n_Faces = 4 * m.n_Faces
  vertices : m.vertices_ <+: m'.vertices_
  indices : ∀ face ∈ m'.faces_, ∀ i ∈ face, i < m'.n_Vertices
  nodup : m'.vertices_.Nodup
  volume : m'.volume = m.volume
  closed : m.Closed → m'.Closed

/-- The corners of a triangle as a face. -/
def toFace (t : Triangle ℕ) : List ℕ := [t.a, t.b, t.c]

/-- **The faces are triangles over the vertex table.** -/
structure WellFormed (lt : Point3 K → Point3 K → Bool) (m : MyTriMeshRefiner K) : Prop where
  built : Built lt m.toVertexTable
  triangles : ∃ ts : List (Triangle ℕ), m.faces_ = ts.map toFace
  indices : ∀ face ∈ m.faces_, ∀ i ∈ face, i < m.n_Vertices

/-! ### The vertices of the edges -/

section Vertices

variable {V V' : List (Point3 K)} {i : ℕ} {p : Point3 K} {t : Triangle ℕ}

/-- The corners of a triangle are vertices. -/
def HasCorners (V : List (Point3 K)) (t : Triangle ℕ) : Prop := ∀ i ∈ toFace t, i < V.length

theorem HasCorners.mono (ht : HasCorners V t) (h : V <+: V') :
    HasCorners V' t := fun i hi => Nat.lt_of_lt_of_le (ht i hi) h.length_le

theorem HasCorners.edge (ht : HasCorners V t) {e : ℕ × ℕ}
    (he : e ∈ t.edges) : e.1 < V.length ∧ e.2 < V.length := by
  simp only [Triangle.edges, List.mem_cons, List.not_mem_nil, or_false] at he
  rcases he with rfl | rfl | rfl
  all_goals exact ⟨ht _ (by simp [toFace]), ht _ (by simp [toFace])⟩

variable [Field K]

theorem getElem?_eq_point (hi : i < V.length) : V[i]? = some (point V i) := by
  rw [point, List.getD_eq_getElem?_getD, List.getElem?_eq_getElem hi, Option.getD_some]

theorem point_of_extends (h : V <+: V') (hi : i < V.length) : point V' i = point V i := by
  obtain ⟨rest, rfl⟩ := h
  rw [point, point, List.getD_eq_getElem?_getD, List.getD_eq_getElem?_getD,
    List.getElem?_append_left hi]

/-- The midpoints of the edges of a triangle are vertices. -/
def HasMidpoints (V : List (Point3 K)) (t : Triangle ℕ) : Prop :=
  ∀ e ∈ t.edges, (point V e.1).midpoint (point V e.2) ∈ V

theorem HasMidpoints.mono (hmid : HasMidpoints V t) (ht : HasCorners V t)
    (h : V <+: V') : HasMidpoints V' t := by
  intro e he
  obtain ⟨h₁, h₂⟩ := ht.edge he
  rw [point_of_extends h h₁, point_of_extends h h₂]
  exact h.subset (hmid e he)

variable [DecidableEq K]

omit [Field K] in
theorem idxOf_of_prefix (h : V <+: V') (hp : p ∈ V) : V'.idxOf p = V.idxOf p := by
  obtain ⟨rest, rfl⟩ := h
  exact List.idxOf_append_of_mem hp

/-- The vertex of an edge. -/
def edgeVertex (V : List (Point3 K)) (i j : ℕ) : ℕ :=
  V.idxOf ((point V i).midpoint (point V j))

theorem edgeVertex_comm (V : List (Point3 K)) (i j : ℕ) : edgeVertex V i j = edgeVertex V j i := by
  rw [edgeVertex, edgeVertex, Point3.midpoint_comm]

theorem edgeVertex_of_prefix (h : V <+: V') {i j : ℕ} (hi : i < V.length) (hj : j < V.length)
    (hmem : (point V i).midpoint (point V j) ∈ V) : edgeVertex V' i j = edgeVertex V i j := by
  rw [edgeVertex, edgeVertex, point_of_extends h hi, point_of_extends h hj, idxOf_of_prefix h hmem]

/-- The vertex of an edge is at its midpoint. -/
theorem point_edgeVertex {i j : ℕ} (hmem : (point V i).midpoint (point V j) ∈ V) :
    edgeVertex V i j < V.length ∧
      point V (edgeVertex V i j) = (point V i).midpoint (point V j) := by
  refine ⟨List.idxOf_lt_length_of_mem hmem, ?_⟩
  rw [point, List.getD_eq_getElem?_getD, edgeVertex, List.getElem?_idxOf hmem, Option.getD_some]

end Vertices

/-! ### What `refine` computes -/

section Refine

variable [Field K] [DecidableEq K] {lt : Point3 K → Point3 K → Bool}
  {table : VertexTable (Point3 K)} {t : Triangle ℕ}

/-- A triangle is split in the same way when the table has grown. -/
theorem split_of_prefix {V V' : List (Point3 K)} (h : V <+: V') (ht : HasCorners V t)
    (hmid : HasMidpoints V t) : split (edgeVertex V') t = split (edgeVertex V) t := by
  have hedge : ∀ e ∈ t.edges, edgeVertex V' e.1 e.2 = edgeVertex V e.1 e.2 := fun e he =>
    edgeVertex_of_prefix h (ht.edge he).1 (ht.edge he).2 (hmid e he)
  have hab := hedge (t.a, t.b) (by simp [Triangle.edges])
  have hbc := hedge (t.b, t.c) (by simp [Triangle.edges])
  have hca := hedge (t.c, t.a) (by simp [Triangle.edges])
  simp only [split, hab, hbc, hca]

/-- **The body of the loop splits its triangle.** -/
theorem refineFace_eq (hlt : Lawful lt) (h : Built lt table) (ht : HasCorners table.vertices_ t) :
    ∃ table', refineFace lt table (toFace t) =
        some ((split (edgeVertex table'.vertices_) t).map toFace, table') ∧
      Built lt table' ∧ table.vertices_ <+: table'.vertices_ ∧ HasMidpoints table'.vertices_ t := by
  have ha : t.a < table.vertices_.length := ht _ (by simp [toFace])
  have hb : t.b < table.vertices_.length := ht _ (by simp [toFace])
  have hc : t.c < table.vertices_.length := ht _ (by simp [toFace])
  obtain ⟨t₁, hcall₁, hbuilt₁, hgrow₁, hmem₁⟩ := addVertex_of_lawful hlt h
    ((point table.vertices_ t.a).midpoint (point table.vertices_ t.b))
  obtain ⟨t₂, hcall₂, hbuilt₂, hgrow₂, hmem₂⟩ := addVertex_of_lawful hlt hbuilt₁
    ((point table.vertices_ t.b).midpoint (point table.vertices_ t.c))
  obtain ⟨t₃, hcall₃, hbuilt₃, hgrow₃, hmem₃⟩ := addVertex_of_lawful hlt hbuilt₂
    ((point table.vertices_ t.c).midpoint (point table.vertices_ t.a))
  have hgrow := hgrow₁.trans (hgrow₂.trans hgrow₃)
  refine ⟨t₃, ?_, hbuilt₃, hgrow, ?_⟩
  · simp only [refineFace, toFace, List.getElem?_cons_zero, List.getElem?_cons_succ,
      getElem?_eq_point ha, getElem?_eq_point hb, getElem?_eq_point hc, Option.bind_eq_bind,
      Option.bind_some, hcall₁, hcall₂, hcall₃, split, List.map_cons, List.map_nil, edgeVertex,
      point_of_extends hgrow ha, point_of_extends hgrow hb, point_of_extends hgrow hc,
      idxOf_of_prefix hgrow₃ hmem₂, idxOf_of_prefix (hgrow₂.trans hgrow₃) hmem₁]
  · intro e he
    simp only [Triangle.edges, List.mem_cons, List.not_mem_nil, or_false] at he
    rcases he with rfl | rfl | rfl
    · rw [point_of_extends hgrow ha, point_of_extends hgrow hb]
      exact (hgrow₂.trans hgrow₃).subset hmem₁
    · rw [point_of_extends hgrow hb, point_of_extends hgrow hc]
      exact hgrow₃.subset hmem₂
    · rw [point_of_extends hgrow hc, point_of_extends hgrow ha]
      exact hmem₃

/-- **The loop splits its triangles at the vertices of the final table.** -/
theorem refineFaces_eq (hlt : Lawful lt) (h : Built lt table) (ts : List (Triangle ℕ))
    (hts : ∀ t ∈ ts, HasCorners table.vertices_ t) :
    ∃ table', refineFaces lt table (ts.map toFace) =
        some ((ts.flatMap (split (edgeVertex table'.vertices_))).map toFace, table') ∧
      Built lt table' ∧ table.vertices_ <+: table'.vertices_ ∧
      ∀ t ∈ ts, HasMidpoints table'.vertices_ t := by
  induction ts generalizing table with
  | nil => exact ⟨table, rfl, h, List.prefix_rfl, fun _ ht => absurd ht List.not_mem_nil⟩
  | cons t ts ih =>
      have ht := hts t List.mem_cons_self
      obtain ⟨t₁, hface, hbuilt₁, hgrow₁, hmid₁⟩ := refineFace_eq hlt h ht
      obtain ⟨t₂, hfaces, hbuilt₂, hgrow₂, hmid₂⟩ := ih hbuilt₁ fun u hu =>
        (hts u (List.mem_cons_of_mem _ hu)).mono hgrow₁
      refine ⟨t₂, ?_, hbuilt₂, hgrow₁.trans hgrow₂, ?_⟩
      · simp only [List.map_cons, refineFaces, hface, hfaces, Option.bind_eq_bind, Option.bind_some,
          List.flatMap_cons, List.map_append, split_of_prefix hgrow₂ (ht.mono hgrow₁) hmid₁]
      · intro u hu
        rcases List.mem_cons.1 hu with rfl | hu
        · exact hmid₁.mono (ht.mono hgrow₁) hgrow₂
        · exact hmid₂ u hu

/-- **`refine` splits every face at the vertices of its edges.** -/
theorem refine_eq (hlt : Lawful lt) {m : MyTriMeshRefiner K} (h : WellFormed lt m)
    {ts : List (Triangle ℕ)} (hts : m.faces_ = ts.map toFace) :
    ∃ m', refine lt m = some m' ∧
      m'.faces_ = (ts.flatMap (split (edgeVertex m'.vertices_))).map toFace ∧
      Built lt m'.toVertexTable ∧ m.vertices_ <+: m'.vertices_ ∧
      ∀ t ∈ ts, HasCorners m.vertices_ t ∧ HasMidpoints m'.vertices_ t := by
  have hcorners : ∀ t ∈ ts, HasCorners m.vertices_ t := fun t ht =>
    h.indices _ (hts ▸ List.mem_map_of_mem ht)
  obtain ⟨table', hfaces, hbuilt, hgrow, hmid⟩ := refineFaces_eq hlt h.built ts hcorners
  let new_faces := (ts.flatMap (split (edgeVertex table'.vertices_))).map toFace
  refine ⟨⟨table', new_faces⟩, ?_, rfl, hbuilt, hgrow, fun t ht => ⟨hcorners t ht, hmid t ht⟩⟩
  rw [refine, hts, hfaces]
  rfl

end Refine

/-! ### What the refined mesh keeps -/

section Keeping

variable {V V' : List (Point3 K)} {t : Triangle ℕ}

theorem directedEdges_eq {m : MyTriMeshRefiner K} {ts : List (Triangle ℕ)}
    (hts : m.faces_ = ts.map toFace) : m.directedEdges = ts.flatMap Triangle.edges := by
  rw [directedEdges, hts, List.flatMap_map]
  rfl

variable [Field K]

theorem faceDet_toFace (V : List (Point3 K)) (t : Triangle ℕ) :
    faceDet V (toFace t) = (point V t.a).det (point V t.b) (point V t.c) := rfl

variable [DecidableEq K]

/-- The parts of a triangle have its volume. -/
theorem faceDet_split (htwo : (2 : K) ≠ 0) (hgrow : V <+: V') (ht : HasCorners V t)
    (hmid : HasMidpoints V' t) :
    (((split (edgeVertex V') t).map toFace).map (faceDet V')).sum = faceDet V (toFace t) := by
  have hpoint : ∀ e ∈ t.edges, point V' (edgeVertex V' e.1 e.2) =
      (point V' e.1).midpoint (point V' e.2) := fun e he => (point_edgeVertex (hmid e he)).2
  have hab := hpoint (t.a, t.b) (by simp [Triangle.edges])
  have hbc := hpoint (t.b, t.c) (by simp [Triangle.edges])
  have hca := hpoint (t.c, t.a) (by simp [Triangle.edges])
  have hcorner : ∀ i ∈ toFace t, point V' i = point V i := fun i hi =>
    point_of_extends hgrow (ht i hi)
  rw [faceDet_toFace, ← hcorner t.a (by simp [toFace]), ← hcorner t.b (by simp [toFace]),
    ← hcorner t.c (by simp [toFace]), ← Point3.det_midpoints htwo]
  simp only [split, List.map_cons, List.map_nil, faceDet_toFace, hab, hbc, hca, List.sum_cons,
    List.sum_nil, add_zero, add_assoc]

/-- The corners of the parts of a triangle are vertices. -/
theorem hasCorners_split (hgrow : V <+: V') (ht : HasCorners V t) (hmid : HasMidpoints V' t)
    {u : Triangle ℕ} (hu : u ∈ split (edgeVertex V') t) : HasCorners V' u := by
  have hlt : ∀ e ∈ t.edges, edgeVertex V' e.1 e.2 < V'.length := fun e he =>
    (point_edgeVertex (hmid e he)).1
  have hab := hlt (t.a, t.b) (by simp [Triangle.edges])
  have hbc := hlt (t.b, t.c) (by simp [Triangle.edges])
  have hca := hlt (t.c, t.a) (by simp [Triangle.edges])
  have hcorner := ht.mono hgrow
  have ha := hcorner t.a (by simp [toFace])
  have hb := hcorner t.b (by simp [toFace])
  have hc := hcorner t.c (by simp [toFace])
  simp only [split, List.mem_cons, List.not_mem_nil, or_false] at hu
  rcases hu with rfl | rfl | rfl | rfl
  all_goals simp_all [HasCorners, toFace]

/-- The volume of the parts of some triangles. -/
theorem sum_faceDet_split (htwo : (2 : K) ≠ 0) (hgrow : V <+: V') {ts : List (Triangle ℕ)}
    (hts : ∀ t ∈ ts, HasCorners V t ∧ HasMidpoints V' t) :
    (((ts.flatMap (split (edgeVertex V'))).map toFace).map (faceDet V')).sum =
      ((ts.map toFace).map (faceDet V)).sum := by
  induction ts with
  | nil => rfl
  | cons t ts ih =>
      obtain ⟨ht, hmid⟩ := hts t List.mem_cons_self
      rw [List.flatMap_cons, List.map_append, List.map_append, List.sum_append,
        faceDet_split htwo hgrow ht hmid, ih fun u hu => hts u (List.mem_cons_of_mem _ hu)]
      rfl

variable {lt : Point3 K → Point3 K → Bool} {m : MyTriMeshRefiner K}

/-- **A refinement keeps the surface**, and the faces stay triangles over the vertex table. -/
theorem exists_refine (hlt : Lawful lt) (htwo : (2 : K) ≠ 0) (h : WellFormed lt m) :
    ∃ m', refine lt m = some m' ∧ Keeps m m' ∧ WellFormed lt m' := by
  obtain ⟨ts, hts⟩ := h.triangles
  obtain ⟨m', hrefine, hfaces, hbuilt, hgrow, hmid⟩ := refine_eq hlt h hts
  have hindices : ∀ face ∈ m'.faces_, ∀ i ∈ face, i < m'.n_Vertices := by
    intro face hface
    rw [hfaces] at hface
    obtain ⟨u, hu, rfl⟩ := List.mem_map.1 hface
    obtain ⟨t, ht, hu⟩ := List.mem_flatMap.1 hu
    exact hasCorners_split hgrow (hmid t ht).1 (hmid t ht).2 hu
  refine ⟨m', hrefine, ⟨?_, hgrow, hindices, hbuilt.nodup, ?_, ?_⟩, hbuilt, ⟨_, hfaces⟩, hindices⟩
  · rw [n_Faces, n_Faces, hfaces, hts, List.length_map, List.length_map, length_flatMap_split]
  · rw [volume, volume, hfaces, hts]
    exact sum_faceDet_split htwo hgrow hmid
  · intro hclosed
    have hbalanced : Balanced (ts.flatMap Triangle.edges) :=
      balanced_iff_count.2 (directedEdges_eq hts ▸ hclosed)
    have hsplit := balanced_split (edgeVertex_comm m'.vertices_) hbalanced
    rw [Closed, directedEdges_eq hfaces]
    exact balanced_iff_count.1 hsplit

/-- Some refinements. -/
theorem exists_refines (hlt : Lawful lt) (htwo : (2 : K) ≠ 0) (h : WellFormed lt m) (n : ℕ) :
    ∃ m', refines lt n m = some m' ∧ WellFormed lt m' := by
  induction n with
  | zero => exact ⟨m, rfl, h⟩
  | succ n ih =>
      obtain ⟨m₁, hrefines, h₁⟩ := ih
      obtain ⟨m₂, hrefine, -, h₂⟩ := exists_refine hlt htwo h₁
      exact ⟨m₂, by rw [refines, hrefines, Option.bind_some, hrefine], h₂⟩

end Keeping

/-! ### The constructor -/

section Constructor

variable [DecidableEq K] {lt : Point3 K → Point3 K → Bool}

/-- A face of three points is a triangle over the grown table. -/
theorem WellFormed.concat [Field K] (hlt : Lawful lt) {m : MyTriMeshRefiner K} (h : WellFormed lt m)
    {face : List (Point3 K)} (hface : face.length = 3) :
    WellFormed lt ⟨(addVertices lt m.toVertexTable face).2,
      m.faces_ ++ [(addVertices lt m.toVertexTable face).1]⟩ := by
  obtain ⟨p, q, r, rfl⟩ := List.length_eq_three.1 hface
  obtain ⟨table, hcalls, hbuilt, hgrow, hmem⟩ := addVertices_of_lawful hlt h.built [p, q, r]
  obtain ⟨ts, hts⟩ := h.triangles
  rw [hcalls]
  refine ⟨hbuilt, ⟨ts ++ [⟨table.vertices_.idxOf p, table.vertices_.idxOf q,
    table.vertices_.idxOf r⟩], ?_⟩, fun face' hface' i hi => ?_⟩
  · rw [hts, List.map_append]
    rfl
  · rcases List.mem_append.1 hface' with hold | hnew
    · exact Nat.lt_of_lt_of_le (h.indices face' hold i hi) hgrow.length_le
    · rw [List.mem_singleton.1 hnew] at hi
      obtain ⟨p', hp', rfl⟩ := List.mem_map.1 hi
      exact List.idxOf_lt_length_of_mem (hmem p' hp')

/-- **The constructor makes triangles over a vertex table** of a polyhedron with triangular faces.
-/
theorem wellFormed_ofPolyhedron [Field K] (hlt : Lawful lt) {faces : List (List (Point3 K))}
    (hfaces : ∀ face ∈ faces, face.length = 3) : WellFormed lt (ofPolyhedron lt faces) := by
  have hnew : WellFormed lt (⟨new, []⟩ : MyTriMeshRefiner K) :=
    ⟨Built.new, ⟨[], rfl⟩, fun _ hface => absurd hface List.not_mem_nil⟩
  induction faces using List.reverseRecOn with
  | nil => exact hnew
  | append_singleton faces face ih =>
      rw [ofPolyhedron, List.foldl_append]
      have hwell := ih fun face' hface' => hfaces face' (List.mem_append_left _ hface')
      exact hwell.concat hlt (hfaces face (List.mem_append_right _ (List.mem_singleton_self _)))

end Constructor

section Main

variable [Field K] [DecidableEq K] {lt : Point3 K → Point3 K → Bool} {m : MyTriMeshRefiner K}

/-- **Every refinement keeps the surface**: after any number of calls the next one multiplies the
faces by four, keeps the old vertices and the volume, leaves the face indices in range and the
vertices different, and leaves a closed surface closed. -/
theorem refine_keeps (hlt : Lawful lt) (htwo : (2 : K) ≠ 0) (h : WellFormed lt m) (n : ℕ) :
    ∃ m₁ m₂, refines lt n m = some m₁ ∧ refine lt m₁ = some m₂ ∧ Keeps m₁ m₂ := by
  obtain ⟨m₁, hrefines, h₁⟩ := exists_refines hlt htwo h n
  obtain ⟨m₂, hrefine, hkeeps, -⟩ := exists_refine hlt htwo h₁
  exact ⟨m₁, m₂, hrefines, hrefine, hkeeps⟩

end Main

/-- The faces of a tetrahedron. -/
def tetrahedron : List (List (Point3 ℚ)) :=
  [[⟨0, 0, 0⟩, ⟨0, 1, 0⟩, ⟨1, 0, 0⟩], [⟨0, 0, 0⟩, ⟨1, 0, 0⟩, ⟨0, 0, 1⟩],
    [⟨0, 0, 0⟩, ⟨0, 0, 1⟩, ⟨0, 1, 0⟩], [⟨1, 0, 0⟩, ⟨0, 1, 0⟩, ⟨0, 0, 1⟩]]

/-- A tetrahedron is refined for the third time. -/
theorem refine_keeps_tetrahedron :
    ∃ m₁ m₂, refines Point3.lexLt 2 (ofPolyhedron Point3.lexLt tetrahedron) = some m₁ ∧
      refine Point3.lexLt m₁ = some m₂ ∧ Keeps m₁ m₂ :=
  refine_keeps Point3.lawful_lexLt two_ne_zero
    (wellFormed_ofPolyhedron Point3.lawful_lexLt (by decide)) 2

end MyTriMeshRefiner
