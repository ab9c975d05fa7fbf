/-
**Vertex deduplication in `TriMesh`.**

`tiny_trimesh.h` keeps its vertices in a table whose map is ordered by `Point3::operator<`.  That
operator goes on to `y` and `z` without asking whether the coordinates before them are equal, so a
point is less than another one as soon as *some* coordinate is: two points can each be less than the
other.  A point with such a point on the wrong side of it in the map is not found again, and gets a
second vertex.

Main definitions:

* `Point3.lt` — `operator<`;
* `Point3.Below` — no coordinate is greater;
* `TriMesh.addVertex`, `TriMesh.addVertices` — the functions of the mesh.

Main results:

* `Point3.separates_lt` — the operator tells different points apart;
* `Point3.strictWeakOn_iff` — **the points between which it is an order**;
* `TriMesh.deduplicated_iff_guided` — **the calls after which the vertices of a mesh are
  deduplicated**;
* `TriMesh.deduplicated_of_below` — those with points that the operator orders;
* `TriMesh.vertex_added_twice` — three calls that make two vertices of one point.
-/

import CppSamples.VertexTable
import Mathlib.Order.Defs.LinearOrder

set_option relaxedAutoImplicit false
set_option autoImplicit false

open SearchTree VertexTable

/-- `Point3` -/
structure Point3 (R : Type*) where
  x : R
  y : R
  z : R
  deriving DecidableEq

namespace Point3

variable {R : Type*} [LinearOrder R] {p q : Point3 R}

/-- `operator<` -/
def lt (p other : Point3 R) : Bool :=
  if p.x < other.x then true
  else if p.y < other.y then true
  else p.z < other.z

/-- One coordinate is enough. -/
theorem lt_iff : lt p q = true ↔ p.x < q.x ∨ p.y < q.y ∨ p.z < q.z := by
  unfold lt
  split_ifs with hx hy
  · simp [hx]
  · simp [hy]
  · simp [hx, hy]

theorem lt_eq_false_iff : lt p q = false ↔ q.x ≤ p.x ∧ q.y ≤ p.y ∧ q.z ≤ p.z := by
  rw [← Bool.not_eq_true, lt_iff, not_or, not_or, not_lt, not_lt, not_lt]

/-- **The operator tells different points apart.** -/
theorem separates_lt : Separates (lt (R := R)) := by
  constructor
  · intro p
    exact lt_eq_false_iff.2 ⟨le_rfl, le_rfl, le_rfl⟩
  · intro p q hpq hqp
    obtain ⟨hx, hy, hz⟩ := lt_eq_false_iff.1 hpq
    obtain ⟨hx', hy', hz'⟩ := lt_eq_false_iff.1 hqp
    cases p
    cases q
    rw [mk.injEq]
    exact ⟨le_antisymm hx' hx, le_antisymm hy' hy, le_antisymm hz' hz⟩

/-- No coordinate of `p` is greater than that of `q`. -/
def Below (p q : Point3 R) : Prop := p.x ≤ q.x ∧ p.y ≤ q.y ∧ p.z ≤ q.z

theorem Below.trans {r : Point3 R} (hpq : Below p q) (hqr : Below q r) : Below p r :=
  ⟨hpq.1.trans hqr.1, hpq.2.1.trans hqr.2.1, hpq.2.2.trans hqr.2.2⟩

theorem lt_eq_false_iff_below : lt p q = false ↔ Below q p := lt_eq_false_iff

theorem lt_iff_not_below : lt p q = true ↔ ¬Below q p := by
  rw [← lt_eq_false_iff_below, Bool.not_eq_false]

/-- Points of which one of any two has no coordinate greater than that of the other are in order. -/
theorem strictWeakOn_of_below {S : Set (Point3 R)}
    (h : ∀ p ∈ S, ∀ q ∈ S, Below p q ∨ Below q p) : StrictWeakOn lt S := by
  -- of two points the one that is less is below the other
  have hbelow : ∀ p ∈ S, ∀ q ∈ S, lt p q = true → Below p q := fun p hp q hq hpq =>
    (h p hp q hq).resolve_right (lt_iff_not_below.1 hpq)
  refine ⟨fun p _ => separates_lt.irrefl p, ?_, ?_, fun p _ q _ => separates_lt.eq_of_not p q⟩
  · intro p hp q hq hpq
    exact lt_eq_false_iff_below.2 (hbelow p hp q hq hpq)
  · intro p hp q hq r _ hpq hqr
    rw [lt_iff_not_below] at hqr ⊢
    exact fun hrp => hqr (hrp.trans (hbelow p hp q hq hpq))

/-- **The points between which the operator is an order**: of any two of them one has no coordinate
greater than that of the other. -/
theorem strictWeakOn_iff (S : Set (Point3 R)) :
    StrictWeakOn lt S ↔ ∀ p ∈ S, ∀ q ∈ S, Below p q ∨ Below q p := by
  constructor
  · intro h p hp q hq
    cases hpq : lt p q with
    | false => exact .inr (lt_eq_false_iff_below.1 hpq)
    | true => exact .inl (lt_eq_false_iff_below.1 (h.asymm p hp q hq hpq))
  · exact strictWeakOn_of_below

/-- Two points with different greater coordinates. -/
theorem not_strictWeakOn_univ : ¬StrictWeakOn lt (Set.univ : Set (Point3 ℤ)) := by
  intro h
  have hasymm := h.asymm ⟨0, 1, 0⟩ trivial ⟨1, 0, 0⟩ trivial (by decide)
  exact absurd hasymm (by decide)

end Point3

/-- The vertices of a `TriMesh`. -/
abbrev TriMesh (R : Type*) := VertexTable (Point3 R)

namespace TriMesh

variable {R : Type*} [LinearOrder R]

/-- `TriMesh::addVertex` -/
def addVertex (m : TriMesh R) (p : Point3 R) : ℕ × TriMesh R := VertexTable.addVertex Point3.lt m p

/-- `TriMesh::addVertices` -/
def addVertices (m : TriMesh R) (vertices : List (Point3 R)) : List ℕ × TriMesh R :=
  VertexTable.addVertices Point3.lt m vertices

/-- **The vertices of a mesh are deduplicated**, at every moment of a sequence of calls, exactly
when for every point that is added again the nodes on the way to it in the map are on the side that
the operator says: those with some smaller coordinate lie before the point, and no others. -/
theorem deduplicated_iff_guided (ps : List (Point3 R)) :
    (∀ qs, qs <+: ps → Deduplicated Point3.lt qs) ↔
      ∀ qs p, qs ++ [p] <+: ps → p ∈ qs →
        ∀ k side, (k, side) ∈ place p (addVertices .new qs).2.vertexIndicesMap_ →
          (k.x < p.x ∨ k.y < p.y ∨ k.z < p.z ↔ side = .right) := by
  rw [deduplicated_iff Point3.separates_lt]
  simp only [GuidedCalls, Guided, Guides, Prod.forall, Point3.lt_iff]
  rfl

/-- **Points of which no two are apart in different directions** are deduplicated. -/
theorem deduplicated_of_below {ps : List (Point3 R)}
    (h : ∀ p ∈ ps, ∀ q ∈ ps, Point3.Below p q ∨ Point3.Below q p) :
    Deduplicated Point3.lt ps :=
  deduplicated_of_strictWeakOn Point3.separates_lt (Point3.strictWeakOn_of_below h)

/-- The rotation after the third call puts the point at the root, where it is found. -/
example : (addVertices .new [(⟨0, 0, 0⟩ : Point3 ℤ), ⟨0, 1, 0⟩, ⟨1, 0, 0⟩, ⟨1, 0, 0⟩]).1 =
    [0, 1, 2, 2] := by decide

/-- The rotation after the third call takes the fourth one's point away from where it is looked
for. -/
example : (addVertices .new [(⟨0, 0, 0⟩ : Point3 ℤ), ⟨0, 1, 0⟩, ⟨1, 0, 0⟩, ⟨0, 2, 0⟩, ⟨0, 2, 0⟩]).1 =
    [0, 1, 2, 3, 4] := by decide

/-- **One point, two vertices.** -/
theorem vertex_added_twice : ¬∀ ps : List (Point3 ℤ), Deduplicated Point3.lt ps := by
  intro h
  have hdedup := h [⟨0, 1, 0⟩, ⟨1, 0, 0⟩, ⟨1, 0, 0⟩]
  exact absurd ((hdedup.index 1 2 (by decide) (by decide)).2 rfl) (by decide)

end TriMesh
