/-
**The vertex opposite to a common edge.**

For two faces of a `TriMesh` that share an edge, `findOppositeVertexIndex` returns the vertex of the
first that is not on the edge, and `-1` for any other pair.  It sorts the vertices of the two faces,
takes the difference of the sorted arrays, and looks at its length: with one element that is the
vertex, with none the first cell of the result still has the `-1` it was initialised with.

The guard in front of it lets an index through that is equal to the number of faces.

Main definitions:

* `Face`, `FaceMesh` — the faces of a mesh;
* `FaceMesh.diffIndices`, `FaceMesh.findOppositeVertexIndex` — the search;
* `Face.Proper` — three different vertices.

Main results:

* `FaceMesh.findOppositeVertexIndex_spec` — **what the search returns** for two faces of the mesh;
* `FaceMesh.findOppositeVertexIndex_reports_iff` — **the indices out of range that it reports**.
-/

import CppSamples.SortedDifference
import CppSamples.TriMesh
import Mathlib.Algebra.GroupWithZero.Nat
import Mathlib.Data.Fin.VecNotation
import Mathlib.Data.Finset.Card

set_option relaxedAutoImplicit false
set_option autoImplicit false

open SortedDifference
open scoped List

/-- `Face`: three indices of type `size_t`. -/
structure Face where
  vtx_ : Fin 3 → ℕ

/-- `TriMesh`: the members for the vertices, and the faces. -/
structure FaceMesh (R : Type*) extends TriMesh R where
  faces_ : List Face

/-- The conversion of a `size_t` to an `int`. -/
def sizeToInt (v : ℕ) : ℤ := (BitVec.ofNat 32 v).toInt

theorem sizeToInt_of_lt {v : ℕ} (h : v < 2 ^ 31) : sizeToInt v = v := by
  have hv : (BitVec.ofNat 32 v).toNat = v := by
    rw [BitVec.toNat_ofNat, Nat.mod_eq_of_lt (by omega)]
  rw [sizeToInt, BitVec.toInt_eq_toNat_of_lt (by omega), hv]

namespace Face

/-- `getVertices` -/
def getVertices (F : Face) : List ℕ := List.ofFn F.vtx_

/-- The set of the vertices. -/
def vertices (F : Face) : Finset ℕ := F.getVertices.toFinset

/-- Three different vertices, with indices that an `int` can hold. -/
structure Proper (F : Face) : Prop where
  nodup : F.getVertices.Nodup
  lt : ∀ v ∈ F.getVertices, v < 2 ^ 31

theorem Proper.card {F : Face} (h : F.Proper) : F.vertices.card = 3 := by
  rw [vertices, List.toFinset_card_of_nodup h.nodup, getVertices, List.length_ofFn]

theorem Proper.map_sizeToInt {F : Face} (h : F.Proper) :
    F.getVertices.map sizeToInt = F.getVertices.map Nat.cast :=
  List.map_congr_left fun v hv => sizeToInt_of_lt (h.lt v hv)

end Face

namespace FaceMesh

variable {R : Type*}

/-- `n_Faces` -/
def n_Faces (m : FaceMesh R) : ℕ := m.faces_.length

/-- `getFace`, which throws when there is no such face -/
def getFace (m : FaceMesh R) (idx : ℕ) : Option Face := m.faces_[idx]?

/-- `diffIndices`: the array with the difference at its beginning, and its length. -/
def diffIndices (contA contB : List ℕ) : (Fin 3 → ℤ) × ℕ :=
  let result : Fin 3 → ℤ := ![-1, 0, 0]
  let contAcopy := (contA.map sizeToInt).insertionSort (· ≤ ·)
  let contBcopy := (contB.map sizeToInt).insertionSort (· ≤ ·)
  let out := setDifference contAcopy contBcopy
  (written result out, out.length)

/-- `findOppositeVertexIndex` -/
def findOppositeVertexIndex (m : FaceMesh R) (face_idx adj_face_idx : ℕ) : Option ℤ :=
  if m.n_Faces < face_idx ∨ m.n_Faces < adj_face_idx then some (-1)
  else do
    let faceVerts := (← m.getFace face_idx).getVertices
    let adjFaceVerts := (← m.getFace adj_face_idx).getVertices
    let (diff, dist) := diffIndices faceVerts adjFaceVerts
    if 1 < dist then some (-1) else some (diff 0)

/-! ### The difference of two faces -/

variable {F G : Face}

/-- The output of `set_difference`, up to its order. -/
theorem setDifference_perm (hF : F.Proper) (hG : G.Proper) :
    setDifference ((F.getVertices.map sizeToInt).insertionSort (· ≤ ·))
        ((G.getVertices.map sizeToInt).insertionSort (· ≤ ·)) ~
      (F.getVertices.filter (· ∉ G.getVertices)).map Nat.cast := by
  rw [hF.map_sizeToInt, hG.map_sizeToInt]
  have hnodup : (F.getVertices.map (Nat.cast : ℕ → ℤ)).Nodup :=
    hF.nodup.map fun _ _ h => Int.ofNat_inj.1 h
  refine (setDifference_sort_perm hnodup _).trans (List.Perm.of_eq ?_)
  rw [List.filter_map]
  refine congrArg (List.map Nat.cast) (List.filter_congr fun v _ => ?_)
  simp only [Function.comp, List.mem_map, Int.ofNat_inj, exists_eq_right]

/-- The number of vertices of `F` that are not in `G`. -/
theorem length_filter (hF : F.Proper) (G : Face) :
    (F.getVertices.filter (· ∉ G.getVertices)).length = (F.vertices \ G.vertices).card := by
  rw [← List.toFinset_card_of_nodup (hF.nodup.filter _)]
  refine congrArg Finset.card (Finset.ext fun v => ?_)
  simp [Face.vertices]

/-- **Two faces with a common edge**: the first cell has the vertex that is not on it. -/
theorem diffIndices_of_card_eq_one (hF : F.Proper) (hG : G.Proper)
    (h : (F.vertices \ G.vertices).card = 1) :
    ∃ w : ℕ, F.vertices \ G.vertices = {w} ∧
      (diffIndices F.getVertices G.getVertices).1 0 = w := by
  obtain ⟨w, hw⟩ := List.length_eq_one_iff.1 ((length_filter hF G).trans h)
  have hout := setDifference_perm hF hG
  rw [hw, List.map_singleton, List.perm_singleton] at hout
  refine ⟨w, ?_, ?_⟩
  · ext v
    have hv := congrArg (v ∈ ·) hw
    simpa [Face.vertices] using hv
  · rw [diffIndices, hout]
    rfl

/-- **Two faces with the same vertices**: the array keeps its first cell. -/
theorem diffIndices_of_card_eq_zero (hF : F.Proper) (hG : G.Proper)
    (h : (F.vertices \ G.vertices).card = 0) :
    (diffIndices F.getVertices G.getVertices).1 0 = -1 := by
  have hnil := List.length_eq_zero_iff.1 ((length_filter hF G).trans h)
  have hout := setDifference_perm hF hG
  rw [hnil, List.map_nil, List.perm_nil] at hout
  rw [diffIndices, hout]
  rfl

theorem diffIndices_length (hF : F.Proper) (hG : G.Proper) :
    (diffIndices F.getVertices G.getVertices).2 = (F.vertices \ G.vertices).card := by
  rw [← length_filter hF G, diffIndices, (setDifference_perm hF hG).length_eq, List.length_map]

/-- The order in which a face lists its vertices does not matter. -/
theorem diffIndices_congr {a a' b b' : List ℕ} (ha : a ~ a') (hb : b ~ b') :
    diffIndices a b = diffIndices a' b' := by
  rw [diffIndices, diffIndices, setDifference_sort_congr (ha.map _) (hb.map _)]

/-! ### What the search returns -/

variable {m : FaceMesh R} {f g : ℕ}

theorem getFace_lt (h : m.getFace f = some F) : f < m.n_Faces := (List.getElem?_eq_some_iff.1 h).1

theorem findOppositeVertexIndex_of_getFace (hF : m.getFace f = some F) (hG : m.getFace g = some G) :
    m.findOppositeVertexIndex f g =
      if 1 < (diffIndices F.getVertices G.getVertices).2 then some (-1)
      else some ((diffIndices F.getVertices G.getVertices).1 0) := by
  have hf := getFace_lt hF
  have hg := getFace_lt hG
  rw [findOppositeVertexIndex, if_neg (by omega), hF, hG]
  rfl

/-- **The opposite vertex.**  The result is not negative exactly when the two faces share two
vertices, and then it is the vertex of the first that is not in the second; otherwise it is `-1`.
The order of the vertices in the faces does not matter. -/
theorem findOppositeVertexIndex_spec (hF : m.getFace f = some F) (hG : m.getFace g = some G)
    (hFp : F.Proper) (hGp : G.Proper) :
    ∃ v : ℤ, m.findOppositeVertexIndex f g = some v ∧
      (0 ≤ v ↔ (F.vertices ∩ G.vertices).card = 2) ∧
      (0 ≤ v → ∃ w : ℕ, F.vertices \ G.vertices = {w} ∧ v = w) ∧
      ((F.vertices ∩ G.vertices).card ≠ 2 → v = -1) ∧
      ∀ (m' : FaceMesh R) (f' g' : ℕ) (F' G' : Face), m'.getFace f' = some F' →
        m'.getFace g' = some G' → F'.getVertices ~ F.getVertices → G'.getVertices ~ G.getVertices →
        m'.findOppositeVertexIndex f' g' = some v := by
  have hsum := Finset.card_sdiff_add_card_inter F.vertices G.vertices
  rw [hFp.card] at hsum
  have hlength := diffIndices_length hFp hGp
  obtain ⟨v, hv, hcases⟩ : ∃ v : ℤ, m.findOppositeVertexIndex f g = some v ∧
      ((F.vertices ∩ G.vertices).card = 2 ∧ (∃ w : ℕ, F.vertices \ G.vertices = {w} ∧ v = w) ∨
        (F.vertices ∩ G.vertices).card ≠ 2 ∧ v = -1) := by
    rw [findOppositeVertexIndex_of_getFace hF hG, hlength]
    by_cases hmany : 1 < (F.vertices \ G.vertices).card
    · exact ⟨-1, if_pos hmany, .inr ⟨by omega, rfl⟩⟩
    · rw [if_neg hmany]
      rcases Nat.eq_zero_or_pos (F.vertices \ G.vertices).card with hzero | hpos
      · have hcell := diffIndices_of_card_eq_zero hFp hGp hzero
        exact ⟨-1, by rw [hcell], .inr ⟨by omega, rfl⟩⟩
      · obtain ⟨w, hw, hcell⟩ := diffIndices_of_card_eq_one hFp hGp (by omega)
        exact ⟨w, by rw [hcell], .inl ⟨by omega, w, hw, rfl⟩⟩
  refine ⟨v, hv, ?_, ?_, ?_, ?_⟩
  · rcases hcases with ⟨hcard, w, -, rfl⟩ | ⟨hcard, rfl⟩
    · exact ⟨fun _ => hcard, fun _ => Int.natCast_nonneg w⟩
    · exact ⟨fun h => absurd h (by decide), fun h => absurd h hcard⟩
  · rcases hcases with ⟨-, hw⟩ | ⟨-, rfl⟩
    · exact fun _ => hw
    · exact fun h => absurd h (by decide)
  · rcases hcases with ⟨hcard, -⟩ | ⟨-, hw⟩
    · exact fun h => absurd hcard h
    · exact fun _ => hw
  · intro m' f' g' F' G' hF' hG' hFF' hGG'
    rw [findOppositeVertexIndex_of_getFace hF' hG', diffIndices_congr hFF' hGG',
      ← findOppositeVertexIndex_of_getFace hF hG, hv]

/-- The two faces of the unit tests' first mesh. -/
theorem findOppositeVertexIndex_spec_trivial :
    ∃ v : ℤ, findOppositeVertexIndex (R := ℤ) ⟨.new, [⟨![0, 1, 3]⟩, ⟨![1, 2, 3]⟩]⟩ 0 1 = some v ∧
      0 ≤ v := by
  have hF : Face.Proper ⟨![0, 1, 3]⟩ := ⟨by decide, by decide⟩
  have hG : Face.Proper ⟨![1, 2, 3]⟩ := ⟨by decide, by decide⟩
  obtain ⟨v, hv, hcard, -⟩ := findOppositeVertexIndex_spec
    (m := (⟨.new, [⟨![0, 1, 3]⟩, ⟨![1, 2, 3]⟩]⟩ : FaceMesh ℤ)) (f := 0) (g := 1) rfl rfl hF hG
  exact ⟨v, hv, hcard.2 (by decide)⟩

/-! ### Indices out of range -/

/-- **The pairs out of range that are reported**: those with an index greater than the number of
faces.  With an index equal to that number the access throws. -/
theorem findOppositeVertexIndex_reports_iff (h : m.n_Faces ≤ f ∨ m.n_Faces ≤ g) :
    m.findOppositeVertexIndex f g = some (-1) ↔ m.n_Faces < f ∨ m.n_Faces < g := by
  constructor
  · intro hreports
    by_contra hguard
    rw [findOppositeVertexIndex, if_neg hguard] at hreports
    obtain ⟨F, hF, hreports⟩ := Option.bind_eq_some_iff.1 hreports
    obtain ⟨G, hG, -⟩ := Option.bind_eq_some_iff.1 hreports
    have hf := getFace_lt hF
    have hg := getFace_lt hG
    omega
  · exact fun hguard => if_pos hguard

/-- An index one beyond the range is reported. -/
theorem findOppositeVertexIndex_reports_iff_three :
    findOppositeVertexIndex (R := ℤ) ⟨.new, [⟨![0, 1, 3]⟩, ⟨![1, 2, 3]⟩]⟩ 1 3 = some (-1) :=
  (findOppositeVertexIndex_reports_iff (.inr (by decide))).2 (.inr (by decide))

/-- **The first index out of range is not.** -/
theorem findOppositeVertexIndex_throws : ¬∀ (m : FaceMesh ℤ) (f g : ℕ),
    m.n_Faces ≤ f ∨ m.n_Faces ≤ g → m.findOppositeVertexIndex f g = some (-1) := by
  intro h
  have hreports := h ⟨.new, [⟨![0, 1, 3]⟩, ⟨![1, 2, 3]⟩]⟩ 1 2 (.inr (by decide))
  cases hreports

end FaceMesh
