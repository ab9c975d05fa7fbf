/-
**The data for which the flow past a body is defined.**

`lvr_fs` divides by the squared distance of a point from the mirror image of the vortex ring, by
`rks` and by `1 - rks`; `main` divides by the squared velocity of the stream and by differences of
the arc length, and reads the potential of the next element of a segment.  Nothing is tested.  In
the numbers of the source a division by zero gives an infinity or a NaN, at the reals it gives zero,
so that statements on the flow have to leave such data out.  Here are conditions on the data of a
body under which there are none.

Main definitions:

* `BodyAx.OffRing` — a point at which the vortex ring has a velocity;
* `BodyAx.Body.Regular` — the conditions on the data;
* `BodyAx.Parameters.Defined` — what they are for.

Main results:

* `BodyAx.OnSide.between` — the collocation points of a side are between its corners;
* `BodyAx.geometry_offRing` — **the collocation points of regular data are off the axis and off
  the ring**;
* `BodyAx.geometry_defined` — **with regular data what is computed on the contour is defined**.
-/

import CppSamples.BodyAxGeometry
import Mathlib.Tactic.LinearCombination

set_option relaxedAutoImplicit false
set_option autoImplicit false

namespace BodyAx

open CountedLoop Finset Lib PotentialLib

/-- Under a name, so that a definition with an index of a side needs no auxiliary lemma for it. -/
local instance neZero_corners : NeZero 3 := ⟨by decide⟩

/-! ### The vortex ring -/

/-- `d1` of `lvr_fs` for a point and the ring. -/
def Parameters.d1 (p : Parameters ℝ) (q : Point ℝ) : ℝ :=
  (q.x0 - p.xlvr) * (q.x0 - p.xlvr) + (q.y0 + p.ylvr) * (q.y0 + p.ylvr)

/-- `rks` of `lvr_fs` for a point and the ring. -/
noncomputable def Parameters.rks (p : Parameters ℝ) (q : Point ℝ) : ℝ :=
  four * q.y0 * p.ylvr / p.d1 q

/-- The ring has a velocity at a point: no division is by zero, and the elliptic integrals are those
of a modulus between zero and one. -/
structure OffRing (p : Parameters ℝ) (q : Point ℝ) : Prop where
  d1 : 0 < p.d1 q
  rks_pos : 0 < p.rks q
  rks_lt : p.rks q < 1

/-- Above the axis this is so but for the point of the ring. -/
theorem offRing_of_ne {p : Parameters ℝ} {q : Point ℝ} (hring : 0 < p.ylvr) (hy : 0 < q.y0)
    (hne : q.x0 = p.xlvr → q.y0 ≠ p.ylvr) : OffRing p q := by
  have hd1 : 0 < p.d1 q :=
    add_pos_of_nonneg_of_pos (mul_self_nonneg _) (mul_self_pos.mpr (add_pos hy hring).ne')
  -- the distance from the ring is what the denominator is larger by
  have hdist : 0 < (q.x0 - p.xlvr) * (q.x0 - p.xlvr) + (q.y0 - p.ylvr) * (q.y0 - p.ylvr) := by
    by_cases hx : q.x0 = p.xlvr
    · exact add_pos_of_nonneg_of_pos (mul_self_nonneg _)
        (mul_self_pos.mpr (sub_ne_zero.mpr (hne hx)))
    · exact add_pos_of_pos_of_nonneg (mul_self_pos.mpr (sub_ne_zero.mpr hx)) (mul_self_nonneg _)
  have hfour : (four : ℝ) = 4 := rfl
  refine ⟨hd1, ?_, ?_⟩
  · rw [Parameters.rks, hfour]
    exact div_pos (by positivity) hd1
  · rw [Parameters.rks, hfour, div_lt_one hd1, Parameters.d1]
    linarith

/-! ### The points of the two bodies -/

section Points

variable {ellipticIntegral : ℝ → ℝ × ℝ} {out : VortexRing ℝ}

/-- The proportions of some of the elements do not exceed the whole. -/
theorem sum_proportion_le {n : ℕ} (hn : 1 ≤ n) {ratio : ℝ} (hratio : 0 < ratio) (isym : ℤ) {l : ℕ}
    (hl : l ≤ n) : ∑ k ∈ range l, proportion n ratio isym k ≤ 1 := by
  obtain ⟨-, -, hsum⟩ := proportion_spec hn hratio isym
  have hle : ∑ k ∈ range l, proportion n ratio isym k ≤ ∑ k ∈ range n, proportion n ratio isym k :=
    sum_le_sum_of_subset_of_nonneg (range_mono hl) fun k _ _ => (proportion_pos hn hratio isym k).le
  refine hle.trans ?_
  rw [hsum]
  split_ifs
  · exact (div_le_one (by positivity)).mpr (by linarith)
  · exact le_rfl

/-- **A collocation point of a side is between its corners.** -/
theorem OnSide.between {p : Parameters ℝ} {first n : ℕ} {ratio x1 y1 x2 y2 sinit : ℝ} {isym : ℤ}
    {e m : Nodes ℝ} (hratio : 0 < ratio)
    (h : OnSide ellipticIntegral out p first n (elmLine n ratio x1 y1 x2 y2 sinit isym e m)) {l : ℕ}
    (hl : l < n) :
    ∃ t, 0 < t ∧ t < 1 ∧ (p.point (first + l)).x0 = x1 + (x2 - x1) * t ∧
      (p.point (first + l)).y0 = y1 + (y2 - y1) * t := by
  obtain ⟨p', -, hpoints⟩ := h
  obtain ⟨old, hold⟩ := hpoints l hl
  have hn : 1 ≤ n := by omega
  set r := elmLine n ratio x1 y1 x2 y2 sinit isym e m with hr
  have hplaced : Placed x1 y1 x2 y2 sinit (proportion n ratio isym) n r.1 :=
    endNodes_placed hn hratio x1 y1 x2 y2 sinit isym e
  obtain ⟨hmx, hmy, -⟩ := midNodes_spec n r.1 m l hl
  obtain ⟨hx, hy, -⟩ := hplaced l hl.le
  obtain ⟨hx', hy', -⟩ := hplaced (l + 1) hl
  have hw := proportion_pos hn hratio isym l
  have hnonneg : 0 ≤ ∑ k ∈ range l, proportion n ratio isym k :=
    sum_nonneg fun k _ => (proportion_pos hn hratio isym k).le
  have hle := sum_proportion_le hn hratio isym hl
  rw [sum_range_succ] at hx' hy' hle
  refine ⟨∑ k ∈ range l, proportion n ratio isym k + proportion n ratio isym l / 2, by linarith,
    by linarith, ?_, ?_⟩
  · rw [hold]
    refine hmx.trans ?_
    rw [hx, hx']
    ring
  · rw [hold]
    refine hmy.trans ?_
    rw [hy, hy']
    ring

/-- The points of the sphere are above the axis, and off the ring, which is half as high. -/
theorem SphereData.pointAt_offRing {d : SphereData ℝ} (hrad : 0 < d.rad) {p p' : Parameters ℝ}
    (hxlvr : p.xlvr = d.xcenter) (hylvr : p.ylvr = d.rad / 2) {i : ℕ} (hi : i < d.ne) :
    OffRing p (d.pointAt ellipticIntegral out p' i) := by
  have hn : (0 : ℝ) < d.ne := by exact_mod_cast (by omega : 0 < d.ne)
  set t₀ : ℝ := 1 / 2 * (i * (Real.pi / d.ne) + (i + 1 : ℕ) * (Real.pi / d.ne)) with ht₀
  have hangle : t₀ = (2 * i + 1) / (2 * d.ne) * Real.pi := by
    rw [ht₀]
    push_cast
    field_simp
    ring
  have hpart : (2 * i + 1 : ℝ) / (2 * d.ne) < 1 := by
    rw [div_lt_one (by positivity)]
    exact_mod_cast (by omega : 2 * i + 1 < 2 * d.ne)
  have hpos : 0 < t₀ := hangle ▸ mul_pos (by positivity) Real.pi_pos
  have hlt : t₀ < Real.pi := by
    rw [hangle]
    exact mul_lt_of_lt_one_left Real.pi_pos hpart
  have hsin : 0 < Real.sin t₀ := Real.sin_pos_of_pos_of_lt_pi hpos hlt
  have hx : (d.pointAt ellipticIntegral out p' i).x0 = d.xcenter + d.rad * Real.cos t₀ := rfl
  have hy : (d.pointAt ellipticIntegral out p' i).y0 = d.rad * Real.sin t₀ := zero_add _
  refine offRing_of_ne (by rw [hylvr]; exact half_pos hrad) (hy ▸ mul_pos hrad hsin) ?_
  -- right above the ring the point of the sphere is at the top
  intro hcenter htop
  have hcos : Real.cos t₀ = 0 := by
    rw [hx, hxlvr, add_eq_left] at hcenter
    exact (mul_eq_zero.mp hcenter).resolve_left hrad.ne'
  have hhalf : Real.sin t₀ = 1 / 2 := by
    rw [hy, hylvr] at htop
    exact mul_left_cancel₀ hrad.ne' (htop.trans (div_eq_mul_one_div _ _))
  have hunit := Real.sin_sq_add_cos_sq t₀
  rw [hcos, hhalf] at hunit
  norm_num at hunit

end Points

/-! ### The data -/

/-- The data of a body with a stream: a sphere with a positive radius and two elements or more; or a
triangle that is not flat, has at most one corner on the axis and none below it, and has two
elements or more and a positive stretch ratio on each side. -/
def Body.Regular : Body ℝ → Prop
  | .sphere d => 0 < d.rad ∧ 2 ≤ d.ne ∧ d.vx ≠ 0
  | .torus d => (∀ k : Fin 3, 0 < d.rt k ∧ 2 ≤ d.ne k ∧ 0 ≤ d.y k ∧ 0 < d.y k + d.y (k + 1)) ∧
      (d.x 1 - d.x 0) * (d.y 2 - d.y 0) ≠ (d.x 2 - d.x 0) * (d.y 1 - d.y 0) ∧ d.vx ≠ 0

/-- The doubled area of the triangle from each of its corners. -/
theorem TorusData.area_eq (d : TorusData ℝ) (k : Fin 3) :
    (d.x (k + 1) - d.x k) * (d.y (k + 2) - d.y k) - (d.x (k + 2) - d.x k) * (d.y (k + 1) - d.y k) =
      (d.x 1 - d.x 0) * (d.y 2 - d.y 0) - (d.x 2 - d.x 0) * (d.y 1 - d.y 0) := by
  fin_cases k
  · rfl
  · change (d.x 2 - d.x 1) * (d.y 0 - d.y 1) - (d.x 0 - d.x 1) * (d.y 2 - d.y 1) = _
    ring
  · change (d.x 0 - d.x 2) * (d.y 1 - d.y 2) - (d.x 1 - d.x 2) * (d.y 0 - d.y 2) = _
    ring

/-- The centroid, with the corners from any of them on. -/
theorem TorusData.centroid_eq (d : TorusData ℝ) (gl : GaussLegendre ℝ) (raw : Parameters ℝ)
    (k : Fin 3) :
    (d.prepare gl raw).xlvr = (d.x k + d.x (k + 1) + d.x (k + 2)) / 3 ∧
      (d.prepare gl raw).ylvr = (d.y k + d.y (k + 1) + d.y (k + 2)) / 3 := by
  simp only [TorusData.prepare]
  push_cast
  fin_cases k
  · exact ⟨rfl, rfl⟩
  · change _ = (d.x 1 + d.x 2 + d.x 0) / 3 ∧ _ = (d.y 1 + d.y 2 + d.y 0) / 3
    constructor <;> ring
  · change _ = (d.x 2 + d.x 0 + d.x 1) / 3 ∧ _ = (d.y 2 + d.y 0 + d.y 1) / 3
    constructor <;> ring

/-- The centroid is on the line of no side. -/
theorem TorusData.centroid_not_on_side (d : TorusData ℝ)
    (hflat : (d.x 1 - d.x 0) * (d.y 2 - d.y 0) ≠ (d.x 2 - d.x 0) * (d.y 1 - d.y 0)) (k : Fin 3)
    (t : ℝ) (hx : (d.x k + d.x (k + 1) + d.x (k + 2)) / 3 = d.x k + (d.x (k + 1) - d.x k) * t) :
    (d.y k + d.y (k + 1) + d.y (k + 2)) / 3 ≠ d.y k + (d.y (k + 1) - d.y k) * t := by
  intro hy
  have harea := d.area_eq k
  refine hflat (sub_eq_zero.mp (harea.symm.trans ?_))
  linear_combination 3 * (d.x (k + 1) - d.x k) * hy - 3 * (d.y (k + 1) - d.y k) * hx

/-- A point inside a side with at most one corner on the axis is above it. -/
theorem side_pos {y₀ y₁ t : ℝ} (h₀ : 0 ≤ y₀) (h₁ : 0 ≤ y₁) (hsum : 0 < y₀ + y₁) (ht : 0 < t)
    (ht' : t < 1) : 0 < y₀ + (y₁ - y₀) * t := by
  have hconvex : y₀ + (y₁ - y₀) * t = (1 - t) * y₀ + t * y₁ := by ring
  rw [hconvex]
  rcases h₀.lt_or_eq with hpos | hzero
  · exact add_pos_of_pos_of_nonneg (mul_pos (sub_pos.mpr ht') hpos) (mul_nonneg ht.le h₁)
  · exact add_pos_of_nonneg_of_pos (mul_nonneg (sub_pos.mpr ht').le h₀) (mul_pos ht (by linarith))

/-- Such data are proper. -/
theorem Body.Regular.proper {b : Body ℝ} (hb : b.Regular) : b.Proper := by
  cases b with
  | sphere d => exact hb.1
  | torus d =>
      intro k
      refine ⟨(hb.1 k).1, fun hsame => hb.2.1 ?_⟩
      obtain ⟨hx, hy⟩ := Prod.mk.inj hsame
      have harea := d.area_eq k
      rw [← hx, ← hy, sub_self, sub_self, zero_mul, mul_zero, sub_self] at harea
      exact (sub_eq_zero.mp harea.symm)

variable (ellipticIntegral : ℝ → ℝ × ℝ) (out : VortexRing ℝ) (gl : GaussLegendre ℝ)
  (raw : Parameters ℝ) (nodes : Nodes ℝ)

/-- **The collocation points of a body with regular data are off the axis and off the ring.** -/
theorem geometry_offRing {b : Body ℝ} (hb : b.Regular) {j : ℕ}
    (hj : j < (b.geometry ellipticIntegral out gl raw nodes).ncl) :
    OffRing (b.geometry ellipticIntegral out gl raw nodes)
      ((b.geometry ellipticIntegral out gl raw nodes).point j) := by
  cases b with
  | sphere d =>
      obtain ⟨p, -, hncl, -, -, hpoint⟩ := sphere_spec ellipticIntegral out d gl raw
      have hflow := sphere_flow ellipticIntegral out d gl raw
      simp only [Parameters.flow, SphereData.prepare, Prod.mk.injEq] at hflow
      obtain ⟨-, -, hxlvr, hylvr⟩ := hflow
      rw [Body.geometry, hncl] at hj
      rw [Body.geometry, hpoint j hj]
      refine SphereData.pointAt_offRing hb.1 hxlvr (hylvr.trans ?_) hj
      have hhalf : (half : ℝ) = 1 / 2 := rfl
      rw [hhalf]
      ring
  | torus d =>
      obtain ⟨hflow, -, hne, hncl, hsides⟩ := torus_spec ellipticIntegral out d gl raw nodes
      simp only [Parameters.flow, Prod.mk.injEq] at hflow
      obtain ⟨-, -, hxlvr, hylvr⟩ := hflow
      rw [Body.geometry, hncl] at hj
      obtain ⟨k, hk, l, hl, rfl⟩ := exists_before_add hj
      let k' : Fin 3 := ⟨k, hk⟩
      obtain ⟨sinit, e, m, hon⟩ := hsides k'
      have hl' : l < d.ne k' := hne k' ▸ hl
      obtain ⟨t, ht, ht', hx, hy⟩ := hon.between (hb.1 k').1 hl'
      obtain ⟨hxc, hyc⟩ := d.centroid_eq gl raw k'
      obtain ⟨-, -, hy₀, hsum⟩ := hb.1 k'
      obtain ⟨-, -, hy₁, -⟩ := hb.1 (k' + 1)
      obtain ⟨-, -, hy₂, -⟩ := hb.1 (k' + 2)
      refine offRing_of_ne (hylvr.trans hyc ▸ by linarith)
        (hy ▸ side_pos hy₀ hy₁ hsum ht ht') fun hxeq hyeq => ?_
      exact d.centroid_not_on_side hb.2.1 k' t (hxc.symm.trans (hxlvr.symm.trans (hxeq.symm.trans hx)))
        (hyc.symm.trans (hylvr.symm.trans (hyeq.symm.trans hy)))

/-- What is computed on the contour is defined: there is a stream, each segment has two elements or
more, the collocation points have a tangent and a velocity of the ring, and the arc length increases
along each segment. -/
structure Parameters.Defined (p : Parameters ℝ) : Prop where
  vx : p.vx ≠ 0
  two_le : ∀ k < p.nsg, 2 ≤ p.ne k
  unit : ∀ j < p.ncl, (p.point j).tnx0 ^ 2 + (p.point j).tny0 ^ 2 = 1
  offRing : ∀ j < p.ncl, OffRing p (p.point j)
  s0 : ∀ k < p.nsg, ∀ l, l + 1 < p.ne k → (p.pointOf k l).s0 < (p.pointOf k (l + 1)).s0

/-- **With regular data what is computed on the contour is defined.** -/
theorem geometry_defined {b : Body ℝ} (hb : b.Regular) :
    (b.geometry ellipticIntegral out gl raw nodes).Defined where
  vx := by
    cases b with
    | sphere d =>
        have hvx := congrArg Prod.fst (sphere_flow ellipticIntegral out d gl raw)
        exact fun h => hb.2.2 (hvx.symm.trans h)
    | torus d =>
        have hvx := congrArg Prod.fst (torus_spec ellipticIntegral out d gl raw nodes).1
        exact fun h => hb.2.2 (hvx.symm.trans h)
  two_le k hk := by
    cases b with
    | sphere d =>
        obtain ⟨p, -, -, hnsg, hne, -⟩ := sphere_spec ellipticIntegral out d gl raw
        rw [Body.geometry, hnsg] at hk
        obtain rfl : k = 0 := by omega
        exact hne.symm ▸ hb.2.1
    | torus d =>
        obtain ⟨-, hnsg, hne, -⟩ := torus_spec ellipticIntegral out d gl raw nodes
        rw [Body.geometry, hnsg] at hk
        exact hne ⟨k, hk⟩ ▸ (hb.1 ⟨k, hk⟩).2.1
  unit _ hj := (geometry_cancels ellipticIntegral out gl raw nodes hb.proper hj).unit
  offRing _ hj := geometry_offRing ellipticIntegral out gl raw nodes hb hj
  s0 _ hk _ hl := geometry_s0_lt ellipticIntegral out gl raw nodes hb.proper hk hl

end BodyAx
