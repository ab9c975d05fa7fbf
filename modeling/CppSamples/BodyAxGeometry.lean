/-
**The bodies of `body_ax`.**

`body_ax_geo.tcc` makes the elements and the collocation points of two bodies from the numbers it
has read: a sphere, whose contour is one arc of equal elements, and a torus whose section is a
triangle, whose contour has three straight sides with elements from `elm_line`.  At each collocation
point it keeps the unit tangent, the unit normal and the normal derivative of the disturbance
potential, which has to cancel the incident stream and the velocity of a line vortex ring inside the
body.  That velocity is computed in `lvr_fs.tcc`.

Main definitions:

* `BodyAx.lvrFs` — the line vortex ring;
* `BodyAx.Parameters` — what the geometry hands over;
* `BodyAx.sphere`, `BodyAx.torus` — the two bodies.

Main results:

* `BodyAx.geometry_ncl` — the collocation points are numbered through the segments;
* `BodyAx.geometry_cancels` — **every collocation point has an orthonormal frame and cancels the
  flow** that comes in along its normal;
* `BodyAx.geometry_s0_lt` — the arc length increases along each segment;
* `BodyAx.torus_straight` — the points of a side of the torus are where their arc lengths say.
-/

import CppSamples.ElementSizes
import CppSamples.BodyAxSdlp

set_option relaxedAutoImplicit false
set_option autoImplicit false

namespace BodyAx

open CountedLoop Function Lib PotentialLib

/-- Under a name, so that a definition with an index of a side needs no auxiliary lemma for it. -/
local instance neZero_three : NeZero 3 := ⟨by decide⟩

section Code

variable {T : Type*} [Zero T] [One T] [Add T] [Sub T] [Mul T] [Div T] [Neg T] [NatCast T] [Lib T]
  [PotentialLib T]

/-! ### The line vortex ring -/

/-- The velocity and the Stokes stream function. -/
structure VortexRing (T : Type*) where
  u : T
  v : T
  psi : T

/-- **The velocity due to a line vortex ring.**  For `iopt` equal to `1` the stream function is left
as it was in `out`. -/
def lvrFs (ellipticIntegral : T → T × T) (iopt : ℤ) (x s x0 s0 : T) (out : VortexRing T) :
    VortexRing T :=
  let dx := x - x0
  let dxs := dx * dx
  let sps0 := s + s0
  let rks := four * s * s0 / (dxs + sps0 * sps0)
  let (f, e) := ellipticIntegral rks
  let rj30 := e / (1 - rks)
  let rj31 := (-two * f + e * (two - rks) / (1 - rks)) / rks
  let d1 := dxs + sps0 * sps0
  let cf := four / sqrt (d1 * d1 * d1)
  let ri30 := cf * rj30
  let ri31 := cf * rj31
  let u := (-s * ri31 + s0 * ri30) / fourPi
  let v := dx * ri31 / fourPi
  if iopt = 1 then { out with u := u, v := v }
  else
    let rk := sqrt rks
    let rj11 := ((two - rks) * f - e * two) / rks
    let cf := four / sqrt (dxs + sps0 * sps0)
    let ri11 := cf * rj11
    ⟨u, v, rk * s * s0 * ri11 / fourPi⟩

/-! ### What the geometry hands over -/

/-- The entries of the arrays `x0`, `y0`, `t0`, `s0`, `dphidn0`, `tnx0`, `tny0`, `vnx0`, `vny0` and
`arel` for one collocation point. -/
structure Point (T : Type*) where
  x0 : T
  y0 : T
  t0 : T
  s0 : T
  dphidn0 : T
  tnx0 : T
  tny0 : T
  vnx0 : T
  vny0 : T
  arel : T

/-- The parameters of a run: the segments with their kinds, circles and end-nodes, the collocation
points, the incident flow, the line vortex ring and the window of the streamlines. -/
structure Parameters (T : Type*) where
  ncl : ℕ
  nsg : ℕ
  ne : ℕ → ℕ
  itp : ℕ → SegmentType
  xw : ℕ → ℕ → T
  yw : ℕ → ℕ → T
  tw : ℕ → ℕ → T
  actis : ℕ → T
  xcntr : ℕ → T
  ycntr : ℕ → T
  point : ℕ → Point T
  vx : T
  cr : T
  xlvr : T
  ylvr : T
  xwmin : T
  xwmax : T
  ywmin : T
  ywmax : T
  gl : GaussLegendre T

/-- Parameters before anything is read, with zeros in all arrays. -/
def Parameters.blank : Parameters T :=
  { ncl := 0, nsg := 0, ne := fun _ => 0, itp := fun _ => .straight
    xw := fun _ _ => 0, yw := fun _ _ => 0, tw := fun _ _ => 0
    actis := fun _ => 0, xcntr := fun _ => 0, ycntr := fun _ => 0
    point := fun _ => ⟨0, 0, 0, 0, 0, 0, 0, 0, 0, 0⟩
    vx := 0, cr := 0, xlvr := 0, ylvr := 0, xwmin := 0, xwmax := 0, ywmin := 0, ywmax := 0
    gl := ⟨0, fun _ => 0, fun _ => 0⟩ }

variable (ellipticIntegral : T → T × T) (out : VortexRing T)

/-- The velocity of the vortex ring at a point, with the strength left out. -/
def Parameters.ring (p : Parameters T) (x y : T) : VortexRing T :=
  lvrFs ellipticIntegral 1 x y p.xlvr p.ylvr out

/-- The normal derivative of the disturbance potential at a point with the normal `(vnx, vny)`. -/
def Parameters.normalDerivative (p : Parameters T) (x y vnx vny : T) : T :=
  let dphidn0 := -p.vx * vnx
  let lvr := p.ring ellipticIntegral out x y
  dphidn0 - p.cr * (lvr.u * vnx + lvr.v * vny)

/-! ### The sphere -/

/-- What is read for a sphere. -/
structure SphereData (T : Type*) where
  rad : T
  xcenter : T
  vx : T
  cr : T
  ne : ℕ
  xwmin : T
  xwmax : T
  ywmin : T
  ywmax : T

/-- The angle of an element. -/
def SphereData.dth (d : SphereData T) : T := pi / (d.ne : T)

/-- The end-node `i` of the arc: `te`, `xe` and `ye`. -/
def SphereData.node (d : SphereData T) (i : ℕ) : T × T × T :=
  let angle := (i : T) * d.dth
  (angle, d.xcenter + d.rad * cos angle, d.rad * sin angle)

/-- The arc length of the end-node `i`. -/
def SphereData.se (d : SphereData T) (i : ℕ) : T := (i : T) * d.dth * d.rad

/-- The collocation point of element `i`. -/
def SphereData.pointAt (d : SphereData T) (p : Parameters T) (i : ℕ) : Point T :=
  let t0 := half * ((d.node i).1 + (d.node (i + 1)).1)
  let x0 := d.xcenter + d.rad * cos t0
  let y0 := 0 + d.rad * sin t0
  let tnx0 := -sin t0
  let tny0 := cos t0
  let vnx0 := tny0
  let vny0 := -tnx0
  { x0, y0, t0, tnx0, tny0, vnx0, vny0
    s0 := half * (d.se i + d.se (i + 1))
    arel := d.dth * d.rad * twoPi * y0
    dphidn0 := p.normalDerivative ellipticIntegral out x0 y0 vnx0 vny0 }

/-- The parameters of a sphere but for its nodes and points; the vortex ring is inside the sphere.
`raw` is what the arrays hold before. -/
def SphereData.prepare (d : SphereData T) (gl : GaussLegendre T) (raw : Parameters T) :
    Parameters T :=
  { raw with
    nsg := 1
    ncl := d.ne
    ne := update raw.ne 0 d.ne
    itp := update raw.itp 0 .arc
    actis := update raw.actis 0 d.rad
    xcntr := update raw.xcntr 0 d.xcenter
    ycntr := update raw.ycntr 0 0
    vx := d.vx
    cr := d.cr
    xlvr := d.xcenter
    ylvr := half * d.rad
    xwmin := d.xwmin
    xwmax := d.xwmax
    ywmin := d.ywmin
    ywmax := d.ywmax
    gl := gl }

/-- **The sphere**: one arc of equal elements. -/
def sphere (d : SphereData T) (gl : GaussLegendre T) (raw : Parameters T) : Parameters T :=
  let p := forUpTo 0 d.ne (d.prepare gl raw) fun i p =>
    { p with
      tw := update p.tw 0 (update (p.tw 0) i (d.node i).1)
      xw := update p.xw 0 (update (p.xw 0) i (d.node i).2.1)
      yw := update p.yw 0 (update (p.yw 0) i (d.node i).2.2) }
  forBelow 0 d.ne p fun i p =>
    { p with point := update p.point i (d.pointAt ellipticIntegral out p i) }

/-! ### The torus -/

/-- What is read for a torus: the corners of the triangle, the numbers of elements of its sides and
their stretch ratios. -/
structure TorusData (T : Type*) where
  x : Fin 3 → T
  y : Fin 3 → T
  vx : T
  cr : T
  ne : Fin 3 → ℕ
  rt : Fin 3 → T
  xwmin : T
  xwmax : T
  ywmin : T
  ywmax : T

/-- The collocation point of element `i` of a side with the end-nodes `e` and the mid-nodes `m`; its
angle is not set. -/
def pointOnSide (p : Parameters T) (e m : Nodes T) (i : ℕ) (old : Point T) : Point T :=
  let x0 := m.x i
  let y0 := m.y i
  let ddx := e.x (i + 1) - e.x i
  let ddy := e.y (i + 1) - e.y i
  let ddl := sqrt (ddx * ddx + ddy * ddy)
  let tnx0 := ddx / ddl
  let tny0 := ddy / ddl
  let vnx0 := tny0
  let vny0 := -tnx0
  { old with
    x0, y0, tnx0, tny0, vnx0, vny0
    s0 := m.s i
    arel := ddl * twoPi * y0
    dphidn0 := p.normalDerivative ellipticIntegral out x0 y0 vnx0 vny0 }

/-- The parameters so far, the nodes of the last side and the arc length at its end.  The field
`ncl` counts the collocation points, so that it is one more than the index `ic` of the last one. -/
structure Contour (T : Type*) where
  p : Parameters T
  e : Nodes T
  m : Nodes T
  sinit : T

/-- The end-nodes of side `k` are kept. -/
def storeNodes (k n : ℕ) (e : Nodes T) (p : Parameters T) : Parameters T :=
  forUpTo 0 n p fun i p =>
    { p with
      xw := update p.xw k (update (p.xw k) i (e.x i))
      yw := update p.yw k (update (p.yw k) i (e.y i)) }

/-- The collocation points of a side are added. -/
def storePoints (n : ℕ) (e m : Nodes T) (p : Parameters T) : Parameters T :=
  forBelow 0 n p fun i p =>
    { p with
      ncl := p.ncl + 1
      point := update p.point p.ncl
        (pointOnSide ellipticIntegral out p e m i (p.point p.ncl)) }

/-- Side `k` of the triangle, from `(x1, y1)` to `(x2, y2)`. -/
def side (k n : ℕ) (ratio x1 y1 x2 y2 : T) (c : Contour T) : Contour T :=
  let p := { c.p with itp := update c.p.itp k .straight }
  let (e, m) := elmLine n ratio x1 y1 x2 y2 c.sinit 1 c.e c.m
  ⟨storePoints ellipticIntegral out n e m (storeNodes k n e p), e, m, e.s n⟩

/-- The parameters of a torus but for its nodes and points; the vortex ring is at the centroid.
`raw` is what the arrays hold before. -/
def TorusData.prepare (d : TorusData T) (gl : GaussLegendre T) (raw : Parameters T) :
    Parameters T :=
  { raw with
    nsg := 3
    ncl := 0
    ne := update (update (update raw.ne 0 (d.ne 0)) 1 (d.ne 1)) 2 (d.ne 2)
    vx := d.vx
    cr := d.cr
    xlvr := (d.x 0 + d.x 1 + d.x 2) / ((3 : ℕ) : T)
    ylvr := (d.y 0 + d.y 1 + d.y 2) / ((3 : ℕ) : T)
    xwmin := d.xwmin
    xwmax := d.xwmax
    ywmin := d.ywmin
    ywmax := d.ywmax
    gl := gl }

/-- **The torus**: the three sides of the triangle, one after the other.  `nodes` is what their
arrays hold before. -/
def torus (d : TorusData T) (gl : GaussLegendre T) (raw : Parameters T) (nodes : Nodes T) :
    Parameters T :=
  let c : Contour T := ⟨d.prepare gl raw, nodes, nodes, 0⟩
  let c := side ellipticIntegral out 0 (d.ne 0) (d.rt 0) (d.x 0) (d.y 0) (d.x 1) (d.y 1) c
  let c := side ellipticIntegral out 1 (d.ne 1) (d.rt 1) (d.x 1) (d.y 1) (d.x 2) (d.y 2) c
  let c := side ellipticIntegral out 2 (d.ne 2) (d.rt 2) (d.x 2) (d.y 2) (d.x 0) (d.y 0) c
  c.p

/-! ### The bodies -/

/-- What is read. -/
inductive Body (T : Type*)
  | sphere (d : SphereData T)
  | torus (d : TorusData T)

/-- The geometry of a body. -/
def Body.geometry (gl : GaussLegendre T) (raw : Parameters T) (nodes : Nodes T) :
    Body T → Parameters T
  | .sphere d => BodyAx.sphere ellipticIntegral out d gl raw
  | .torus d => BodyAx.torus ellipticIntegral out d gl raw nodes

/-- The number of collocation points before segment `k`. -/
def Parameters.offset (p : Parameters T) (k : ℕ) : ℕ := before p.ne k

/-- The collocation point of element `l` of segment `k`. -/
def Parameters.pointOf (p : Parameters T) (k l : ℕ) : Point T := p.point (p.offset k + l)

end Code

/-! ### What the collocation points are -/

section Exact

variable (ellipticIntegral : ℝ → ℝ × ℝ) (out : VortexRing ℝ)

/-- The numbers that the normal derivative depends on. -/
def Parameters.flow (p : Parameters ℝ) : ℝ × ℝ × ℝ × ℝ := (p.vx, p.cr, p.xlvr, p.ylvr)

/-- A collocation point with an orthonormal frame whose normal derivative cancels the flow that
comes in along the normal. -/
structure Cancels (p : Parameters ℝ) (q : Point ℝ) : Prop where
  unit : q.tnx0 ^ 2 + q.tny0 ^ 2 = 1
  vnx0 : q.vnx0 = q.tny0
  vny0 : q.vny0 = -q.tnx0
  dphidn0 : q.dphidn0 = -(p.vx * q.vnx0 +
    p.cr * ((p.ring ellipticIntegral out q.x0 q.y0).u * q.vnx0 +
      (p.ring ellipticIntegral out q.x0 q.y0).v * q.vny0))

variable {ellipticIntegral out}

theorem Cancels.congr {p p' : Parameters ℝ} (h : p.flow = p'.flow) {q : Point ℝ}
    (hq : Cancels ellipticIntegral out p q) : Cancels ellipticIntegral out p' q := by
  refine ⟨hq.unit, hq.vnx0, hq.vny0, ?_⟩
  simp only [Parameters.flow, Prod.mk.injEq] at h
  obtain ⟨hvx, hcr, hx, hy⟩ := h
  rw [hq.dphidn0, Parameters.ring, Parameters.ring, hvx, hcr, hx, hy]

/-- The points of the sphere do so, whatever the data are. -/
theorem SphereData.pointAt_cancels (d : SphereData ℝ) (p : Parameters ℝ) (i : ℕ) :
    Cancels ellipticIntegral out p (d.pointAt ellipticIntegral out p i) where
  unit := by
    simp only [SphereData.pointAt, PotentialLib.sin, PotentialLib.cos, neg_sq]
    exact Real.sin_sq_add_cos_sq _
  vnx0 := rfl
  vny0 := rfl
  dphidn0 := by
    simp only [SphereData.pointAt, Parameters.normalDerivative]
    ring

/-- The points of a side do so where the end-nodes of the element are different. -/
theorem pointOnSide_cancels (p : Parameters ℝ) {e m : Nodes ℝ} {i : ℕ} (old : Point ℝ)
    (h : 0 < e.length (i + 1)) :
    Cancels ellipticIntegral out p (pointOnSide ellipticIntegral out p e m i old) where
  unit := by
    have hlen : √((e.x (i + 1) - e.x i) * (e.x (i + 1) - e.x i) +
        (e.y (i + 1) - e.y i) * (e.y (i + 1) - e.y i)) = e.length (i + 1) := by
      rw [Nodes.length, distance, Nat.add_sub_cancel, sq, sq]
    have hsq : e.length (i + 1) ^ 2 =
        (e.x (i + 1) - e.x i) ^ 2 + (e.y (i + 1) - e.y i) ^ 2 := by
      rw [Nodes.length, distance, Nat.add_sub_cancel, Real.sq_sqrt (by positivity)]
    simp only [pointOnSide, Lib.sqrt]
    rw [hlen, div_pow, div_pow, ← add_div, ← hsq, div_self (pow_pos h 2).ne']
  vnx0 := rfl
  vny0 := rfl
  dphidn0 := by
    simp only [pointOnSide, Parameters.normalDerivative]
    ring

/-! ### The loops -/

/-- The loop over the end-nodes changes only their arrays. -/
theorem exists_nodes_sphere (d : SphereData ℝ) (p : Parameters ℝ) (n : ℕ) :
    ∃ xw yw tw, forUpTo 0 n p (fun i p =>
      { p with
        tw := update p.tw 0 (update (p.tw 0) i (d.node i).1)
        xw := update p.xw 0 (update (p.xw 0) i (d.node i).2.1)
        yw := update p.yw 0 (update (p.yw 0) i (d.node i).2.2) }) =
      { p with xw := xw, yw := yw, tw := tw } := by
  refine forBelow_inv_const (fun q : Parameters ℝ => ∃ xw yw tw,
    q = { p with xw := xw, yw := yw, tw := tw }) ⟨_, _, _, rfl⟩ ?_
  rintro i - - q ⟨xw, yw, tw, rfl⟩
  exact ⟨_, _, _, rfl⟩

/-- The loop over the collocation points of the sphere. -/
theorem points_sphere (d : SphereData ℝ) (p : Parameters ℝ) (n : ℕ) :
    forBelow 0 n p (fun i p =>
      { p with point := update p.point i (d.pointAt ellipticIntegral out p i) }) =
      { p with point := fun j =>
          if j < n then d.pointAt ellipticIntegral out p j else p.point j } := by
  refine forBelow_inv n.zero_le (fun i (q : Parameters ℝ) => q = { p with
    point := fun j => if j < i then d.pointAt ellipticIntegral out p j else p.point j }) ?_ ?_
  · simp
  · rintro i - - q rfl
    congr 1
    funext j
    by_cases hj : j = i
    · subst hj
      rw [update_self, if_pos (by omega)]
      rfl
    · rw [update_of_ne hj]
      exact if_congr (by omega) rfl rfl

variable (ellipticIntegral out) in
/-- The loops of the sphere keep the numbers of the flow. -/
theorem sphere_flow (d : SphereData ℝ) (gl : GaussLegendre ℝ) (raw : Parameters ℝ) :
    (sphere ellipticIntegral out d gl raw).flow = (d.prepare gl raw).flow := by
  obtain ⟨xw, yw, tw, hnodes⟩ := exists_nodes_sphere d (d.prepare gl raw) d.ne
  rw [sphere, hnodes, points_sphere]
  rfl

variable (ellipticIntegral out) in
/-- **The sphere**: its numbers and its points. -/
theorem sphere_spec (d : SphereData ℝ) (gl : GaussLegendre ℝ) (raw : Parameters ℝ) :
    ∃ p : Parameters ℝ, (sphere ellipticIntegral out d gl raw).flow = p.flow ∧
      (sphere ellipticIntegral out d gl raw).ncl = d.ne ∧
      (sphere ellipticIntegral out d gl raw).nsg = 1 ∧
      (sphere ellipticIntegral out d gl raw).ne 0 = d.ne ∧
      ∀ j < d.ne, (sphere ellipticIntegral out d gl raw).point j =
        d.pointAt ellipticIntegral out p j := by
  obtain ⟨xw, yw, tw, hnodes⟩ := exists_nodes_sphere d (d.prepare gl raw) d.ne
  rw [sphere, hnodes, points_sphere]
  have hne : (d.prepare gl raw).ne 0 = d.ne := by
    simp only [SphereData.prepare, update_self]
  exact ⟨_, rfl, rfl, rfl, hne, fun j hj => if_pos hj⟩

/-- The loop over the end-nodes of a side leaves everything else alone. -/
theorem storeNodes_spec (k n : ℕ) (e : Nodes ℝ) (p : Parameters ℝ) :
    (storeNodes k n e p).flow = p.flow ∧ (storeNodes k n e p).nsg = p.nsg ∧
      (storeNodes k n e p).ne = p.ne ∧ (storeNodes k n e p).ncl = p.ncl ∧
      (storeNodes k n e p).point = p.point :=
  forBelow_inv_const (fun q : Parameters ℝ => q.flow = p.flow ∧ q.nsg = p.nsg ∧ q.ne = p.ne ∧
    q.ncl = p.ncl ∧ q.point = p.point) ⟨rfl, rfl, rfl, rfl, rfl⟩ fun _ _ _ _ hq => hq

/-- The loop over the collocation points of a side, which come after those there are. -/
theorem storePoints_eq (n : ℕ) (e m : Nodes ℝ) (p : Parameters ℝ) :
    storePoints ellipticIntegral out n e m p =
      { p with
        ncl := p.ncl + n
        point := fun j => if p.ncl ≤ j ∧ j < p.ncl + n
          then pointOnSide ellipticIntegral out p e m (j - p.ncl) (p.point j) else p.point j } := by
  refine forBelow_inv n.zero_le (fun i (q : Parameters ℝ) => q = { p with
    ncl := p.ncl + i
    point := fun j => if p.ncl ≤ j ∧ j < p.ncl + i
      then pointOnSide ellipticIntegral out p e m (j - p.ncl) (p.point j) else p.point j }) ?_ ?_
  · have hnone : (fun j => if p.ncl ≤ j ∧ j < p.ncl + 0
        then pointOnSide ellipticIntegral out p e m (j - p.ncl) (p.point j) else p.point j) =
        p.point := funext fun j => if_neg (by omega)
    rw [hnone]
    rfl
  · rintro i - - q rfl
    congr 1
    funext j
    by_cases hj : j = p.ncl + i
    · have hnot : ¬(p.ncl ≤ p.ncl + i ∧ p.ncl + i < p.ncl + i) := by omega
      have hin : p.ncl ≤ p.ncl + i ∧ p.ncl + i < p.ncl + (i + 1) := by omega
      subst hj
      simp only [update_self, if_neg hnot, if_pos hin, Nat.add_sub_cancel_left]
      rfl
    · rw [update_of_ne hj]
      exact if_congr (by omega) rfl rfl

variable (ellipticIntegral out) in
/-- It leaves the parameters and the points before alone. -/
theorem storePoints_spec (n : ℕ) (e m : Nodes ℝ) (p : Parameters ℝ) :
    let q := storePoints ellipticIntegral out n e m p
    q.flow = p.flow ∧ q.nsg = p.nsg ∧ q.ne = p.ne ∧ q.ncl = p.ncl + n ∧
      (∀ j < p.ncl, q.point j = p.point j) ∧
      ∀ l < n, q.point (p.ncl + l) =
        pointOnSide ellipticIntegral out p e m l (p.point (p.ncl + l)) := by
  intro q
  have hq : q = _ := storePoints_eq n e m p
  rw [hq]
  refine ⟨rfl, rfl, rfl, rfl, fun j hj => if_neg (by omega), fun l hl => ?_⟩
  have hin : p.ncl ≤ p.ncl + l ∧ p.ncl + l < p.ncl + n := by omega
  simp only [if_pos hin, Nat.add_sub_cancel_left]

variable (ellipticIntegral out) in
/-- The `n` points from `first` on are those of a side with the nodes `r`. -/
def OnSide (p : Parameters ℝ) (first n : ℕ) (r : Nodes ℝ × Nodes ℝ) : Prop :=
  ∃ p' : Parameters ℝ, p.flow = p'.flow ∧ ∀ l < n, ∃ old, p.point (first + l) =
    pointOnSide ellipticIntegral out p' r.1 r.2 l old

/-- The points of a side stay when others are added. -/
theorem OnSide.congr {p q : Parameters ℝ} {first n : ℕ} {r : Nodes ℝ × Nodes ℝ}
    (h : OnSide ellipticIntegral out p first n r) (hflow : q.flow = p.flow)
    (hpoint : ∀ j < first + n, q.point j = p.point j) :
    OnSide ellipticIntegral out q first n r := by
  obtain ⟨p', hp', hpoints⟩ := h
  refine ⟨p', hflow.trans hp', fun l hl => ?_⟩
  obtain ⟨old, hold⟩ := hpoints l hl
  exact ⟨old, (hpoint _ (by omega)).trans hold⟩

variable (ellipticIntegral out) in
/-- The parameters after a side: its `n` points come after those there are, and the rest stays. -/
structure AddsSide (p q : Parameters ℝ) (n : ℕ) (r : Nodes ℝ × Nodes ℝ) : Prop where
  flow : q.flow = p.flow
  nsg : q.nsg = p.nsg
  ne : q.ne = p.ne
  ncl : q.ncl = p.ncl + n
  before : ∀ j < p.ncl, q.point j = p.point j
  onSide : OnSide ellipticIntegral out q p.ncl n r

/-- **A side** adds its points. -/
theorem side_spec (k n : ℕ) (ratio x1 y1 x2 y2 : ℝ) (c : Contour ℝ) :
    AddsSide ellipticIntegral out c.p (side ellipticIntegral out k n ratio x1 y1 x2 y2 c).p n
      (elmLine n ratio x1 y1 x2 y2 c.sinit 1 c.e c.m) := by
  let r := elmLine n ratio x1 y1 x2 y2 c.sinit 1 c.e c.m
  let p₁ : Parameters ℝ := { c.p with itp := update c.p.itp k .straight }
  obtain ⟨hflow, hnsg, hne, hncl, hpoint⟩ := storeNodes_spec k n r.1 p₁
  obtain ⟨hflow', hnsg', hne', hncl', hbefore, hpoints⟩ :=
    storePoints_spec ellipticIntegral out n r.1 r.2 (storeNodes k n r.1 p₁)
  have hncl : (storeNodes k n r.1 p₁).ncl = c.p.ncl := hncl
  rw [hncl] at hncl' hbefore hpoints
  exact ⟨hflow'.trans hflow, hnsg'.trans hnsg, hne'.trans hne, hncl',
    fun j hj => (hbefore j hj).trans (congrFun hpoint j), _, hflow', fun l hl => ⟨_, hpoints l hl⟩⟩

variable (ellipticIntegral out) in
/-- **The torus**: its numbers, among them those of the flow, and its points, which are those of the
three sides. -/
theorem torus_spec (d : TorusData ℝ) (gl : GaussLegendre ℝ) (raw : Parameters ℝ)
    (nodes : Nodes ℝ) :
    let p := torus ellipticIntegral out d gl raw nodes
    p.flow = (d.prepare gl raw).flow ∧ p.nsg = 3 ∧ (∀ k : Fin 3, p.ne k = d.ne k) ∧
      p.ncl = p.offset 3 ∧
      ∀ k : Fin 3, ∃ sinit e m, OnSide ellipticIntegral out p (p.offset k) (d.ne k)
        (elmLine (d.ne k) (d.rt k) (d.x k) (d.y k) (d.x (k + 1)) (d.y (k + 1)) sinit 1 e m) := by
  intro p
  let c₀ : Contour ℝ := ⟨d.prepare gl raw, nodes, nodes, 0⟩
  let c₁ := side ellipticIntegral out 0 (d.ne 0) (d.rt 0) (d.x 0) (d.y 0) (d.x 1) (d.y 1) c₀
  let c₂ := side ellipticIntegral out 1 (d.ne 1) (d.rt 1) (d.x 1) (d.y 1) (d.x 2) (d.y 2) c₁
  have h₁ : AddsSide ellipticIntegral out c₀.p c₁.p (d.ne 0) _ := side_spec 0 _ _ _ _ _ _ c₀
  have h₂ : AddsSide ellipticIntegral out c₁.p c₂.p (d.ne 1) _ := side_spec 1 _ _ _ _ _ _ c₁
  have h₃ : AddsSide ellipticIntegral out c₂.p p (d.ne 2) _ := side_spec 2 _ _ _ _ _ _ c₂
  have hne : p.ne = (d.prepare gl raw).ne := h₃.ne.trans (h₂.ne.trans h₁.ne)
  have h0 : p.ne 0 = d.ne 0 := by simp [hne, TorusData.prepare]
  have h1 : p.ne 1 = d.ne 1 := by simp [hne, TorusData.prepare]
  have h2 : p.ne 2 = d.ne 2 := by simp [hne, TorusData.prepare]
  have hoffset₁ : p.offset 1 = d.ne 0 := by rw [Parameters.offset, before_one, h0]
  have hoffset₂ : p.offset 2 = p.offset 1 + d.ne 1 := by
    rw [Parameters.offset, Parameters.offset, before_succ _ 1, h1]
  have hoffset₃ : p.offset 3 = p.offset 2 + d.ne 2 := by
    rw [Parameters.offset, Parameters.offset, before_succ _ 2, h2]
  have hncl₀ : c₀.p.ncl = 0 := rfl
  have hncl₁ : c₁.p.ncl = p.offset 1 := by rw [h₁.ncl, hncl₀, hoffset₁, Nat.zero_add]
  have hncl₂ : c₂.p.ncl = p.offset 2 := by rw [h₂.ncl, hncl₁, hoffset₂]
  have hon₁ := h₁.onSide
  have hon₂ := h₂.onSide
  have hon₃ := h₃.onSide
  rw [hncl₁] at hon₂
  rw [hncl₂] at hon₃
  refine ⟨h₃.flow.trans (h₂.flow.trans h₁.flow), h₃.nsg.trans (h₂.nsg.trans h₁.nsg), ?_,
    by rw [h₃.ncl, hncl₂, hoffset₃], ?_⟩
  · intro k
    fin_cases k
    · exact h0
    · exact h1
    · exact h2
  · intro k
    fin_cases k
    · refine ⟨_, _, _, (hon₁.congr h₂.flow fun j hj => ?_).congr h₃.flow fun j hj => ?_⟩
      · exact h₂.before j (by omega)
      · exact h₃.before j (by omega)
    · exact ⟨_, _, _, hon₂.congr h₃.flow fun j hj => h₃.before j (by omega)⟩
    · exact ⟨_, _, _, hon₃⟩

/-! ### A side -/

section Side

variable {x1 y1 x2 y2 sinit : ℝ} {w : ℕ → ℝ} {n : ℕ} {e : Nodes ℝ}

/-- The tangent of a placed element. -/
theorem Placed.tangent (h : Placed x1 y1 x2 y2 sinit w n e) {l : ℕ} (hl : l < n) (hw : 0 < w l) :
    (e.x (l + 1) - e.x l) / e.length (l + 1) = (x2 - x1) / distance x1 y1 x2 y2 ∧
      (e.y (l + 1) - e.y l) / e.length (l + 1) = (y2 - y1) / distance x1 y1 x2 y2 := by
  obtain ⟨hx₀, hy₀, -⟩ := h l hl.le
  obtain ⟨hx₁, hy₁, -⟩ := h (l + 1) hl
  rw [Finset.sum_range_succ, mul_add, ← add_assoc, ← hx₀] at hx₁
  rw [Finset.sum_range_succ, mul_add, ← add_assoc, ← hy₀] at hy₁
  rw [(h.length hl hw.le).1, hx₁, hy₁, add_sub_cancel_left, add_sub_cancel_left]
  exact ⟨mul_div_mul_right _ _ hw.ne', mul_div_mul_right _ _ hw.ne'⟩

/-- The middle of a placed element is on the line from the first point, at its arc length. -/
theorem Placed.middle (h : Placed x1 y1 x2 y2 sinit w n e) (hne : (x1, y1) ≠ (x2, y2)) {l : ℕ}
    (hl : l < n) :
    (e.x l + e.x (l + 1)) / 2 =
        x1 + (x2 - x1) / distance x1 y1 x2 y2 * ((e.s l + e.s (l + 1)) / 2 - sinit) ∧
      (e.y l + e.y (l + 1)) / 2 =
        y1 + (y2 - y1) / distance x1 y1 x2 y2 * ((e.s l + e.s (l + 1)) / 2 - sinit) := by
  obtain ⟨hx₀, hy₀, hs₀⟩ := h l hl.le
  obtain ⟨hx₁, hy₁, hs₁⟩ := h (l + 1) hl
  have hd := (distance_pos hne).ne'
  rw [hx₀, hx₁, hy₀, hy₁, hs₀, hs₁]
  constructor
  · field_simp
    ring
  · field_simp
    ring

end Side

/-- **The points of a side** from `(x1, y1)` to `(x2, y2)`: they cancel the flow, they have the
direction of the side, they are on the side at their arc lengths, and these increase. -/
structure Straight (p : Parameters ℝ) (first n : ℕ) (x1 y1 x2 y2 sinit : ℝ) : Prop where
  tnx0 : ∀ l < n, (p.point (first + l)).tnx0 = (x2 - x1) / distance x1 y1 x2 y2
  tny0 : ∀ l < n, (p.point (first + l)).tny0 = (y2 - y1) / distance x1 y1 x2 y2
  x0 : ∀ l < n, (p.point (first + l)).x0 = x1 + (p.point (first + l)).tnx0 *
    ((p.point (first + l)).s0 - sinit)
  y0 : ∀ l < n, (p.point (first + l)).y0 = y1 + (p.point (first + l)).tny0 *
    ((p.point (first + l)).s0 - sinit)
  s0 : ∀ l, l + 1 < n → (p.point (first + l)).s0 < (p.point (first + (l + 1))).s0

section Points

variable {p : Parameters ℝ} {first n : ℕ} {ratio x1 y1 x2 y2 sinit : ℝ} {isym : ℤ} {e m : Nodes ℝ}

/-- The proportion of each element is positive. -/
theorem proportion_pos (hn : 1 ≤ n) (hratio : 0 < ratio) (isym : ℤ) (l : ℕ) :
    0 < proportion n ratio isym l := by
  obtain ⟨hpos, hfirst, -⟩ := proportion_spec hn hratio isym
  exact mul_pos hfirst (pow_pos hpos _)

/-- The points of a side cancel the flow. -/
theorem OnSide.cancels (hratio : 0 < ratio) (hne : (x1, y1) ≠ (x2, y2))
    (h : OnSide ellipticIntegral out p first n (elmLine n ratio x1 y1 x2 y2 sinit isym e m)) :
    ∀ l < n, Cancels ellipticIntegral out p (p.point (first + l)) := by
  intro l hl
  obtain ⟨p', hflow, hpoints⟩ := h
  obtain ⟨old, hold⟩ := hpoints l hl
  have hplaced := endNodes_placed (by omega : 1 ≤ n) hratio x1 y1 x2 y2 sinit isym e
  have hw := proportion_pos (by omega : 1 ≤ n) hratio isym l
  rw [hold]
  refine (pointOnSide_cancels p' old ?_).congr hflow.symm
  exact (hplaced.length hl hw.le).1 ▸ mul_pos (distance_pos hne) hw

/-- The points of a side are straight. -/
theorem OnSide.straight (hratio : 0 < ratio) (hne : (x1, y1) ≠ (x2, y2))
    (h : OnSide ellipticIntegral out p first n (elmLine n ratio x1 y1 x2 y2 sinit isym e m)) :
    Straight p first n x1 y1 x2 y2 sinit := by
  obtain ⟨p', -, hpoints⟩ := h
  rcases Nat.eq_zero_or_pos n with rfl | hn
  · exact ⟨nofun, nofun, nofun, nofun, fun _ h => absurd h (by omega)⟩
  set r := elmLine n ratio x1 y1 x2 y2 sinit isym e m with hr
  have hplaced : Placed x1 y1 x2 y2 sinit (proportion n ratio isym) n r.1 :=
    endNodes_placed hn hratio x1 y1 x2 y2 sinit isym e
  have hw := proportion_pos hn hratio isym
  have hmid := midNodes_spec n r.1 m
  -- what the point of element `l` is
  have hpoint : ∀ l < n, (p.point (first + l)).tnx0 = (x2 - x1) / distance x1 y1 x2 y2 ∧
      (p.point (first + l)).tny0 = (y2 - y1) / distance x1 y1 x2 y2 ∧
      (p.point (first + l)).x0 = (r.1.x l + r.1.x (l + 1)) / 2 ∧
      (p.point (first + l)).y0 = (r.1.y l + r.1.y (l + 1)) / 2 ∧
      (p.point (first + l)).s0 = (r.1.s l + r.1.s (l + 1)) / 2 := by
    intro l hl
    obtain ⟨old, hold⟩ := hpoints l hl
    have hlen : √((r.1.x (l + 1) - r.1.x l) * (r.1.x (l + 1) - r.1.x l) +
        (r.1.y (l + 1) - r.1.y l) * (r.1.y (l + 1) - r.1.y l)) = r.1.length (l + 1) := by
      rw [Nodes.length, distance, Nat.add_sub_cancel, sq, sq]
    obtain ⟨htx, hty⟩ := hplaced.tangent hl (hw l)
    obtain ⟨hx, hy, hs⟩ := hmid l hl
    rw [hold]
    simp only [pointOnSide, Lib.sqrt]
    rw [hlen]
    exact ⟨htx, hty, hx, hy, hs⟩
  refine ⟨fun l hl => (hpoint l hl).1, fun l hl => (hpoint l hl).2.1, fun l hl => ?_,
    fun l hl => ?_, fun l hl => ?_⟩
  · obtain ⟨htx, -, hx, -, hs⟩ := hpoint l hl
    rw [htx, hx, hs]
    exact (hplaced.middle hne hl).1
  · obtain ⟨-, hty, -, hy, hs⟩ := hpoint l hl
    rw [hty, hy, hs]
    exact (hplaced.middle hne hl).2
  · obtain ⟨-, -, -, -, hs⟩ := hpoint l (by omega)
    obtain ⟨-, -, -, -, hs'⟩ := hpoint (l + 1) hl
    have h₁ := (hplaced.length (by omega : l < n) (hw l).le).2
    have h₂ := (hplaced.length hl (hw (l + 1)).le).2
    rw [(hplaced.length (by omega : l < n) (hw l).le).1] at h₁
    rw [(hplaced.length hl (hw (l + 1)).le).1] at h₂
    have hpos₁ := mul_pos (distance_pos hne) (hw l)
    have hpos₂ := mul_pos (distance_pos hne) (hw (l + 1))
    rw [hs, hs']
    linarith

end Points

/-! ### Both bodies -/

/-- The data of a body: a sphere with a positive radius, or a triangle with different corners and
positive stretch ratios. -/
def Body.Proper : Body ℝ → Prop
  | .sphere d => 0 < d.rad
  | .torus d => ∀ k : Fin 3, 0 < d.rt k ∧ (d.x k, d.y k) ≠ (d.x (k + 1), d.y (k + 1))

variable (ellipticIntegral out) (b : Body ℝ) (gl : GaussLegendre ℝ) (raw : Parameters ℝ)
  (nodes : Nodes ℝ)

/-- The sides of a torus are straight. -/
theorem torus_straight {d : TorusData ℝ} (hd : (Body.torus d).Proper) (k : Fin 3) :
    let p := torus ellipticIntegral out d gl raw nodes
    ∃ sinit, Straight p (p.offset k) (p.ne k) (d.x k) (d.y k) (d.x (k + 1)) (d.y (k + 1)) sinit := by
  intro p
  obtain ⟨-, -, hne, -, hsides⟩ := torus_spec ellipticIntegral out d gl
    raw nodes
  obtain ⟨sinit, e, m, hon⟩ := hsides k
  refine ⟨sinit, ?_⟩
  rw [hne k]
  exact hon.straight (hd k).1 (hd k).2

/-- The collocation points are numbered through the segments. -/
theorem geometry_ncl :
    (b.geometry ellipticIntegral out gl raw nodes).ncl =
      (b.geometry ellipticIntegral out gl raw nodes).offset
        (b.geometry ellipticIntegral out gl raw nodes).nsg := by
  cases b with
  | sphere d =>
      obtain ⟨p, -, hncl, hnsg, hne, -⟩ := sphere_spec ellipticIntegral out d gl raw
      rw [Body.geometry, hncl, hnsg, Parameters.offset, before_one, hne]
  | torus d =>
      obtain ⟨-, hnsg, -, hncl, -⟩ := torus_spec ellipticIntegral out d gl
        raw nodes
      rw [Body.geometry, hncl, hnsg]

/-- **Every collocation point of a body** has an orthonormal frame and cancels the flow that comes
in along its normal. -/
theorem geometry_cancels {b : Body ℝ} (hb : b.Proper) {j : ℕ}
    (hj : j < (b.geometry ellipticIntegral out gl raw nodes).ncl) :
    Cancels ellipticIntegral out (b.geometry ellipticIntegral out gl raw nodes)
      ((b.geometry ellipticIntegral out gl raw nodes).point j) := by
  cases b with
  | sphere d =>
      obtain ⟨p, hflow, hncl, -, -, hpoint⟩ := sphere_spec ellipticIntegral out d gl raw
      rw [Body.geometry, hncl] at hj
      rw [Body.geometry, hpoint j hj]
      exact (d.pointAt_cancels p j).congr hflow.symm
  | torus d =>
      obtain ⟨-, -, hne, hncl, hsides⟩ := torus_spec ellipticIntegral out
        d gl raw nodes
      rw [Body.geometry, hncl] at hj
      obtain ⟨k, hk, l, hl, rfl⟩ := exists_before_add hj
      obtain ⟨sinit, e, m, hon⟩ := hsides ⟨k, hk⟩
      refine hon.cancels (hb ⟨k, hk⟩).1 (hb ⟨k, hk⟩).2 l ?_
      rwa [← hne ⟨k, hk⟩]

/-- **The arc length increases along each segment.** -/
theorem geometry_s0_lt {b : Body ℝ} (hb : b.Proper) {k l : ℕ}
    (hk : k < (b.geometry ellipticIntegral out gl raw nodes).nsg)
    (hl : l + 1 < (b.geometry ellipticIntegral out gl raw nodes).ne k) :
    ((b.geometry ellipticIntegral out gl raw nodes).pointOf k l).s0 <
      ((b.geometry ellipticIntegral out gl raw nodes).pointOf k (l + 1)).s0 := by
  cases b with
  | sphere d =>
      obtain ⟨p, -, -, hnsg, hne, hpoint⟩ := sphere_spec ellipticIntegral out d gl raw
      rw [Body.geometry] at hk hl ⊢
      obtain rfl : k = 0 := by omega
      rw [hne] at hl
      rw [Parameters.pointOf, Parameters.pointOf, Parameters.offset, before_zero,
        Nat.zero_add, Nat.zero_add, hpoint l (by omega), hpoint (l + 1) hl]
      have hn : (0 : ℝ) < d.ne := by exact_mod_cast (by omega : 0 < d.ne)
      have hstep : 0 < Real.pi / d.ne * d.rad := mul_pos (div_pos Real.pi_pos hn) hb
      simp only [SphereData.pointAt, SphereData.se, SphereData.dth, Lib.half, PotentialLib.pi]
      push_cast
      linarith
  | torus d =>
      rw [Body.geometry] at hk hl ⊢
      obtain ⟨-, hnsg, -, -, -⟩ := torus_spec ellipticIntegral out
        d gl raw nodes
      rw [hnsg] at hk
      obtain ⟨sinit, hstraight⟩ := torus_straight ellipticIntegral out gl raw nodes hb ⟨k, hk⟩
      exact hstraight.s0 l hl

end Exact

end BodyAx
