/-
**The flow past a body in `body_ax`.**

`main` of `body_ax.cpp` makes a linear system for the disturbance potential at the collocation
points, distributes its solution over the segments and elements, differentiates it along the contour
and adds up the velocity and the pressure coefficient there.  Between all these loops a collocation
point is known by a counter that runs through the elements of all segments.  `velocity` sums the
potentials of the same elements at any point of the flow.

Main definitions:

* `BodyAx.assemble`, `BodyAx.distribute` — the linear system and its solution as `phi`;
* `BodyAx.dphids0`, `BodyAx.surface` — the tangential derivative and what is computed from it;
* `BodyAx.velocity` — the velocity at a point.

Main results:

* `BodyAx.boundary_equation` — **a solution of the system is a solution of the boundary-integral
  equation on the elements**, and the other way round;
* `BodyAx.surface_impermeable` — **nothing flows through the body**, whatever the potential is, with
  data for which the flow is defined;
* `BodyAx.dphids0_quadratic` — what the differences give for a quadratic potential;
* `BodyAx.surface_linear` — on a side of the torus they are exact for a linear potential.
-/

import CppSamples.BodyAxRegular

set_option relaxedAutoImplicit false
set_option autoImplicit false

namespace BodyAx

open CountedLoop Function Lib PotentialLib

section Code

variable {T : Type*} [Zero T] [One T] [Add T] [Sub T] [Mul T] [Div T] [Neg T] [Lib T]
  [PotentialLib T]

/-! ### The linear system -/

/-- The matrix and the right-hand side. -/
structure LinearSystem (T : Type*) where
  al : ℕ → ℕ → T
  bl : ℕ → T

/-- Element `l` of segment `k`, with a circle. -/
def Parameters.element (p : Parameters T) (rad xcnt ycnt : T) (k l : ℕ) : Element T :=
  { x1 := p.xw k l
    y1 := p.yw k l
    t1 := p.tw k l
    x2 := p.xw k (l + 1)
    y2 := p.yw k (l + 1)
    t2 := p.tw k (l + 1)
    rad, xcnt, ycnt }

variable (ellipticIntegral : T → T × T) (nan : T) (out : VortexRing T) (p : Parameters T)

/-- The two potentials of element `l` of segment `k` at collocation point `i`; the element is that
of collocation point `j`. -/
def Parameters.influence (i k l j : ℕ) : T × T :=
  let (rad, xcnt, ycnt) :=
    if p.itp k = .arc then (p.actis k, p.xcntr k, p.ycntr k) else (nan, nan, nan)
  let q := p.point i
  let ising := decide (i = j)
  bodyAxSdlp ellipticIntegral ising (p.itp k) ⟨q.x0, q.y0, q.t0⟩ (p.element rad xcnt ycnt k l) p.gl

/-- The pass for element `l` of segment `k`, with collocation point `j`, in row `i`. -/
def rowAt (i k l j : ℕ) (s : LinearSystem T) : LinearSystem T :=
  let (qqq, www) := p.influence ellipticIntegral nan i k l j
  { al := update s.al i (update (s.al i) j www)
    bl := update s.bl i (s.bl i + qqq * (p.point j).dphidn0) }

/-- Row `i` of the system. -/
def assembleRow (i : ℕ) (s : LinearSystem T) : LinearSystem T :=
  let s := { s with bl := update s.bl i 0 }
  let s := (forBelow 0 p.nsg (0, s) fun k t => forBelow 0 (p.ne k) t fun l t =>
    (t.1 + 1, rowAt ellipticIntegral nan p i k l t.1 t.2)).2
  { s with al := update s.al i (update (s.al i) i (s.al i i - half)) }

/-- The system. -/
def assemble (raw : LinearSystem T) : LinearSystem T :=
  forBelow 0 p.ncl raw (assembleRow ellipticIntegral nan p)

/-- The solution is distributed over the segments and elements. -/
def distribute (sol : ℕ → T) (raw : ℕ → ℕ → T) : ℕ → ℕ → T :=
  (forBelow 0 p.nsg (0, raw) fun i t => forBelow 0 (p.ne i) t fun j t =>
    (t.1 + 1, update t.2 i (update (t.2 i) j (sol t.1)))).2

/-- What element `l` of segment `k` adds, at collocation point `i`, to the boundary-integral
representation: its potential times the double-layer potential, less its normal derivative times the
single-layer potential. -/
def represented (phi : ℕ → ℕ → T) (i k l : ℕ) : T :=
  phi k l * (p.influence ellipticIntegral nan i k l (p.offset k + l)).2 -
    (p.pointOf k l).dphidn0 * (p.influence ellipticIntegral nan i k l (p.offset k + l)).1

/-! ### Velocities on the contour -/

variable (phi : ℕ → ℕ → T)

/-- The tangential derivative of the potential at element `j` of segment `i`, with collocation point
`k`. -/
def dphids0 (i j k : ℕ) : T :=
  if j = 0 then
    (phi i (j + 1) - phi i j) / ((p.point (k + 1)).s0 - (p.point k).s0)
  else if j = p.ne i - 1 then
    (phi i j - phi i (j - 1)) / ((p.point k).s0 - (p.point (k - 1)).s0)
  else
    let g1 := phi i (j - 1)
    let g2 := phi i j
    let g3 := phi i (j + 1)
    let h1 := (p.point (k - 1)).s0
    let h2 := (p.point k).s0
    let h3 := (p.point (k + 1)).s0
    let aa := ((g3 - g2) / (h3 - h2) - (g1 - g2) / (h1 - h2)) / (h3 - h1)
    let bb := (g3 - g2) / (h3 - h2) - aa * (h3 - h2)
    bb

/-- The total velocity at collocation point `k` for a tangential derivative of the potential. -/
def totalVelocity (dphids0 : T) (k : ℕ) : T × T :=
  let q := p.point k
  let velx := q.dphidn0 * q.vnx0 + dphids0 * q.tnx0
  let vely := q.dphidn0 * q.vny0 + dphids0 * q.tny0
  let velx := velx + p.vx
  let lvr := p.ring ellipticIntegral out q.x0 q.y0
  (velx + p.cr * lvr.u, vely + p.cr * lvr.v)

/-- The tangential and the normal velocity and the pressure coefficient at the collocation points,
and the axial force. -/
structure Surface (T : Type*) where
  velt : ℕ → T
  veln : ℕ → T
  cp : ℕ → T
  forcex : T

/-- The pass for element `j` of segment `i`, with collocation point `k`. -/
def surfaceAt (i j k : ℕ) (s : Surface T) : Surface T :=
  let q := p.point k
  let (velx, vely) := totalVelocity ellipticIntegral out p (dphids0 p phi i j k) k
  let velt := velx * q.tnx0 + vely * q.tny0
  let veln := velx * q.vnx0 + vely * q.vny0
  let cp := 1 - velt * velt / (p.vx * p.vx)
  { velt := update s.velt k velt
    veln := update s.veln k veln
    cp := update s.cp k cp
    forcex := s.forcex + cp * q.vnx0 * q.arel }

/-- The velocities, the pressure and the force. -/
def surface (raw : Surface T) : Surface T :=
  (forBelow 0 p.nsg (0, { raw with forcex := 0 }) fun i t => forBelow 0 (p.ne i) t fun j t =>
    (t.1 + 1, surfaceAt ellipticIntegral out p phi i j t.1 t.2)).2

/-! ### The velocity at a point -/

/-- The potentials at the four points around a point of the flow. -/
structure Stencil (T : Type*) where
  phi1 : T
  phi2 : T
  phi3 : T
  phi4 : T

/-- What element `l` of segment `k`, with collocation point `j`, adds to the potential at a point. -/
def integrate (k l j : ℕ) (x y phis : T) : T :=
  let (qqq, www) := bodyAxSdlp ellipticIntegral false (p.itp k) ⟨x, y, 0⟩
    (p.element (p.actis k) (p.xcntr k) (p.ycntr k) k l) p.gl
  phis - (p.point j).dphidn0 * qqq + phi k l * www

/-- The velocity at a point, by centred differences of width `eps` to each side. -/
def velocity (eps x00 y00 : T) : T × T :=
  let eps2 := two * eps
  let x01 := x00 - eps
  let x02 := x00 + eps
  let y01 := y00 - eps
  let y02 := y00 + eps
  let s : Stencil T := (forBelow 0 p.nsg (0, ⟨0, 0, 0, 0⟩) fun k t =>
    forBelow 0 (p.ne k) t fun l t =>
      (t.1 + 1,
        { phi1 := integrate ellipticIntegral p phi k l t.1 x01 y00 t.2.phi1
          phi2 := integrate ellipticIntegral p phi k l t.1 x02 y00 t.2.phi2
          phi3 := integrate ellipticIntegral p phi k l t.1 x00 y01 t.2.phi3
          phi4 := integrate ellipticIntegral p phi k l t.1 x00 y02 t.2.phi4 })).2
  let ux := (s.phi2 - s.phi1) / eps2
  let uy := (s.phi4 - s.phi3) / eps2
  let ux := ux + p.vx
  let lvr := p.ring ellipticIntegral out x00 y00
  (ux + p.cr * lvr.u, uy + p.cr * lvr.v)

end Code

section Exact

variable (ellipticIntegral : ℝ → ℝ × ℝ) (nan : ℝ) (out : VortexRing ℝ) (p : Parameters ℝ)

/-! ### The boundary-integral equation -/

/-- The distributed solution. -/
theorem distribute_eq (sol : ℕ → ℝ) (raw : ℕ → ℕ → ℝ) {k l : ℕ} (hk : k < p.nsg)
    (hl : l < p.ne k) : distribute p sol raw k l = sol (p.offset k + l) := by
  have hloop := forBelow_segments p.ne p.nsg raw
    fun i j c (phi : ℕ → ℕ → ℝ) => update phi i (update (phi i) j (sol c))
  rw [distribute, hloop]
  refine forBelow_segments_inv (I := fun c (phi : ℕ → ℕ → ℝ) => ∀ k l, l < p.ne k →
    before p.ne k + l < c → phi k l = sol (before p.ne k + l)) ?_ ?_ k l hl (before_add_lt hk hl)
  · exact fun _ _ _ h => absurd h (Nat.not_lt_zero _)
  · intro i _ j hj phi hphi k l hl hlt
    by_cases h : k = i ∧ l = j
    · obtain ⟨rfl, rfl⟩ := h
      rw [update_self, update_self]
    · have hne : before p.ne k + l ≠ before p.ne i + j := fun heq => h (before_add_inj hl hj heq)
      have hphi := hphi k l hl (by omega)
      by_cases hk : k = i
      · subst hk
        rwa [update_self, update_of_ne fun hl => h ⟨rfl, hl⟩]
      · rwa [update_of_ne hk]

/-- The passes of row `i` leave the other rows alone, store the double-layer potentials and add up
the single-layer potentials. -/
theorem rowAt_loop (i : ℕ) (s : LinearSystem ℝ) :
    let r := forBelow 0 p.nsg s fun k s => forBelow 0 (p.ne k) s fun l s =>
      rowAt ellipticIntegral nan p i k l (before p.ne k + l) s
    (∀ i' ≠ i, r.al i' = s.al i' ∧ r.bl i' = s.bl i') ∧
      (∀ k < p.nsg, ∀ l < p.ne k, r.al i (before p.ne k + l) =
        (p.influence ellipticIntegral nan i k l (before p.ne k + l)).2) ∧
      r.bl i = s.bl i + ∑ k ∈ Finset.range p.nsg, ∑ l ∈ Finset.range (p.ne k),
        (p.influence ellipticIntegral nan i k l (before p.ne k + l)).1 *
          (p.point (before p.ne k + l)).dphidn0 := by
  intro r
  refine ⟨fun i' hi' => ?_, fun k hk l hl => ?_, ?_⟩
  · refine forBelow_inv_const (fun t : LinearSystem ℝ => t.al i' = s.al i' ∧ t.bl i' = s.bl i')
      ⟨rfl, rfl⟩ fun k _ _ t ht => forBelow_inv_const
        (fun t : LinearSystem ℝ => t.al i' = s.al i' ∧ t.bl i' = s.bl i') ht fun l _ _ t ht => ?_
    simp only [rowAt, update_of_ne hi']
    exact ht
  · refine forBelow_segments_inv (I := fun c (t : LinearSystem ℝ) => ∀ k l, l < p.ne k →
      before p.ne k + l < c → t.al i (before p.ne k + l) =
        (p.influence ellipticIntegral nan i k l (before p.ne k + l)).2) ?_ ?_ k l hl
        (before_add_lt hk hl)
    · exact fun _ _ _ h => absurd h (Nat.not_lt_zero _)
    · intro i' _ j' hj' t ht k l hl hlt
      simp only [rowAt, update_self]
      by_cases h : before p.ne k + l = before p.ne i' + j'
      · obtain ⟨rfl, rfl⟩ := before_add_inj hl hj' h
        rw [update_self]
      · rw [update_of_ne h]
        exact ht k l hl (by omega)
  · rw [← forBelow_segments_add]
    refine forBelow_rel (fun (t : LinearSystem ℝ) z => t.bl i = z) rfl
      fun k _ _ t z htz => forBelow_rel (fun (t : LinearSystem ℝ) z => t.bl i = z) htz
        fun l _ _ t z htz => ?_
    simp only [rowAt, update_self, htz]

/-- Row `i` of the system. -/
theorem assembleRow_spec (i : ℕ) (s : LinearSystem ℝ) :
    let r := assembleRow ellipticIntegral nan p i s
    (∀ i' ≠ i, r.al i' = s.al i' ∧ r.bl i' = s.bl i') ∧
      (∀ k < p.nsg, ∀ l < p.ne k, r.al i (before p.ne k + l) =
        (p.influence ellipticIntegral nan i k l (before p.ne k + l)).2 -
          if before p.ne k + l = i then 1 / 2 else 0) ∧
      r.bl i = ∑ k ∈ Finset.range p.nsg, ∑ l ∈ Finset.range (p.ne k),
        (p.influence ellipticIntegral nan i k l (before p.ne k + l)).1 *
          (p.point (before p.ne k + l)).dphidn0 := by
  intro r
  obtain ⟨hother, hal, hbl⟩ := rowAt_loop ellipticIntegral nan p i { s with bl := update s.bl i 0 }
  have hloop := forBelow_segments p.ne p.nsg ({ s with bl := update s.bl i 0 } : LinearSystem ℝ)
    (rowAt ellipticIntegral nan p i)
  simp only [r, assembleRow, hloop]
  refine ⟨fun i' hi' => ?_, fun k hk l hl => ?_, ?_⟩
  · obtain ⟨hal', hbl'⟩ := hother i' hi'
    simp only [update_of_ne hi'] at hal' hbl' ⊢
    exact ⟨hal', hbl'⟩
  · have hal := hal k hk l hl
    simp only [update_self]
    by_cases h : before p.ne k + l = i
    · rw [if_pos h]
      rw [h] at hal ⊢
      rw [update_self, hal]
      rfl
    · rw [if_neg h, update_of_ne h, hal, sub_zero]
  · simp only [update_self, zero_add] at hbl ⊢
    exact hbl

/-- The system. -/
theorem assemble_spec (raw : LinearSystem ℝ) {i : ℕ} (hi : i < p.ncl) :
    let r := assemble ellipticIntegral nan p raw
    (∀ k < p.nsg, ∀ l < p.ne k, r.al i (before p.ne k + l) =
        (p.influence ellipticIntegral nan i k l (before p.ne k + l)).2 -
          if before p.ne k + l = i then 1 / 2 else 0) ∧
      r.bl i = ∑ k ∈ Finset.range p.nsg, ∑ l ∈ Finset.range (p.ne k),
        (p.influence ellipticIntegral nan i k l (before p.ne k + l)).1 *
          (p.point (before p.ne k + l)).dphidn0 := by
  refine forBelow_inv p.ncl.zero_le (fun n (r : LinearSystem ℝ) => ∀ i < n,
    (∀ k < p.nsg, ∀ l < p.ne k, r.al i (before p.ne k + l) =
        (p.influence ellipticIntegral nan i k l (before p.ne k + l)).2 -
          if before p.ne k + l = i then 1 / 2 else 0) ∧
      r.bl i = ∑ k ∈ Finset.range p.nsg, ∑ l ∈ Finset.range (p.ne k),
        (p.influence ellipticIntegral nan i k l (before p.ne k + l)).1 *
          (p.point (before p.ne k + l)).dphidn0) ?_ ?_ i hi
  · exact fun i hi => absurd hi i.not_lt_zero
  · intro n _ _ s hs i hi
    obtain ⟨hother, hrow⟩ := assembleRow_spec ellipticIntegral nan p n s
    rcases Nat.lt_succ_iff_lt_or_eq.1 hi with hlt | rfl
    · obtain ⟨hal, hbl⟩ := hother i hlt.ne
      rw [hal, hbl]
      exact hs i hlt
    · exact hrow

/-- A row of the system is the equation at its collocation point. -/
theorem row_iff (hncl : p.ncl = p.offset p.nsg) (raw : LinearSystem ℝ) (sol : ℕ → ℝ)
    (rawPhi : ℕ → ℕ → ℝ) {k l : ℕ} (hk : k < p.nsg) (hl : l < p.ne k) :
    (∑ j ∈ Finset.range p.ncl, (assemble ellipticIntegral nan p raw).al (p.offset k + l) j * sol j =
        (assemble ellipticIntegral nan p raw).bl (p.offset k + l)) ↔
      ∑ k' ∈ Finset.range p.nsg, ∑ l' ∈ Finset.range (p.ne k'),
          represented ellipticIntegral nan p (distribute p sol rawPhi) (p.offset k + l) k' l' =
        distribute p sol rawPhi k l / 2 := by
  have hi : p.offset k + l < p.ncl := hncl ▸ before_add_lt hk hl
  obtain ⟨hal, hbl⟩ := assemble_spec ellipticIntegral nan p raw hi
  -- the matrix has half of the identity beside the potentials
  have hhalf : ∑ j ∈ Finset.range p.ncl, (if j = p.offset k + l then 1 / 2 else 0) * sol j =
      distribute p sol rawPhi k l / 2 := by
    simp only [ite_mul, zero_mul, Finset.sum_ite_eq', Finset.mem_range, if_pos hi]
    rw [distribute_eq p sol rawPhi hk hl]
    ring
  have hrow : ∑ j ∈ Finset.range p.ncl,
      (assemble ellipticIntegral nan p raw).al (p.offset k + l) j * sol j -
        (assemble ellipticIntegral nan p raw).bl (p.offset k + l) =
      ∑ k' ∈ Finset.range p.nsg, ∑ l' ∈ Finset.range (p.ne k'),
          represented ellipticIntegral nan p (distribute p sol rawPhi) (p.offset k + l) k' l' -
        distribute p sol rawPhi k l / 2 := by
    rw [← hhalf, hbl, hncl, Parameters.offset, sum_before, sum_before, ← Finset.sum_sub_distrib,
      ← Finset.sum_sub_distrib]
    refine Finset.sum_congr rfl fun k' hk' => ?_
    rw [← Finset.sum_sub_distrib, ← Finset.sum_sub_distrib]
    refine Finset.sum_congr rfl fun l' hl' => ?_
    have hk' := Finset.mem_range.1 hk'
    have hl' := Finset.mem_range.1 hl'
    rw [hal k' hk' l' hl', represented, distribute_eq p sol rawPhi hk' hl', Parameters.pointOf,
      Parameters.offset, Parameters.offset]
    ring
  rw [← sub_eq_zero, hrow, sub_eq_zero]

/-- **A solution of the system is a solution of the boundary-integral equation.**  With the
distributed potential the elements of the body represent, at each collocation point, half of the
potential there; and a potential that is represented so solves the system. -/
theorem boundary_equation (b : Body ℝ) (gl : GaussLegendre ℝ) (raw : Parameters ℝ)
    (nodes : Nodes ℝ) (rawSystem : LinearSystem ℝ) (sol : ℕ → ℝ) (rawPhi : ℕ → ℕ → ℝ) :
    let p := b.geometry ellipticIntegral out gl raw nodes
    let r := assemble ellipticIntegral nan p rawSystem
    let phi := distribute p sol rawPhi
    (∀ i < p.ncl, ∑ j ∈ Finset.range p.ncl, r.al i j * sol j = r.bl i) ↔
      ∀ k < p.nsg, ∀ l < p.ne k,
        ∑ k' ∈ Finset.range p.nsg, ∑ l' ∈ Finset.range (p.ne k'),
          represented ellipticIntegral nan p phi (p.offset k + l) k' l' = phi k l / 2 := by
  intro p r phi
  have hncl : p.ncl = p.offset p.nsg := geometry_ncl ellipticIntegral out b gl raw nodes
  constructor
  · intro h k hk l hl
    exact (row_iff ellipticIntegral nan p hncl rawSystem sol rawPhi hk hl).1
      (h _ (hncl ▸ before_add_lt hk hl))
  · intro h i hi
    obtain ⟨k, hk, l, hl, rfl⟩ := exists_before_add (hncl ▸ hi)
    exact (row_iff ellipticIntegral nan p hncl rawSystem sol rawPhi hk hl).2 (h k hk l hl)

/-! ### The surface -/

/-- What the passes leave at the collocation points, and the force. -/
theorem surface_spec (phi : ℕ → ℕ → ℝ) (raw : Surface ℝ) :
    let r := surface ellipticIntegral out p phi raw
    (∀ k < p.nsg, ∀ l < p.ne k,
      let j := p.offset k + l
      let q := p.point j
      let v := totalVelocity ellipticIntegral out p (dphids0 p phi k l j) j
      r.velt j = v.1 * q.tnx0 + v.2 * q.tny0 ∧ r.veln j = v.1 * q.vnx0 + v.2 * q.vny0 ∧
        r.cp j = 1 - r.velt j * r.velt j / (p.vx * p.vx)) ∧
      r.forcex = ∑ j ∈ Finset.range (p.offset p.nsg),
        r.cp j * (p.point j).vnx0 * (p.point j).arel := by
  intro r
  have hloop := forBelow_segments p.ne p.nsg ({ raw with forcex := 0 } : Surface ℝ)
    (surfaceAt ellipticIntegral out p phi)
  have hr : r = forBelow 0 p.nsg ({ raw with forcex := 0 } : Surface ℝ) fun k s =>
      forBelow 0 (p.ne k) s fun l s =>
        surfaceAt ellipticIntegral out p phi k l (before p.ne k + l) s := by
    simp only [r, surface, hloop]
  rw [hr]
  constructor
  · intro k hk l hl
    refine forBelow_segments_inv (I := fun c (t : Surface ℝ) => ∀ k l, l < p.ne k →
      p.offset k + l < c →
      let j := p.offset k + l
      let q := p.point j
      let v := totalVelocity ellipticIntegral out p (dphids0 p phi k l j) j
      t.velt j = v.1 * q.tnx0 + v.2 * q.tny0 ∧ t.veln j = v.1 * q.vnx0 + v.2 * q.vny0 ∧
        t.cp j = 1 - t.velt j * t.velt j / (p.vx * p.vx)) ?_ ?_ k l hl (before_add_lt hk hl)
    · exact fun _ _ _ h => absurd h (Nat.not_lt_zero _)
    · intro k' _ l' hl' t ht k l hl hlt
      by_cases h : p.offset k + l = before p.ne k' + l'
      · obtain ⟨rfl, rfl⟩ := before_add_inj hl hl' h
        simp only [surfaceAt, Parameters.offset, update_self, and_self]
      · simp only [surfaceAt, update_of_ne h]
        exact ht k l hl (by omega)
  · refine forBelow_segments_inv (I := fun c (t : Surface ℝ) => t.forcex =
      ∑ j ∈ Finset.range c, t.cp j * (p.point j).vnx0 * (p.point j).arel) rfl ?_
    intro k _ l _ t ht
    rw [Finset.sum_range_succ]
    simp only [surfaceAt, update_self]
    rw [ht]
    congr 1
    refine Finset.sum_congr rfl fun j hj => ?_
    rw [update_of_ne (Finset.mem_range.1 hj).ne]

variable {ellipticIntegral out p} in
/-- At a collocation point that cancels the flow the velocity has no normal component, and its
tangential component is all of it. -/
theorem Cancels.totalVelocity {j : ℕ} (hq : Cancels ellipticIntegral out p (p.point j)) (d : ℝ) :
    let v := totalVelocity ellipticIntegral out p d j
    v.1 * (p.point j).vnx0 + v.2 * (p.point j).vny0 = 0 ∧
      (v.1 * (p.point j).tnx0 + v.2 * (p.point j).tny0) ^ 2 = v.1 ^ 2 + v.2 ^ 2 := by
  intro v
  have hunit := hq.unit
  have hzero : v.1 * (p.point j).vnx0 + v.2 * (p.point j).vny0 = 0 := by
    have hd := hq.dphidn0
    rw [hq.vnx0, hq.vny0] at hd ⊢
    simp only [v, BodyAx.totalVelocity, hq.vnx0, hq.vny0]
    linear_combination hd + (p.point j).dphidn0 * hunit
  refine ⟨hzero, ?_⟩
  rw [hq.vnx0, hq.vny0] at hzero
  linear_combination (v.1 ^ 2 + v.2 ^ 2) * hunit -
    (v.1 * (p.point j).tny0 + v.2 * -(p.point j).tnx0) * hzero

/-- **Nothing flows through the body.**  With regular data what is computed on the contour is
defined, and whatever the potential is, the normal velocity is zero at every collocation point, the
pressure coefficient is that of the whole velocity there and at most one, and the force adds it
up. -/
theorem surface_impermeable {b : Body ℝ} (hb : b.Regular) (gl : GaussLegendre ℝ)
    (raw : Parameters ℝ) (nodes : Nodes ℝ) (phi : ℕ → ℕ → ℝ) (rawSurface : Surface ℝ) :
    let p := b.geometry ellipticIntegral out gl raw nodes
    let r := surface ellipticIntegral out p phi rawSurface
    p.Defined ∧
      (∀ k < p.nsg, ∀ l < p.ne k,
        let j := p.offset k + l
        let v := totalVelocity ellipticIntegral out p (dphids0 p phi k l j) j
        r.veln j = 0 ∧ r.cp j = 1 - (v.1 ^ 2 + v.2 ^ 2) / p.vx ^ 2 ∧ r.cp j ≤ 1) ∧
      r.forcex = ∑ j ∈ Finset.range p.ncl, r.cp j * (p.point j).vnx0 * (p.point j).arel := by
  intro p r
  have hncl : p.ncl = p.offset p.nsg := geometry_ncl ellipticIntegral out b gl raw nodes
  obtain ⟨hpoints, hforce⟩ := surface_spec ellipticIntegral out p phi rawSurface
  refine ⟨geometry_defined ellipticIntegral out gl raw nodes hb, fun k hk l hl => ?_, hncl ▸ hforce⟩
  intro j v
  obtain ⟨hvelt, hveln, hcp⟩ := hpoints k hk l hl
  have hq : Cancels ellipticIntegral out p (p.point j) :=
    geometry_cancels ellipticIntegral out gl raw nodes hb.proper (hncl ▸ before_add_lt hk hl)
  obtain ⟨hzero, hsq⟩ := hq.totalVelocity (dphids0 p phi k l j)
  have hcp' : r.cp j = 1 - (v.1 ^ 2 + v.2 ^ 2) / p.vx ^ 2 := by
    rw [hcp, hvelt, ← sq, ← sq, hsq]
  refine ⟨hveln.trans hzero, hcp', ?_⟩
  have hnonneg : 0 ≤ (v.1 ^ 2 + v.2 ^ 2) / p.vx ^ 2 := by positivity
  rw [hcp']
  linarith

/-- A sphere of radius one with three elements, and a vortex ring in it. -/
noncomputable def unitSphere : Body ℝ := .sphere ⟨1, 0, 1, 2, 3, -2, 2, -2, 2⟩

theorem unitSphere_regular : unitSphere.Regular := ⟨one_pos, by decide, one_ne_zero⟩

/-- Its parameters. -/
noncomputable def unitSphereFlow : Parameters ℝ :=
  unitSphere.geometry completeElliptic ⟨0, 0, 0⟩ Parameters.blank.gl Parameters.blank ⟨0, 0, 0⟩

theorem surface_impermeable_unitSphere :
    unitSphereFlow.Defined ∧
      (∀ k < unitSphereFlow.nsg, ∀ l < unitSphereFlow.ne k,
        let j := unitSphereFlow.offset k + l
        let v := totalVelocity completeElliptic ⟨0, 0, 0⟩ unitSphereFlow
          (dphids0 unitSphereFlow (fun _ _ => 0) k l j) j
        (surface completeElliptic ⟨0, 0, 0⟩ unitSphereFlow (fun _ _ => 0) ⟨0, 0, 0, 0⟩).veln j =
            0 ∧
          (surface completeElliptic ⟨0, 0, 0⟩ unitSphereFlow (fun _ _ => 0) ⟨0, 0, 0, 0⟩).cp j =
            1 - (v.1 ^ 2 + v.2 ^ 2) / unitSphereFlow.vx ^ 2 ∧
          (surface completeElliptic ⟨0, 0, 0⟩ unitSphereFlow (fun _ _ => 0) ⟨0, 0, 0, 0⟩).cp j ≤
            1) ∧
      (surface completeElliptic ⟨0, 0, 0⟩ unitSphereFlow (fun _ _ => 0) ⟨0, 0, 0, 0⟩).forcex =
        ∑ j ∈ Finset.range unitSphereFlow.ncl,
          (surface completeElliptic ⟨0, 0, 0⟩ unitSphereFlow (fun _ _ => 0) ⟨0, 0, 0, 0⟩).cp j *
            (unitSphereFlow.point j).vnx0 * (unitSphereFlow.point j).arel :=
  surface_impermeable completeElliptic ⟨0, 0, 0⟩ unitSphere_regular _ _ _ _ _

/-! ### The tangential derivative -/

/-- The divided difference of a quadratic function. -/
theorem quadratic_slope {a b c x y : ℝ} (h : x ≠ y) :
    (a * y ^ 2 + b * y + c - (a * x ^ 2 + b * x + c)) / (y - x) = a * (x + y) + b := by
  have hne : y - x ≠ 0 := sub_ne_zero.2 h.symm
  rw [div_eq_iff hne]
  ring

/-- Along a segment whose arc lengths increase, a potential that is a quadratic function of them is
differentiated exactly inside; at the ends it is the slope to the next point. -/
theorem dphids0_of_quadratic {phi : ℕ → ℕ → ℝ} {k : ℕ} {a b c : ℝ} (hne : 2 ≤ p.ne k)
    (hs : ∀ l, l + 1 < p.ne k → (p.pointOf k l).s0 < (p.pointOf k (l + 1)).s0)
    (hphi : ∀ l < p.ne k,
      phi k l = a * (p.pointOf k l).s0 ^ 2 + b * (p.pointOf k l).s0 + c)
    {l : ℕ} (hl : l < p.ne k) :
    dphids0 p phi k l (p.offset k + l) =
      if l = 0 then a * ((p.pointOf k 0).s0 + (p.pointOf k 1).s0) + b
      else if l = p.ne k - 1 then
        a * ((p.pointOf k (l - 1)).s0 + (p.pointOf k l).s0) + b
      else 2 * a * (p.pointOf k l).s0 + b := by
  have hslope : ∀ l, l + 1 < p.ne k →
      (phi k (l + 1) - phi k l) / ((p.pointOf k (l + 1)).s0 - (p.pointOf k l).s0) =
        a * ((p.pointOf k l).s0 + (p.pointOf k (l + 1)).s0) + b := by
    intro l hl
    rw [hphi l (by omega), hphi (l + 1) hl]
    exact quadratic_slope (hs l hl).ne
  rcases Nat.eq_zero_or_pos l with rfl | hpos
  · rw [if_pos rfl, dphids0, if_pos rfl]
    exact hslope 0 (by omega)
  obtain ⟨m, rfl⟩ : ∃ m, l = m + 1 := ⟨l - 1, by omega⟩
  have hprev : p.offset k + (m + 1) - 1 = p.offset k + m := by omega
  by_cases hlast : m + 1 = p.ne k - 1
  · rw [if_neg m.succ_ne_zero, if_pos hlast, dphids0, if_neg m.succ_ne_zero, if_pos hlast, hprev,
      Nat.add_sub_cancel]
    exact hslope m hl
  · have hnext : m + 1 + 1 < p.ne k := by omega
    have h₁ := hslope m hl
    have h₂ := hslope (m + 1) hnext
    have hlt₁ := hs m hl
    have hlt₂ := hs (m + 1) hnext
    rw [if_neg m.succ_ne_zero, if_neg hlast, dphids0, if_neg m.succ_ne_zero, if_neg hlast, hprev,
      Nat.add_sub_cancel]
    simp only [Parameters.pointOf, add_assoc] at h₁ h₂ hlt₁ hlt₂ ⊢
    -- both slopes are known, and their difference is that of the outer points
    set h1 := (p.point (p.offset k + m)).s0
    set h2 := (p.point (p.offset k + (m + 1))).s0
    set h3 := (p.point (p.offset k + (m + (1 + 1)))).s0
    have hback : (phi k m - phi k (m + 1)) / (h1 - h2) = a * (h1 + h2) + b := by
      rw [← h₁, ← neg_sub (phi k (m + 1)), ← neg_sub h2, neg_div_neg_eq]
    have hcurve : (a * (h2 + h3) + b - (a * (h1 + h2) + b)) / (h3 - h1) = a := by
      rw [div_eq_iff (by linarith : h3 - h1 ≠ 0)]
      ring
    rw [h₂, hback, hcurve]
    ring

/-- **The tangential derivative on a body.**  On a segment of two elements or more the arc length
increases from each collocation point to the next, and where the potential is a quadratic function
of it, its derivative is exact inside the segment; at the two ends it is the slope to the point
beside. -/
theorem dphids0_quadratic {b : Body ℝ} (hb : b.Proper) (gl : GaussLegendre ℝ)
    (raw : Parameters ℝ) (nodes : Nodes ℝ) {phi : ℕ → ℕ → ℝ} {k : ℕ} {a₂ a₁ a₀ : ℝ} :
    let p := b.geometry ellipticIntegral out gl raw nodes
    k < p.nsg → 2 ≤ p.ne k →
    (∀ l, l + 1 < p.ne k → (p.pointOf k l).s0 < (p.pointOf k (l + 1)).s0) ∧
      ((∀ l < p.ne k, phi k l = a₂ * (p.pointOf k l).s0 ^ 2 + a₁ * (p.pointOf k l).s0 + a₀) →
      ∀ l < p.ne k, dphids0 p phi k l (p.offset k + l) =
        if l = 0 then a₂ * ((p.pointOf k 0).s0 + (p.pointOf k 1).s0) + a₁
        else if l = p.ne k - 1 then
          a₂ * ((p.pointOf k (l - 1)).s0 + (p.pointOf k l).s0) + a₁
        else 2 * a₂ * (p.pointOf k l).s0 + a₁) := by
  intro p hk hne
  have hs : ∀ l, l + 1 < p.ne k → (p.pointOf k l).s0 < (p.pointOf k (l + 1)).s0 :=
    fun l hl => geometry_s0_lt ellipticIntegral out gl raw nodes hb hk hl
  exact ⟨hs, fun hphi l hl => dphids0_of_quadratic p hne hs hphi hl⟩

/-- The derivative of the square of the arc length on the unit sphere. -/
theorem dphids0_quadratic_unitSphere :
    2 ≤ unitSphereFlow.ne 0 ∧
      (∀ l, l + 1 < unitSphereFlow.ne 0 →
        (unitSphereFlow.pointOf 0 l).s0 < (unitSphereFlow.pointOf 0 (l + 1)).s0) ∧
      ∀ l < unitSphereFlow.ne 0,
        dphids0 unitSphereFlow
            (fun k l =>
              1 * (unitSphereFlow.pointOf k l).s0 ^ 2 + 0 * (unitSphereFlow.pointOf k l).s0 +
              0) 0 l (unitSphereFlow.offset 0 + l) =
          if l = 0 then
            1 * ((unitSphereFlow.pointOf 0 0).s0 + (unitSphereFlow.pointOf 0 1).s0) + 0
          else if l = unitSphereFlow.ne 0 - 1 then
            1 * ((unitSphereFlow.pointOf 0 (l - 1)).s0 + (unitSphereFlow.pointOf 0 l).s0) + 0
          else 2 * 1 * (unitSphereFlow.pointOf 0 l).s0 + 0 := by
  obtain ⟨p, -, -, hnsg, hne, -⟩ := sphere_spec completeElliptic ⟨0, 0, 0⟩
    ⟨1, 0, 1, 2, 3, -2, 2, -2, 2⟩ Parameters.blank.gl Parameters.blank
  have hnsg : 0 < unitSphereFlow.nsg := hnsg.symm ▸ Nat.one_pos
  have hne : 2 ≤ unitSphereFlow.ne 0 := hne.symm ▸ Nat.le_succ 2
  obtain ⟨hs, hderiv⟩ := dphids0_quadratic completeElliptic ⟨0, 0, 0⟩ (b := unitSphere) one_pos _ _
    _ hnsg hne
  exact ⟨hne, hs, hderiv fun _ _ => rfl⟩

/-- **The velocity on a side of the torus.**  Where the potential is a linear function of the
position on a side of two elements or more, the tangential velocity is that of its gradient, of the
stream and of the vortex ring, at every point of the side. -/
theorem surface_linear {d : TorusData ℝ} (hd : (Body.torus d).Proper) (gl : GaussLegendre ℝ)
    (raw : Parameters ℝ) (nodes : Nodes ℝ) {phi : ℕ → ℕ → ℝ} (rawSurface : Surface ℝ) {k : Fin 3}
    {α β γ : ℝ} (hne : 2 ≤ d.ne k) :
    let p := torus ellipticIntegral out d gl raw nodes
    (∀ l < d.ne k, phi k l = α * (p.pointOf k l).x0 + β * (p.pointOf k l).y0 + γ) →
    ∀ l < d.ne k,
      let q := p.pointOf k l
      (surface ellipticIntegral out p phi rawSurface).velt (p.offset k + l) =
        (α + p.vx + p.cr * (p.ring ellipticIntegral out q.x0 q.y0).u) * q.tnx0 +
          (β + p.cr * (p.ring ellipticIntegral out q.x0 q.y0).v) * q.tny0 := by
  intro p hphi l hl q
  obtain ⟨-, hnsg, hnep, -, -⟩ := torus_spec ellipticIntegral out d gl
    raw nodes
  have hnep : p.ne k = d.ne k := hnep k
  have hk : (k : ℕ) < p.nsg := hnsg.symm ▸ k.isLt
  obtain ⟨sinit, hside⟩ := torus_straight ellipticIntegral out gl raw nodes hd k
  -- a linear function of the position is one of the arc length
  set tx := (d.x (k + 1) - d.x k) / distance (d.x k) (d.y k) (d.x (k + 1)) (d.y (k + 1)) with htx
  set ty := (d.y (k + 1) - d.y k) / distance (d.x k) (d.y k) (d.x (k + 1)) (d.y (k + 1)) with hty
  have hlinear : ∀ l < p.ne k, phi k l = 0 * (p.pointOf k l).s0 ^ 2 +
      (α * tx + β * ty) * (p.pointOf k l).s0 +
        (α * (d.x k - tx * sinit) + β * (d.y k - ty * sinit) + γ) := by
    intro l hl
    have hx : (p.pointOf k l).x0 = d.x k + tx * ((p.pointOf k l).s0 - sinit) := by
      rw [htx, ← hside.tnx0 l hl]
      exact hside.x0 l hl
    have hy : (p.pointOf k l).y0 = d.y k + ty * ((p.pointOf k l).s0 - sinit) := by
      rw [hty, ← hside.tny0 l hl]
      exact hside.y0 l hl
    rw [hphi l (hnep ▸ hl), hx, hy]
    ring
  have hderiv : dphids0 p phi k l (p.offset k + l) = α * tx + β * ty := by
    rw [dphids0_of_quadratic p (hnep ▸ hne) (fun l hl => hside.s0 l hl) hlinear (hnep ▸ hl)]
    split_ifs <;> ring
  have hlp : l < p.ne k := hnep ▸ hl
  have hq : Cancels ellipticIntegral out p q :=
    geometry_cancels ellipticIntegral out gl raw nodes hd
      ((geometry_ncl ellipticIntegral out (.torus d) gl raw nodes).symm ▸ before_add_lt hk hlp)
  obtain ⟨hpoints, -⟩ := surface_spec ellipticIntegral out p phi rawSurface
  have htnx : q.tnx0 = tx := hside.tnx0 l hlp
  have htny : q.tny0 = ty := hside.tny0 l hlp
  have hunit := hq.unit
  rw [(hpoints k hk l hlp).1, hderiv, ← htnx, ← htny]
  simp only [totalVelocity]
  change (q.dphidn0 * q.vnx0 + (α * q.tnx0 + β * q.tny0) * q.tnx0 + p.vx +
      p.cr * (p.ring ellipticIntegral out q.x0 q.y0).u) * q.tnx0 +
    (q.dphidn0 * q.vny0 + (α * q.tnx0 + β * q.tny0) * q.tny0 +
      p.cr * (p.ring ellipticIntegral out q.x0 q.y0).v) * q.tny0 = _
  rw [hq.vnx0, hq.vny0]
  linear_combination (α * q.tnx0 + β * q.tny0) * hunit

/-- A torus whose section is a right-angled triangle, with two elements on each side. -/
noncomputable def rightTorus : TorusData ℝ :=
  { x := ![0, 1, 0], y := ![1, 1, 2], vx := 1, cr := 1, ne := fun _ => 2, rt := fun _ => 1
    xwmin := -2, xwmax := 2, ywmin := -2, ywmax := 2 }

theorem rightTorus_proper : (Body.torus rightTorus).Proper := by
  intro k
  refine ⟨one_pos, ?_⟩
  fin_cases k <;> simp [rightTorus]

/-- Its parameters. -/
noncomputable def rightTorusFlow : Parameters ℝ :=
  torus completeElliptic ⟨0, 0, 0⟩ rightTorus Parameters.blank.gl Parameters.blank ⟨0, 0, 0⟩

/-- The potential that takes the stream away. -/
theorem surface_linear_rightTorus :
    (Body.torus rightTorus).Proper ∧ ∀ l < rightTorus.ne 1,
      (surface completeElliptic ⟨0, 0, 0⟩ rightTorusFlow
          (fun k l =>
            -1 * (rightTorusFlow.pointOf k l).x0 + 0 * (rightTorusFlow.pointOf k l).y0 + 0)
          ⟨0, 0, 0, 0⟩).velt (rightTorusFlow.offset 1 + l) =
        (-1 + rightTorusFlow.vx + rightTorusFlow.cr *
            (rightTorusFlow.ring completeElliptic ⟨0, 0, 0⟩ (rightTorusFlow.pointOf 1 l).x0
              (rightTorusFlow.pointOf 1 l).y0).u) * (rightTorusFlow.pointOf 1 l).tnx0 +
          (0 + rightTorusFlow.cr *
            (rightTorusFlow.ring completeElliptic ⟨0, 0, 0⟩ (rightTorusFlow.pointOf 1 l).x0
              (rightTorusFlow.pointOf 1 l).y0).v) * (rightTorusFlow.pointOf 1 l).tny0 :=
  ⟨rightTorus_proper, surface_linear completeElliptic ⟨0, 0, 0⟩ rightTorus_proper _ _ _ _ (k := 1)
    le_rfl fun _ _ => rfl⟩

end Exact

end BodyAx
