/-
**The pictures of `OpenCL-examples`.**

The two kernels of `mandel.cl` count, for each cell of a grid, the passes of a loop until a point
leaves a disc, and write a shade of grey to a buffer.  `save_png` reads the buffer and makes an
image of it.

The arithmetic is exact here.

Main definitions:

* `EscapeTime.mandel`, `EscapeTime.julia` — the shade of a cell;
* `EscapeTime.grid` — a kernel on all cells;
* `EscapeTime.savePng` — the image.

Main results:

* `EscapeTime.picture_spec` — **every pixel of the image has the shade of its cell**, however the
  work-items are interleaved;
* `EscapeTime.passes_spec` — which passes the loop makes;
* `EscapeTime.mandel_shows`, `EscapeTime.julia_shows` — **the shades show which orbits are
  bounded**.
-/

import CppSamples.BarrierRounds
import CppSamples.CountedLoop
import CppSamples.QuadraticOrbit

set_option relaxedAutoImplicit false
set_option autoImplicit false

namespace EscapeTime

open BarrierRounds CountedLoop Function QuadraticOrbit
open LockedSections (Access)

/-! ### The kernels -/

section Code

variable {T : Type*} [Zero T] [One T] [Add T] [Sub T] [Mul T] [Div T] [NatCast T] [LT T]
  [DecidableLT T]

/-- The variables of the loop. -/
structure Loop (T : Type*) where
  zx : T
  zy : T
  w : T
  k : ℕ

/-- A pass. -/
def Loop.pass (cx cy : T) (s : Loop T) : Loop T :=
  let u := s.zx * s.zx - s.zy * s.zy
  let v := ((2 : ℕ) : T) * s.zx * s.zy
  let zx := u + cx
  let zy := v + cy
  { zx, zy, w := zx * zx + zy * zy, k := s.k + 1 }

/-- `while (k < max_it && w < 4.0)`; the first argument is `max_it - k`. -/
def Loop.passes (cx cy : T) : ℕ → Loop T → Loop T
  | 0, s => s
  | n + 1, s => if s.w < ((4 : ℕ) : T) then Loop.passes cx cy n (s.pass cx cy) else s

/-- The shade for a number of passes. -/
def shade (max_it k : ℕ) : T := if k = max_it then 1 else (k : T) / (max_it : T)

/-- What the kernel `mandel` writes for the cell `(i, j)`. -/
def mandel (x0 y0 res : T) (max_it i j : ℕ) : T :=
  let cx := x0 + res * (i : T)
  let cy := y0 + res * (j : T)
  shade max_it (Loop.passes cx cy max_it ⟨0, 0, 0, 0⟩).k

/-- What the kernel `julia` writes for the cell `(i, j)`. -/
def julia (x0 y0 res cx cy : T) (max_it i j : ℕ) : T :=
  let zx := x0 + res * (i : T)
  let zy := y0 + res * (j : T)
  let w := zx * zx + zy * zy
  shade max_it (Loop.passes cx cy max_it ⟨zx, zy, w, 0⟩).k

/-- The number of cells in the buffer of `render_julia_set`: a product of two `unsigned` numbers. -/
def bufferSize (width height : ℕ) : ℕ := width * height % 2 ^ 32

/-- **A kernel on the cells of a grid**: the work-item of the cell `(i, j)` writes its shade to the
address `i + j * get_global_size(0)`. -/
def grid (width height : ℕ) (value : ℕ → ℕ → T) :
    Kernel (Fin width × Fin height) (ℕ → T) Unit where
  rounds := 1
  body _ a :=
    let address : ℕ := a.1 + a.2 * width
    [fun out r => (update out address (value a.1 a.2), r)]

/-- **The image of a buffer**: row `j`, then column `i`.  The index to the buffer is `unsigned`. -/
def savePng {C : Type*} (palette : T → C) (width height : ℕ) (data : ℕ → T) (image : ℕ → ℕ → C) :
    ℕ → ℕ → C :=
  forBelow 0 height image fun j image => forBelow 0 width image fun i image =>
    let c := palette (data ((i + j * width) % 2 ^ 32))
    update image j (update (image j) i c)

end Code

/-! ### From the cells to the pixels -/

section Picture

variable {T : Type*}

/-- Different cells have different addresses. -/
theorem address_injective {width i j i' j' : ℕ} (hi : i < width) (hi' : i' < width)
    (h : i + j * width = i' + j' * width) : i = i' ∧ j = j' := by
  have hmod : (i + j * width) % width = (i' + j' * width) % width := by rw [h]
  rw [Nat.add_mul_mod_self_right, Nat.add_mul_mod_self_right, Nat.mod_eq_of_lt hi,
    Nat.mod_eq_of_lt hi'] at hmod
  subst hmod
  exact ⟨rfl, Nat.eq_of_mul_eq_mul_right (by omega) (Nat.add_left_cancel h)⟩

/-- The address of a cell is in the buffer. -/
theorem address_lt {width height i j : ℕ} (hi : i < width) (hj : j < height) :
    i + j * width < width * height := by
  calc i + j * width < (j + 1) * width := by rw [add_mul, one_mul]; omega
    _ ≤ height * width := Nat.mul_le_mul_right width hj
    _ = width * height := Nat.mul_comm _ _

/-- The buffer of a grid of fewer than `2 ^ 32` cells has all of them. -/
theorem address_lt_bufferSize {width height i j : ℕ} (hsize : width * height < 2 ^ 32)
    (hi : i < width) (hj : j < height) : i + j * width < bufferSize width height := by
  rw [bufferSize, Nat.mod_eq_of_lt hsize]
  exact address_lt hi hj

variable {width height : ℕ} (value : ℕ → ℕ → T)

theorem grid_independent : (grid width height value).Independent := by
  refine Kernel.independent_of_body fun k _ a b hab f hf g hg => ?_
  simp only [grid, List.mem_singleton] at hf hg
  subst hf hg
  refine fun out _ _ => ⟨update_comm (fun h => hab ?_) _ _ _, rfl, rfl⟩
  obtain ⟨hi, hj⟩ := address_injective a.1.isLt b.1.isLt h
  exact Prod.ext (Fin.ext hi) (Fin.ext hj)

/-- What a buffer holds after the work-items of a list. -/
theorem foldl_cells (order : List (Fin width × Fin height)) (out : ℕ → T)
    (a : Fin width × Fin height) :
    order.foldl (fun out b => update out (b.1 + b.2 * width) (value b.1 b.2)) out
        (a.1 + a.2 * width) =
      if a ∈ order then value a.1 a.2 else out (a.1 + a.2 * width) := by
  induction order using List.reverseRecOn with
  | nil => simp
  | append_singleton order b ih =>
      rw [List.foldl_append, List.foldl_cons, List.foldl_nil]
      by_cases hab : a = b
      · subst hab
        rw [update_self, if_pos (List.mem_append_right _ List.mem_cons_self)]
      · have hne : (a.1 : ℕ) + a.2 * width ≠ b.1 + b.2 * width := by
          intro h
          obtain ⟨hi, hj⟩ := address_injective a.1.isLt b.1.isLt h
          exact hab (Prod.ext (Fin.ext hi) (Fin.ext hj))
        rw [update_of_ne hne, ih]
        simp [hab]

/-- **The kernel fills the buffer**, however its work-items are interleaved. -/
theorem grid_computes (out : ℕ → T) (regs : Fin width × Fin height → Unit) :
    ∃ data, (grid width height value).Computes (out, regs) data ∧
      ∀ i < width, ∀ j < height, data (i + j * width) = value i j := by
  let order := (Finset.univ : Finset (Fin width × Fin height)).toList
  have hmem : ∀ a, a ∈ order := fun a => Finset.mem_toList.2 (Finset.mem_univ a)
  refine ⟨_, (grid_independent value).computes (Finset.nodup_toList _) hmem _, fun i hi j hj => ?_⟩
  have hdata : ((grid width height value).sequential order (out, regs)
      (grid width height value).rounds).1 =
      order.foldl (fun out b => update out (b.1 + b.2 * width) (value b.1 b.2)) out :=
    actAll_fst (fun _ _ => rfl) _ _
  rw [hdata]
  refine (foldl_cells value order out (⟨i, hi⟩, ⟨j, hj⟩)).trans (if_pos ?_)
  exact Finset.mem_toList.2 (Finset.mem_univ _)

/-- The image of a buffer of fewer than `2 ^ 32` cells. -/
theorem savePng_apply {C : Type*} (palette : T → C) (hsize : width * height < 2 ^ 32)
    (data : ℕ → T) (image : ℕ → ℕ → C) {i j : ℕ} (hi : i < width) (hj : j < height) :
    savePng palette width height data image j i = palette (data (i + j * width)) := by
  -- the rows that are finished
  have hrows : ∀ j < height, ∀ i < width,
      savePng palette width height data image j i =
        palette (data ((i + j * width) % 2 ^ 32)) := by
    refine forBelow_inv height.zero_le (fun n (image : ℕ → ℕ → C) => ∀ j < n, ∀ i < width,
      image j i = palette (data ((i + j * width) % 2 ^ 32))) ?_ ?_
    · exact fun j hj => absurd hj j.not_lt_zero
    · intro n _ _ image himage
      -- the row `n`, and the pixels of it that are finished
      have hrow := forBelow_inv width.zero_le (fun m (image' : ℕ → ℕ → C) =>
        (∀ j ≠ n, image' j = image j) ∧
          ∀ i < m, image' n i = palette (data ((i + n * width) % 2 ^ 32)))
        (f := fun i image => update image n (update (image n) i
          (palette (data ((i + n * width) % 2 ^ 32))))) (s := image) ⟨fun _ _ => rfl,
          fun i hi => absurd hi i.not_lt_zero⟩ ?_
      · intro j hj i hi
        rcases Nat.lt_succ_iff_lt_or_eq.1 hj with hlt | rfl
        · rw [hrow.1 j hlt.ne]
          exact himage j hlt i hi
        · exact hrow.2 i hi
      · intro m _ _ image' h
        refine ⟨fun j hj => by rw [update_of_ne hj, h.1 j hj], fun i hi => ?_⟩
        rw [update_self]
        by_cases him : i = m
        · rw [him, update_self]
        · rw [update_of_ne him]
          exact h.2 i (by omega)
  have hlt := address_lt hi hj
  rw [hrows j hj i hi, Nat.mod_eq_of_lt (by omega)]

/-- **Every pixel of the image has the shade of its cell**, however the work-items of the kernel are
interleaved, and whatever the buffer and the image held; the work-items write inside the buffer. -/
theorem picture_spec {C : Type*} (palette : T → C) (hsize : width * height < 2 ^ 32)
    (out : ℕ → T) (regs : Fin width × Fin height → Unit) (image : ℕ → ℕ → C) :
    (∀ i < width, ∀ j < height, i + j * width < bufferSize width height) ∧
      ∃ data, (grid width height value).Computes (out, regs) data ∧
        ∀ i < width, ∀ j < height,
          savePng palette width height data image j i = palette (value i j) := by
  obtain ⟨data, hcomputes, hdata⟩ := grid_computes value out regs
  refine ⟨fun i hi j hj => address_lt_bufferSize hsize hi hj, data, hcomputes,
    fun i hi j hj => ?_⟩
  rw [savePng_apply palette hsize data image hi hj, hdata i hi j hj]

/-- The program's own picture, of 3840 by 2160 cells and with a palette of one shade. -/
theorem picture_spec_program :
    (∀ i < 3840, ∀ j < 2160, i + j * 3840 < bufferSize 3840 2160) ∧
      ∃ data,
        (grid 3840 2160 (julia (-2 : ℝ) (-6 / 5) (1 / 900) (-3 / 100) (7 / 10) 512)).Computes
          (fun _ => 0, fun _ => ()) data ∧
        ∀ i < 3840, ∀ j < 2160, savePng id 3840 2160 data (fun _ _ => 0) j i =
          julia (-2 : ℝ) (-6 / 5) (1 / 900) (-3 / 100) (7 / 10) 512 i j :=
  picture_spec _ id (by norm_num) _ _ _

end Picture

/-! ### What the shades show -/

section Escape

variable (cx cy : ℝ)

/-- The point in the variables. -/
def Loop.point (s : Loop ℝ) : ℂ := ⟨s.zx, s.zy⟩

/-- A pass is the quadratic map. -/
theorem pass_point (s : Loop ℝ) : (s.pass cx cy).point = next ⟨cx, cy⟩ s.point := by
  refine Complex.ext ?_ ?_
  · simp only [Loop.pass, Loop.point, next, sq, Complex.add_re, Complex.mul_re]
  · simp only [Loop.pass, Loop.point, next, sq, Complex.add_im, Complex.mul_im]
    push_cast
    ring

/-- `w` is the square of the distance from zero. -/
def Loop.Measured (s : Loop ℝ) : Prop := s.w = ‖s.point‖ ^ 2

theorem measured_mk (zx zy : ℝ) (k : ℕ) : Loop.Measured ⟨zx, zy, zx * zx + zy * zy, k⟩ := by
  rw [Loop.Measured, Complex.sq_norm, Complex.normSq_apply]
  rfl

/-- The test of the loop is that for the disc of radius two. -/
theorem Loop.Measured.lt_iff {s : Loop ℝ} (h : s.Measured) :
    s.w < ((4 : ℕ) : ℝ) ↔ ‖s.point‖ < 2 := by
  have hfour : ((4 : ℕ) : ℝ) = 2 ^ 2 := by norm_num
  rw [h, hfour]
  exact pow_lt_pow_iff_left₀ (norm_nonneg _) (by norm_num) (by norm_num)

/-- **The passes of the loop**: as long as the orbit is in the open disc of radius two. -/
theorem passes_spec (n : ℕ) {s : Loop ℝ} (hs : s.Measured) :
    ∃ m ≤ n, (Loop.passes cx cy n s).k = s.k + m ∧
      (∀ i < m, ‖orbit ⟨cx, cy⟩ s.point i‖ < 2) ∧
      (m < n → 2 ≤ ‖orbit ⟨cx, cy⟩ s.point m‖) := by
  induction n generalizing s with
  | zero =>
      exact ⟨0, le_rfl, rfl, fun i hi => absurd hi i.not_lt_zero, fun h => absurd h (by omega)⟩
  | succ n ih =>
      rw [Loop.passes]
      by_cases hw : s.w < ((4 : ℕ) : ℝ)
      · have hpass : (s.pass cx cy).Measured := measured_mk _ _ _
        obtain ⟨m, hm, hk, hin, hout⟩ := ih hpass
        rw [pass_point] at hin hout
        refine ⟨m + 1, by omega, ?_, fun i hi => ?_, fun h => hout (by omega)⟩
        · have hcount : (s.pass cx cy).k = s.k + 1 := rfl
          rw [if_pos hw, hk, hcount]
          omega
        · cases i with
          | zero => exact hs.lt_iff.1 hw
          | succ i => exact hin i (by omega)
      · exact ⟨0, by omega, by rw [if_neg hw]; rfl, fun i hi => absurd hi i.not_lt_zero,
          fun _ => not_lt.1 fun h => hw (hs.lt_iff.2 h)⟩

/-- **What the shades of a cell show** of the orbit of `z`, for any `max_it`: they are between zero
and one, and one exactly if the orbit is in the open disc for so long.  If the orbit is not bounded,
the passes are the same ones from some `max_it` on, and the shade fades; if it is bounded and not on
the circle of radius two, the shade is always one. -/
structure Shows (colour : ℕ → ℝ) (c z : ℂ) : Prop where
  mem : ∀ max_it, 0 ≤ colour max_it ∧ colour max_it ≤ 1
  eq_one_iff : ∀ max_it, colour max_it = 1 ↔ ∀ i < max_it, ‖orbit c z i‖ < 2
  unbounded : ¬Bounded c z → ∃ n : ℕ, ∀ max_it, n < max_it → colour max_it = n / max_it
  bounded : Bounded c z → (∀ n, ‖orbit c z n‖ ≠ 2) → ∀ max_it, colour max_it = 1

variable {cx cy}

/-- The loop shows an orbit of which the disc of radius two tells whether it is bounded. -/
theorem shows_of_disc {s : Loop ℝ} (hs : s.Measured) (hk : s.k = 0)
    (hdisc : Bounded ⟨cx, cy⟩ s.point ↔ ∀ n, ‖orbit ⟨cx, cy⟩ s.point n‖ ≤ 2) :
    Shows (fun max_it => shade max_it (Loop.passes cx cy max_it s).k) ⟨cx, cy⟩ s.point := by
  -- the number of passes
  have hpasses : ∀ max_it, ∃ m ≤ max_it,
      (shade max_it (Loop.passes cx cy max_it s).k : ℝ) = shade max_it m ∧
      (∀ i < m, ‖orbit ⟨cx, cy⟩ s.point i‖ < 2) ∧
      (m < max_it → 2 ≤ ‖orbit ⟨cx, cy⟩ s.point m‖) := by
    intro max_it
    obtain ⟨m, hm, hcount, hin, hout⟩ := passes_spec cx cy max_it hs
    exact ⟨m, hm, by rw [hcount, hk, Nat.zero_add], hin, hout⟩
  have hone : ∀ max_it, (shade max_it (Loop.passes cx cy max_it s).k : ℝ) = 1 ↔
      ∀ i < max_it, ‖orbit ⟨cx, cy⟩ s.point i‖ < 2 := by
    intro max_it
    obtain ⟨m, hm, hshade, hin, hout⟩ := hpasses max_it
    rw [hshade, shade]
    rcases Nat.lt_or_eq_of_le hm with hlt | rfl
    · rw [if_neg hlt.ne]
      have hpos : (0 : ℝ) < max_it := by exact_mod_cast (by omega : 0 < max_it)
      have hne : (m : ℝ) / max_it ≠ 1 := by
        rw [Ne, div_eq_one_iff_eq hpos.ne']
        exact_mod_cast hlt.ne
      exact ⟨fun h => absurd h hne, fun h => absurd (h m hlt) (not_lt.2 (hout hlt))⟩
    · rw [if_pos rfl]
      exact ⟨fun _ => hin, fun _ => rfl⟩
  refine ⟨fun max_it => ?_, hone, fun hunbounded => ?_, fun hbounded hcircle max_it => ?_⟩
  · obtain ⟨m, hm, hshade, -, -⟩ := hpasses max_it
    rw [hshade, shade]
    split_ifs
    · exact ⟨zero_le_one, le_rfl⟩
    · exact ⟨by positivity, div_le_one_of_le₀ (by exact_mod_cast hm) (by positivity)⟩
  · -- the first point of the orbit that is not in the open disc
    have hex : ∃ n, 2 ≤ ‖orbit ⟨cx, cy⟩ s.point n‖ := by
      rw [hdisc] at hunbounded
      push Not at hunbounded
      obtain ⟨n, hn⟩ := hunbounded
      exact ⟨n, hn.le⟩
    classical
    refine ⟨Nat.find hex, fun max_it hlt => ?_⟩
    obtain ⟨m, hm, hshade, hin, hout⟩ := hpasses max_it
    have hle : m ≤ Nat.find hex := by
      by_contra hgt
      exact absurd (hin _ (not_le.1 hgt)) (not_lt.2 (Nat.find_spec hex))
    have heq : m = Nat.find hex := le_antisymm hle (Nat.find_min' hex (hout (by omega)))
    rw [hshade, shade, heq, if_neg hlt.ne]
  · rw [hone]
    exact fun i _ => lt_of_le_of_ne (hdisc.1 hbounded i) (hcircle i)

variable (x0 y0 res : ℝ) (i j : ℕ)

/-- **The shades of `mandel`** show the orbit of zero, with the point of the cell for `c`. -/
theorem mandel_shows :
    Shows (fun max_it => mandel x0 y0 res max_it i j) ⟨x0 + res * i, y0 + res * j⟩ 0 := by
  have hs : Loop.Measured ⟨0, 0, 0, 0⟩ := by
    have h := measured_mk 0 0 0
    rwa [mul_zero, add_zero] at h
  exact shows_of_disc hs rfl bounded_zero_iff

/-- **The shades of `julia`** show the orbit of the point of the cell, for a `c` in the disc of
radius two. -/
theorem julia_shows (hc : ‖(⟨cx, cy⟩ : ℂ)‖ ≤ 2) :
    Shows (fun max_it => julia x0 y0 res cx cy max_it i j) ⟨cx, cy⟩
      ⟨x0 + res * i, y0 + res * j⟩ :=
  shows_of_disc (measured_mk _ _ _) rfl (bounded_iff hc)

/-- The program's own constant. -/
theorem julia_shows_program :
    Shows (fun max_it => julia (-2) (-6 / 5) (1 / 900) (-3 / 100) (7 / 10) max_it 0 0)
      ⟨-3 / 100, 7 / 10⟩ ⟨-2 + 1 / 900 * (0 : ℕ), -6 / 5 + 1 / 900 * (0 : ℕ)⟩ := by
  refine julia_shows _ _ _ _ _ ?_
  rw [Complex.norm_def, Complex.normSq_apply, Real.sqrt_le_left (by norm_num)]
  norm_num

end Escape

end EscapeTime
