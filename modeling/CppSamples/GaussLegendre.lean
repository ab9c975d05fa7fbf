/-
**The quadrature rules of `body_ax`.**

The constructor of `gauss_legendre` fixes the size of its two vectors by the order, fills them from
a table of the left halves of nine rules, and `reflect` completes the right half.  An order that is
not in the table is announced as one for which the rule of 20 points is taken; but the vectors keep
the size of the order that was asked for, and the order itself is kept as well.

Main definitions:

* `BodyAx.commaInitialize`, `BodyAx.conservativeResize`, `BodyAx.segment`, `BodyAx.assignSegment` —
  the operations on vectors;
* `BodyAx.points` — the table;
* `BodyAx.Rule`, `BodyAx.Rule.reflect`, `BodyAx.gaussLegendre` — the rules and their constructor;
* `BodyAx.Usable` — what a rule is expected to be.

Main results:

* `BodyAx.getElem?_mirror_reflect` — a vector that was completed is symmetric;
* `BodyAx.sum_odd_eq_zero` — a symmetric rule integrates odd powers to zero;
* `BodyAx.gaussLegendre_eq_some_iff` — **the orders for which the constructor completes**;
* `BodyAx.gaussLegendre_usable_iff` — **the orders whose rule is usable**.
-/

import CppSamples.BodyAxSdlp
import Mathlib.Data.Rat.Cast.CharZero

set_option relaxedAutoImplicit false
set_option autoImplicit false

namespace BodyAx

/-! ### Vectors -/

section Vectors

variable {K : Type*}

/-- `v << x, y, …;` for a vector of `size` elements.  Any other number of values is rejected. -/
def commaInitialize (size : ℕ) (values : List K) : Option (List K) :=
  if values.length = size then some values else none

/-- `v.conservativeResize(n)`: new elements have whatever `raw` gives. -/
def conservativeResize (raw : ℕ → K) (n : ℕ) (v : List K) : List K :=
  (List.range n).map fun i => v[i]?.getD (raw i)

/-- `v.segment(start, len)` -/
def segment (v : List K) (start len : ℕ) : Option (List K) :=
  if start + len ≤ v.length then some ((v.drop start).take len) else none

/-- `v.segment(start, len) = …;` -/
def assignSegment (v : List K) (start len : ℕ) (values : List K) : Option (List K) :=
  if start + len ≤ v.length ∧ values.length = len then
    some (v.take start ++ values ++ v.drop (start + len))
  else none

end Vectors

/-! ### The constructor -/

/-- The left halves of the knots and of the weights. -/
def points : ℕ → List ℚ × List ℚ
  | 1 => ([0.0], [2.0])
  | 2 => ([-0.57735026918962576450], [1.0])
  | 3 => ([-0.77459666924148337703, 0.0], [0.555555555555555555555, 0.888888888888888888888])
  | 4 => ([-0.86113631159405257522, -0.33998104358485626480],
      [0.34785484513745385737, 0.65214515486254614262])
  | 5 => ([-0.90617984593866399279, -0.53846931010568309103, 0.0],
      [0.23692688505618908751, 0.47862867049936646804, 0.56888888888888888889])
  | 6 => ([-0.932469514203152, -0.661209386466265, -0.238619186083197],
      [0.171324492379170, 0.360761573048139, 0.467913934572691])
  | 8 => ([-0.96028985649753623168, -0.79666647741362673959, -0.52553240991632898581,
        -0.18343464249564980493],
      [0.10122853629037625915, 0.22238103445337447054, 0.31370664587788728733,
        0.36268378337836198296])
  | 12 => ([-0.981560634246719, -0.904117256370475, -0.769902674194305, -0.587317954286617,
        -0.367831498998180, -0.125233408511469],
      [0.047175336386511, 0.106939325995318, 0.160078328543346, 0.203167426723066,
        0.233492536538355, 0.249147045813403])
  | _ => ([-0.993128599185094924786, -0.963971927277913791268, -0.912234428251325905868,
        -0.839116971822218823395, -0.746331906460150792614, -0.636053680726515025453,
        -0.510867001950827098004, -0.373706088715419560673, -0.227785851141645078080,
        -0.076526521133497333755],
      [0.017614007139152118312, 0.040601429800386941331, 0.062672048334109063570,
        0.083276741576704748725, 0.101930119817240435037, 0.118194531961518417312,
        0.131688638449176626898, 0.142096109318382051329, 0.149172986472603746788,
        0.152753387130725850698])

/-- The orders with a case of their own in the `switch`. -/
def listed : List ℕ := [1, 2, 3, 4, 5, 6, 8, 12, 20]

/-- The members of `gauss_legendre`. -/
structure Rule (K : Type*) where
  order_ : BitVec 32
  z_ : List K
  w_ : List K

section Constructor

variable {K : Type*} [DivisionRing K] (raw : ℕ → K)

/-- `reflect` -/
def Rule.reflect (r : Rule K) : Option (Rule K) := do
  let len := (r.order_ / 2).toNat
  let start := ((r.order_ + 1) / 2).toNat
  let z_ := conservativeResize raw r.order_.toNat r.z_
  let w_ := conservativeResize raw r.order_.toNat r.w_
  let z_ ← assignSegment z_ start len ((← segment z_ 0 len).reverse.map fun x => -x)
  let w_ ← assignSegment w_ start len (← segment w_ 0 len).reverse
  return { r with z_ := z_, w_ := w_ }

/-- What the constructor prints to `cerr`. -/
def announcement (order : BitVec 32) : String :=
  if order.toNat ∈ listed then ""
  else " Gauss_Legendre: Chosen number of Gaussian points is not available; will take N=20\n"

/-- The constructor, without what it prints. -/
def construct (order : BitVec 32) : Option (Rule K) := do
  let half := (order + 1) / 2
  let z_ ← commaInitialize half.toNat ((points order.toNat).1.map Rat.cast)
  let w_ ← commaInitialize half.toNat ((points order.toNat).2.map Rat.cast)
  Rule.reflect raw ⟨order, z_, w_⟩

/-- **The constructor**: what it prints, and the rule when no vector gets another number of values
than it has elements. -/
def gaussLegendre (order : BitVec 32) : String × Option (Rule K) :=
  (announcement order, construct raw order)

/-- The rule as `body_ax_sdlp` reads it. -/
def Rule.toGaussLegendre (r : Rule K) : GaussLegendre K where
  order := r.order_.toNat
  z i := r.z_[i]?.getD 0
  w i := r.w_[i]?.getD 0

/-- **A usable rule**: the constructor completes, the vectors have as many elements as the order
says, the knots are antisymmetric and the weights symmetric, and the odd moments are zero. -/
def Usable (order : BitVec 32) : Prop :=
  ∃ r, (gaussLegendre raw order).2 = some r ∧ r.order_ = order ∧
    r.z_.length = order.toNat ∧ r.w_.length = order.toNat ∧
    (∀ i < order.toNat, r.toGaussLegendre.z (order.toNat - 1 - i) = -r.toGaussLegendre.z i) ∧
    (∀ i < order.toNat, r.toGaussLegendre.w (order.toNat - 1 - i) = r.toGaussLegendre.w i) ∧
    ∀ k, ∑ i ∈ Finset.range r.toGaussLegendre.order,
      r.toGaussLegendre.w i * r.toGaussLegendre.z i ^ (2 * k + 1) = 0

end Constructor

/-! ### Symmetric vectors -/

section Symmetric

variable {K : Type*}

/-- A vector with the images of its first `len` elements behind it, in reverse order. -/
def mirror (f : K → K) (v : List K) (len : ℕ) : List K := v ++ (v.take len).reverse.map f

variable {f : K → K} {v : List K} {len i : ℕ}

theorem length_mirror (hlen : len ≤ v.length) : (mirror f v len).length = v.length + len := by
  rw [mirror, List.length_append, List.length_map, List.length_reverse, List.length_take,
    Nat.min_eq_left hlen]

theorem getElem?_mirror_of_lt (hi : i < v.length) : (mirror f v len)[i]? = v[i]? :=
  List.getElem?_append_left hi

/-- The elements of the second half. -/
theorem getElem?_mirror_add (hlen : len ≤ v.length) (hi : i < len) :
    (mirror f v len)[v.length + i]? = v[len - 1 - i]?.map f := by
  have htake : (v.take len).length = len := by rw [List.length_take, Nat.min_eq_left hlen]
  rw [mirror, List.getElem?_append_right (Nat.le_add_right _ _), Nat.add_sub_cancel_left,
    List.getElem?_map, List.getElem?_reverse (by omega), htake,
    List.getElem?_take_of_lt (by omega)]

/-- **A vector that was completed is symmetric**, when the element in the middle is. -/
theorem getElem?_mirror_reflect (hf : ∀ x, f (f x) = x) (hlen : len ≤ v.length)
    (hlen' : v.length ≤ len + 1) (hmid : ∀ x, len < v.length → v[len]? = some x → f x = x)
    (hi : i < v.length + len) :
    (mirror f v len)[v.length + len - 1 - i]? = (mirror f v len)[i]?.map f := by
  rcases Nat.lt_or_ge i len with hlt | hge
  · -- an element of the left half and its image
    have hindex : v.length + len - 1 - i = v.length + (len - 1 - i) := by omega
    have hback : len - 1 - (len - 1 - i) = i := by omega
    rw [hindex, getElem?_mirror_add hlen (by omega), hback, getElem?_mirror_of_lt (by omega)]
  rcases Nat.lt_or_ge i v.length with hlt | hge'
  · -- the element in the middle
    have hindex : v.length + len - 1 - i = i := by omega
    obtain rfl : i = len := by omega
    rw [hindex, getElem?_mirror_of_lt hlt, List.getElem?_eq_getElem hlt, Option.map_some,
      hmid _ hlt (List.getElem?_eq_getElem hlt)]
  · -- an image and its element
    obtain ⟨j, rfl⟩ := Nat.exists_eq_add_of_le hge'
    have hindex : v.length + len - 1 - (v.length + j) = len - 1 - j := by omega
    rw [hindex, getElem?_mirror_of_lt (by omega), getElem?_mirror_add hlen (by omega),
      Option.map_map, Function.comp_def]
    simp only [hf, Option.map_id']

/-- The knots of a completed rule. -/
theorem mirror_neg_reflect [AddGroup K] {n : ℕ} {z : List K}
    (hz : z.length = (n + 1) / 2)
    (hmid : ∀ x, n / 2 < z.length → z[n / 2]? = some x → x = 0) :
    ∀ i < n, (mirror (fun x => -x) z (n / 2))[n - 1 - i]?.getD 0 =
      -(mirror (fun x => -x) z (n / 2))[i]?.getD 0 := by
  intro i hi
  have hneg : ∀ x, n / 2 < z.length → z[n / 2]? = some x → -x = x := by
    intro x hlt hx
    rw [hmid x hlt hx, neg_zero]
  have hlen : n / 2 ≤ z.length := by omega
  have hreflect := getElem?_mirror_reflect (f := fun x : K => -x) neg_neg hlen (by omega) hneg
    (i := i) (by omega)
  have hsum : z.length + n / 2 = n := by omega
  rw [hsum] at hreflect
  rw [hreflect]
  cases (mirror (fun x => -x) z (n / 2))[i]? with
  | none => exact neg_zero.symm
  | some x => rfl

/-- The weights of a completed rule. -/
theorem mirror_id_reflect [Zero K] {n : ℕ} {w : List K} (hw : w.length = (n + 1) / 2) :
    ∀ i < n, (mirror id w (n / 2))[n - 1 - i]?.getD 0 = (mirror id w (n / 2))[i]?.getD 0 := by
  intro i hi
  have hlen : n / 2 ≤ w.length := by omega
  have hreflect := getElem?_mirror_reflect (f := id) (fun _ => rfl) hlen (by omega)
    (fun _ _ _ => rfl) (i := i) (by omega)
  have hsum : w.length + n / 2 = n := by omega
  rw [hsum, Option.map_id_fun] at hreflect
  rw [hreflect]
  rfl

end Symmetric

section OddMoments

variable {K : Type*} [Field K] [CharZero K] {n : ℕ} {z w : ℕ → K}

/-- **A symmetric rule integrates odd powers to zero.** -/
theorem sum_odd_eq_zero (hz : ∀ i < n, z (n - 1 - i) = -z i) (hw : ∀ i < n, w (n - 1 - i) = w i)
    (k : ℕ) : ∑ i ∈ Finset.range n, w i * z i ^ (2 * k + 1) = 0 := by
  have hneg : ∑ i ∈ Finset.range n, w i * z i ^ (2 * k + 1) =
      -∑ i ∈ Finset.range n, w i * z i ^ (2 * k + 1) := by
    rw [← Finset.sum_neg_distrib]
    conv_lhs => rw [← Finset.sum_range_reflect]
    refine Finset.sum_congr rfl ?_
    intro i hi
    have hi := Finset.mem_range.1 hi
    rw [hz i hi, hw i hi, Odd.neg_pow ⟨k, rfl⟩, mul_neg]
  exact self_eq_neg.1 hneg

end OddMoments

/-! ### `reflect` -/

section Reflect

variable {K : Type*} (raw : ℕ → K) {v : List K} {n : ℕ}

theorem length_conservativeResize : (conservativeResize raw n v).length = n := by
  rw [conservativeResize, List.length_map, List.length_range]

/-- The elements that a larger vector keeps. -/
theorem take_conservativeResize {k : ℕ} (hn : v.length ≤ n) (hk : k ≤ v.length) :
    (conservativeResize raw n v).take k = v.take k := by
  refine List.ext_getElem? ?_
  intro i
  rcases Nat.lt_or_ge i k with hi | hi
  · rw [List.getElem?_take_of_lt hi, List.getElem?_take_of_lt hi, conservativeResize,
      List.getElem?_map, List.getElem?_range (by omega), Option.map_some,
      List.getElem?_eq_getElem (by omega : i < v.length), Option.getD_some]
  · rw [List.getElem?_eq_none (by rw [List.length_take]; omega),
      List.getElem?_eq_none (by rw [List.length_take]; omega)]

variable {start len : ℕ}

theorem segment_conservativeResize (hv : v.length = start) (hlen : len ≤ start) :
    segment (conservativeResize raw (start + len) v) 0 len = some (v.take len) := by
  rw [segment, length_conservativeResize, if_pos (by omega), List.drop_zero,
    take_conservativeResize raw (by omega) (by omega)]

/-- The completed vector. -/
theorem assignSegment_conservativeResize (f : K → K) (hv : v.length = start) (hlen : len ≤ start) :
    assignSegment (conservativeResize raw (start + len) v) start len
      ((v.take len).reverse.map f) = some (mirror f v len) := by
  have hvalues : ((v.take len).reverse.map f).length = len := by
    rw [List.length_map, List.length_reverse, List.length_take, Nat.min_eq_left (hv ▸ hlen)]
  have hdrop : (conservativeResize raw (start + len) v).drop (start + len) = [] :=
    List.drop_eq_nil_of_le (length_conservativeResize raw).le
  rw [assignSegment, length_conservativeResize, if_pos ⟨le_rfl, hvalues⟩, hdrop, List.append_nil,
    take_conservativeResize raw (by omega) hv.ge, ← hv, List.take_length, mirror]

/-- `(order + 1) / 2` overflows for the largest order only. -/
theorem toNat_half (order : BitVec 32) : ((order + 1) / 2).toNat =
    if order.toNat = 2 ^ 32 - 1 then 0 else (order.toNat + 1) / 2 := by
  have hlt := order.isLt
  rw [BitVec.toNat_udiv, BitVec.toNat_add]
  split_ifs with h
  · rw [h]
    rfl
  · rw [Nat.mod_eq_of_lt (by change order.toNat + 1 < _; omega)]
    rfl

theorem toNat_len (order : BitVec 32) : (order / 2).toNat = order.toNat / 2 := BitVec.toNat_udiv

/-- **`reflect` completes two vectors of half the size.** -/
theorem reflect_eq {K : Type*} [DivisionRing K] (raw : ℕ → K) {order : BitVec 32} {z w : List K}
    (hsize : order.toNat ≠ 2 ^ 32 - 1) (hz : z.length = (order.toNat + 1) / 2)
    (hw : w.length = (order.toNat + 1) / 2) :
    Rule.reflect raw ⟨order, z, w⟩ = some ⟨order, mirror (fun x => -x) z (order.toNat / 2),
      mirror id w (order.toNat / 2)⟩ := by
  have horder : order.toNat = (order.toNat + 1) / 2 + order.toNat / 2 := by omega
  have hlen : order.toNat / 2 ≤ (order.toNat + 1) / 2 := by omega
  have hz' := assignSegment_conservativeResize raw (fun x => -x) hz hlen
  have hw' := assignSegment_conservativeResize raw id hw hlen
  have hsz := segment_conservativeResize raw hz hlen
  have hsw := segment_conservativeResize raw hw hlen
  rw [← horder] at hz' hw' hsz hsw
  rw [List.map_id] at hw'
  have hhalf : ((order + 1) / 2).toNat = (order.toNat + 1) / 2 := by
    rw [toNat_half, if_neg hsize]
  simp only [Rule.reflect, hhalf, toNat_len order, hsz, hsw, Option.bind_eq_bind,
    Option.bind_some, hz', hw', Option.pure_def]

end Reflect

/-! ### The table -/

/-- The tables of the listed orders have the sizes of the vectors. -/
theorem length_points {n : ℕ} (hn : n ∈ listed) :
    (points n).1.length = (n + 1) / 2 ∧ (points n).2.length = (n + 1) / 2 := by
  simp only [listed, List.mem_cons, List.not_mem_nil, or_false] at hn
  obtain rfl | rfl | rfl | rfl | rfl | rfl | rfl | rfl | rfl := hn <;> exact ⟨rfl, rfl⟩

/-- The element in the middle of an odd rule is zero. -/
theorem points_middle {n : ℕ} (hn : n ∈ listed) {x : ℚ} (hodd : n / 2 < (points n).1.length)
    (hx : (points n).1[n / 2]? = some x) : x = 0 := by
  simp only [listed, List.mem_cons, List.not_mem_nil, or_false] at hn
  have hzero : (0.0 : ℚ) = x → x = 0 := by
    rintro rfl
    norm_num
  obtain rfl | rfl | rfl | rfl | rfl | rfl | rfl | rfl | rfl := hn
  · exact hzero (Option.some.inj hx)
  · exact absurd hodd (by decide)
  · exact hzero (Option.some.inj hx)
  · exact absurd hodd (by decide)
  · exact hzero (Option.some.inj hx)
  all_goals exact absurd hodd (by decide)

/-- Every other order gets the table of 20 points. -/
theorem points_of_not_listed {n : ℕ} (hn : n ∉ listed) : points n = points 20 := by
  unfold points
  split <;> first | rfl | exact absurd (by decide) hn

/-- The last knot of the left half of the rule of 20 points. -/
theorem points_twenty_nine : (points 20).1[9]? = some (-0.076526521133497333755 : ℚ) := rfl

/-! ### The orders -/

section Orders

variable {K : Type*} [Field K] {raw : ℕ → K} {order : BitVec 32}

/-- The rule of an order whose table has the size of its vectors. -/
theorem construct_eq (raw : ℕ → K) (hsize : order.toNat ≠ 2 ^ 32 - 1)
    (hz : (points order.toNat).1.length = (order.toNat + 1) / 2)
    (hw : (points order.toNat).2.length = (order.toNat + 1) / 2) :
    construct raw order = some ⟨order,
      mirror (fun x => -x) ((points order.toNat).1.map Rat.cast) (order.toNat / 2),
      mirror id ((points order.toNat).2.map Rat.cast) (order.toNat / 2)⟩ := by
  have hhalf : ((order + 1) / 2).toNat = (order.toNat + 1) / 2 := by
    rw [toNat_half, if_neg hsize]
  have hreflect := reflect_eq raw hsize
    (z := (points order.toNat).1.map Rat.cast) (w := (points order.toNat).2.map Rat.cast)
    (by rw [List.length_map, hz]) (by rw [List.length_map, hw])
  simp only [construct, commaInitialize, List.length_map, hhalf, hz, hw, if_true,
    Option.bind_eq_bind, Option.bind_some, hreflect]

/-- A constructor that completes had a table of the right size. -/
theorem length_of_construct {r : Rule K} (h : construct raw order = some r) :
    (points order.toNat).1.length = ((order + 1) / 2).toNat := by
  by_contra hne
  rw [construct, commaInitialize, List.length_map, if_neg hne] at h
  cases h

theorem ne_of_mem_listed {n : ℕ} (hn : n ∈ listed) : n ≠ 2 ^ 32 - 1 := by
  rintro rfl
  exact absurd hn (by decide)

/-- **The orders for which the constructor completes.** -/
theorem gaussLegendre_eq_some_iff :
    (∃ r, (gaussLegendre raw order).2 = some r) ↔ order.toNat ∈ listed ∨ order.toNat = 19 := by
  constructor
  · rintro ⟨r, hr⟩
    by_cases hn : order.toNat ∈ listed
    · exact .inl hn
    have hlength := length_of_construct hr
    have htwenty : (points 20).1.length = 10 := rfl
    rw [points_of_not_listed hn, htwenty, toNat_half] at hlength
    split_ifs at hlength
    -- ten values are as many as the elements for two orders
    have hne : order.toNat ≠ 20 := fun h => hn (h ▸ by decide)
    exact .inr (by omega)
  · rintro (hn | hn)
    · exact ⟨_, construct_eq raw (ne_of_mem_listed hn) (length_points hn).1 (length_points hn).2⟩
    · exact ⟨_, construct_eq raw (by omega) (by rw [hn]; rfl) (by rw [hn]; rfl)⟩

/-- The rules of the listed orders. -/
theorem usable_of_listed [CharZero K] (hn : order.toNat ∈ listed) : Usable raw order := by
  obtain ⟨hz, hw⟩ := length_points hn
  obtain ⟨z, hz'⟩ : ∃ z : List K, z = (points order.toNat).1.map Rat.cast := ⟨_, rfl⟩
  obtain ⟨w, hw'⟩ : ∃ w : List K, w = (points order.toNat).2.map Rat.cast := ⟨_, rfl⟩
  have hzlen : z.length = (order.toNat + 1) / 2 := by rw [hz', List.length_map, hz]
  have hwlen : w.length = (order.toNat + 1) / 2 := by rw [hw', List.length_map, hw]
  have hmid : ∀ x, order.toNat / 2 < z.length → z[order.toNat / 2]? = some x → x = 0 := by
    intro x hlt hx
    rw [hz', List.getElem?_map, Option.map_eq_some_iff] at hx
    obtain ⟨q, hq, rfl⟩ := hx
    rw [points_middle hn (by omega) hq, Rat.cast_zero]
  have hzsym := mirror_neg_reflect hzlen hmid
  have hwsym := mirror_id_reflect hwlen
  have hrule := construct_eq raw (ne_of_mem_listed hn) hz hw
  rw [← hz', ← hw'] at hrule
  refine ⟨_, hrule, rfl, ?_, ?_, hzsym, hwsym, sum_odd_eq_zero hzsym hwsym⟩
  · rw [length_mirror (by omega)]
    omega
  · rw [length_mirror (by omega)]
    omega

/-- The rule of order 19 has knots of 20 points, and the one in its middle is not zero. -/
theorem not_usable_nineteen [CharZero K] (hn : order.toNat = 19) : ¬Usable raw order := by
  rintro ⟨r, hr, -, -, -, hsym, -⟩
  have hmid := hsym 9 (by omega)
  have hsize : order.toNat ≠ 2 ^ 32 - 1 := by omega
  have hrule := construct_eq raw hsize (by rw [hn]; rfl) (by rw [hn]; rfl)
  obtain rfl := Option.some.inj (hrule.symm.trans hr)
  have hknot : (mirror (fun x => -x) ((points 20).1.map (Rat.cast : ℚ → K)) 9)[9]? =
      some ((-0.076526521133497333755 : ℚ) : K) := by
    have hlt : 9 < ((points 20).1.map (Rat.cast : ℚ → K)).length := by
      rw [List.length_map]
      decide
    rw [getElem?_mirror_of_lt hlt, List.getElem?_map, points_twenty_nine, Option.map_some]
  have htwenty : points 19 = points 20 := points_of_not_listed (by decide)
  simp only [Rule.toGaussLegendre, hn, htwenty, Nat.reduceSub, Nat.reduceDiv, hknot,
    Option.getD_some] at hmid
  have hzero := self_eq_neg.1 hmid
  rw [Rat.cast_eq_zero] at hzero
  norm_num at hzero

/-- **The orders whose rule is usable.** -/
theorem gaussLegendre_usable_iff (K : Type*) [Field K] [CharZero K] (raw : ℕ → K)
    (order : BitVec 32) : Usable raw order ↔ order.toNat ∈ listed := by
  constructor
  · intro h
    obtain ⟨r, hr, -⟩ := id h
    rcases gaussLegendre_eq_some_iff.1 ⟨r, hr⟩ with hn | hn
    · exact hn
    · exact absurd h (not_usable_nineteen hn)
  · exact usable_of_listed

/-- The default order. -/
theorem gaussLegendre_usable_iff_six : Usable (fun _ => (0 : ℚ)) 6 :=
  (gaussLegendre_usable_iff ℚ (fun _ => 0) 6).2 (by decide)

/-- An order without a table of its own. -/
theorem gaussLegendre_rejects : ¬∀ order : BitVec 32, Usable (fun _ => (0 : ℚ)) order := by
  intro h
  obtain ⟨r, hr, -⟩ := h 7
  rcases gaussLegendre_eq_some_iff.1 ⟨r, hr⟩ with hn | hn
  · exact absurd hn (by decide)
  · exact absurd hn (by decide)

end Orders

end BodyAx
