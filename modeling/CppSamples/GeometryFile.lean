/-
**The start points in the geometry file of `body_ax`.**

`body_ax_geo` reads some lines of the geometry and then, line by line, the points at which
streamlines start, until a coordinate is `99`.  The loop does not look at the state of the stream.
Behind the end of the file, or where the file was not opened, a line is empty, and the two variables
keep what they hold.  They are declared in the loop and have no value of their own, so what they
hold is anything.

Main definitions:

* `BodyAx.readln` — a line with two numbers;
* `BodyAx.StartPoints`, `BodyAx.collect` — the loop, with a bound on the number of iterations;
* `BodyAx.bodyAxGeo` — the reading of a file;
* `BodyAx.Sentinel` — the lines that end the loop.

Main results:

* `BodyAx.collect_isSome` — a line that ends the loop is found in time;
* `BodyAx.collect_eq_none` — without one the loop does not end;
* `BodyAx.bodyAxGeo_ends_iff` — **the files for which the loop ends**;
* `BodyAx.bodyAxGeo_not_ends` — a file for which it does not;
* `BodyAx.collect_points` — the points of a file in order;
* `BodyAx.sentinel_of_ninetyNine` — a line that begins with the number `99` ends the loop.
-/

import CppSamples.TextStream
import Mathlib.Tactic.NormNum

set_option relaxedAutoImplicit false
set_option autoImplicit false

namespace BodyAx

open TextStream

/-- The arithmetic of the loop. -/
class StreamLib (T : Type*) where
  /-- `x < y` -/
  lt : T → T → Bool
  /-- `std::fabs` -/
  fabs : T → T
  /-- `99` as a `T` -/
  ninetyNine : T
  /-- `eps` -/
  eps : T
  /-- a number rounded to a `T`, and whether it is in the range of `T` -/
  strtod : ℚ → T × Bool

open StreamLib

section Code

variable {T : Type*} [Zero T] [Sub T] [StreamLib T]

/-- What `iss >> x00s >> y00s` stores, on a stream of a line. -/
def extractPair (line : List Char) : Option T × Option T :=
  let (x, iss) := extract strtod (Stream.on line)
  let (y, _) := extract strtod iss
  (x, y)

/-- `readln(is, x00s, y00s)`, from the values of the two variables. -/
def readln (is : Stream) (xy : T × T) : (T × T) × Stream :=
  let (line, is) := getline is
  let (x, y) := extractPair line
  ((x.getD xy.1, y.getD xy.2), is)

/-- `params.x00` and `params.y00`. -/
structure StartPoints (T : Type*) where
  x00 : List T
  y00 : List T

/-- Whether a coordinate ends the loop. -/
def isSentinel (x : T) : Bool := lt (fabs (x - ninetyNine)) eps

/-- **The loop over the start points**, of which at most `fuel` iterations are made.  `raw i` is
what the two variables hold at the beginning of iteration `i`. -/
def collect (raw : ℕ → T × T) : ℕ → ℕ → Stream → StartPoints T → Option (StartPoints T)
  | 0, _, _, _ => none
  | fuel + 1, i, ifs, params =>
    let (xy, ifs) := readln ifs (raw i)
    if isSentinel xy.1 || isSentinel xy.2 then some params
    else collect raw fuel (i + 1) ifs ⟨params.x00 ++ [xy.1], params.y00 ++ [xy.2]⟩

/-- The kind of the flow. -/
inductive FlowType
  | sphere
  | thorus
  deriving DecidableEq

/-- How many lines of the file are read for the geometry. -/
def geometryLines : FlowType → ℕ
  | .sphere => 10
  | .thorus => 13

/-- The stream when the geometry is made.  The values of a file that was opened go into the
geometry, and the stream is used no further. -/
def afterGeometry (flowType : FlowType) (opened : Bool) (content : List Char) : Stream :=
  if opened then (fun ifs => (getline ifs).2)^[geometryLines flowType] (Stream.on content)
  else Stream.failed

/-- The start points of a file; a line is left out before them. -/
def bodyAxGeo (raw : ℕ → T × T) (fuel : ℕ) (flowType : FlowType) (opened : Bool)
    (content : List Char) : Option (StartPoints T) :=
  collect raw fuel 0 (getline (afterGeometry flowType opened content)).2 ⟨[], []⟩

/-! ### The lines that end the loop -/

/-- **A line that ends the loop**: one of the numbers that are read from it is `99`. -/
def Sentinel (T : Type*) [Zero T] [Sub T] [StreamLib T] (line : List Char) : Prop :=
  ∃ v : T, isSentinel v = true ∧
    ((extractPair line).1 = some v ∨ (extractPair line).2 = some v)

omit [Sub T] in
/-- The values of the variables after a line. -/
theorem readln_fst (is : Stream) (xy : T × T) :
    (readln is xy).1 = ((extractPair (is.pending.headD [])).1.getD xy.1,
      (extractPair (is.pending.headD [])).2.getD xy.2) := by
  rw [← getline_fst]
  rfl

omit [Sub T] in
theorem pending_readln (is : Stream) (xy : T × T) :
    (readln is xy).2.pending = is.pending.tail :=
  pending_getline is

/-- Whatever the variables hold, a sentinel line ends the loop. -/
theorem exit_of_sentinel {is : Stream} (h : Sentinel T (is.pending.headD [])) (xy : T × T) :
    (isSentinel (readln is xy).1.1 || isSentinel (readln is xy).1.2) = true := by
  obtain ⟨v, hv, hstored⟩ := h
  rw [readln_fst, Bool.or_eq_true]
  cases hstored with
  | inl hx =>
    left
    rw [hx]
    exact hv
  | inr hy =>
    right
    rw [hy]
    exact hv

/-- Another line does not, when the variables hold nothing near `99`. -/
theorem not_exit_of_not_sentinel {is : Stream} (h : ¬Sentinel T (is.pending.headD []))
    {v : T} (hv : isSentinel v = false) :
    (isSentinel (readln is (v, v)).1.1 || isSentinel (readln is (v, v)).1.2) = false := by
  rw [readln_fst, Bool.or_eq_false_iff]
  constructor
  · cases hx : (extractPair (T := T) (is.pending.headD [])).1 with
    | none => exact hv
    | some x => exact Bool.eq_false_iff.mpr fun hx' => h ⟨x, hx', .inl hx⟩
  · cases hy : (extractPair (T := T) (is.pending.headD [])).2 with
    | none => exact hv
    | some y => exact Bool.eq_false_iff.mpr fun hy' => h ⟨y, hy', .inr hy⟩

omit [Sub T] in
/-- A line of white space leaves both variables as they are. -/
theorem extractPair_blank {line : List Char} (h : line.dropWhile DecimalText.isSpace = []) :
    extractPair (T := T) line = (none, none) := by
  unfold extractPair
  rw [extract_blank strtod h]
  rfl

theorem not_sentinel_nil : ¬Sentinel T [] := by
  rintro ⟨v, -, h⟩
  rw [extractPair_blank rfl] at h
  cases h with
  | inl hx => exact absurd hx (by simp)
  | inr hy => exact absurd hy (by simp)

/-- **A line that begins with the number `99` ends the loop.** -/
theorem sentinel_of_ninetyNine (h : isSentinel (strtod 99 : T × Bool).1 = true)
    (space rest : List Char) (hspace : ∀ c ∈ space, DecimalText.isSpace c = true)
    (hrest : ∀ c, rest.head? = some c → c.isDigit = false ∧ c ≠ '.' ∧ c ≠ 'e' ∧ c ≠ 'E') :
    Sentinel T (space ++ (Nat.toDigits 10 99 ++ rest)) := by
  refine ⟨(strtod 99).1, h, .inl ?_⟩
  have hextract := extract_toDigits (T := T) strtod 99 hspace hrest
  simp [extractPair, hextract]

/-! ### The loop -/

variable {raw : ℕ → T × T}

theorem collect_succ_of_exit {fuel i : ℕ} {ifs : Stream} {params : StartPoints T}
    (h : (isSentinel (readln ifs (raw i)).1.1 || isSentinel (readln ifs (raw i)).1.2) = true) :
    collect raw (fuel + 1) i ifs params = some params :=
  if_pos h

theorem collect_succ_of_not_exit {fuel i : ℕ} {ifs : Stream} {params : StartPoints T}
    (h : (isSentinel (readln ifs (raw i)).1.1 || isSentinel (readln ifs (raw i)).1.2) = false) :
    collect raw (fuel + 1) i ifs params = collect raw fuel (i + 1) (readln ifs (raw i)).2
      ⟨params.x00 ++ [(readln ifs (raw i)).1.1], params.y00 ++ [(readln ifs (raw i)).1.2]⟩ :=
  if_neg (Bool.eq_false_iff.mp h)

/-- **A sentinel line is found in time.** -/
theorem collect_isSome {fuel i : ℕ} {ifs : Stream} {params : StartPoints T}
    (h : ∃ line ∈ ifs.pending, Sentinel T line) (hfuel : ifs.pending.length ≤ fuel) :
    (collect raw fuel i ifs params).isSome := by
  induction fuel generalizing i ifs params with
  | zero =>
    obtain ⟨line, hline, -⟩ := h
    exact absurd (List.length_pos_of_mem hline) (by omega)
  | succ fuel ih =>
    cases hexit : isSentinel (readln ifs (raw i)).1.1 || isSentinel (readln ifs (raw i)).1.2 with
    | true => rw [collect_succ_of_exit hexit]; rfl
    | false =>
      rw [collect_succ_of_not_exit hexit]
      obtain ⟨line, hline, hsentinel⟩ := h
      cases hpending : ifs.pending with
      | nil => exact absurd (hpending ▸ hline) List.not_mem_nil
      | cons l ls =>
        rw [hpending] at hline hfuel
        -- the first line did not end the loop, so the sentinel is behind it
        have hne : line ≠ l := by
          rintro rfl
          have hhead : Sentinel T (ifs.pending.headD []) := by rwa [hpending]
          rw [exit_of_sentinel hhead] at hexit
          exact absurd hexit (by decide)
        have htail : (readln ifs (raw i)).2.pending = ls := by
          rw [pending_readln, hpending, List.tail_cons]
        refine ih ?_ ?_
        · rw [htail]
          exact ⟨line, (List.mem_cons.mp hline).resolve_left hne, hsentinel⟩
        · rw [htail]
          exact Nat.le_of_succ_le_succ hfuel

/-- **Without a sentinel line the loop need not end**: when the variables hold nothing near `99`,
no number of iterations is enough. -/
theorem collect_eq_none {v : T} (hv : isSentinel v = false) (hraw : ∀ i, raw i = (v, v))
    {fuel i : ℕ} {ifs : Stream} {params : StartPoints T}
    (h : ∀ line ∈ ifs.pending, ¬Sentinel T line) : collect raw fuel i ifs params = none := by
  induction fuel generalizing i ifs params with
  | zero => rfl
  | succ fuel ih =>
    have hhead : ¬Sentinel T (ifs.pending.headD []) := by
      cases hpending : ifs.pending with
      | nil => exact not_sentinel_nil
      | cons l ls => exact h l (hpending ▸ List.mem_cons_self)
    have hexit := not_exit_of_not_sentinel hhead hv
    rw [← hraw i] at hexit
    rw [collect_succ_of_not_exit hexit]
    refine ih fun line hline => h line ?_
    rw [pending_readln] at hline
    exact List.mem_of_mem_tail hline

/-- **The points of a file, in order**: those of the lines before the first sentinel, where each of
these lines has two numbers. -/
theorem collect_points {fuel i : ℕ} {ifs : Stream} {params : StartPoints T} {points : List (T × T)}
    {before after : List (List Char)} {line : List Char}
    (hpending : ifs.pending = before ++ line :: after) (hline : Sentinel T line)
    (hbefore : before.map extractPair = points.map fun p => (some p.1, some p.2))
    (hpoints : ∀ p ∈ points, isSentinel p.1 = false ∧ isSentinel p.2 = false)
    (hfuel : before.length < fuel) :
    collect raw fuel i ifs params =
      some ⟨params.x00 ++ points.map Prod.fst, params.y00 ++ points.map Prod.snd⟩ := by
  induction before generalizing fuel i ifs params points with
  | nil =>
    obtain ⟨fuel, rfl⟩ := Nat.exists_eq_add_one_of_ne_zero (Nat.ne_of_gt hfuel)
    have hnil : points = [] := by simpa using hbefore.symm
    have hhead : Sentinel T (ifs.pending.headD []) := by rwa [hpending]
    have hexit := exit_of_sentinel hhead (raw i)
    rw [collect_succ_of_exit hexit, hnil]
    simp
  | cons l ls ih =>
    obtain ⟨fuel, rfl⟩ := Nat.exists_eq_add_one_of_ne_zero (Nat.ne_of_gt (Nat.zero_lt_of_lt hfuel))
    cases points with
    | nil => exact absurd hbefore (by simp)
    | cons p ps =>
      rw [List.map_cons, List.map_cons, List.cons.injEq] at hbefore
      have hp := hpoints p List.mem_cons_self
      have hread : (readln ifs (raw i)).1 = p := by
        have hhead : ifs.pending.headD [] = l := by rw [hpending]; rfl
        rw [readln_fst, hhead, hbefore.1]
        rfl
      rw [collect_succ_of_not_exit (by rw [hread, hp.1, hp.2]; rfl), hread]
      rw [ih ?_ hbefore.2 ?_ (Nat.lt_of_succ_lt_succ hfuel)]
      · simp
      · rw [pending_readln, hpending]
        rfl
      · exact fun q hq => hpoints q (List.mem_cons_of_mem p hq)

/-! ### The file -/

/-- The lines that are to come when the loop begins. -/
theorem pending_afterGeometry (flowType : FlowType) (opened : Bool) (content : List Char) :
    (getline (afterGeometry flowType opened content)).2.pending =
      if opened then (lines content).drop (geometryLines flowType + 1) else [] := by
  rw [pending_getline]
  unfold afterGeometry
  split_ifs
  · rw [pending_iterate_getline, pending_on, List.tail_drop]
  · rfl

end Code

section Files

variable {T : Type*} [Zero T] [Sub T] [StreamLib T]

/-- **The files for which the loop ends in time**, whatever the variables hold: those that were
opened and have a sentinel line behind the geometry. -/
theorem bodyAxGeo_ends_iff (hzero : ∃ v : T, isSentinel v = false) (flowType : FlowType)
    (opened : Bool) (content : List Char) :
    (∀ raw : ℕ → T × T,
      (bodyAxGeo raw ((lines content).length + 1) flowType opened content).isSome) ↔
      opened = true ∧
        ∃ line ∈ (lines content).drop (geometryLines flowType + 1), Sentinel T line := by
  have hpending := pending_afterGeometry flowType opened content
  constructor
  · intro h
    obtain ⟨v, hv⟩ := hzero
    by_contra hno
    have hnone : ∀ line ∈ (getline (afterGeometry flowType opened content)).2.pending,
        ¬Sentinel T line := by
      intro line hline hsentinel
      rw [hpending] at hline
      cases opened with
      | false => exact List.not_mem_nil hline
      | true => exact hno ⟨rfl, line, hline, hsentinel⟩
    have hends := h fun _ => (v, v)
    rw [bodyAxGeo, collect_eq_none hv (fun _ => rfl) hnone] at hends
    exact absurd hends (by simp)
  · rintro ⟨rfl, hline⟩ raw
    refine collect_isSome ?_ ?_
    · rwa [hpending]
    · rw [hpending, if_pos rfl, List.length_drop]
      omega

/-- Where it does not end in time it need not end at all. -/
theorem bodyAxGeo_never_ends (hzero : ∃ v : T, isSentinel v = false) (flowType : FlowType)
    (opened : Bool) (content : List Char)
    (h : opened = true →
      ∀ line ∈ (lines content).drop (geometryLines flowType + 1), ¬Sentinel T line) :
    ∃ raw : ℕ → T × T, ∀ fuel, bodyAxGeo raw fuel flowType opened content = none := by
  obtain ⟨v, hv⟩ := hzero
  refine ⟨fun _ => (v, v), fun fuel => collect_eq_none hv (fun _ => rfl) fun line hline => ?_⟩
  rw [pending_afterGeometry] at hline
  cases opened with
  | false => exact absurd hline List.not_mem_nil
  | true => exact h rfl line hline

end Files

/-! ### Exact arithmetic -/

instance : StreamLib ℚ where
  lt x y := decide (x < y)
  fabs x := |x|
  ninetyNine := 99
  eps := 1e-7
  strtod x := (x, true)

theorem isSentinel_zero : isSentinel (0 : ℚ) = false :=
  decide_eq_false (by norm_num : ¬|(0 : ℚ) - 99| < 1e-7)

theorem isSentinel_ninetyNine : isSentinel (99 : ℚ) = true :=
  decide_eq_true (by norm_num : |(99 : ℚ) - 99| < 1e-7)

/-- The number `99` behind the lines of the geometry. -/
def ninetyNineFile : List Char := List.replicate 11 '\n' ++ ['9', '9']

theorem lines_ninetyNineFile : lines ninetyNineFile = List.replicate 11 [] ++ [['9', '9']] := by
  simp [ninetyNineFile, lines, List.replicate]

theorem bodyAxGeo_ends_ninetyNine :
    (∀ raw : ℕ → ℚ × ℚ, (bodyAxGeo raw ((lines ninetyNineFile).length + 1) .sphere true
      ninetyNineFile).isSome) ∧ Sentinel ℚ ['9', '9'] := by
  have hsentinel : Sentinel ℚ ['9', '9'] :=
    sentinel_of_ninetyNine isSentinel_ninetyNine [] [] (fun _ hc => absurd hc List.not_mem_nil)
      (fun _ hc => absurd hc (by simp))
  have hline : ['9', '9'] ∈ (lines ninetyNineFile).drop (geometryLines .sphere + 1) := by
    rw [lines_ninetyNineFile]
    exact List.mem_singleton_self _
  exact ⟨(bodyAxGeo_ends_iff ⟨0, isSentinel_zero⟩ .sphere true ninetyNineFile).2
    ⟨rfl, _, hline, hsentinel⟩, hsentinel⟩

/-- **A file that was not opened**: the loop does not end in time. -/
theorem bodyAxGeo_not_ends :
    ¬∀ raw : ℕ → ℚ × ℚ, (bodyAxGeo raw ((lines []).length + 1) .sphere false []).isSome := by
  intro h
  obtain ⟨raw, hraw⟩ := bodyAxGeo_never_ends (T := ℚ) ⟨0, isSentinel_zero⟩ .sphere false []
    (fun h => absurd h (by decide))
  have hends := h raw
  rw [hraw] at hends
  exact absurd hends (by decide)

end BodyAx
