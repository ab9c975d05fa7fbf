/-
**The turtle paths of `draw.pl`.**

The script builds drawings for the virtual machine out of one small figure.  A drawing is a string
of commands: `U`, `D`, `L` and `R` move the pen by one unit, and every other character leaves it
where it is.  The figure is reflected and turned by substituting letters, and enlarged by repeating
each of them.

A substitution of letters turns or mirrors a path when it does so with each of its steps.  The two
reflections do.  The table of the rotation has no entry for `D`.

Main definitions:

* `TurtlePath.reflectX`, `TurtlePath.reflectY`, `TurtlePath.rotate90Ccw`, `TurtlePath.scale` — the
  functions of the script;
* `TurtlePath.displacement` — where a path leads;
* `TurtlePath.Sense`, `TurtlePath.Geometric` — what the functions are for.

Main results:

* `TurtlePath.prefixes_iff` — a substitution moves all prefixes of a path by a linear map exactly
  when it moves the steps by it;
* `TurtlePath.displacement_scale` — the displacement of an enlarged path;
* `TurtlePath.geometric_iff` — **the paths that the functions transform geometrically**.
-/

import CppSamples.CountedLoop

set_option relaxedAutoImplicit false
set_option autoImplicit false

namespace TurtlePath

open CountedLoop

/-! ### The script -/

/-- The loop over the characters of a string, with the table of its substitution. -/
def substitute (table : Char → Char) (str : List Char) : List Char :=
  str.foldl (fun ret char => ret ++ [table char]) []

def reflectXTable (char : Char) : Char :=
  if char = 'U' then 'D'
  else if char = 'D' then 'U'
  else char

/-- `reflect_x` -/
def reflectX (str : List Char) : List Char := substitute reflectXTable str

def reflectYTable (char : Char) : Char :=
  if char = 'R' then 'L'
  else if char = 'L' then 'R'
  else char

/-- `reflect_y` -/
def reflectY (str : List Char) : List Char := substitute reflectYTable str

def rotate90CcwTable (char : Char) : Char :=
  if char = 'R' then 'D'
  else if char = 'U' then 'R'
  else if char = 'L' then 'U'
  else char

/-- `rotate_90_ccw` -/
def rotate90Ccw (str : List Char) : List Char := substitute rotate90CcwTable str

/-- `replicate`; for a negative factor the loop is not entered -/
def replicate (char : Char) (scale_factor : ℤ) : List Char :=
  forBelow 0 scale_factor.toNat [] fun _ ret => ret ++ [char]

/-- `scale` -/
def scale (str : List Char) (scale_factor : ℤ) : List Char :=
  str.foldl (fun ret char => ret ++ replicate char scale_factor) []

/-! ### Displacements -/

/-- The step of a command, to the right and up. -/
def step (c : Char) : ℤ × ℤ :=
  if c = 'U' then (0, 1)
  else if c = 'D' then (0, -1)
  else if c = 'L' then (-1, 0)
  else if c = 'R' then (1, 0)
  else 0

/-- Where a path leads. -/
def displacement (str : List Char) : ℤ × ℤ := (str.map step).sum

@[simp] theorem displacement_nil : displacement [] = 0 := rfl

@[simp] theorem displacement_cons (c : Char) (s : List Char) :
    displacement (c :: s) = step c + displacement s := by
  rw [displacement, List.map_cons, List.sum_cons, displacement]

@[simp] theorem displacement_append (s t : List Char) :
    displacement (s ++ t) = displacement s + displacement t := by
  rw [displacement, List.map_append, List.sum_append, displacement, displacement]

/-- The four commands that move the pen, and the others. -/
theorem command_cases (c : Char) : c = 'U' ∨ c = 'D' ∨ c = 'L' ∨ c = 'R' ∨
    (step c = 0 ∧ c ≠ 'U' ∧ c ≠ 'D' ∧ c ≠ 'L' ∧ c ≠ 'R') := by
  by_cases hU : c = 'U'
  · exact .inl hU
  by_cases hD : c = 'D'
  · exact .inr (.inl hD)
  by_cases hL : c = 'L'
  · exact .inr (.inr (.inl hL))
  by_cases hR : c = 'R'
  · exact .inr (.inr (.inr (.inl hR)))
  refine .inr (.inr (.inr (.inr ⟨?_, hU, hD, hL, hR⟩)))
  rw [step, if_neg hU, if_neg hD, if_neg hL, if_neg hR]

/-! ### Substitutions -/

section Substitute

variable {table : Char → Char}

/-- The loop is a map. -/
theorem substitute_eq_map (s : List Char) : substitute table s = s.map table := by
  have hloop : ∀ ret : List Char,
      s.foldl (fun ret char => ret ++ [table char]) ret = ret ++ s.map table := by
    induction s with
    | nil => exact fun ret => (List.append_nil ret).symm
    | cons c s ih =>
        intro ret
        rw [List.foldl_cons, ih, List.map_cons, List.append_assoc, List.singleton_append]
  rw [substitute, hloop, List.nil_append]

/-- A path that a substitution leaves alone. -/
theorem map_eq_self_iff {f : Char → Char} {s : List Char} : s.map f = s ↔ ∀ c ∈ s, f c = c := by
  induction s with
  | nil => simp
  | cons c s ih => rw [List.map_cons, List.cons.injEq, ih, List.forall_mem_cons]

/-- **A substitution moves all prefixes of a path by a linear map** exactly when it moves the steps
by it. -/
theorem prefixes_iff {f : ℤ × ℤ →+ ℤ × ℤ} {s : List Char} :
    (∀ k, displacement ((substitute table s).take k) = f (displacement (s.take k))) ↔
      ∀ c ∈ s, step (table c) = f (step c) := by
  rw [substitute_eq_map]
  induction s with
  | nil => simp
  | cons c s ih =>
      rw [List.forall_mem_cons, ← ih]
      constructor
      · intro h
        have hhead : step (table c) = f (step c) := by simpa using h 1
        refine ⟨hhead, ?_⟩
        intro k
        have hk := h (k + 1)
        simp only [List.map_cons, List.take_succ_cons, displacement_cons, map_add, hhead] at hk
        exact add_left_cancel hk
      · rintro ⟨hhead, htail⟩ k
        cases k with
        | zero => simp
        | succ k =>
            rw [List.map_cons, List.take_succ_cons, List.take_succ_cons, displacement_cons,
              displacement_cons, map_add, hhead, htail]

end Substitute

/-! ### What the functions are for -/

/-- The sense of a turn by 90 degrees. -/
inductive Sense
  | clockwise
  | counterclockwise
  deriving DecidableEq

/-- A turn by 90 degrees. -/
def Sense.turn : Sense → ℤ × ℤ →+ ℤ × ℤ
  | .clockwise => (AddMonoidHom.snd ℤ ℤ).prod (-AddMonoidHom.fst ℤ ℤ)
  | .counterclockwise => (-AddMonoidHom.snd ℤ ℤ).prod (AddMonoidHom.fst ℤ ℤ)

/-- The mirror image in the horizontal axis. -/
def mirrorX : ℤ × ℤ →+ ℤ × ℤ := (AddMonoidHom.fst ℤ ℤ).prod (-AddMonoidHom.snd ℤ ℤ)

/-- The mirror image in the vertical axis. -/
def mirrorY : ℤ × ℤ →+ ℤ × ℤ := (-AddMonoidHom.fst ℤ ℤ).prod (AddMonoidHom.snd ℤ ℤ)

/-- The path and all its prefixes are turned. -/
def Turned (q : Sense) (s : List Char) : Prop :=
  displacement (rotate90Ccw s) = q.turn (displacement s) ∧
    ∀ k, displacement ((rotate90Ccw s).take k) = q.turn (displacement (s.take k))

/-- Four turns make a whole one. -/
def FourTurns (s : List Char) : Prop :=
  rotate90Ccw (rotate90Ccw (rotate90Ccw (rotate90Ccw s))) = s

/-- The reflections are involutions, and mirror all prefixes. -/
structure Reflected (s : List Char) : Prop where
  reflectX_reflectX : reflectX (reflectX s) = s
  reflectY_reflectY : reflectY (reflectY s) = s
  mirrorX : ∀ k, displacement ((reflectX s).take k) = mirrorX (displacement (s.take k))
  mirrorY : ∀ k, displacement ((reflectY s).take k) = mirrorY (displacement (s.take k))

/-- The displacement is multiplied. -/
def Scaled (s : List Char) : Prop :=
  ∀ k : ℤ, 0 ≤ k → displacement (scale s k) = k • displacement s

/-- **The functions act on the path as their names say.** -/
structure Geometric (q : Sense) (s : List Char) : Prop where
  turned : Turned q s
  fourTurns : FourTurns s
  reflected : Reflected s
  scaled : Scaled s

/-! ### Reflections -/

theorem reflectXTable_twice (c : Char) : reflectXTable (reflectXTable c) = c := by
  unfold reflectXTable
  split_ifs with hU hD <;> simp_all

theorem reflectYTable_twice (c : Char) : reflectYTable (reflectYTable c) = c := by
  unfold reflectYTable
  split_ifs with hR hL <;> simp_all

theorem step_reflectXTable (c : Char) : step (reflectXTable c) = mirrorX (step c) := by
  obtain rfl | rfl | rfl | rfl | ⟨hc, hU, hD, hL, hR⟩ := command_cases c
  · rfl
  · rfl
  · rfl
  · rfl
  · rw [reflectXTable, if_neg hU, if_neg hD, hc, map_zero]

theorem step_reflectYTable (c : Char) : step (reflectYTable c) = mirrorY (step c) := by
  obtain rfl | rfl | rfl | rfl | ⟨hc, hU, hD, hL, hR⟩ := command_cases c
  · rfl
  · rfl
  · rfl
  · rfl
  · rw [reflectYTable, if_neg hR, if_neg hL, hc, map_zero]

/-- **The reflections mirror every path.** -/
theorem reflected (s : List Char) : Reflected s where
  reflectX_reflectX := by
    rw [reflectX, reflectX, substitute_eq_map, substitute_eq_map, List.map_map, map_eq_self_iff]
    exact fun c _ => reflectXTable_twice c
  reflectY_reflectY := by
    rw [reflectY, reflectY, substitute_eq_map, substitute_eq_map, List.map_map, map_eq_self_iff]
    exact fun c _ => reflectYTable_twice c
  mirrorX := prefixes_iff.2 fun c _ => step_reflectXTable c
  mirrorY := prefixes_iff.2 fun c _ => step_reflectYTable c

/-! ### Enlarged paths -/

theorem replicate_eq (c : Char) (k : ℤ) : replicate c k = List.replicate k.toNat c := by
  unfold replicate
  refine forBelow_inv (Nat.zero_le _) (fun i ret => ret = List.replicate i c) rfl ?_
  rintro i - - ret rfl
  exact List.replicate_succ'.symm

theorem displacement_replicate (n : ℕ) (c : Char) :
    displacement (List.replicate n c) = n • step c := by
  rw [displacement, List.map_replicate, List.sum_replicate]

theorem scale_eq_flatMap (s : List Char) (k : ℤ) : scale s k = s.flatMap (replicate · k) := by
  have hloop : ∀ ret : List Char, s.foldl (fun ret char => ret ++ replicate char k) ret =
      ret ++ s.flatMap (replicate · k) := by
    induction s with
    | nil => exact fun ret => (List.append_nil ret).symm
    | cons c s ih =>
        intro ret
        rw [List.foldl_cons, ih, List.flatMap_cons, List.append_assoc]
  rw [scale, hloop, List.nil_append]

/-- **The displacement of an enlarged path.** -/
theorem displacement_scale (s : List Char) (k : ℤ) :
    displacement (scale s k) = k.toNat • displacement s := by
  rw [scale_eq_flatMap]
  induction s with
  | nil => simp
  | cons c s ih =>
      rw [List.flatMap_cons, displacement_append, ih, replicate_eq, displacement_replicate,
        displacement_cons, nsmul_add]

theorem scaled (s : List Char) : Scaled s := by
  intro k hk
  obtain ⟨n, rfl⟩ := Int.eq_ofNat_of_zero_le hk
  rw [displacement_scale, Int.toNat_natCast, natCast_zsmul]

/-! ### Turns -/

/-- The steps that the table turns. -/
theorem step_rotate90CcwTable_iff (q : Sense) (c : Char) :
    step (rotate90CcwTable c) = q.turn (step c) ↔
      c ≠ 'D' ∧ (q = .counterclockwise → step c = 0) := by
  obtain rfl | rfl | rfl | rfl | ⟨hc, hU, hD, hL, hR⟩ := command_cases c
  · cases q <;> decide
  · cases q <;> decide
  · cases q <;> decide
  · cases q <;> decide
  · rw [rotate90CcwTable, if_neg hR, if_neg hU, if_neg hL, hc, map_zero]
    exact iff_of_true rfl ⟨hD, fun _ => rfl⟩

/-- The letters that four turns give back. -/
theorem rotate90CcwTable_four_iff (c : Char) :
    rotate90CcwTable (rotate90CcwTable (rotate90CcwTable (rotate90CcwTable c))) = c ↔
      c ≠ 'U' ∧ c ≠ 'L' ∧ c ≠ 'R' := by
  obtain rfl | rfl | rfl | rfl | ⟨-, hU, hD, hL, hR⟩ := command_cases c
  · decide
  · decide
  · decide
  · decide
  · have htable : rotate90CcwTable c = c := by
      rw [rotate90CcwTable, if_neg hR, if_neg hU, if_neg hL]
    rw [htable, htable, htable, htable]
    exact iff_of_true rfl ⟨hU, hL, hR⟩

/-- The paths that are turned. -/
theorem turned_iff_forall (q : Sense) (s : List Char) :
    Turned q s ↔ ∀ c ∈ s, c ≠ 'D' ∧ (q = .counterclockwise → step c = 0) := by
  have hprefixes : Turned q s ↔
      ∀ k, displacement ((rotate90Ccw s).take k) = q.turn (displacement (s.take k)) := by
    refine and_iff_right_of_imp ?_
    intro h
    have hlength : (rotate90Ccw s).length = s.length := by
      rw [rotate90Ccw, substitute_eq_map, List.length_map]
    have hfull := h s.length
    rwa [List.take_length, ← hlength, List.take_length] at hfull
  rw [hprefixes, rotate90Ccw, prefixes_iff]
  exact forall₂_congr fun c _ => step_rotate90CcwTable_iff q c

/-- A path that does not move. -/
def Idle (s : List Char) : Prop := 'U' ∉ s ∧ 'D' ∉ s ∧ 'L' ∉ s ∧ 'R' ∉ s

theorem idle_iff {s : List Char} : Idle s ↔ ∀ c ∈ s, step c = 0 := by
  constructor
  · rintro ⟨hU, hD, hL, hR⟩ c hc
    obtain rfl | rfl | rfl | rfl | ⟨h, -⟩ := command_cases c
    · exact absurd hc hU
    · exact absurd hc hD
    · exact absurd hc hL
    · exact absurd hc hR
    · exact h
  · intro h
    refine ⟨?_, ?_, ?_, ?_⟩
    · exact fun hU => absurd (h _ hU) (by decide)
    · exact fun hD => absurd (h _ hD) (by decide)
    · exact fun hL => absurd (h _ hL) (by decide)
    · exact fun hR => absurd (h _ hR) (by decide)

/-- **Clockwise** the paths without a `D` are turned. -/
theorem turned_clockwise_iff (s : List Char) : Turned .clockwise s ↔ 'D' ∉ s := by
  rw [turned_iff_forall]
  constructor
  · exact fun h hD => (h _ hD).1 rfl
  · exact fun hD c hc => ⟨ne_of_mem_of_not_mem hc hD, nofun⟩

/-- **Counterclockwise** no path is turned that moves. -/
theorem turned_counterclockwise_iff (s : List Char) : Turned .counterclockwise s ↔ Idle s := by
  rw [turned_iff_forall, idle_iff]
  refine forall₂_congr fun c _ => ⟨fun h => h.2 rfl, fun h => ⟨?_, fun _ => h⟩⟩
  rintro rfl
  exact absurd h (by decide)

/-- **The paths that four turns give back.** -/
theorem fourTurns_iff (s : List Char) : FourTurns s ↔ 'U' ∉ s ∧ 'L' ∉ s ∧ 'R' ∉ s := by
  simp only [FourTurns, rotate90Ccw, substitute_eq_map, List.map_map, map_eq_self_iff,
    Function.comp_apply]
  have hletters : (∀ c ∈ s, c ≠ 'U' ∧ c ≠ 'L' ∧ c ≠ 'R') ↔ 'U' ∉ s ∧ 'L' ∉ s ∧ 'R' ∉ s := by
    constructor
    · exact fun h => ⟨fun hc => (h _ hc).1 rfl, fun hc => (h _ hc).2.1 rfl,
        fun hc => (h _ hc).2.2 rfl⟩
    · rintro ⟨hU, hL, hR⟩ c hc
      exact ⟨ne_of_mem_of_not_mem hc hU, ne_of_mem_of_not_mem hc hL, ne_of_mem_of_not_mem hc hR⟩
  rw [← hletters]
  exact forall₂_congr fun c _ => rotate90CcwTable_four_iff c

/-- A path that does not move is turned in either sense. -/
theorem Idle.turned {s : List Char} (h : Idle s) (q : Sense) : Turned q s := by
  cases q with
  | clockwise => exact (turned_clockwise_iff s).2 h.2.1
  | counterclockwise => exact (turned_counterclockwise_iff s).2 h

theorem not_mem_of_turned {q : Sense} {s : List Char} (h : Turned q s) : 'D' ∉ s := by
  cases q with
  | clockwise => exact (turned_clockwise_iff s).1 h
  | counterclockwise => exact ((turned_counterclockwise_iff s).1 h).2.1

/-- **The paths that the functions transform geometrically**, as a whole and in parts. -/
theorem geometric_iff (s : List Char) :
    (∀ q, Geometric q s ↔ Idle s) ∧
    (Turned .clockwise s ↔ 'D' ∉ s) ∧ (Turned .counterclockwise s ↔ Idle s) ∧
    (FourTurns s ↔ 'U' ∉ s ∧ 'L' ∉ s ∧ 'R' ∉ s) ∧ Reflected s ∧ Scaled s := by
  refine ⟨?_, turned_clockwise_iff s, turned_counterclockwise_iff s, fourTurns_iff s, reflected s,
    scaled s⟩
  intro q
  constructor
  · intro h
    obtain ⟨hU, hL, hR⟩ := (fourTurns_iff s).1 h.fourTurns
    exact ⟨hU, not_mem_of_turned h.turned, hL, hR⟩
  · intro h
    exact ⟨h.turned q, (fourTurns_iff s).2 ⟨h.1, h.2.2.1, h.2.2.2⟩, reflected s, scaled s⟩

/-- One step down. -/
theorem not_geometric : ¬∃ q, ∀ s, Geometric q s := by
  rintro ⟨q, h⟩
  exact not_mem_of_turned (h ['D']).turned (List.mem_singleton_self 'D')

end TurtlePath
