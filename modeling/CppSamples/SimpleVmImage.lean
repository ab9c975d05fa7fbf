/-
**The image files of `simple-vm`.**

An image is a text: the size of the array on the first line, the number of words of the image on the
second, and then the words, one on a line, all in hexadecimal.  `load_image` makes the array as
large as the first line says and fills it from its beginning.

It does not compare the two sizes, and it does not ask the stream whether there was a line or
whether the line had a number on it.  A size that is negative makes `resize` throw; everything else
goes on, with the value the stream has left behind, with a variable that was never set, or outside
the array.

Main definitions:

* `SimpleVm.extractHex` — `iss >> hex >> ret`;
* `SimpleVm.VM.load_image` — the loader;
* `SimpleVm.AllOrNothing` — what a loader should do with a file;
* `SimpleVm.Loadable` — the files with which this one does it.

Main results:

* `SimpleVm.loadWords_spec`, `SimpleVm.exists_loadWords` — the loop over the words;
* `SimpleVm.load_image_allOrNothing_iff` — **the files that are loaded as a whole or not at all**;
* `SimpleVm.load_image_two_words` — an image that is larger than its array;
* `SimpleVm.load_image_fresh`, `SimpleVm.load_image_eq_words` — a loaded machine is one that the
  interpreter starts from, and the one that is made of the words of the file.
-/

import CppSamples.HexLiterals
import CppSamples.SimpleVmSafety

set_option relaxedAutoImplicit false
set_option autoImplicit false

namespace SimpleVm

open HexLiterals

/-! ### Lines and numbers -/

/-- `getline`: the next line, and what is behind it.  At the end of the text the line is empty. -/
def getline (is : List Char) : List Char × List Char :=
  (is.takeWhile (· ≠ '\n'), (is.dropWhile (· ≠ '\n')).tail)

/-- The line that the call of `getline` after `k` others gets. -/
def lineAt : List Char → ℕ → List Char
  | is, 0 => (getline is).1
  | is, k + 1 => lineAt (getline is).2 k

/-- The white space that `>>` skips. -/
def isSpace (c : Char) : Bool := c = ' ' ∨ '\t' ≤ c ∧ c ≤ '\r'

/-- The number that digits stand for. -/
def hexNumber (digits : List Char) : ℕ :=
  digits.foldl (fun n c => 16 * n + (hexValue c).getD 0) 0

/-- What `>>` has stored, and whether it has succeeded. -/
structure Extracted where
  stored : Word
  ok : Bool

/-- `iss >> hex >> ret`, for an unsigned `ret`.  On a blank line nothing is stored; without a digit
the stored value is zero, and for a number that is too large it is the largest one. -/
def extractHex (line : List Char) : Option Extracted :=
  match line.dropWhile isSpace with
  | [] => none
  | c :: s =>
    let digits := match if c = '+' ∨ c = '-' then s else c :: s with
      | '0' :: 'x' :: s => s
      | '0' :: 'X' :: s => s
      | s => s
    let digits := digits.takeWhile fun c => (hexValue c).isSome
    if digits = [] then some ⟨0, false⟩
    else if 2 ^ 32 ≤ hexNumber digits then some ⟨0xFFFFFFFF, false⟩
    else
      let ret := BitVec.ofNat 32 (hexNumber digits)
      some ⟨if c = '-' then -ret else ret, true⟩

/-- The word on a line. -/
def word (line : List Char) : Option Word :=
  match extractHex line with
  | some ⟨w, true⟩ => some w
  | _ => none

/-! ### The loader -/

/-- What ends a load before its end: an exception, or an operation that is not defined. -/
inductive LoadError
  | runtimeError (what : String)
  | lengthError (what : String)
  | indeterminate
  | outOfBounds
  deriving DecidableEq

/-- The load has thrown. -/
def LoadError.Thrown : LoadError → Prop
  | runtimeError _ | lengthError _ => True
  | indeterminate | outOfBounds => False

/-- `size_t(n)` -/
def toSizeT (n : Word) : ℕ := (n.toInt % 2 ^ 64).toNat

/-- `data_.resize(n)` -/
def resize (data_ : List Word) (n : Word) : Except LoadError (List Word) :=
  if 2 ^ 61 ≤ toSizeT n then .error (.lengthError "vector::_M_default_append")
  else .ok (data_.take (toSizeT n) ++ List.replicate (toSizeT n - data_.length) 0)

/-- `data_[i] = value` -/
def write (data_ : List Word) (i : ℕ) (value : Word) : Except LoadError (List Word) :=
  if i < data_.length then .ok (data_.set i value) else .error .outOfBounds

/-- `read_int32`; the message for the log reads `ret`, set or not. -/
def read_int32 (is : List Char) : Except LoadError (Word × List Char) :=
  match extractHex (getline is).1 with
  | some ret => .ok (ret.stored, (getline is).2)
  | none => .error .indeterminate

/-- The loop of `load_image`, for the last `n` words, from word `i` on. -/
def loadWords : ℕ → ℕ → List Word → List Char → Except LoadError (List Word)
  | 0, _, data_, _ => .ok data_
  | n + 1, i, data_, is => do
    let (value, is) ← read_int32 is
    let data_ ← write data_ i value
    loadWords n (i + 1) data_ is

/-- `load_image`; there is no file where the stream cannot be opened. -/
def VM.load_image (vm : VM) (image_name : String) (file : Option (List Char)) :
    Except LoadError (Word × VM) :=
  match file with
  | none => .error (.runtimeError ("unable to open input file " ++ image_name))
  | some is => do
    let (sp_, is) ← read_int32 is
    let data_ ← resize vm.data_ sp_
    let (image_size, is) ← read_int32 is
    let data_ ← loadWords (toSizeT image_size) 0 data_ is
    return (image_size, { vm with data_, sp_ })

/-- **All or nothing**: the load throws, or the file has a word for every cell that it declares and
they are the beginning of the array, whose other cells are zero. -/
def AllOrNothing (file : Option (List Char)) : Except LoadError (Word × VM) → Prop
  | .error e => e.Thrown
  | .ok (_, vm) => ∃ text size image, file = some text ∧
      word (lineAt text 0) = some size ∧ word (lineAt text 1) = some image ∧
      vm.data_.length = size.toInt ∧ vm.sp_ = size ∧
      (∀ i : ℕ, i < image.toInt → ∃ w, word (lineAt text (i + 2)) = some w ∧
        vm.data_[i]? = some w) ∧
      ∀ i : ℕ, image.toInt ≤ i → i < size.toInt → vm.data_[i]? = some 0

/-- **The files that are loaded or refused**: there is none, or its first line leaves a negative
size, or it has two sizes of which the second is not the larger, all the words of the image, and
nothing that the machine has from before shows behind them. -/
def Loadable (vm : VM) (file : Option (List Char)) : Prop :=
  ∀ text, file = some text →
    (∃ x, extractHex (lineAt text 0) = some x ∧ x.stored.toInt < 0) ∨
    ∃ size image, word (lineAt text 0) = some size ∧ word (lineAt text 1) = some image ∧
      0 ≤ image.toInt ∧ image.toInt ≤ size.toInt ∧
      (∀ i : ℕ, i < image.toInt → ∃ w, word (lineAt text (i + 2)) = some w) ∧
      ∀ i : ℕ, image.toInt ≤ i → i < size.toInt → vm.data_[i]?.getD 0 = 0

/-! ### The sizes -/

theorem toSizeT_of_nonneg {n : Word} (h : 0 ≤ n.toInt) : (toSizeT n : ℤ) = n.toInt := by
  have hlt : n.toInt < 2 ^ 31 := by have := BitVec.toInt_lt (x := n); simpa using this
  rw [toSizeT]
  omega

theorem le_toSizeT_of_neg {n : Word} (h : n.toInt < 0) : 2 ^ 63 ≤ toSizeT n := by
  have hle : -2 ^ 31 ≤ n.toInt := by have := BitVec.le_toInt n; simpa using this
  rw [toSizeT]
  omega

theorem resize_of_neg (data_ : List Word) {n : Word} (h : n.toInt < 0) :
    resize data_ n = .error (.lengthError "vector::_M_default_append") := by
  have hle := le_toSizeT_of_neg h
  rw [resize, if_pos (by omega)]

theorem resize_of_nonneg (data_ : List Word) {n : Word} (h : 0 ≤ n.toInt) :
    resize data_ n =
      .ok (data_.take (toSizeT n) ++ List.replicate (toSizeT n - data_.length) 0) := by
  have hcast := toSizeT_of_nonneg h
  have hlt : n.toInt < 2 ^ 31 := by have := BitVec.toInt_lt (x := n); simpa using this
  rw [resize, if_neg (by omega)]

/-- The cells of a resized array. -/
theorem getElem?_resize {data_ data' : List Word} {n : Word} (h : resize data_ n = .ok data') :
    (data'.length : ℤ) = n.toInt ∧
      ∀ i : ℕ, i < n.toInt → data'[i]? = some (data_[i]?.getD 0) := by
  rcases lt_or_ge n.toInt 0 with hneg | hnonneg
  · rw [resize_of_neg data_ hneg] at h
    cases h
  · have hcast := toSizeT_of_nonneg hnonneg
    obtain rfl := Except.ok.inj ((resize_of_nonneg data_ hnonneg).symm.trans h)
    constructor
    · simp only [List.length_append, List.length_take, List.length_replicate]
      omega
    · intro i hi
      rcases Nat.lt_or_ge i data_.length with hlt | hge
      · rw [List.getElem?_append_left (by rw [List.length_take]; omega),
          List.getElem?_take_of_lt (by omega), List.getElem?_eq_getElem hlt, Option.getD_some]
      · rw [List.getElem?_append_right (by rw [List.length_take]; omega), List.length_take,
          List.getElem?_replicate, if_pos (by omega), List.getElem?_eq_none hge, Option.getD_none]

/-! ### The loop over the words -/

theorem word_eq_some_iff {line : List Char} {w : Word} :
    word line = some w ↔ extractHex line = some ⟨w, true⟩ := by
  unfold word
  rcases extractHex line with _ | ⟨x, _ | _⟩
  · simp
  · simp
  · simp

theorem read_int32_eq_ok_iff {is is' : List Char} {w : Word} :
    read_int32 is = .ok (w, is') ↔
      (∃ x, extractHex (lineAt is 0) = some x ∧ x.stored = w) ∧ (getline is).2 = is' := by
  rw [read_int32, lineAt]
  cases extractHex (getline is).1 with
  | none => simp
  | some x => simp

/-- The read of a line with a number on it. -/
theorem read_int32_of_some {is : List Char} {x : Extracted}
    (h : extractHex (lineAt is 0) = some x) : read_int32 is = .ok (x.stored, (getline is).2) :=
  read_int32_eq_ok_iff.2 ⟨⟨x, h, rfl⟩, rfl⟩

/-- A loop that goes on has read a line and written inside the array. -/
theorem loadWords_succ_eq_ok {n i : ℕ} {data_ data' : List Word} {is : List Char}
    (h : loadWords (n + 1) i data_ is = .ok data') :
    ∃ x, extractHex (lineAt is 0) = some x ∧ i < data_.length ∧
      loadWords n (i + 1) (data_.set i x.stored) (getline is).2 = .ok data' := by
  rw [loadWords] at h
  cases hread : read_int32 is with
  | error e =>
      rw [hread] at h
      cases h
  | ok r =>
      obtain ⟨w, rest⟩ := r
      obtain ⟨⟨x, hx, rfl⟩, rfl⟩ := read_int32_eq_ok_iff.1 hread
      rw [hread] at h
      change (write data_ i x.stored).bind _ = _ at h
      rcases Nat.lt_or_ge i data_.length with hlt | hge
      · rw [write, if_pos hlt] at h
        exact ⟨x, hx, hlt, h⟩
      · rw [write, if_neg hge.not_gt] at h
        cases h

/-- **What the loop leaves in the array.** -/
theorem loadWords_spec {n i : ℕ} {data_ data' : List Word} {is : List Char}
    (h : loadWords n i data_ is = .ok data') :
    data'.length = data_.length ∧ (0 < n → i + n ≤ data_.length) ∧
      (∀ j < n, ∃ x, extractHex (lineAt is j) = some x ∧ data'[i + j]? = some x.stored) ∧
      ∀ j, j < i ∨ i + n ≤ j → data'[j]? = data_[j]? := by
  induction n generalizing i data_ is with
  | zero =>
      obtain rfl := Except.ok.inj h
      exact ⟨rfl, by omega, by omega, fun _ _ => rfl⟩
  | succ n ih =>
      obtain ⟨x, hx, hlt, hrest⟩ := loadWords_succ_eq_ok h
      obtain ⟨hlength, hle, hwords, hother⟩ := ih hrest
      rw [List.length_set] at hlength hle
      refine ⟨hlength, by omega, ?_, ?_⟩
      · intro j hj
        cases j with
        | zero =>
            -- the later words are written behind this one
            refine ⟨x, hx, ?_⟩
            rw [hother _ (Or.inl (by omega)), Nat.add_zero, List.getElem?_set_self hlt]
        | succ j =>
            obtain ⟨y, hy, hcell⟩ := hwords j (by omega)
            refine ⟨y, hy, ?_⟩
            rw [← hcell]
            congr 1
            omega
      · intro j hj
        rw [hother j (by omega), List.getElem?_set_ne (by omega)]

/-- **The loop runs through** where there is a line for each word and room for all of them. -/
theorem exists_loadWords {n i : ℕ} {data_ : List Word} {is : List Char}
    (hwords : ∀ j < n, ∃ x, extractHex (lineAt is j) = some x) (hle : i + n ≤ data_.length) :
    ∃ data', loadWords n i data_ is = .ok data' := by
  induction n generalizing i data_ is with
  | zero => exact ⟨data_, rfl⟩
  | succ n ih =>
      obtain ⟨x, hx⟩ := hwords 0 (Nat.succ_pos n)
      obtain ⟨data', hrest⟩ :
          ∃ data', loadWords n (i + 1) (data_.set i x.stored) (getline is).2 = .ok data' :=
        ih (fun j hj => hwords (j + 1) (by omega)) (by rw [List.length_set]; omega)
      refine ⟨data', ?_⟩
      rw [loadWords, read_int32_of_some hx]
      change (write data_ i x.stored).bind _ = _
      rw [write, if_pos (by omega)]
      exact hrest

theorem read_int32_not_thrown {is : List Char} {e : LoadError} (h : read_int32 is = .error e) :
    ¬e.Thrown := by
  unfold read_int32 at h
  cases hx : extractHex (getline is).1 with
  | some x => rw [hx] at h; cases h
  | none =>
      rw [hx] at h
      obtain rfl := Except.error.inj h
      exact id

/-- The loop does not throw. -/
theorem loadWords_not_thrown {n i : ℕ} {data_ : List Word} {is : List Char} {e : LoadError}
    (h : loadWords n i data_ is = .error e) : ¬e.Thrown := by
  induction n generalizing i data_ is with
  | zero => cases h
  | succ n ih =>
      rw [loadWords] at h
      cases hread : read_int32 is with
      | error e' =>
          rw [hread] at h
          obtain rfl := Except.error.inj h
          exact read_int32_not_thrown hread
      | ok r =>
          rw [hread] at h
          change (write data_ i r.1).bind _ = _ at h
          unfold write at h
          split_ifs at h with hlt
          · exact ih h
          · obtain rfl := Except.error.inj h
            exact id

/-- **A resized array with the words of an image**: the number of words is not negative and not
greater than the size. -/
theorem loadWords_resize {old data_ data' : List Word} {size image : Word} {is : List Char}
    (hresize : resize old size = .ok data_)
    (hload : loadWords (toSizeT image) 0 data_ is = .ok data') :
    0 ≤ image.toInt ∧ image.toInt ≤ size.toInt ∧ data'.length = size.toInt ∧
      (∀ i : ℕ, i < image.toInt → ∃ z, extractHex (lineAt is i) = some z ∧
        data'[i]? = some z.stored) ∧
      ∀ i : ℕ, image.toInt ≤ i → i < size.toInt → data'[i]? = some (old[i]?.getD 0) := by
  obtain ⟨hlength, hcells⟩ := getElem?_resize hresize
  obtain ⟨hlength', hle, hwords, hother⟩ := loadWords_spec hload
  have hlt : size.toInt < 2 ^ 31 := by have := BitVec.toInt_lt (x := size); simpa using this
  have hnonneg : 0 ≤ image.toInt := by
    -- a negative number of words would not fit
    by_contra hneg
    have := le_toSizeT_of_neg (not_le.1 hneg)
    omega
  have hcast := toSizeT_of_nonneg hnonneg
  refine ⟨hnonneg, by omega, by omega, ?_, ?_⟩
  · intro i hi
    obtain ⟨z, hz, hcell⟩ := hwords i (by omega)
    rw [Nat.zero_add] at hcell
    exact ⟨z, hz, hcell⟩
  · intro i hle' hi
    rw [hother i (by omega), hcells i hi]

/-! ### The loader -/

section Loader

variable (vm : VM) (image_name : String) {vm' : VM} {text : List Char} {x y : Extracted}

/-- A load without a size. -/
theorem load_image_of_none (h : extractHex (lineAt text 0) = none) :
    vm.load_image image_name (some text) = .error .indeterminate := by
  rw [VM.load_image, read_int32]
  change extractHex (getline text).1 = none at h
  rw [h]
  rfl

/-- A load with a negative size. -/
theorem load_image_of_neg (hx : extractHex (lineAt text 0) = some x) (h : x.stored.toInt < 0) :
    vm.load_image image_name (some text) =
      .error (.lengthError "vector::_M_default_append") := by
  rw [VM.load_image, read_int32_of_some hx]
  change (resize vm.data_ x.stored).bind _ = _
  rw [resize_of_neg _ h]
  rfl

/-- A load without a number of words. -/
theorem load_image_of_none_words (hx : extractHex (lineAt text 0) = some x)
    (h : 0 ≤ x.stored.toInt) (hy : extractHex (lineAt text 1) = none) :
    vm.load_image image_name (some text) = .error .indeterminate := by
  rw [VM.load_image, read_int32_of_some hx]
  change (resize vm.data_ x.stored).bind _ = _
  rw [resize_of_nonneg vm.data_ h]
  change (read_int32 (getline text).2).bind _ = _
  change extractHex (getline (getline text).2).1 = none at hy
  rw [read_int32, hy]
  rfl

/-- A load with two sizes, of which the first is not negative. -/
theorem load_image_of_sizes (hx : extractHex (lineAt text 0) = some x) (h : 0 ≤ x.stored.toInt)
    (hy : extractHex (lineAt text 1) = some y) :
    ∃ data_, resize vm.data_ x.stored = .ok data_ ∧ vm.load_image image_name (some text) =
      (loadWords (toSizeT y.stored) 0 data_ (getline (getline text).2).2).map fun data_ =>
        (y.stored, { vm with data_, sp_ := x.stored }) := by
  refine ⟨_, resize_of_nonneg vm.data_ h, ?_⟩
  have hread : read_int32 (getline text).2 = .ok (y.stored, (getline (getline text).2).2) :=
    read_int32_of_some hy
  rw [VM.load_image, read_int32_of_some hx]
  change (resize vm.data_ x.stored).bind _ = _
  rw [resize_of_nonneg vm.data_ h]
  change (read_int32 (getline text).2).bind _ = _
  rw [hread]
  change (loadWords (toSizeT y.stored) 0 _ _).bind _ = _
  cases loadWords (toSizeT y.stored) 0 _ (getline (getline text).2).2 with
  | error e => rfl
  | ok data' => rfl

variable {vm image_name}

/-- **When a load throws.** -/
theorem load_image_thrown_iff {e : LoadError}
    (h : vm.load_image image_name (some text) = .error e) :
    e.Thrown ↔ ∃ x, extractHex (lineAt text 0) = some x ∧ x.stored.toInt < 0 := by
  cases hx : extractHex (lineAt text 0) with
  | none =>
      obtain rfl := Except.error.inj ((load_image_of_none vm image_name hx).symm.trans h)
      simp [LoadError.Thrown]
  | some x =>
      rcases lt_or_ge x.stored.toInt 0 with hneg | hnonneg
      · obtain rfl := Except.error.inj ((load_image_of_neg vm image_name hx hneg).symm.trans h)
        simpa [LoadError.Thrown] using hneg
      · have hnot : ¬e.Thrown := by
          cases hy : extractHex (lineAt text 1) with
          | none =>
              obtain rfl := Except.error.inj
                ((load_image_of_none_words vm image_name hx hnonneg hy).symm.trans h)
              exact id
          | some y =>
              obtain ⟨data_, -, heq⟩ := load_image_of_sizes vm image_name hx hnonneg hy
              rw [heq] at h
              cases hload : loadWords (toSizeT y.stored) 0 data_ (getline (getline text).2).2 with
              | error e' =>
                  rw [hload] at h
                  obtain rfl := Except.error.inj h
                  exact loadWords_not_thrown hload
              | ok data' => rw [hload] at h; cases h
        simpa [hnot] using hnonneg

/-- **What a load that ends has read and stored.** -/
theorem load_image_eq_ok {image : Word}
    (h : vm.load_image image_name (some text) = .ok (image, vm')) :
    ∃ x y, extractHex (lineAt text 0) = some x ∧ extractHex (lineAt text 1) = some y ∧
      y.stored = image ∧ 0 ≤ image.toInt ∧ image.toInt ≤ x.stored.toInt ∧
      vm' = { vm with data_ := vm'.data_, sp_ := x.stored } ∧
      vm'.data_.length = x.stored.toInt ∧
      (∀ i : ℕ, i < image.toInt → ∃ z, extractHex (lineAt text (i + 2)) = some z ∧
        vm'.data_[i]? = some z.stored) ∧
      ∀ i : ℕ, image.toInt ≤ i → i < x.stored.toInt →
        vm'.data_[i]? = some (vm.data_[i]?.getD 0) := by
  cases hx : extractHex (lineAt text 0) with
  | none => cases (load_image_of_none vm image_name hx).symm.trans h
  | some x =>
      rcases lt_or_ge x.stored.toInt 0 with hneg | hnonneg
      · cases (load_image_of_neg vm image_name hx hneg).symm.trans h
      cases hy : extractHex (lineAt text 1) with
      | none => cases (load_image_of_none_words vm image_name hx hnonneg hy).symm.trans h
      | some y =>
          obtain ⟨data_, hresize, heq⟩ := load_image_of_sizes vm image_name hx hnonneg hy
          rw [heq] at h
          cases hload : loadWords (toSizeT y.stored) 0 data_ (getline (getline text).2).2 with
          | error e => rw [hload] at h; cases h
          | ok data' =>
              rw [hload] at h
              obtain ⟨rfl, rfl⟩ := Prod.mk.inj (Except.ok.inj h)
              obtain ⟨himage, hle, hlength, hwords, hother⟩ := loadWords_resize hresize hload
              exact ⟨x, y, rfl, rfl, rfl, himage, hle, rfl, hlength, hwords, hother⟩

/-- **A load ends** where there are two sizes, the second not larger, and a number on each of the
lines of the words. -/
theorem exists_load_image (hx : extractHex (lineAt text 0) = some x)
    (hy : extractHex (lineAt text 1) = some y) (hnonneg : 0 ≤ y.stored.toInt)
    (hle : y.stored.toInt ≤ x.stored.toInt)
    (hwords : ∀ i : ℕ, i < y.stored.toInt → ∃ z, extractHex (lineAt text (i + 2)) = some z) :
    ∃ vm', vm.load_image image_name (some text) = .ok (y.stored, vm') := by
  obtain ⟨data_, hresize, heq⟩ := load_image_of_sizes vm image_name hx (hnonneg.trans hle) hy
  have hlength := (getElem?_resize hresize).1
  have hcast := toSizeT_of_nonneg hnonneg
  obtain ⟨data', hload⟩ :
      ∃ data', loadWords (toSizeT y.stored) 0 data_ (getline (getline text).2).2 = .ok data' :=
    exists_loadWords (fun j hj => hwords j (by omega)) (by omega)
  refine ⟨{ vm with data_ := data', sp_ := x.stored }, ?_⟩
  rw [heq, hload]
  rfl

/-- A load that does not end throws on the files that are to be refused, and on no others. -/
theorem thrown_iff_loadable {e : LoadError}
    (hload : vm.load_image image_name (some text) = .error e) :
    e.Thrown ↔ Loadable vm (some text) := by
  rw [load_image_thrown_iff hload]
  constructor
  · rintro hneg _ ⟨⟩
    exact Or.inl hneg
  · intro h
    refine (h text rfl).resolve_right ?_
    -- such a file is loaded
    rintro ⟨size, image, hsize, himage, hnonneg, hle, hwords, -⟩
    have hlines : ∀ i : ℕ, i < image.toInt → ∃ z, extractHex (lineAt text (i + 2)) = some z := by
      intro i hi
      obtain ⟨w, hw⟩ := hwords i hi
      exact ⟨_, word_eq_some_iff.1 hw⟩
    obtain ⟨vm', hok⟩ : ∃ vm', vm.load_image image_name (some text) = .ok (image, vm') :=
      exists_load_image (word_eq_some_iff.1 hsize) (word_eq_some_iff.1 himage) hnonneg hle hlines
    cases hok.symm.trans hload

/-- A load that ends has loaded the file as a whole if the file is one to be loaded. -/
theorem loaded_iff_loadable {image : Word}
    (hload : vm.load_image image_name (some text) = .ok (image, vm')) :
    AllOrNothing (some text) (.ok (image, vm')) ↔ Loadable vm (some text) := by
  obtain ⟨x, y, hx, hy, rfl, hnonneg, hle, hvm, hlength, hstored, hother⟩ := load_image_eq_ok hload
  constructor
  · rintro ⟨_, size, image, ⟨⟩, hsize, himage, -, -, hwords, hzero⟩ _ ⟨⟩
    obtain rfl := Option.some.inj (hx.symm.trans (word_eq_some_iff.1 hsize))
    obtain rfl := Option.some.inj (hy.symm.trans (word_eq_some_iff.1 himage))
    refine Or.inr ⟨size, image, hsize, himage, hnonneg, hle, ?_, ?_⟩
    · intro i hi
      obtain ⟨w, hw, -⟩ := hwords i hi
      exact ⟨w, hw⟩
    · intro i hi hlt
      exact Option.some.inj ((hother i hi hlt).symm.trans (hzero i hi hlt))
  · intro h
    obtain ⟨x', hx', hneg⟩ | ⟨size, image, hsize, himage, -, -, hwords, hzero⟩ := h text rfl
    · obtain rfl := Option.some.inj (hx.symm.trans hx')
      omega
    obtain rfl := Option.some.inj (hx.symm.trans (word_eq_some_iff.1 hsize))
    obtain rfl := Option.some.inj (hy.symm.trans (word_eq_some_iff.1 himage))
    refine ⟨text, size, image, rfl, hsize, himage, hlength, by rw [hvm], ?_, ?_⟩
    · intro i hi
      obtain ⟨w, hw⟩ := hwords i hi
      obtain ⟨z, hz, hcell⟩ := hstored i hi
      obtain rfl := Option.some.inj (hz.symm.trans (word_eq_some_iff.1 hw))
      exact ⟨w, hw, hcell⟩
    · intro i hi hlt
      rw [hother i hi hlt, hzero i hi hlt]

/-- **The files that are loaded as a whole or not at all.** -/
theorem load_image_allOrNothing_iff (vm : VM) (image_name : String) (file : Option (List Char)) :
    AllOrNothing file (vm.load_image image_name file) ↔ Loadable vm file := by
  cases file with
  | none =>
      refine iff_of_true trivial ?_
      rintro text ⟨⟩
  | some text =>
      cases hload : vm.load_image image_name (some text) with
      | error e => exact thrown_iff_loadable hload
      | ok r => exact loaded_iff_loadable hload

/-- **An image that is larger than its array**: the second word is written behind the array. -/
theorem load_image_two_words : ¬∀ (vm : VM) (image_name : String) (file : Option (List Char)),
    AllOrNothing file (vm.load_image image_name file) := by
  intro h
  have hload : VM.load_image ⟨[], 0, 0, ⟨0, []⟩⟩ "image" (some "1\n2\n5\n7\n".toList) =
      .error .outOfBounds := rfl
  have hall := h ⟨[], 0, 0, ⟨0, []⟩⟩ "image" (some "1\n2\n5\n7\n".toList)
  rw [hload] at hall
  exact hall

/-- **A loaded machine is one that the interpreter starts from.** -/
theorem load_image_fresh {image : Word}
    (h : VM.load_image ⟨[], 0, 0, ⟨0, []⟩⟩ image_name (some text) = .ok (image, vm')) :
    vm' = VM.ofImage vm'.data_ := by
  obtain ⟨x, y, -, -, -, hnonneg, hle, hvm, hlength, -, -⟩ := load_image_eq_ok h
  have hsp : x.stored = BitVec.ofNat 32 vm'.data_.length := by
    rw [← BitVec.ofInt_natCast, hlength, BitVec.ofInt_toInt]
  rw [hvm, hsp]
  rfl

/-- The words of the image, written one after the other. -/
theorem getElem?_foldl_set (words : ℕ → Word) (data_ : List Word) (n j : ℕ) :
    ((List.range n).foldl (fun data_ i => data_.set i (words (i + 2))) data_)[j]? =
      if j < n ∧ j < data_.length then some (words (j + 2)) else data_[j]? := by
  induction n with
  | zero => simp
  | succ n ih =>
      rw [List.range_succ, List.foldl_append, List.foldl_cons, List.foldl_nil, List.getElem?_set,
        ih, length_foldl_set]
      rcases Nat.lt_trichotomy n j with hlt | rfl | hgt
      · rw [if_neg (by omega), if_neg (by omega), if_neg (by omega)]
      · rw [if_pos rfl]
        rcases Nat.lt_or_ge n data_.length with hj | hj
        · rw [if_pos hj, if_pos ⟨Nat.lt_succ_self n, hj⟩]
        · rw [if_neg (by omega), if_neg (by omega), List.getElem?_eq_none hj]
      · have hcond : j < n + 1 ∧ j < data_.length ↔ j < n ∧ j < data_.length := by omega
        rw [if_neg (by omega), if_congr hcond rfl rfl]

/-- **The loader of the words of a file** makes the same machine. -/
theorem load_image_eq_words {image : Word} {words : ℕ → Word}
    (h : VM.load_image ⟨[], 0, 0, ⟨0, []⟩⟩ image_name (some text) = .ok (image, vm'))
    (hwords : ∀ k : ℕ, k < image.toInt + 2 →
      (extractHex (lineAt text k)).map Extracted.stored = some (words k)) :
    load_image words = some vm' := by
  obtain ⟨x, y, hx, hy, rfl, hnonneg, hle, hvm, hlength, hstored, hother⟩ := load_image_eq_ok h
  have hsize : x.stored = words 0 := by
    have hword := hwords 0 (by omega)
    rw [hx] at hword
    exact Option.some.inj hword
  have himage : y.stored = words 1 := by
    have hword := hwords 1 (by omega)
    rw [hy] at hword
    exact Option.some.inj hword
  rw [hsize] at hle hvm hlength hother
  rw [himage] at hnonneg hle hstored hother
  have htoNat : ((words 1).toNat : ℤ) = (words 1).toInt := by
    have hlt := (words 1).isLt
    rw [BitVec.toInt_eq_toNat_cond] at hnonneg ⊢
    split_ifs at hnonneg ⊢ <;> omega
  have hdata : (List.range (words 1).toNat).foldl (fun data_ i => data_.set i (words (i + 2)))
      (List.replicate (words 0).toInt.toNat 0) = vm'.data_ := by
    apply List.ext_getElem?
    intro i
    rw [getElem?_foldl_set, List.length_replicate]
    rcases Nat.lt_or_ge i (words 1).toNat with hlt | hge
    · obtain ⟨z, hz, hcell⟩ := hstored i (by omega)
      have hword := hwords (i + 2) (by rw [himage]; omega)
      rw [hz] at hword
      rw [if_pos (by omega), hcell]
      exact hword.symm
    · rw [if_neg (by omega), List.getElem?_replicate]
      split_ifs with hi
      · rw [hother i (by omega) (by omega), List.getElem?_nil, Option.getD_none]
      · rw [List.getElem?_eq_none (by omega)]
  unfold load_image
  simp only
  rw [if_neg (by omega), if_pos (by omega), hdata, hvm]

end Loader

end SimpleVm
