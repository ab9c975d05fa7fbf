/-
**The four `hexembed` programs.**

Each of them prints the bytes of a file as literals for a `C` array, eight on a line.  Three first
write all digits to a string, with `hexStr`, and print from it; the fourth converts one byte after
the other.  Two map the file into memory and work on unsigned bytes, two read it into a buffer of
`char` and convert.

The counter of `hexStr` is an `int`, which it doubles.  A counter or an index that is too great for
`int`, an access outside a string or a table, and a string that is too long are faults here.

Main definitions:

* `HexEmbed.Mmap.hexStr`, `HexEmbed.Fs.hexStr`, `HexEmbed.Base.hexStr` — the digits of some bytes;
* `HexEmbed.Mmap.main`, `HexEmbed.MmapSavem.main`, `HexEmbed.Fs.main`, `HexEmbed.Base.main` — the
  programs;
* `HexEmbed.textFrom` — what they print.

Main results:

* `HexEmbed.hexStrFrom_eq`, `HexEmbed.hexStrOf_works_iff` — `hexStr` writes the digits exactly when
  there are at most `2 ^ 30` bytes;
* `HexEmbed.hexStr_works_iff` — **the sizes at which the three functions work**;
* `HexEmbed.main_roundTrip` — **the programs print the same text, and it can be read back**.
-/

import CppSamples.CheckedArray
import CppSamples.HexLiterals

set_option relaxedAutoImplicit false
set_option autoImplicit false

namespace HexEmbed

open CheckedArray HexLiterals

/-! ### Indices -/

/-- What a run goes wrong with. -/
inductive Fault
  /-- a signed result that is too great for `int` -/
  | overflow
  /-- an access outside an array or a string -/
  | outOfBounds
  /-- a string that is longer than `max_size` -/
  | lengthError
  deriving DecidableEq, Repr

/-- A run that may go wrong. -/
abbrev Run := Except Fault

/-- A result that is not negative, of type `int`. -/
def int (r : ℕ) : Run ℕ := if r < 2 ^ 31 then .ok r else .error .overflow

/-- A result of type `size_t`. -/
def sizeT (r : ℕ) : ℕ := r % 2 ^ 64

/-- `a[i]` -/
def read {α : Type} (a : List α) (i : ℕ) : Run α :=
  match a[i]? with
  | some x => .ok x
  | none => .error .outOfBounds

/-- `s[i] = c` -/
def write (s : List Char) (i : ℕ) (c : Char) : Run (List Char) :=
  if i < s.length then .ok (s.set i c) else .error .outOfBounds

/-- `std::string::max_size` -/
def max_size : ℕ := 2 ^ 63 - 1

/-- `std::string(n, c)` -/
def string (n : ℕ) (c : Char) : Run (List Char) :=
  if n ≤ max_size then .ok (List.replicate n c) else .error .lengthError

/-! ### The programs -/

/-- `hexmap` -/
def hexmap : List Char :=
  ['0', '1', '2', '3', '4', '5', '6', '7', '8', '9', 'a', 'b', 'c', 'd', 'e', 'f']

/-- The index of the first digit of a byte. -/
def highIndex (d : BitVec 8) : ℕ := ((d &&& 0xF0) >>> 4).toNat

/-- The index of the second digit of a byte. -/
def lowIndex (d : BitVec 8) : ℕ := (d &&& 0x0F).toNat

section HexStr

variable {β : Type} (byte : β → BitVec 8)

/-- The loop of `hexStr` from the counter `i` on; `byte` converts what `data` points to. -/
def hexStrFrom (data : List β) (len i : ℕ) (s : List Char) : Run (List Char) :=
  if i < len then do
    let d := byte (← read data i)
    let s ← write s (← int (2 * i)) (← read hexmap (highIndex d))
    let s ← write s (← int (2 * i + 1)) (← read hexmap (lowIndex d))
    let _ ← int (i + 1)
    hexStrFrom data len (i + 1) s
  else .ok s
  termination_by len - i

/-- `hexStr` -/
def hexStrOf (data : List β) (len : ℕ) : Run (List Char) := do
  let s ← string (sizeT (len * 2)) ' '
  hexStrFrom byte data len 0 s

end HexStr

/-- `hexStr` of `hexembed_mmap.cpp`, on unsigned bytes -/
def Mmap.hexStr (data : List (BitVec 8)) (len : ℕ) : Run (List Char) := hexStrOf id data len

/-- `hexStr` of `hexembed_fs.cpp`, on the values of signed characters -/
def Fs.hexStr (data : List ℤ) (len : ℕ) : Run (List Char) := hexStrOf (BitVec.ofInt 8) data len

/-- `hexStr` of `hexembed_base.cpp`, on the values of signed characters -/
def Base.hexStr (data : List ℤ) (len : ℕ) : Run (List Char) := hexStrOf (BitVec.ofInt 8) data len

/-- `hex` of `hexembed_mmap_savem.cpp`: the two characters that it writes -/
def MmapSavem.hex (d : BitVec 8) : Run (List Char) := do
  let h₀ ← read hexmap (highIndex d)
  let h₁ ← read hexmap (lowIndex d)
  return [h₀, h₁]

def line_break : ℕ := 8

/-- The loop of a `main` from the counter `i` on; `token` is what it prints for a byte. -/
def printFrom (token : ℕ → Run (List Char)) (fsize i : ℕ) : Run (List Char) :=
  if i < fsize then do
    let printed ← token i
    let rest ← printFrom token fsize (i + 1)
    return printed ++ (if i % line_break = line_break - 1 then ['\n'] else []) ++ rest
  else return []
  termination_by fsize - i

/-- A byte, printed from the string of the digits. -/
def stringToken (hexstr : List Char) (i : ℕ) : Run (List Char) := do
  let c₀ ← read hexstr (sizeT (2 * i))
  let c₁ ← read hexstr (sizeT (2 * i + 1))
  return ['0', 'x', c₀, c₁, ',', ' ']

/-- A byte, converted on its own and printed as a string that ends with a null character. -/
def byteToken (data : List (BitVec 8)) (i : ℕ) : Run (List Char) := do
  let h ← MmapSavem.hex (← read data i)
  let hexs := h ++ ['\x00']
  return ['0', 'x'] ++ hexs.takeWhile (· ≠ '\x00') ++ [',', ' ']

/-- What the operating system has for a program that is called with an argument. -/
structure Env where
  /-- the file, if it can be opened -/
  file : Option (List (BitVec 8))
  /-- the absolute path, as it is printed -/
  filepath : List Char
  strerror : List Char

/-- What a program prints: lines that are no tokens, and the tokens; and how it ends. -/
structure Output where
  message : List Char
  tokens : List Char
  success : Bool

/-- A program that prints a message and gives up. -/
def failure (message : List Char) : Run Output := .ok ⟨message, [], false⟩

/-- `mmap`, which cannot map an empty file -/
def mmap (file : List (BitVec 8)) : Option (List (BitVec 8)) :=
  if file = [] then none else some file

/-- The beginning of `main`, up to the open file, of the programs that map it. -/
def mainMapped (print : List (BitVec 8) → Run (List Char)) : Option Env → Run Output
  | none => failure "gimme input file\n".toList
  | some env =>
    match env.file with
    | none => failure ("failed to open input file ".toList ++ env.filepath ++ " : ".toList ++
        env.strerror ++ ['\n'])
    | some file =>
      match mmap file with
      | none => failure ("failed to mmap input file ".toList ++ env.filepath ++ " : ".toList ++
          env.strerror ++ ['\n'])
      | some data => do return ⟨[], ← print data, true⟩

/-- The beginning of `main`, up to the filled buffer, of the programs that read the file. -/
def mainRead (print : List ℤ → Run (List Char)) : Option Env → Run Output
  | none => failure "gimme input file\n".toList
  | some env =>
    match env.file with
    | none => failure ("failed to open input file ".toList ++ env.strerror ++ ['\n'])
    | some file => do
      let buffer := file.map BitVec.toInt
      let banner := "-I- read ".toList ++ (toString buffer.length).toList ++ " bytes \n".toList
      return ⟨banner, ← print buffer, true⟩

/-- `hexembed_mmap` -/
def Mmap.main (env : Option Env) : Run Output :=
  mainMapped (fun data => do
    let hexstr ← Mmap.hexStr data data.length
    printFrom (stringToken hexstr) data.length 0) env

/-- `hexembed_mmap_savem` -/
def MmapSavem.main (env : Option Env) : Run Output :=
  mainMapped (fun data => printFrom (byteToken data) data.length 0) env

/-- `hexembed_fs` -/
def Fs.main (env : Option Env) : Run Output :=
  mainRead (fun buffer => do
    let hexstr ← Fs.hexStr buffer buffer.length
    printFrom (stringToken hexstr) buffer.length 0) env

/-- `hexembed_base` -/
def Base.main (env : Option Env) : Run Output :=
  mainRead (fun buffer => do
    let hexstr ← Base.hexStr buffer buffer.length
    printFrom (stringToken hexstr) buffer.length 0) env

/-! ### Digits -/

/-- The two digits of a byte. -/
def digits (d : BitVec 8) : List Char :=
  [hexmap.getD (d.toNat / 16) ' ', hexmap.getD (d.toNat % 16) ' ']

theorem highIndex_eq (d : BitVec 8) : highIndex d = d.toNat / 16 := by
  revert d
  decide +kernel

theorem lowIndex_eq (d : BitVec 8) : lowIndex d = d.toNat % 16 := by
  revert d
  decide +kernel

theorem read_eq {α : Type} {a : List α} {i : ℕ} {x : α} (h : a[i]? = some x) :
    read a i = .ok x := by
  rw [read, h]

theorem read_hexmap {k : ℕ} (h : k < 16) : read hexmap k = .ok (hexmap.getD k ' ') := by
  have hk : k < hexmap.length := h
  rw [read_eq (List.getElem?_eq_getElem hk), List.getD_eq_getElem?_getD,
    List.getElem?_eq_getElem hk, Option.getD_some]

/-- Every digit has its value. -/
theorem hexValue_hexmap {k : ℕ} (h : k < 16) : hexValue (hexmap.getD k ' ') = some k := by
  have hall : ∀ k : Fin 16, hexValue (hexmap.getD k ' ') = some (k : ℕ) := by decide
  exact hall ⟨k, h⟩

theorem high_lt (d : BitVec 8) : d.toNat / 16 < 16 := by
  have hd := d.isLt
  omega

theorem low_lt (d : BitVec 8) : d.toNat % 16 < 16 := Nat.mod_lt _ (by decide)

theorem hex_eq (d : BitVec 8) : MmapSavem.hex d = .ok (digits d) := by
  rw [MmapSavem.hex, highIndex_eq, lowIndex_eq, read_hexmap (high_lt d), read_hexmap (low_lt d)]
  rfl

/-! ### `hexStr` -/

theorem ok_bind {α γ : Type} (a : α) (f : α → Run γ) : ((.ok a : Run α) >>= f) = f a := rfl

theorem int_eq {r : ℕ} (h : r < 2 ^ 31) : int r = .ok r := if_pos h

theorem lt_of_int {r r' : ℕ} (h : int r = .ok r') : r < 2 ^ 31 := by
  by_contra hr
  rw [int, if_neg hr] at h
  cases h

theorem sizeT_of_lt {r : ℕ} (h : r < 2 ^ 64) : sizeT r = r := Nat.mod_eq_of_lt h

theorem write_eq {s : List Char} {i : ℕ} (h : i < s.length) (c : Char) :
    write s i c = .ok (s.set i c) := if_pos h

/-- Two cells in a row. -/
theorem take_set_set {s : List Char} {k : ℕ} (h : k + 1 < s.length) (a b : Char) :
    ((s.set k a).set (k + 1) b).take (k + 2) = s.take k ++ [a, b] := by
  refine List.ext_getElem? ?_
  intro i
  grind

section HexStr

variable {β : Type} {byte : β → BitVec 8} {data : List β}

/-- One pass of the loop, when nothing goes wrong. -/
theorem hexStrFrom_step {len i : ℕ} {s : List Char} {d : β} (hi : i < len)
    (hd : data[i]? = some d) (hlen : len ≤ 2 ^ 30) (hs : s.length = 2 * len) :
    hexStrFrom byte data len i s = hexStrFrom byte data len (i + 1)
      ((s.set (2 * i) (hexmap.getD ((byte d).toNat / 16) ' ')).set (2 * i + 1)
        (hexmap.getD ((byte d).toNat % 16) ' ')) := by
  rw [hexStrFrom, if_pos hi, read_eq hd, ok_bind]
  simp only [highIndex_eq, lowIndex_eq, read_hexmap (high_lt _), read_hexmap (low_lt _)]
  rw [int_eq (by omega), int_eq (by omega), int_eq (by omega)]
  simp only [ok_bind]
  rw [write_eq (by omega), ok_bind, write_eq (by rw [List.length_set]; omega), ok_bind]

/-- **The loop writes the digits** of the bytes from the counter on. -/
theorem hexStrFrom_eq {s : List Char} {i : ℕ} (hlen : data.length ≤ 2 ^ 30)
    (hs : s.length = 2 * data.length) (hi : i ≤ data.length) :
    hexStrFrom byte data data.length i s =
      .ok (s.take (2 * i) ++ (data.drop i).flatMap fun d => digits (byte d)) := by
  induction hn : data.length - i generalizing i s with
  | zero =>
      obtain rfl : i = data.length := by omega
      rw [hexStrFrom, if_neg (lt_irrefl _), ← hs, List.take_length, List.drop_length,
        List.flatMap_nil, List.append_nil]
  | succ n ih =>
      have hlt : i < data.length := by omega
      have hset := take_set_set (s := s) (k := 2 * i) (by omega)
      rw [hexStrFrom_step hlt (List.getElem?_eq_getElem hlt) hlen hs,
        ih (by rw [List.length_set, List.length_set, hs]) hlt (by omega),
        List.drop_eq_getElem_cons hlt, List.flatMap_cons, ← List.append_assoc]
      exact congrArg (fun l => Except.ok (l ++ _)) (hset _ _)

/-- A loop that ends has doubled every counter. -/
theorem lt_of_hexStrFrom {len i j : ℕ} {s s' : List Char}
    (h : hexStrFrom byte data len i s = .ok s') (hij : i ≤ j) (hj : j < len) : 2 * j < 2 ^ 31 := by
  induction hn : j - i generalizing i s with
  | zero =>
      obtain rfl : i = j := by omega
      rw [hexStrFrom, if_pos hj] at h
      obtain ⟨d, -, h⟩ := of_bind_ok h
      obtain ⟨r, hr, -⟩ := of_bind_ok h
      exact lt_of_int hr
  | succ n ih =>
      rw [hexStrFrom, if_pos (by omega)] at h
      obtain ⟨d, -, h⟩ := of_bind_ok h
      obtain ⟨r, -, h⟩ := of_bind_ok h
      obtain ⟨c, -, h⟩ := of_bind_ok h
      obtain ⟨s₁, -, h⟩ := of_bind_ok h
      obtain ⟨r', -, h⟩ := of_bind_ok h
      obtain ⟨c', -, h⟩ := of_bind_ok h
      obtain ⟨s₂, -, h⟩ := of_bind_ok h
      obtain ⟨i', -, h⟩ := of_bind_ok h
      exact ih h (by omega) (by omega)

theorem length_flatMap_digits (data : List β) :
    (data.flatMap fun d => digits (byte d)).length = 2 * data.length := by
  induction data with
  | nil => rfl
  | cons d data ih =>
      rw [List.flatMap_cons, List.length_append, ih, List.length_cons, digits]
      simp only [List.length_cons, List.length_nil]
      omega

/-- The digits of at most `2 ^ 30` bytes. -/
theorem hexStrOf_eq (hlen : data.length ≤ 2 ^ 30) :
    hexStrOf byte data data.length = .ok (data.flatMap fun d => digits (byte d)) := by
  have hsize : sizeT (data.length * 2) = 2 * data.length := by
    rw [sizeT_of_lt (by omega), Nat.mul_comm]
  have hmax : 2 * data.length ≤ max_size := by
    rw [max_size]
    omega
  rw [hexStrOf, hsize, string, if_pos hmax, ok_bind,
    hexStrFrom_eq hlen List.length_replicate (Nat.zero_le _)]
  rfl

/-- A run of `hexStr` ends with all digits in a string of twice the length. -/
def Works (run : Run (List Char)) (len : ℕ) : Prop := ∃ s, run = .ok s ∧ s.length = 2 * len

/-- **Up to `2 ^ 30` bytes** the function works, and no further. -/
theorem hexStrOf_works_iff (byte : β → BitVec 8) (data : List β) :
    Works (hexStrOf byte data data.length) data.length ↔ data.length ≤ 2 ^ 30 := by
  constructor
  · rintro ⟨s, hrun, -⟩
    obtain ⟨s₀, -, hloop⟩ := of_bind_ok hrun
    by_contra hlen
    -- the counter that cannot be doubled
    have hdouble := lt_of_hexStrFrom hloop (Nat.zero_le (2 ^ 30)) (by omega)
    omega
  · exact fun hlen => ⟨_, hexStrOf_eq hlen, length_flatMap_digits data⟩

end HexStr

/-- **The sizes at which `hexStr` works**, in the three programs that use it. -/
theorem hexStr_works_iff (bytes : List (BitVec 8)) (chars : List ℤ) :
    (Works (Mmap.hexStr bytes bytes.length) bytes.length ↔ bytes.length ≤ 2 ^ 30) ∧
    (Works (Fs.hexStr chars chars.length) chars.length ↔ chars.length ≤ 2 ^ 30) ∧
    (Works (Base.hexStr chars chars.length) chars.length ↔ chars.length ≤ 2 ^ 30) :=
  ⟨hexStrOf_works_iff id bytes, hexStrOf_works_iff (BitVec.ofInt 8) chars,
    hexStrOf_works_iff (BitVec.ofInt 8) chars⟩

/-- One byte more. -/
theorem hexStr_fails : ¬∀ data : List (BitVec 8), data.length < 2 ^ 64 →
    Works (Mmap.hexStr data data.length) data.length := by
  intro h
  obtain ⟨data, hdata⟩ : ∃ data : List (BitVec 8), data.length = 2 ^ 30 + 1 :=
    ⟨List.replicate (2 ^ 30 + 1) 0, List.length_replicate⟩
  have hlen := (hexStrOf_works_iff id data).1 (h data (by omega))
  omega

/-! ### What the programs print -/

/-- The literal of a byte. -/
def token (d : BitVec 8) : List Char := ['0', 'x'] ++ digits d ++ [',', ' ']

/-- The tokens of the bytes from the counter `i` on. -/
def textFrom (i : ℕ) : List (BitVec 8) → List Char
  | [] => []
  | d :: ds => token d ++ (if i % 8 = 7 then ['\n'] else []) ++ textFrom (i + 1) ds

/-- A loop whose tokens are the literals. -/
theorem printFrom_eq {print : ℕ → Run (List Char)} {bytes : List (BitVec 8)}
    (hprint : ∀ i d, bytes[i]? = some d → print i = .ok (token d)) {i : ℕ} (hi : i ≤ bytes.length) :
    printFrom print bytes.length i = .ok (textFrom i (bytes.drop i)) := by
  induction hn : bytes.length - i generalizing i with
  | zero =>
      obtain rfl : i = bytes.length := by omega
      rw [printFrom, if_neg (lt_irrefl _), List.drop_length]
      rfl
  | succ n ih =>
      have hlt : i < bytes.length := by omega
      rw [printFrom, if_pos hlt, hprint i _ (List.getElem?_eq_getElem hlt), ok_bind,
        ih hlt (by omega), ok_bind, List.drop_eq_getElem_cons hlt, textFrom]
      rfl

theorem getElem?_flatMap_digits {bytes : List (BitVec 8)} {i : ℕ} {d : BitVec 8}
    (h : bytes[i]? = some d) :
    (bytes.flatMap digits)[2 * i]? = some (hexmap.getD (d.toNat / 16) ' ') ∧
      (bytes.flatMap digits)[2 * i + 1]? = some (hexmap.getD (d.toNat % 16) ' ') := by
  induction bytes generalizing i with
  | nil => simp at h
  | cons b bytes ih =>
      cases i with
      | zero =>
          obtain rfl : b = d := by simpa using h
          exact ⟨rfl, rfl⟩
      | succ i => exact ih (by simpa using h)

/-- Printing from the string of the digits. -/
theorem stringToken_eq {bytes : List (BitVec 8)} (hlen : bytes.length < 2 ^ 30) {i : ℕ}
    {d : BitVec 8} (h : bytes[i]? = some d) :
    stringToken (bytes.flatMap digits) i = .ok (token d) := by
  have hi : i < bytes.length := (List.getElem?_eq_some_iff.1 h).1
  obtain ⟨hhigh, hlow⟩ := getElem?_flatMap_digits h
  rw [stringToken, sizeT_of_lt (by omega), sizeT_of_lt (by omega), read_eq hhigh, read_eq hlow]
  rfl

theorem ne_null (d : BitVec 8) : ∀ c ∈ digits d, decide (c ≠ '\x00') = true := by
  intro c hc
  rw [digits, List.mem_cons, List.mem_singleton] at hc
  rcases hc with rfl | rfl
  · exact decide_eq_true (ne_of_hexValue (hexValue_hexmap (high_lt d)) rfl)
  · exact decide_eq_true (ne_of_hexValue (hexValue_hexmap (low_lt d)) rfl)

/-- Printing byte by byte. -/
theorem byteToken_eq {bytes : List (BitVec 8)} {i : ℕ} {d : BitVec 8} (h : bytes[i]? = some d) :
    byteToken bytes i = .ok (token d) := by
  rw [byteToken, read_eq h, ok_bind, hex_eq, ok_bind]
  simp only [List.takeWhile_append_of_pos (ne_null d)]
  rfl

section Main

variable {bytes : List (BitVec 8)} (filepath strerror : List Char)

/-- A program that maps the file prints no token of an empty file, as there is none. -/
theorem mainMapped_tokens {print : List (BitVec 8) → Run (List Char)}
    (h : print bytes = .ok (textFrom 0 bytes)) :
    ∃ o, mainMapped print (some ⟨some bytes, filepath, strerror⟩) = .ok o ∧
      o.tokens = textFrom 0 bytes := by
  rcases eq_or_ne bytes [] with rfl | hne
  · exact ⟨_, rfl, rfl⟩
  · have hmmap : mmap bytes = some bytes := if_neg hne
    rw [mainMapped]
    simp only [hmmap, h]
    exact ⟨_, rfl, rfl⟩

theorem mainRead_tokens {print : List ℤ → Run (List Char)}
    (h : print (bytes.map BitVec.toInt) = .ok (textFrom 0 bytes)) :
    ∃ o, mainRead print (some ⟨some bytes, filepath, strerror⟩) = .ok o ∧
      o.tokens = textFrom 0 bytes := by
  rw [mainRead]
  simp only [h]
  exact ⟨_, rfl, rfl⟩

/-- Printing by way of `hexStr`, on bytes in any form. -/
theorem print_hexStr {β : Type} {byte : β → BitVec 8} {data : List β}
    (hdata : data.map byte = bytes) (hlen : bytes.length < 2 ^ 30) : (do
      let hexstr ← hexStrOf byte data data.length
      printFrom (stringToken hexstr) data.length 0) = .ok (textFrom 0 bytes) := by
  have hlength : data.length = bytes.length := by rw [← hdata, List.length_map]
  have hdigits : (data.flatMap fun d => digits (byte d)) = bytes.flatMap digits := by
    rw [← hdata, List.flatMap_map]
  rw [hexStrOf_eq (by omega), ok_bind, hdigits, hlength]
  exact printFrom_eq (fun i d h => stringToken_eq hlen h) (Nat.zero_le _)

end Main

/-! ### Reading it back -/

/-- **The text can be read back.** -/
theorem readLiterals_textFrom {w : List Char} (hw : ∀ c ∈ w, c.isWhitespace = true) (i : ℕ)
    (bytes : List (BitVec 8)) : readLiterals (w ++ textFrom i bytes) = some bytes := by
  induction bytes generalizing i w with
  | nil => rw [textFrom, List.append_nil, readLiterals_blank hw]
  | cons d ds ih =>
      obtain ⟨w', hw', hline⟩ : ∃ w', (∀ c ∈ w', c.isWhitespace = true) ∧
          [' '] ++ (if i % 8 = 7 then ['\n'] else []) = w' := by
        refine ⟨_, ?_, rfl⟩
        split_ifs
        · exact List.forall_mem_cons.2 ⟨rfl, List.forall_mem_singleton.2 rfl⟩
        · exact List.forall_mem_singleton.2 rfl
      have hsplit : w ++ textFrom i (d :: ds) = w ++ '0' :: 'x' ::
          hexmap.getD (d.toNat / 16) ' ' :: hexmap.getD (d.toNat % 16) ' ' :: ',' ::
            (w' ++ textFrom (i + 1) ds) := by
        rw [← hline]
        simp [textFrom, token, digits]
      have hbyte : BitVec.ofNat 8 (16 * (d.toNat / 16) + d.toNat % 16) = d := by
        rw [Nat.div_add_mod, BitVec.ofNat_toNat, BitVec.setWidth_eq]
      rw [hsplit, readLiterals_cons hw (hexValue_hexmap (high_lt d)) (hexValue_hexmap (low_lt d)),
        ih hw', hbyte]
      rfl

theorem newline_not_mem (ds : List (BitVec 8)) : '\n' ∉ ds.flatMap token := by
  rw [List.mem_flatMap]
  rintro ⟨d, -, hd⟩
  have hhigh := (ne_of_hexValue (hexValue_hexmap (high_lt d)) (d := '\n') rfl).symm
  have hlow := (ne_of_hexValue (hexValue_hexmap (low_lt d)) (d := '\n') rfl).symm
  simp [token, digits, hhigh, hlow, -List.getD_eq_getElem?_getD] at hd

/-- The last line. -/
theorem textFrom_of_lt {i : ℕ} {ds : List (BitVec 8)} (h : i % 8 + ds.length < 8) :
    textFrom i ds = ds.flatMap token := by
  induction ds generalizing i with
  | nil => rfl
  | cons d ds ih =>
      rw [List.length_cons] at h
      rw [textFrom, if_neg (by omega), ih (by omega), List.append_nil, List.flatMap_cons]

/-- A full line, or what is left of it, and the rest. -/
theorem textFrom_append {i : ℕ} {ds rest : List (BitVec 8)} (h : i % 8 + ds.length = 8) :
    textFrom i (ds ++ rest) = ds.flatMap token ++ '\n' :: textFrom (i + ds.length) rest := by
  induction ds generalizing i with
  | nil =>
      have hi := Nat.mod_lt i (show 8 > 0 by decide)
      rw [List.length_nil] at h
      omega
  | cons d ds ih =>
      rw [List.length_cons] at h
      rw [List.cons_append, textFrom, List.flatMap_cons, List.length_cons]
      rcases eq_or_ne ds [] with rfl | hne
      · rw [if_pos (by simp only [List.length_nil] at h; omega)]
        simp
      · have hpos := List.length_pos_iff.2 hne
        rw [if_neg (by omega), ih (by omega), List.append_nil, List.append_assoc,
          Nat.add_assoc i 1, Nat.add_comm 1]

/-- A text of fewer than eight bytes is one line. -/
theorem splitOn_textFrom_of_lt {i : ℕ} (hi : i % 8 = 0) {bytes : List (BitVec 8)}
    (hlt : bytes.length < 8) : (textFrom i bytes).splitOn '\n' = [bytes.flatMap token] := by
  rw [textFrom_of_lt (by omega), List.splitOn_eq_singleton (newline_not_mem _)]

/-- The first line of a longer one, and the others. -/
theorem splitOn_textFrom_of_le {i : ℕ} (hi : i % 8 = 0) {bytes : List (BitVec 8)}
    (hge : 8 ≤ bytes.length) : (textFrom i bytes).splitOn '\n' =
      (bytes.take 8).flatMap token :: (textFrom (i + 8) (bytes.drop 8)).splitOn '\n' := by
  have hline : textFrom i (bytes.take 8 ++ bytes.drop 8) = (bytes.take 8).flatMap token ++
      '\n' :: textFrom (i + (bytes.take 8).length) (bytes.drop 8) :=
    textFrom_append (by rw [List.length_take]; omega)
  rw [List.take_append_drop, List.length_take, Nat.min_eq_left hge] at hline
  rw [hline, List.splitOn_append_cons_self_of_not_mem (newline_not_mem _)]

/-- **The lines of the text** have eight tokens each, up to the last one, which has fewer. -/
theorem splitOn_textFrom {i : ℕ} (hi : i % 8 = 0) (bytes : List (BitVec 8)) (k : ℕ) :
    ((textFrom i bytes).splitOn '\n')[k]? =
      if 8 * k ≤ bytes.length then some (((bytes.drop (8 * k)).take 8).flatMap token)
      else none := by
  induction k generalizing i bytes with
  | zero =>
      rw [if_pos (Nat.zero_le _), Nat.mul_zero, List.drop_zero]
      rcases Nat.lt_or_ge bytes.length 8 with hlt | hge
      · rw [splitOn_textFrom_of_lt hi hlt, List.take_of_length_le hlt.le]
        rfl
      · rw [splitOn_textFrom_of_le hi hge]
        rfl
  | succ k ih =>
      rcases Nat.lt_or_ge bytes.length 8 with hlt | hge
      · rw [splitOn_textFrom_of_lt hi hlt, if_neg (by omega)]
        rfl
      · rw [splitOn_textFrom_of_le hi hge, List.getElem?_cons_succ, ih (by omega),
          List.drop_drop, List.length_drop]
        have hcond : 8 * k ≤ bytes.length - 8 ↔ 8 * (k + 1) ≤ bytes.length := by omega
        have hdrop : 8 + 8 * k = 8 * (k + 1) := by omega
        simp only [hcond, hdrop]

/-- **The programs print the same text**, which reads back as the bytes of the file, in lines of
eight tokens. -/
theorem main_roundTrip {bytes : List (BitVec 8)} (hlen : bytes.length < 2 ^ 30)
    (filepath strerror : List Char) :
    ∃ text, (∀ main ∈ [Mmap.main, MmapSavem.main, Fs.main, Base.main],
        ∃ o, main (some ⟨some bytes, filepath, strerror⟩) = .ok o ∧ o.tokens = text) ∧
      readLiterals text = some bytes ∧
      ∀ k : ℕ, (text.splitOn '\n')[k]? =
        if 8 * k ≤ bytes.length then some (((bytes.drop (8 * k)).take 8).flatMap token)
        else none := by
  have hchars : (bytes.map BitVec.toInt).map (BitVec.ofInt 8) = bytes := by
    rw [List.map_map]
    exact (List.map_congr_left fun d _ => BitVec.ofInt_toInt).trans (List.map_id bytes)
  refine ⟨textFrom 0 bytes, ?_, readLiterals_textFrom (w := []) (by simp) 0 bytes,
    splitOn_textFrom rfl bytes⟩
  simp only [List.forall_mem_cons]
  refine ⟨?_, ?_, ?_, ?_, fun _ h => absurd h List.not_mem_nil⟩
  · exact mainMapped_tokens filepath strerror (print_hexStr (List.map_id bytes) hlen)
  · refine mainMapped_tokens filepath strerror ?_
    exact printFrom_eq (fun i d h => byteToken_eq h) (Nat.zero_le _)
  · exact mainRead_tokens filepath strerror (print_hexStr hchars hlen)
  · exact mainRead_tokens filepath strerror (print_hexStr hchars hlen)

/-- Nine bytes make two lines. -/
theorem main_roundTrip_nine : ∃ text,
    (∃ o, Fs.main (some ⟨some (List.replicate 9 0xFF), [], []⟩) = .ok o ∧ o.tokens = text) ∧
      (text.splitOn '\n')[1]? = some "0xff, ".toList := by
  have hlen : (List.replicate 9 (0xFF : BitVec 8)).length < 2 ^ 30 := by decide
  obtain ⟨text, hmain, -, hlines⟩ := main_roundTrip hlen [] []
  exact ⟨text, hmain Fs.main (by simp), hlines 1⟩

end HexEmbed
