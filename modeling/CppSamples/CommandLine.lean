/-
**Parsing the command line.**

`opts::parse_cmdline` and `get_opt::parse_cmdline` walk along `argv` with a pointer and a counter of
the arguments that are left.  The arguments that begin with a dash are options; some of them take
the next argument for their value, and then the helper or the case that reads it moves on once and
the loop moves on again.  Behind the last argument `argv` has a null pointer.

The two parsers have the same loop; they differ in their options, in what they do before it and in
what they do with the argument where it stops.

Main definitions:

* `CommandLine.Parser`, `CommandLine.Parser.next` — the loop, step by step;
* `CommandLine.EndsSafely` — a run that ends, without a fault, in states that meet a condition;
* `CommandLine.Opts.parse_cmdline`, `CommandLine.GetOpt.parse_cmdline` — the two parsers;
* `CommandLine.Options` — options with their values, and what comes behind them.

Main results:

* `CommandLine.Parser.endsSafely_head_iff` — the loop, by recursion on the arguments that are left;
* `CommandLine.parse_cmdline_safe_iff` — **the argument lists inside which the parsers stay**.
-/

import Mathlib.Algebra.Ring.Int.Defs
import Mathlib.Data.List.Basic
import Mathlib.Tactic.Common

set_option relaxedAutoImplicit false
set_option autoImplicit false

namespace CommandLine

/-! ### The array of arguments -/

/-- The characters of a string, up to its null character. -/
abbrev CString := List Char

/-- `s[k]` -/
def charAt (s : CString) (k : ℕ) : Char := s.getD k '\x00'

/-- What has no defined behaviour. -/
inductive Fault
  /-- an entry of `argv` behind the null pointer is read -/
  | pastEnd
  /-- the null pointer is followed, or converted to a string -/
  | nullPointer
  /-- a variable is read that has no value -/
  | indeterminate
  deriving DecidableEq, Repr

/-- The entry of `argv` with the number `k`; the last one is the null pointer. -/
def entry (args : List CString) (k : ℕ) : Except Fault (Option CString) :=
  if k ≤ args.length then .ok args[k]? else .error .pastEnd

/-- The string that an entry points to. -/
def deref : Option CString → Except Fault CString
  | some s => .ok s
  | none => .error .nullPointer

/-- The counter of the arguments that are left, and the pointer into `argv`. -/
structure Cursor where
  argc_ : ℤ
  argv_ : ℕ

/-- `argc_--; argv_++` -/
def Cursor.advance (c : Cursor) : Cursor := ⟨c.argc_ - 1, c.argv_ + 1⟩

/-! ### The loop -/

/-- What the two parsers differ in; `σ` is what they have read. -/
structure Parser (σ : Type) where
  /-- the least `argc` with which the parser starts -/
  least : ℕ
  /-- the `switch` on the second character of an option -/
  option : List CString → CString → Cursor × σ → Except Fault (Cursor × σ)
  /-- what comes after the loop -/
  finish : List CString → Cursor × σ → Except Fault σ

/-- Where a parser is: before the loop, at its condition, or at the end of its body. -/
inductive Pc
  | start | head | tail
  deriving DecidableEq

/-- The state of a parser. -/
structure Config (σ : Type) where
  pc : Pc
  cursor : Cursor
  data : σ

/-- `argc_ && **argv_ == '-'`, with the option that the loop goes on with. -/
def loopCondition (args : List CString) (c : Cursor) : Except Fault (Option CString) :=
  if c.argc_ = 0 then .ok none
  else do
    let arg ← deref (← entry args c.argv_)
    return if charAt arg 0 = '-' then some arg else none

variable {σ : Type}

/-- One step: the next state, or what was read when the parser is done. -/
def Parser.next (p : Parser σ) (args : List CString) (s : Config σ) :
    Except Fault (Config σ ⊕ Option σ) :=
  match s.pc with
  | .start =>
    -- `std::exit`
    if s.cursor.argc_ < p.least then .ok (.inr none)
    else .ok (.inl ⟨.head, s.cursor.advance, s.data⟩)
  | .head => do
    match ← loopCondition args s.cursor with
    | some arg =>
      let (cursor, data) ← p.option args arg (s.cursor, s.data)
      return .inl ⟨.tail, cursor, data⟩
    | none =>
      let data ← p.finish args (s.cursor, s.data)
      return .inr (some data)
  | .tail => .ok (.inl ⟨.head, s.cursor.advance, s.data⟩)

/-- The state in which a parser is called. -/
def Parser.call (args : List CString) (data : σ) : Config σ := ⟨.start, ⟨args.length, 0⟩, data⟩

/-- From `s` the run comes to an end without a fault, and all its states meet `P`. -/
inductive EndsSafely {γ ρ ε : Type} (next : γ → Except ε (γ ⊕ ρ)) (P : γ → Prop) : γ → Prop
  | done {s : γ} {r : ρ} : P s → next s = .ok (.inr r) → EndsSafely next P s
  | step {s t : γ} : P s → next s = .ok (.inl t) → EndsSafely next P t → EndsSafely next P s

/-- **The parser stays inside `argv`**: it ends, nothing behind the null pointer is read, the null
pointer is not followed, and the counter does not go below zero. -/
def Parser.Safe (p : Parser σ) (args : List CString) (data : σ) : Prop :=
  EndsSafely (p.next args) (fun s => 0 ≤ s.cursor.argc_) (Parser.call args data)

/-! ### The values of options -/

/-- The value of the decimal digits at the beginning of a text. -/
def leadingDigits (s : List Char) : ℕ :=
  (s.takeWhile Char.isDigit).foldl (fun v c => 10 * v + (c.toNat - '0'.toNat)) 0

/-- `std::atoi`, which takes the low bits of a `long` -/
def atoi (s : CString) : ℤ :=
  let v : ℤ := match s.dropWhile Char.isWhitespace with
    | '-' :: s => -leadingDigits s
    | '+' :: s => leadingDigits s
    | s => leadingDigits s
  (BitVec.ofInt 32 (max (-2 ^ 63) (min v (2 ^ 63 - 1)))).toInt

/-! ### `opts::parse_cmdline` -/

/-- The members of `opts` that the command line sets. -/
structure Opts where
  verbose : Bool
  eval : Bool
  simple_mem_trace : Bool
  yml_mem_trace : Bool
  verbosity_level : ℤ
  verbosity_threshold : ℤ
  full_screen : Bool
  fp32 : Bool
  clmap : Bool
  subw_x : ℤ
  subw_y : ℤ
  inp_name : CString
  inp_cache_amap_name : CString
  inp_world_amap_name : CString
  log_name : CString

namespace Opts

/-- `opts::opts` -/
def new : Opts where
  verbose := false
  eval := false
  simple_mem_trace := false
  yml_mem_trace := false
  verbosity_level := 0
  verbosity_threshold := 0
  full_screen := false
  fp32 := false
  clmap := false
  subw_x := 64
  subw_y := 64
  inp_name := []
  inp_cache_amap_name := []
  inp_world_amap_name := []
  log_name := []

/-- `to`: the text that is converted, if there is one, and the cursor. -/
def toValue (args : List CString) (c : Cursor) : Except Fault (Option CString × Cursor) := do
  let arg ← deref (← entry args c.argv_)
  if charAt arg 2 ≠ '\x00' then
    return (some (arg.drop 2), c)
  else
    let c := c.advance
    return (← entry args c.argv_, c)

/-- An option whose value is stored with `set`; without a value nothing is stored. -/
def value (set : CString → Opts → Opts) (args : List CString) (c : Cursor) (o : Opts) :
    Except Fault (Cursor × Opts) := do
  let (v, c) ← toValue args c
  return (c, match v with
    | some v => set v o
    | none => o)

/-- The `switch` of `parse_cmdline`. -/
def option (args : List CString) (arg : CString) (s : Cursor × Opts) :
    Except Fault (Cursor × Opts) :=
  let (c, o) := s
  match charAt arg 1 with
  | 'v' => .ok (c, { o with verbose := true })
  | 'l' => value (fun v o => { o with log_name := v }) args c o
  | 's' => value (fun v o => { o with inp_name := v }) args c { o with simple_mem_trace := true }
  | 'i' => value (fun v o => { o with inp_name := v }) args c { o with yml_mem_trace := true }
  | 'c' => value (fun v o => { o with inp_name := v }) args c o
  | 'm' => .ok (c, { o with clmap := true })
  | 'a' => value (fun v o => { o with inp_cache_amap_name := v }) args c o
  | 'w' => value (fun v o => { o with inp_world_amap_name := v }) args c o
  | 'e' => .ok (c, { o with eval := true })
  | 'd' => value (fun v o => { o with verbosity_level := atoi v }) args c o
  | 'k' => value (fun v o => { o with verbosity_threshold := atoi v }) args c o
  | 'f' => .ok (c, { o with full_screen := true })
  | 'p' => do
    -- the variable `ival` is compared even if it was not set
    match ← toValue args c with
    | (some v, c) => return (c, { o with fp32 := atoi v = 32 })
    | (none, _) => .error .indeterminate
  | 'x' => value (fun v o => { o with subw_x := atoi v }) args c o
  | 'y' => value (fun v o => { o with subw_y := atoi v }) args c o
  | _ => .ok (c, o)

/-- After the loop. -/
def finish (args : List CString) (s : Cursor × Opts) : Except Fault Opts := do
  let (c, o) := s
  if 0 < c.argc_ then
    let inp_name ← deref (← entry args c.argv_)
    return { o with inp_name }
  else return o

/-- `opts::parse_cmdline` -/
def parse_cmdline : Parser Opts where
  least := 0
  option := option
  finish := finish

end Opts

/-! ### `get_opt::parse_cmdline` -/

/-- The members of `get_opt` that the command line sets. -/
structure GetOpt where
  inp_name : CString
  log_name : CString
  out_name : CString
  verbose : Bool

namespace GetOpt

/-- `get_opt::get_opt` -/
def new : GetOpt := ⟨[], [], [], false⟩

/-- A case that moves on and stores the argument it finds there. -/
def value (set : CString → GetOpt → GetOpt) (args : List CString) (c : Cursor) (o : GetOpt) :
    Except Fault (Cursor × GetOpt) := do
  let c := c.advance
  match ← entry args c.argv_ with
  | some v => return (c, set v o)
  | none => return (c, o)

/-- The `switch` of `parse_cmdline`. -/
def option (args : List CString) (arg : CString) (s : Cursor × GetOpt) :
    Except Fault (Cursor × GetOpt) :=
  let (c, o) := s
  match charAt arg 1 with
  | 'v' => .ok (c, { o with verbose := true })
  | 'l' => value (fun v o => { o with log_name := v }) args c o
  | 'o' => value (fun v o => { o with out_name := v }) args c o
  | _ => .ok (c, o)

/-- After the loop. -/
def finish (args : List CString) (s : Cursor × GetOpt) : Except Fault GetOpt := do
  let inp_name ← deref (← entry args s.1.argv_)
  return { s.2 with inp_name }

/-- `get_opt::parse_cmdline` -/
def parse_cmdline : Parser GetOpt where
  least := 2
  option := option
  finish := finish

end GetOpt

/-! ### Runs -/

section Runs

variable {γ ρ ε : Type} {next : γ → Except ε (γ ⊕ ρ)} {P : γ → Prop} {s t : γ}

theorem endsSafely_of_inl (h : next s = .ok (.inl t)) :
    EndsSafely next P s ↔ P s ∧ EndsSafely next P t := by
  constructor
  · intro hsafe
    cases hsafe with
    | done hs hdone => exact absurd (h.symm.trans hdone) (by simp)
    | step hs hstep hsafe =>
        obtain rfl := Sum.inl.inj (Except.ok.inj (h.symm.trans hstep))
        exact ⟨hs, hsafe⟩
  · exact fun ⟨hs, hsafe⟩ => .step hs h hsafe

theorem endsSafely_of_inr {x : Except ε ρ} (h : next s = x.map .inr) :
    EndsSafely next P s ↔ P s ∧ ∃ r, x = .ok r := by
  cases x with
  | error e =>
      refine ⟨fun hsafe => ?_, fun ⟨_, r, hr⟩ => by cases hr⟩
      cases hsafe with
      | done hs hdone => cases h.symm.trans hdone
      | step hs hstep hsafe => cases h.symm.trans hstep
  | ok r =>
      refine ⟨fun hsafe => ?_, fun ⟨hs, _⟩ => .done hs h⟩
      cases hsafe with
      | done hs hdone => exact ⟨hs, r, rfl⟩
      | step hs hstep hsafe => cases h.symm.trans hstep

theorem EndsSafely.invariant (h : EndsSafely next P s) : P s := by
  cases h with
  | done hs _ => exact hs
  | step hs _ _ => exact hs

theorem EndsSafely.not_error {e : ε} (h : EndsSafely next P s) : next s ≠ .error e := by
  cases h with
  | done _ hdone => simp [hdone]
  | step _ hstep _ => simp [hstep]

end Runs

/-! ### Options and what comes behind them -/

/-- The arguments are options, with their values where they take the next argument for it, and
`rest`, which does not begin with an option. -/
inductive Options (takesNext : CString → Bool) : List CString → List CString → Prop
  | rest {l : List CString} : (∀ arg ∈ l.head?, charAt arg 0 ≠ '-') → Options takesNext l l
  | flag {arg : CString} {l rest : List CString} : charAt arg 0 = '-' → takesNext arg = false →
      Options takesNext l rest → Options takesNext (arg :: l) rest
  | value {arg v : CString} {l rest : List CString} : charAt arg 0 = '-' → takesNext arg = true →
      Options takesNext l rest → Options takesNext (arg :: v :: l) rest

section Options

variable {takesNext : CString → Bool} {arg v : CString} {l rest : List CString}

theorem options_nil : Options takesNext [] rest ↔ rest = [] := by
  constructor
  · intro h
    cases h with
    | rest _ => rfl
  · rintro rfl
    exact .rest (by simp)

theorem options_of_ne (h : charAt arg 0 ≠ '-') :
    Options takesNext (arg :: l) rest ↔ rest = arg :: l := by
  constructor
  · intro hoptions
    cases hoptions with
    | rest _ => rfl
    | flag hdash _ _ => exact absurd hdash h
    | value hdash _ _ => exact absurd hdash h
  · rintro rfl
    exact .rest (by simpa using h)

theorem options_flag (h : charAt arg 0 = '-') (hnext : takesNext arg = false) :
    Options takesNext (arg :: l) rest ↔ Options takesNext l rest := by
  constructor
  · intro hoptions
    cases hoptions with
    | rest hrest => exact absurd h (hrest arg rfl)
    | flag _ _ hoptions => exact hoptions
    | value _ htakes _ => exact absurd (hnext.symm.trans htakes) (by decide)
  · exact .flag h hnext

theorem options_value (h : charAt arg 0 = '-') (hnext : takesNext arg = true) :
    Options takesNext (arg :: v :: l) rest ↔ Options takesNext l rest := by
  constructor
  · intro hoptions
    cases hoptions with
    | rest hrest => exact absurd h (hrest arg rfl)
    | flag _ hflag _ => exact absurd (hnext.symm.trans hflag) (by decide)
    | value _ _ hoptions => exact hoptions
  · exact .value h hnext

theorem not_options_singleton (h : charAt arg 0 = '-') (hnext : takesNext arg = true) :
    ¬Options takesNext [arg] rest := by
  intro hoptions
  cases hoptions with
  | rest hrest => exact absurd h (hrest arg rfl)
  | flag _ hflag _ => exact absurd (hnext.symm.trans hflag) (by decide)

end Options

/-! ### The loop and the options -/

theorem ok_bind {α β : Type} (a : α) (f : α → Except Fault β) :
    ((.ok a : Except Fault α) >>= f) = f a := rfl

theorem entry_of_le {args : List CString} {k : ℕ} (h : k ≤ args.length) :
    entry args k = .ok args[k]? := if_pos h

/-- An argument in front of the end. -/
theorem exists_entry {args : List CString} {k : ℕ} (h : k < args.length) :
    ∃ arg, args[k]? = some arg ∧ entry args k = .ok (some arg) ∧
      args.drop k = arg :: args.drop (k + 1) := by
  have harg := List.getElem?_eq_getElem h
  refine ⟨args[k], harg, ?_, List.drop_eq_getElem_cons h⟩
  rw [entry_of_le (Nat.le_of_lt h), harg]

/-- The options of a parser: those that `takesNext` tells move on once, the others do not. -/
structure Parser.Reads (p : Parser σ) (takesNext : CString → Bool) : Prop where
  flag : ∀ {args : List CString} {arg : CString} {c : Cursor} (d : σ),
    entry args c.argv_ = .ok (some arg) → takesNext arg = false →
      ∃ d', p.option args arg (c, d) = .ok (c, d')
  value : ∀ {args : List CString} {arg v : CString} {c : Cursor} (d : σ),
    entry args c.argv_ = .ok (some arg) → takesNext arg = true →
      entry args (c.argv_ + 1) = .ok (some v) → ∃ d', p.option args arg (c, d) = .ok (c.advance, d')
  missing : ∀ {args : List CString} {arg : CString} {c : Cursor} {d : σ} {s : Cursor × σ},
    entry args c.argv_ = .ok (some arg) → takesNext arg = true →
      entry args (c.argv_ + 1) = .ok none → p.option args arg (c, d) = .ok s → s.1 = c.advance

/-- What the end of a parser asks of the arguments that are left. -/
def Parser.Finishes (p : Parser σ) (Ends : List CString → Prop) : Prop :=
  ∀ (args : List CString) (k : ℕ) (d : σ), k ≤ args.length →
    ((∃ d', p.finish args (⟨args.length - k, k⟩, d) = .ok d') ↔ Ends (args.drop k))

section Loop

variable {p : Parser σ} {takesNext : CString → Bool} {Ends : List CString → Prop}
  {args : List CString} {k : ℕ}

theorem loopCondition_nil :
    loopCondition args ⟨args.length - args.length, args.length⟩ = .ok none :=
  if_pos (Int.sub_self _)

theorem loopCondition_cons {arg : CString} (h : args[k]? = some arg) :
    loopCondition args ⟨args.length - k, k⟩ =
      .ok (if charAt arg 0 = '-' then some arg else none) := by
  have hk : k < args.length := (List.getElem?_eq_some_iff.1 h).1
  have hne : ¬((args.length : ℤ) - k = 0) := by omega
  rw [loopCondition, if_neg hne, entry_of_le (Nat.le_of_lt hk), h]
  rfl

/-- Where the loop stops. -/
theorem Parser.Finishes.endsSafely_iff (hends : p.Finishes Ends) (hk : k ≤ args.length) {d : σ}
    (hstop : loopCondition args ⟨args.length - k, k⟩ = .ok none) :
    EndsSafely (p.next args) (fun s => 0 ≤ s.cursor.argc_) ⟨.head, ⟨args.length - k, k⟩, d⟩ ↔
      Ends (args.drop k) := by
  have hnext : p.next args ⟨.head, ⟨args.length - k, k⟩, d⟩ =
      ((p.finish args (⟨args.length - k, k⟩, d)).map some).map .inr := by
    simp only [Parser.next, hstop]
    cases p.finish args (⟨args.length - k, k⟩, d) with
    | error e => rfl
    | ok d' => rfl
  have hpos : 0 ≤ (args.length : ℤ) - k := by omega
  rw [endsSafely_of_inr hnext, ← hends args k d hk]
  simp only [hpos, true_and]
  cases p.finish args (⟨args.length - k, k⟩, d) with
  | error e => simp [Except.map]
  | ok d' => simp [Except.map]

/-- The end of a pass. -/
theorem endsSafely_tail_iff {d : σ} {c : Cursor} :
    EndsSafely (p.next args) (fun s => 0 ≤ s.cursor.argc_) ⟨.tail, c, d⟩ ↔
      0 ≤ c.argc_ ∧
        EndsSafely (p.next args) (fun s => 0 ≤ s.cursor.argc_) ⟨.head, c.advance, d⟩ :=
  endsSafely_of_inl rfl

theorem advance_cursor : (⟨args.length - k, k⟩ : Cursor).advance =
    ⟨args.length - (k + 1 : ℕ), k + 1⟩ := by
  have hargc : (args.length : ℤ) - k - 1 = args.length - (k + 1 : ℕ) := by omega
  rw [Cursor.advance, hargc]

/-- A pass. -/
theorem next_of_option {arg : CString} {d : σ} (hk : args[k]? = some arg)
    (hdash : charAt arg 0 = '-') :
    p.next args ⟨.head, ⟨args.length - k, k⟩, d⟩ =
      (p.option args arg (⟨args.length - k, k⟩, d)).map fun s => .inl ⟨.tail, s.1, s.2⟩ := by
  simp only [Parser.next, loopCondition_cons hk, if_pos hdash, ok_bind]
  cases p.option args arg (⟨args.length - k, k⟩, d) with
  | error e => rfl
  | ok s => rfl

/-- A pass whose option moves on to the cursor `c`. -/
theorem endsSafely_pass_iff {arg : CString} {d d' : σ} {c : Cursor} (hk : args[k]? = some arg)
    (hdash : charAt arg 0 = '-')
    (hoption : p.option args arg (⟨args.length - k, k⟩, d) = .ok (c, d')) :
    EndsSafely (p.next args) (fun s => 0 ≤ s.cursor.argc_) ⟨.head, ⟨args.length - k, k⟩, d⟩ ↔
      0 ≤ c.argc_ ∧
        EndsSafely (p.next args) (fun s => 0 ≤ s.cursor.argc_) ⟨.head, c.advance, d'⟩ := by
  have hlt : k < args.length := (List.getElem?_eq_some_iff.1 hk).1
  have hpos : 0 ≤ (args.length : ℤ) - k := by omega
  have hnext : p.next args ⟨.head, ⟨args.length - k, k⟩, d⟩ = .ok (.inl ⟨.tail, c, d'⟩) := by
    rw [next_of_option hk hdash, hoption]
    rfl
  rw [endsSafely_of_inl hnext, endsSafely_tail_iff]
  simp only [hpos, true_and]

/-- A pass over an option in the last place that takes the next argument: whatever the option does
with the null pointer, the counter is below zero behind it. -/
theorem Parser.Reads.not_endsSafely_missing (hreads : p.Reads takesNext) {arg : CString} {d : σ}
    (hlast : args.length ≤ k + 1) (hk : args[k]? = some arg) (hdash : charAt arg 0 = '-')
    (htakes : takesNext arg = true) :
    ¬EndsSafely (p.next args) (fun s => 0 ≤ s.cursor.argc_) ⟨.head, ⟨args.length - k, k⟩, d⟩ := by
  intro hsafe
  have hlt : k < args.length := (List.getElem?_eq_some_iff.1 hk).1
  have hentry : entry args k = .ok (some arg) := by rw [entry_of_le (Nat.le_of_lt hlt), hk]
  have hentry' : entry args (k + 1) = .ok none := by
    rw [entry_of_le hlt, List.getElem?_eq_none hlast]
  cases hoption : p.option args arg (⟨args.length - k, k⟩, d) with
  | error e =>
      have hnext := next_of_option (p := p) (d := d) hk hdash
      rw [hoption] at hnext
      exact hsafe.not_error hnext
  | ok s =>
      obtain ⟨c, d'⟩ := s
      obtain rfl : c = _ :=
        hreads.missing (c := ⟨args.length - k, k⟩) hentry htakes hentry' hoption
      rw [endsSafely_pass_iff hk hdash hoption] at hsafe
      have hpos := hsafe.2.invariant
      simp only [Cursor.advance] at hpos
      omega

/-- **The loop**: it stays inside `argv` exactly when every option that takes the next argument
finds one, and what is left suffices for the end of the parser. -/
theorem Parser.endsSafely_head_iff (hreads : p.Reads takesNext) (hends : p.Finishes Ends)
    (hk : k ≤ args.length) (d : σ) :
    EndsSafely (p.next args) (fun s => 0 ≤ s.cursor.argc_) ⟨.head, ⟨args.length - k, k⟩, d⟩ ↔
      ∃ rest, Options takesNext (args.drop k) rest ∧ Ends rest := by
  induction hn : args.length - k using Nat.strongRecOn generalizing k d with
  | _ n ih =>
      rcases Nat.eq_or_lt_of_le hk with rfl | hlt
      · rw [hends.endsSafely_iff (Nat.le_refl _) loopCondition_nil, List.drop_length]
        simp only [options_nil, exists_eq_left]
      obtain ⟨arg, harg, hentry, hdrop⟩ := exists_entry hlt
      by_cases hdash : charAt arg 0 = '-'
      swap
      · -- not an option
        have hstop := loopCondition_cons harg
        rw [if_neg hdash] at hstop
        rw [hends.endsSafely_iff hk hstop, hdrop]
        simp only [options_of_ne hdash, exists_eq_left]
      cases htakes : takesNext arg with
      | false =>
          obtain ⟨d', hoption⟩ := hreads.flag (c := ⟨args.length - k, k⟩) d hentry htakes
          have hpos : 0 ≤ (args.length : ℤ) - k := by omega
          rw [endsSafely_pass_iff harg hdash hoption, advance_cursor,
            ih (args.length - (k + 1)) (by omega) hlt d' rfl, hdrop]
          simp only [hpos, true_and, options_flag hdash htakes]
      | true =>
          rcases Nat.lt_or_ge (k + 1) args.length with hnext | hlast
          · obtain ⟨v, -, hentry', hdrop'⟩ := exists_entry hnext
            obtain ⟨d', hoption⟩ :=
              hreads.value (c := ⟨args.length - k, k⟩) d hentry htakes hentry'
            have hpos : 0 ≤ (args.length : ℤ) - (k + 1 : ℕ) := by omega
            rw [advance_cursor] at hoption
            rw [endsSafely_pass_iff harg hdash hoption, advance_cursor,
              ih (args.length - (k + 2)) (by omega) hnext d' rfl, hdrop, hdrop']
            simp only [hpos, true_and, options_value hdash htakes]
          · -- the value is missing
            refine iff_of_false (hreads.not_endsSafely_missing hlast harg hdash htakes) ?_
            rintro ⟨rest, hoptions, -⟩
            rw [hdrop, List.drop_eq_nil_of_le hlast] at hoptions
            exact not_options_singleton hdash htakes hoptions

end Loop

/-! ### The options of `opts` -/

namespace Opts

variable {args : List CString} {arg : CString} {c c' : Cursor} {o : Opts}

/-- The letters of the options with a value. -/
def valueLetters : List Char := ['l', 's', 'i', 'c', 'a', 'w', 'd', 'k', 'p', 'x', 'y']

/-- An option with a value that is not attached to it. -/
def takesNext (arg : CString) : Bool := charAt arg 1 ∈ valueLetters ∧ charAt arg 2 = '\x00'

theorem toValue_attached (h : entry args c.argv_ = .ok (some arg))
    (hattached : charAt arg 2 ≠ '\x00') : toValue args c = .ok (some (arg.drop 2), c) := by
  rw [toValue, h]
  simp only [ok_bind, deref, ne_eq, hattached, not_false_eq_true, if_true]
  rfl

theorem toValue_next {v : Option CString} (h : entry args c.argv_ = .ok (some arg))
    (hnext : charAt arg 2 = '\x00') (hv : entry args (c.argv_ + 1) = .ok v) :
    toValue args c = .ok (v, c.advance) := by
  rw [toValue, h]
  simp only [ok_bind, deref, hnext, ne_eq, not_true, if_false, Cursor.advance, hv]
  rfl

theorem option_of_not_mem (h : charAt arg 1 ∉ valueLetters) :
    ∃ o', option args arg (c, o) = .ok (c, o') := by
  simp only [option]
  split
  all_goals first
    | exact ⟨_, rfl⟩
    | simp_all [valueLetters]

theorem option_of_some {v : CString} (h : charAt arg 1 ∈ valueLetters)
    (hvalue : toValue args c = .ok (some v, c')) : ∃ o', option args arg (c, o) = .ok (c', o') := by
  simp only [option, value, hvalue, ok_bind]
  split
  all_goals first
    | exact ⟨_, rfl⟩
    | simp_all [valueLetters]

theorem option_of_none (h : charAt arg 1 ∈ valueLetters) (hvalue : toValue args c = .ok (none, c'))
    {s : Cursor × Opts} (hoption : option args arg (c, o) = .ok s) : s.1 = c' := by
  simp only [option, value, hvalue, ok_bind] at hoption
  split at hoption
  all_goals first
    | exact (Prod.mk.inj (Except.ok.inj hoption.symm)).1
    | simp_all [valueLetters]

theorem reads : parse_cmdline.Reads takesNext where
  flag := by
    intro args arg c o hentry htakes
    by_cases hmem : charAt arg 1 ∈ valueLetters
    · have hattached : charAt arg 2 ≠ '\x00' := fun h => by simp [takesNext, hmem, h] at htakes
      exact option_of_some hmem (toValue_attached hentry hattached)
    · exact option_of_not_mem hmem
  value := by
    intro args arg v c o hentry htakes hv
    obtain ⟨hmem, hnext⟩ := of_decide_eq_true htakes
    exact option_of_some hmem (toValue_next hentry hnext hv)
  missing := by
    intro args arg c o s hentry htakes hnull hoption
    obtain ⟨hmem, hnext⟩ := of_decide_eq_true htakes
    exact option_of_none hmem (toValue_next hentry hnext hnull) hoption

theorem finishes : parse_cmdline.Finishes fun _ => True := by
  intro args k o hk
  refine ⟨fun _ => trivial, fun _ => ?_⟩
  simp only [parse_cmdline, finish]
  split_ifs with hpos
  · have hlt : k < args.length := by omega
    rw [entry_of_le hk, List.getElem?_eq_getElem hlt]
    exact ⟨_, rfl⟩
  · exact ⟨_, rfl⟩

end Opts

/-! ### The options of `get_opt` -/

namespace GetOpt

/-- An option that takes the next argument, whether something is attached to it or not. -/
def takesNext (arg : CString) : Bool := charAt arg 1 ∈ ['l', 'o']

theorem option_of_not_mem {args : List CString} {arg : CString} {c : Cursor} {o : GetOpt}
    (h : charAt arg 1 ∉ ['l', 'o']) : ∃ o', option args arg (c, o) = .ok (c, o') := by
  simp only [option]
  split
  all_goals first
    | exact ⟨_, rfl⟩
    | simp_all

theorem option_of_mem {args : List CString} {arg : CString} {c : Cursor} {o : GetOpt}
    {v : Option CString} (h : charAt arg 1 ∈ ['l', 'o'])
    (hv : entry args (c.argv_ + 1) = .ok v) :
    ∃ o', option args arg (c, o) = .ok (c.advance, o') := by
  simp only [option, value, Cursor.advance, hv, ok_bind]
  cases v with
  | none =>
      split
      all_goals first
        | exact ⟨_, rfl⟩
        | simp_all
  | some v =>
      split
      all_goals first
        | exact ⟨_, rfl⟩
        | simp_all

theorem reads : parse_cmdline.Reads takesNext where
  flag := by
    intro args arg c o _ htakes
    exact option_of_not_mem (of_decide_eq_false htakes)
  value := by
    intro args arg v c o _ htakes hv
    exact option_of_mem (of_decide_eq_true htakes) hv
  missing := by
    intro args arg c o s _ htakes hnull hoption
    obtain ⟨o', ho'⟩ := option_of_mem (o := o) (of_decide_eq_true htakes) hnull
    obtain rfl := Except.ok.inj (ho'.symm.trans hoption)
    rfl

theorem finishes : parse_cmdline.Finishes fun rest => rest ≠ [] := by
  intro args k o hk
  simp only [parse_cmdline, finish, entry_of_le hk, ne_eq, List.drop_eq_nil_iff]
  rcases Nat.lt_or_ge k args.length with hlt | hge
  · rw [List.getElem?_eq_getElem hlt]
    exact ⟨fun _ => by omega, fun _ => ⟨_, rfl⟩⟩
  · rw [List.getElem?_eq_none hge]
    refine ⟨fun ⟨_, h⟩ => ?_, fun h => absurd hge h⟩
    cases h

end GetOpt

/-! ### The argument lists -/

/-- A call: it ends at once, or the arguments behind the name of the program are complete. -/
theorem Parser.safe_iff {p : Parser σ} {takesNext : CString → Bool} {Ends : List CString → Prop}
    (hreads : p.Reads takesNext) (hends : p.Finishes Ends) (args : List CString) (d : σ) :
    p.Safe args d ↔ args.length < p.least ∨
      ∃ program l rest, args = program :: l ∧ Options takesNext l rest ∧ Ends rest := by
  rw [Parser.Safe, Parser.call]
  by_cases hleast : args.length < p.least
  · have hnext : p.next args ⟨.start, ⟨args.length, 0⟩, d⟩ = .ok (.inr none) :=
      if_pos (Int.ofNat_lt.2 hleast)
    exact iff_of_true (.done (Int.natCast_nonneg _) hnext) (.inl hleast)
  · have hnext : p.next args ⟨.start, ⟨args.length, 0⟩, d⟩ =
        .ok (.inl ⟨.head, ⟨args.length - (1 : ℕ), 1⟩, d⟩) :=
      if_neg fun h => hleast (Int.ofNat_lt.1 h)
    rw [endsSafely_of_inl hnext]
    cases args with
    | nil =>
        refine iff_of_false (fun h => ?_) (by simpa using hleast)
        have hpos := h.2.invariant
        simp at hpos
    | cons program l =>
        rw [Parser.endsSafely_head_iff hreads hends (by simp) d]
        simp only [hleast, false_or, Int.natCast_nonneg, true_and, List.drop_succ_cons,
          List.drop_zero]
        constructor
        · exact fun ⟨rest, hoptions, hrest⟩ => ⟨program, l, rest, rfl, hoptions, hrest⟩
        · rintro ⟨_, _, rest, heq, hoptions, hrest⟩
          obtain ⟨rfl, rfl⟩ := List.cons.inj heq
          exact ⟨rest, hoptions, hrest⟩

theorem Opts.safe_iff (args : List CString) : parse_cmdline.Safe args Opts.new ↔
    ∃ program l rest, args = program :: l ∧ Options takesNext l rest := by
  rw [Parser.safe_iff Opts.reads Opts.finishes]
  simp [parse_cmdline]

theorem GetOpt.safe_iff (args : List CString) : parse_cmdline.Safe args GetOpt.new ↔
    args.length < 2 ∨
      ∃ program l rest, args = program :: l ∧ Options takesNext l rest ∧ rest ≠ [] :=
  Parser.safe_iff GetOpt.reads GetOpt.finishes args GetOpt.new

/-- **The argument lists inside which the parsers stay.**  For `opts`: the name of the program, then
options, each with its value, then anything that does not begin with an option.  For `get_opt`: no
argument behind the name of the program, or options with their values and at least one argument
that is no option. -/
theorem parse_cmdline_safe_iff (args : List CString) :
    (Opts.parse_cmdline.Safe args Opts.new ↔
      ∃ program l rest, args = program :: l ∧ Options Opts.takesNext l rest) ∧
    (GetOpt.parse_cmdline.Safe args GetOpt.new ↔ args.length < 2 ∨
      ∃ program l rest, args = program :: l ∧ Options GetOpt.takesNext l rest ∧ rest ≠ []) :=
  ⟨Opts.safe_iff args, GetOpt.safe_iff args⟩

/-- **An option in the last place that wants a value.** -/
theorem parse_cmdline_last_option : ¬∀ args : List CString,
    Opts.parse_cmdline.Safe args Opts.new ∧ GetOpt.parse_cmdline.Safe args GetOpt.new := by
  intro h
  obtain ⟨program, l, rest, heq, hoptions⟩ :=
    (Opts.safe_iff _).1 (h ["cache".toList, "-l".toList]).1
  obtain ⟨-, rfl⟩ := List.cons.inj heq
  exact not_options_singleton (by decide) (by decide) hoptions

end CommandLine
