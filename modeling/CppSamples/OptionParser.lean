/-
**`OptionParser` of `cxxopts.hpp`.**

The parser goes through the arguments of the command line.  A name behind two hyphens is one option,
the letters behind one hyphen are a group of options, and an argument without them goes to the
positional options.  What the options have received is stored under a hash of their names; a value
is parsed as soon as it comes.  Behind the arguments come the defaults of the options that have
received nothing, and behind them what stands after a double hyphen.

The types of the values are left open: a value is what has been stored so far and a function that
parses a text into it.

Main definitions:

* `Cxxopts.OptionValue` — what an option has received;
* `Cxxopts.OptionParser.parse_args` — the loop over the arguments;
* `Cxxopts.OptionParser.parse` — the whole run;
* `Cxxopts.OptionParser.parse_all` — one value after the other, without a command line.

Main results:

* `Cxxopts.OptionParser.step_spec` — what one argument does;
* `Cxxopts.OptionParser.parse_args_spec` — **the loop over the arguments receives values, one after
  the other**, and puts the unmatched arguments aside in their order.
-/

import CppSamples.KeyedLog
import CppSamples.OptionScanners

set_option relaxedAutoImplicit false
set_option autoImplicit false

namespace Cxxopts

open Function KeyedLog

variable {S H : Type}

/-! ### Values -/

/-- `Value`: how texts are stored, with the defaults. -/
structure Value (S : Type) where
  initial : S
  parse_value : Text → S → Except Error S
  is_container : Bool
  has_default : Bool
  default_value : Text
  has_implicit : Bool
  implicit_value : Text

/-- `OptionDetails` -/
structure OptionDetails (S : Type) where
  short_name : Text
  long_name : Text
  value : Value S

/-- `OptionValue`; a value comes with what it has stored. -/
structure OptionValue (S : Type) where
  m_long_name : Option Text
  m_value : Option (Value S × S)
  m_count : ℕ
  m_default : Bool

namespace OptionValue

variable (store : OptionValue S) (details : OptionDetails S)

/-- Nothing yet. -/
def new : OptionValue S := ⟨none, none, 0, false⟩

/-- `ensure_value` -/
def ensure_value : Value S × S := store.m_value.getD (details.value, details.value.initial)

/-- `OptionValue::parse` -/
def parse (text : Text) : Except Error (OptionValue S) :=
  let (value, stored) := store.ensure_value details
  (value.parse_value text stored).map fun stored =>
    ⟨some details.long_name, some (value, stored), store.m_count + 1, store.m_default⟩

/-- `OptionValue::parse_default` -/
def parse_default : Except Error (OptionValue S) :=
  let (value, stored) := store.ensure_value details
  (value.parse_value value.default_value stored).map fun stored =>
    ⟨some details.long_name, some (value, stored), store.m_count, true⟩

/-- `OptionValue::parse_no_value` -/
def parse_no_value : OptionValue S := { store with m_long_name := some details.long_name }

/-- Behind the arguments: the default, if there is one and nothing has been received. -/
def add_default : Except Error (OptionValue S) :=
  if details.value.has_default then
    if store.m_count = 0 ∧ !store.m_default then store.parse_default details else .ok store
  else .ok (store.parse_no_value details)

end OptionValue

/-! ### Options -/

/-- `Options::add_one_option` -/
def add_one_option (option : Text) (details : OptionDetails S)
    (options : List (Text × OptionDetails S)) : Except Error (List (Text × OptionDetails S)) :=
  if (options.lookup option).isSome then .error (.option_exists_error option)
  else .ok ((option, details) :: options)

/-- `Options::add_option` -/
def add_option (s l : Text) (value : Value S) (options : List (Text × OptionDetails S)) :
    Except Error (List (Text × OptionDetails S)) :=
  (if s ≠ [] then add_one_option s ⟨s, l, value⟩ options else .ok options).bind fun options =>
    if l ≠ [] then add_one_option l ⟨s, l, value⟩ options else .ok options

/-- `OptionAdder::operator()` -/
def option_adder (SplitSwitchDef : Text → Except Error (Text × Text)) (opts : Text)
    (value : Value S) (options : List (Text × OptionDetails S)) :
    Except Error (List (Text × OptionDetails S)) :=
  (SplitSwitchDef opts).bind fun (short_sw, long_sw) =>
    if short_sw.length = 0 ∧ long_sw.length = 0 then .error (.invalid_option_format_error opts)
    else if long_sw.length = 1 ∧ short_sw.length ≠ 0 then
      .error (.invalid_option_format_error opts)
    else if long_sw.length = 1 then add_option long_sw short_sw value options
    else add_option short_sw long_sw value options

/-- `Options::add_options` -/
def add_options (SplitSwitchDef : Text → Except Error (Text × Text))
    (defs : List (Text × Value S)) : Except Error (List (Text × OptionDetails S)) :=
  defs.foldlM (fun options d => option_adder SplitSwitchDef d.1 d.2 options) []

/-! ### The parser -/

/-- What the parser fills: `m_sequential` and `m_parsed`. -/
structure Parser (S H : Type) where
  m_sequential : List (Text × Text)
  m_parsed : H → Option (OptionValue S)

/-- The variables of `OptionParser::parse`. -/
structure State (S H : Type) where
  parser : Parser S H
  next_positional : List Text
  unmatched : List Text

/-- `ParseResult` -/
structure ParseResult (S H : Type) where
  m_keys : Text → Option H
  m_values : H → Option (OptionValue S)
  m_sequential : List (Text × Text)
  m_unmatched : List Text

/-- `OptionParser`, with the scanner for arguments and the hash function. -/
structure OptionParser (S H : Type) where
  m_options : List (Text × OptionDetails S)
  m_positional : List Text
  m_allow_unrecognised : Bool
  ParseArgument : Text → Option ArguDesc
  hash : Text → H

namespace OptionParser

variable [DecidableEq H] (P : OptionParser S H)

/-- `m_options.find` -/
def find (name : Text) : Option (OptionDetails S) := P.m_options.lookup name

/-- `OptionDetails::hash` -/
def hashOf (details : OptionDetails S) : H := P.hash (details.long_name ++ details.short_name)

/-- `m_parsed[details->hash()]` -/
def store (p : Parser S H) (details : OptionDetails S) : OptionValue S :=
  (p.m_parsed (P.hashOf details)).getD .new

/-- `OptionParser::parse_option` -/
def parse_option (value : OptionDetails S) (arg : Text) (p : Parser S H) :
    Except Error (Parser S H) :=
  ((P.store p value).parse value arg).map fun result =>
    ⟨p.m_sequential ++ [(value.long_name, arg)], update p.m_parsed (P.hashOf value) (some result)⟩

/-- `checked_parse_arg`; also says if the argument that follows has been taken. -/
def checked_parse_arg (following : Option Text) (value : OptionDetails S) (name : Text)
    (p : Parser S H) : Except Error (Parser S H × Bool) :=
  match following with
  | none =>
    if value.value.has_implicit then
      (P.parse_option value value.value.implicit_value p).map fun p => (p, false)
    else .error (.missing_argument_exception name)
  | some arg =>
    if value.value.has_implicit then
      (P.parse_option value value.value.implicit_value p).map fun p => (p, false)
    else (P.parse_option value arg p).map fun p => (p, true)

/-- `consume_positional`; gives what is left of the positional options, and if `a` is taken. -/
def consume_positional (a : Text) : List Text → Parser S H →
    Except Error (Parser S H × List Text × Bool)
  | [], p => .ok (p, [], false)
  | name :: next, p =>
    match P.find name with
    | none => .error (.option_not_exists_exception name)
    | some details =>
      if details.value.is_container then
        (P.parse_option details a p).map fun p => (p, name :: next, true)
      else if (P.store p details).m_count = 0 then
        (P.parse_option details a p).map fun p => (p, next, true)
      else consume_positional a next p

/-- The letters behind one hyphen. -/
def parse_group (following : Option Text) : Text → Parser S H → Except Error (Parser S H × Bool)
  | [], p => .ok (p, false)
  | [c], p =>
    match P.find [c] with
    | none =>
      if P.m_allow_unrecognised then .ok (p, false)
      else .error (.option_not_exists_exception [c])
    | some value => P.checked_parse_arg following value [c] p
  | c :: d :: s, p =>
    match P.find [c] with
    | none =>
      if P.m_allow_unrecognised then parse_group following (d :: s) p
      else .error (.option_not_exists_exception [c])
    | some value =>
      if value.value.has_implicit then
        (P.parse_option value value.value.implicit_value p).bind (parse_group following (d :: s))
      else (P.parse_option value (d :: s) p).map fun p => (p, false)

/-- An argument that looks like an option. -/
def isSwitch : Text → Bool
  | '-' :: _ :: _ => true
  | _ => false

/-- One argument; also says if the argument that follows has been taken. -/
def step (arg : Text) (following : Option Text) (s : State S H) :
    Except Error (State S H × Bool) :=
  match P.ParseArgument arg with
  | none =>
    if isSwitch arg ∧ ¬P.m_allow_unrecognised then .error (.option_syntax_exception arg)
    else
      (P.consume_positional arg s.next_positional s.parser).map fun (p, next, consumed) =>
        (⟨p, next, if consumed then s.unmatched else s.unmatched ++ [arg]⟩, false)
  | some argu_desc =>
    if argu_desc.grouping then
      (P.parse_group following argu_desc.arg_name s.parser).map fun (p, taken) =>
        ({ s with parser := p }, taken)
    else if argu_desc.arg_name.length ≠ 0 then
      match P.find argu_desc.arg_name with
      | none =>
        if P.m_allow_unrecognised then
          .ok ({ s with unmatched := s.unmatched ++ [arg] }, false)
        else .error (.option_not_exists_exception argu_desc.arg_name)
      | some opt =>
        if argu_desc.set_value then
          (P.parse_option opt argu_desc.value s.parser).map fun p => ({ s with parser := p }, false)
        else
          (P.checked_parse_arg following opt argu_desc.arg_name s.parser).map fun (p, taken) =>
            ({ s with parser := p }, taken)
    else .ok (s, false)

/-- The loop over the arguments.  A double hyphen ends it; what stands behind it is left. -/
def parse_args : List Text → State S H → Except Error (State S H × List Text)
  | [], s => .ok (s, [])
  | [arg], s =>
    if arg = ['-', '-'] then .ok (s, [])
    else (P.step arg none s).map fun (s, _) => (s, [])
  | arg :: value :: rest, s =>
    if arg = ['-', '-'] then .ok (s, value :: rest)
    else (P.step arg (some value) s).bind fun (s, taken) =>
      if taken then parse_args rest s else parse_args (value :: rest) s

/-- The loop over the options, for their defaults. -/
def parse_defaults : List (Text × OptionDetails S) → Parser S H → Except Error (Parser S H)
  | [], p => .ok p
  | (_, detail) :: options, p =>
    ((P.store p detail).add_default detail).bind fun store =>
      parse_defaults options
        { p with m_parsed := update p.m_parsed (P.hashOf detail) (some store) }

/-- What stands behind a double hyphen goes to the positional options, as long as there are any. -/
def parse_remaining : List Text → State S H → Except Error (State S H)
  | [], s => .ok s
  | arg :: rest, s =>
    (P.consume_positional arg s.next_positional s.parser).bind fun (p, next, consumed) =>
      if consumed then parse_remaining rest ⟨p, next, s.unmatched⟩
      else .ok ⟨p, next, s.unmatched ++ arg :: rest⟩

/-- `finalise_aliases`: both names of an option are keys. -/
def add_keys (keys : Text → Option H) (option : Text × OptionDetails S) : Text → Option H :=
  let hash := P.hashOf option.2
  update (update keys option.2.short_name (some hash)) option.2.long_name (some hash)

/-- `finalise_aliases`: the keys. -/
def finalise_keys : Text → Option H := P.m_options.foldl P.add_keys fun _ => none

/-- `finalise_aliases`: every option has an entry. -/
def finalise_values (values : H → Option (OptionValue S)) : H → Option (OptionValue S) :=
  P.m_options.foldl (fun values option =>
    if values (P.hashOf option.2) = none then update values (P.hashOf option.2) (some .new)
    else values) values

/-- `OptionParser::parse`, for the arguments behind the name of the program. -/
def parse (argv : List Text) : Except Error (ParseResult S H) :=
  (P.parse_args argv ⟨⟨[], fun _ => none⟩, P.m_positional, []⟩).bind fun (s, remaining) =>
    (P.parse_defaults P.m_options s.parser).bind fun p =>
      (P.parse_remaining remaining { s with parser := p }).map fun s =>
        ⟨P.finalise_keys, P.finalise_values s.parser.m_parsed, s.parser.m_sequential, s.unmatched⟩

end OptionParser

namespace ParseResult

variable (r : ParseResult S H)

/-- `ParseResult::count` -/
def count (o : Text) : ℕ :=
  match r.m_keys o with
  | none => 0
  | some hash =>
    match r.m_values hash with
    | none => 0
    | some value => value.m_count

/-- `ParseResult::operator[]` -/
def get (option : Text) : Except Error (OptionValue S) :=
  match r.m_keys option with
  | none => .error (.option_not_present_exception option)
  | some hash =>
    match r.m_values hash with
    | none => .error (.option_not_present_exception option)
    | some value => .ok value

end ParseResult

/-! ### Values without a command line -/

namespace OptionParser

variable [DecidableEq H] (P : OptionParser S H)

/-- One value after the other. -/
def parse_all (log : List (OptionDetails S × Text)) (p : Parser S H) : Except Error (Parser S H) :=
  log.foldlM (fun p e => P.parse_option e.1 e.2 p) p

/-- An option that can be found. -/
def Registered (details : OptionDetails S) : Prop := ∃ name, P.find name = some details

/-- A value that an option may receive: its implicit one, or one of the texts `T`. -/
def Allowed (T : Text → Prop) (e : OptionDetails S × Text) : Prop :=
  P.Registered e.1 ∧ (e.1.value.has_implicit ∧ e.2 = e.1.value.implicit_value ∨ T e.2)

/-- Nothing has happened but that values have been received. -/
def Fills (T : Text → Prop) (p p' : Parser S H) : Prop :=
  ∃ log, P.parse_all log p = .ok p' ∧ ∀ e ∈ log, P.Allowed T e

variable {P} {T : Text → Prop} {p p' p'' : Parser S H} {details : OptionDetails S} {name a : Text}

theorem Fills.refl : P.Fills T p p := ⟨[], rfl, fun _ he => absurd he List.not_mem_nil⟩

theorem Fills.trans (h : P.Fills T p p') (h' : P.Fills T p' p'') : P.Fills T p p'' := by
  obtain ⟨log, hlog, hall⟩ := h
  obtain ⟨log', hlog', hall'⟩ := h'
  refine ⟨log ++ log', ?_, List.forall_mem_append.2 ⟨hall, hall'⟩⟩
  rw [parse_all, List.foldlM_append]
  exact bind_eq_ok.2 ⟨p', hlog, hlog'⟩

/-- One value. -/
theorem fills_parse_option (h : P.parse_option details a p = .ok p')
    (hallowed : P.Allowed T (details, a)) : P.Fills T p p' :=
  ⟨[(details, a)], bind_eq_ok.2 ⟨p', h, rfl⟩, List.forall_mem_singleton.2 hallowed⟩

theorem fills_implicit (hfind : P.find name = some details)
    (himplicit : details.value.has_implicit = true)
    (h : P.parse_option details details.value.implicit_value p = .ok p') : P.Fills T p p' :=
  fills_parse_option h ⟨⟨name, hfind⟩, Or.inl ⟨himplicit, rfl⟩⟩

theorem fills_text (hfind : P.find name = some details) (ha : T a)
    (h : P.parse_option details a p = .ok p') : P.Fills T p p' :=
  fills_parse_option h ⟨⟨name, hfind⟩, Or.inr ha⟩

theorem fills_checked_parse_arg {following : Option Text} {taken : Bool}
    (hfind : P.find name = some details) (hT : ∀ arg ∈ following, T arg)
    (h : P.checked_parse_arg following details name p = .ok (p', taken)) : P.Fills T p p' := by
  cases following with
  | none =>
      rw [checked_parse_arg] at h
      split_ifs at h with himplicit
      · obtain ⟨q, hq, hp⟩ := map_eq_ok.1 h
        cases hp
        exact fills_implicit hfind himplicit hq
  | some arg =>
      rw [checked_parse_arg] at h
      split_ifs at h with himplicit
      · obtain ⟨q, hq, hp⟩ := map_eq_ok.1 h
        cases hp
        exact fills_implicit hfind himplicit hq
      · obtain ⟨q, hq, hp⟩ := map_eq_ok.1 h
        cases hp
        exact fills_text hfind (hT arg rfl) hq

theorem fills_consume_positional {next next' : List Text} {consumed : Bool} (ha : T a)
    (h : P.consume_positional a next p = .ok (p', next', consumed)) : P.Fills T p p' := by
  induction next with
  | nil =>
      cases h
      exact Fills.refl
  | cons name next ih =>
      rw [consume_positional] at h
      cases hfind : P.find name with
      | none =>
          rw [hfind] at h
          cases h
      | some details =>
          simp only [hfind] at h
          split_ifs at h
          · obtain ⟨q, hq, hp⟩ := map_eq_ok.1 h
            cases hp
            exact fills_text hfind ha hq
          · obtain ⟨q, hq, hp⟩ := map_eq_ok.1 h
            cases hp
            exact fills_text hfind ha hq
          · exact ih h

theorem fills_parse_group {following : Option Text} {s : Text} {taken : Bool}
    (hT : ∀ arg ∈ following, T arg) (hs : ∀ t, t <:+ s → T t)
    (h : P.parse_group following s p = .ok (p', taken)) : P.Fills T p p' := by
  induction s generalizing p with
  | nil =>
      cases h
      exact Fills.refl
  | cons c s ih =>
      have hrest : ∀ t, t <:+ s → T t := fun t ht => hs t (ht.trans (List.suffix_cons c s))
      cases s with
      | nil =>
          rw [parse_group] at h
          cases hfind : P.find [c] with
          | none =>
              simp only [hfind] at h
              split_ifs at h
              cases h
              exact Fills.refl
          | some details =>
              simp only [hfind] at h
              exact fills_checked_parse_arg hfind hT h
      | cons d s =>
          rw [parse_group] at h
          cases hfind : P.find [c] with
          | none =>
              simp only [hfind] at h
              split_ifs at h
              exact ih hrest h
          | some details =>
              simp only [hfind] at h
              split_ifs at h with himplicit
              · obtain ⟨q, hq, hp⟩ := bind_eq_ok.1 h
                exact (fills_implicit hfind himplicit hq).trans (ih hrest hp)
              · obtain ⟨q, hq, hp⟩ := map_eq_ok.1 h
                cases hp
                exact fills_text hfind (hs _ (List.suffix_cons c _)) hq

/-- The texts that can be taken from an argument. -/
def Scans (P : OptionParser S H) (T : Text → Prop) (arg : Text) : Prop :=
  T arg ∧ ∀ d, P.ParseArgument arg = some d →
    T d.value ∧ (d.grouping = true → ∀ t, t <:+ d.arg_name → T t)

variable {s s' : State S H} {arg : Text} {args remaining : List Text}

/-- **What one argument does.** -/
theorem step_spec {following : Option Text} {taken : Bool} (harg : P.Scans T arg)
    (hT : ∀ arg ∈ following, T arg) (h : P.step arg following s = .ok (s', taken)) :
    P.Fills T s.parser s'.parser ∧
      ∃ u, s'.unmatched = s.unmatched ++ u ∧ u.Sublist [arg] := by
  rw [step] at h
  cases hscan : P.ParseArgument arg with
  | none =>
      simp only [hscan] at h
      split_ifs at h
      obtain ⟨⟨p, next, consumed⟩, hconsume, hs⟩ := map_eq_ok.1 h
      cases hs
      refine ⟨fills_consume_positional harg.1 hconsume, ?_⟩
      cases consumed with
      | true => exact ⟨[], (List.append_nil _).symm, List.nil_sublist _⟩
      | false => exact ⟨[arg], rfl, List.Sublist.refl _⟩
  | some d =>
      obtain ⟨hvalue, hname⟩ := harg.2 d hscan
      have hunchanged : ∃ u, s.unmatched = s.unmatched ++ u ∧ u.Sublist [arg] :=
        ⟨[], (List.append_nil _).symm, List.nil_sublist _⟩
      simp only [hscan] at h
      cases hfind : P.find d.arg_name with
      | none =>
          simp only [hfind] at h
          split_ifs at h
          · obtain ⟨⟨p, taken'⟩, hgroup, hs⟩ := map_eq_ok.1 h
            cases hs
            exact ⟨fills_parse_group hT (hname ‹_›) hgroup, hunchanged⟩
          · cases h
            exact ⟨Fills.refl, [arg], rfl, List.Sublist.refl _⟩
          · cases h
            exact ⟨Fills.refl, hunchanged⟩
      | some opt =>
          simp only [hfind] at h
          split_ifs at h
          · obtain ⟨⟨p, taken'⟩, hgroup, hs⟩ := map_eq_ok.1 h
            cases hs
            exact ⟨fills_parse_group hT (hname ‹_›) hgroup, hunchanged⟩
          · obtain ⟨p, hp, hs⟩ := map_eq_ok.1 h
            cases hs
            exact ⟨fills_text hfind hvalue hp, hunchanged⟩
          · obtain ⟨⟨p, taken'⟩, hp, hs⟩ := map_eq_ok.1 h
            cases hs
            exact ⟨fills_checked_parse_arg hfind hT hp, hunchanged⟩
          · cases h
            exact ⟨Fills.refl, hunchanged⟩

/-- The loop, one argument at a time. -/
theorem parse_args_cons (rest : List Text) (h : arg ≠ ['-', '-']) :
    P.parse_args (arg :: rest) s = (P.step arg rest.head? s).bind fun (s, taken) =>
      P.parse_args (if taken then rest.tail else rest) s := by
  cases rest with
  | nil =>
      rw [parse_args, if_neg h, List.head?_nil]
      cases P.step arg none s with
      | error e => rfl
      | ok result =>
          obtain ⟨s, taken⟩ := result
          cases taken <;> rfl
  | cons value rest =>
      rw [parse_args, if_neg h, List.head?_cons]
      cases P.step arg (some value) s with
      | error e => rfl
      | ok result =>
          obtain ⟨s, taken⟩ := result
          cases taken <;> rfl

/-- The double hyphen ends the loop. -/
theorem parse_args_dashes (rest : List Text) (s : State S H) :
    P.parse_args (['-', '-'] :: rest) s = .ok (s, rest) := by
  cases rest with
  | nil => rw [parse_args, if_pos rfl]
  | cons value rest => rw [parse_args, if_pos rfl]

/-- Induction over the arguments, of which one step takes one or two. -/
theorem args_induction {motive : List Text → Prop} (nil : motive [])
    (cons : ∀ arg rest, motive rest → motive rest.tail → motive (arg :: rest)) (args : List Text) :
    motive args := by
  have hboth : motive args ∧ motive args.tail := by
    induction args with
    | nil => exact ⟨nil, nil⟩
    | cons arg rest ih => exact ⟨cons arg rest ih.1 ih.2, ih.1⟩
  exact hboth.1

/-- **What the loop over the arguments does.** -/
theorem parse_args_spec (hargs : ∀ arg ∈ args, P.Scans T arg)
    (h : P.parse_args args s = .ok (s', remaining)) :
    P.Fills T s.parser s'.parser ∧
      ∃ u, s'.unmatched = s.unmatched ++ u ∧ (u ++ remaining).Sublist args := by
  induction args using args_induction generalizing s with
  | nil =>
      cases h
      exact ⟨Fills.refl, [], (List.append_nil _).symm, List.nil_sublist _⟩
  | cons arg rest ih ih_tail =>
      by_cases hdashes : arg = ['-', '-']
      · subst hdashes
        rw [parse_args_dashes] at h
        cases h
        exact ⟨Fills.refl, [], (List.append_nil _).symm, List.sublist_cons_self _ _⟩
      · rw [parse_args_cons rest hdashes] at h
        obtain ⟨⟨t, taken⟩, hstep, hrest⟩ := bind_eq_ok.1 h
        have hmem : ∀ arg ∈ rest, P.Scans T arg := fun arg harg =>
          hargs arg (List.mem_cons_of_mem _ harg)
        have hfollowing : ∀ arg ∈ rest.head?, T arg := fun arg harg =>
          (hmem arg (List.mem_of_mem_head? harg)).1
        obtain ⟨hfills, u, hu, hsub⟩ := step_spec (hargs arg List.mem_cons_self) hfollowing hstep
        have hrun : P.Fills T t.parser s'.parser ∧
            ∃ u, s'.unmatched = t.unmatched ++ u ∧ (u ++ remaining).Sublist rest := by
          cases taken with
          | false => exact ih hmem hrest
          | true =>
              obtain ⟨hfills, v, hv, hsub⟩ :=
                ih_tail (fun arg harg => hmem arg (List.mem_of_mem_tail harg)) hrest
              exact ⟨hfills, v, hv, hsub.trans (List.tail_sublist _)⟩
        obtain ⟨hfills', v, hv, hsub'⟩ := hrun
        refine ⟨hfills.trans hfills', u ++ v, by rw [hv, hu, List.append_assoc], ?_⟩
        rw [List.append_assoc]
        exact hsub.append hsub'

/-- What stands behind a double hyphen. -/
theorem parse_remaining_spec (hT : ∀ arg ∈ remaining, T arg)
    (h : P.parse_remaining remaining s = .ok s') :
    P.Fills T s.parser s'.parser ∧
      ∃ u, s'.unmatched = s.unmatched ++ u ∧ u.Sublist remaining := by
  induction remaining generalizing s with
  | nil =>
      cases h
      exact ⟨Fills.refl, [], (List.append_nil _).symm, List.nil_sublist _⟩
  | cons arg rest ih =>
      rw [parse_remaining] at h
      obtain ⟨⟨p, next, consumed⟩, hconsume, hrest⟩ := bind_eq_ok.1 h
      have hfills := fills_consume_positional (hT arg List.mem_cons_self) hconsume
      cases consumed with
      | true =>
          obtain ⟨hfills', u, hu, hsub⟩ :=
            ih (fun arg harg => hT arg (List.mem_cons_of_mem _ harg)) hrest
          exact ⟨hfills.trans hfills', u, hu, hsub.cons _⟩
      | false =>
          cases hrest
          exact ⟨hfills, arg :: rest, rfl, List.Sublist.refl _⟩

end OptionParser

end Cxxopts
