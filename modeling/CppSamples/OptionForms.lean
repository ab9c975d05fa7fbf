/-
**How values are written on the command line of `cxxopts.hpp`.**

A value of a long option is written behind `=`, or, unless the option has an implicit value, as the
next argument.  Short options can be written one behind the other in a group.  The ways to write the
same values lead to the same run, from every state of the parser and whatever comes behind.

Both scanners of `cxxopts.hpp` are covered.

Main definitions:

* `Cxxopts.render` — a value behind `=`.

Main results:

* `Cxxopts.OptionParser.parse_render` — **values that are written are read back**, in their order;
* `Cxxopts.OptionParser.parse_args_equals` — the two ways to write a value;
* `Cxxopts.OptionParser.parse_args_group` — **a group is its letters, one after the other**.
-/

import CppSamples.OptionLog

set_option relaxedAutoImplicit false
set_option autoImplicit false

namespace Cxxopts

open Function KeyedLog

variable {S H : Type}

/-! ### What the scanners give -/

/-- A value behind `=`. -/
def render (name value : Text) : Text := '-' :: '-' :: (name ++ '=' :: value)

variable {ParseArgument : Text → Option ArguDesc} {name value letters : Text}

/-- What the regular expression takes for a long name, and what may come behind it. -/
theorem longArgument_name {c : Char} {rest s : Text} (hc : isalnum c = true) (hne : rest ≠ [])
    (hall : rest.all isWord = true) : (∀ d ∈ s.head?, isWord d = false) →
    longArgument (c :: rest ++ s) =
      match s with
      | [] => some ⟨c :: rest, false, false, []⟩
      | d :: value =>
        if d = '=' ∧ value.all ByRegex.isInline then some ⟨c :: rest, false, true, value⟩
        else none := by
  intro hs
  have hmem : ∀ d ∈ rest, isWord d = true := List.all_eq_true.1 hall
  have hstop : s.takeWhile isWord = [] ∧ s.dropWhile isWord = s := by
    cases s with
    | nil => exact ⟨rfl, rfl⟩
    | cons d value =>
        have hd : isWord d = false := hs d rfl
        rw [List.takeWhile_cons, List.dropWhile_cons, hd]
        exact ⟨rfl, rfl⟩
  have hsecond : (rest ++ s).head?.any isWord = true := by
    cases rest with
    | nil => exact absurd rfl hne
    | cons d rest => exact hmem d List.mem_cons_self
  rw [List.cons_append, longArgument, if_pos ⟨hc, hsecond⟩, List.dropWhile_append_of_pos hmem,
    List.takeWhile_append_of_pos hmem, hstop.1, hstop.2, List.append_nil]
  rfl

/-- A long name without a value. -/
theorem scan_name (h : IsScanner ParseArgument) (hname : LongName name) :
    ParseArgument ('-' :: '-' :: name) = some ⟨name, false, false, []⟩ := by
  apply h.eq_some
  have hnull : '\x00' ∉ '-' :: '-' :: name := by simpa using hname.no_null
  rw [parseArgument_long (c_str_eq hnull)]
  obtain ⟨c, rest, rfl, hc, hne, hall⟩ := hname
  have hnothing : ∀ d ∈ ([] : Text).head?, isWord d = false := by
    intro d hd
    cases hd
  have hscan := longArgument_name hc hne hall hnothing
  rwa [List.append_nil] at hscan

/-- A long name with a value. -/
theorem scan_render (h : IsScanner ParseArgument) (hname : LongName name) (hnull : '\x00' ∉ value)
    (hline : value.all ByRegex.isInline = true) :
    ParseArgument (render name value) = some ⟨name, false, true, value⟩ := by
  apply h.eq_some
  have hnull : '\x00' ∉ '-' :: '-' :: (name ++ '=' :: value) := by
    simpa using ⟨hname.no_null, hnull⟩
  rw [render, parseArgument_long (c_str_eq hnull)]
  obtain ⟨c, rest, rfl, hc, hne, hall⟩ := hname
  have hequals : ∀ d ∈ ('=' :: value).head?, isWord d = false := by
    rintro d hd
    cases hd
    decide
  rw [longArgument_name hc hne hall hequals]
  exact if_pos ⟨rfl, hline⟩

/-- A group of letters. -/
theorem scan_group (h : IsScanner ParseArgument) (hne : letters ≠ [])
    (hall : letters.all isalnum = true) :
    ParseArgument ('-' :: letters) = some ⟨letters, true, false, []⟩ := by
  apply h.eq_some
  have hmem : ∀ c ∈ letters, isalnum c = true := List.all_eq_true.1 hall
  have hnull : '\x00' ∉ '-' :: letters := by
    rw [List.mem_cons, not_or]
    exact ⟨by decide, fun hc => isalnum_ne_null (hmem _ hc) rfl⟩
  have hhead : letters.head? ≠ some '-' := by
    intro hhead
    have hhyphen := hmem _ (List.mem_of_mem_head? hhead)
    rw [not_isalnum_hyphen] at hhyphen
    cases hhyphen
  rw [parseArgument_short (c_str_eq hnull) hhead, if_pos ⟨hne, hall⟩]

namespace OptionParser

variable [DecidableEq H] {P : OptionParser S H} {s : State S H} {details : OptionDetails S}
  {rest : List Text}

/-! ### Long options -/

/-- A value that can be written behind `=`: its option is found under its long name, and the value
is a single line. -/
def Writable (P : OptionParser S H) (e : OptionDetails S × Text) : Prop :=
  P.find e.1.long_name = some e.1 ∧ LongName e.1.long_name ∧ '\x00' ∉ e.2 ∧
    e.2.all ByRegex.isInline = true

theorem render_ne_dashes (name value : Text) : render name value ≠ ['-', '-'] := by
  simp [render]

/-- A value behind `=` is one value. -/
theorem parse_args_render (hscan : IsScanner P.ParseArgument) {e : OptionDetails S × Text}
    (he : P.Writable e) :
    P.parse_args (render e.1.long_name e.2 :: rest) s =
      (P.parse_option e.1 e.2 s.parser).bind fun p => P.parse_args rest { s with parser := p } := by
  obtain ⟨hfind, hname, hnull, hline⟩ := he
  have hlength : e.1.long_name.length ≠ 0 := by
    obtain ⟨c, rest, hname, -⟩ := hname
    rw [hname]
    exact Nat.succ_ne_zero _
  rw [parse_args_cons rest (render_ne_dashes _ _), step, scan_render hscan hname hnull hline]
  simp only [Bool.false_eq_true, if_false, if_pos hlength, hfind, if_true]
  cases P.parse_option e.1 e.2 s.parser with
  | error x => rfl
  | ok p => rfl

/-- The loop over values that have been written. -/
theorem parse_args_render_all (hscan : IsScanner P.ParseArgument)
    {log : List (OptionDetails S × Text)} (hlog : ∀ e ∈ log, P.Writable e) (s : State S H) :
    P.parse_args (log.map fun e => render e.1.long_name e.2) s =
      (P.parse_all log s.parser).map fun p => ({ s with parser := p }, []) := by
  induction log generalizing s with
  | nil => rfl
  | cons e log ih =>
      rw [List.map_cons, parse_args_render hscan (hlog e List.mem_cons_self), parse_all,
        List.foldlM_cons]
      cases P.parse_option e.1 e.2 s.parser with
      | error x => rfl
      | ok p => exact ih (fun e he => hlog e (List.mem_cons_of_mem _ he)) { s with parser := p }

/-- **Values that are written are read back.**  The run over a command line of values behind `=` is
the values one after the other, with the defaults behind them. -/
theorem parse_render (hscan : IsScanner P.ParseArgument) {log : List (OptionDetails S × Text)}
    (hlog : ∀ e ∈ log, P.Writable e) :
    P.parse (log.map fun e => render e.1.long_name e.2) =
      (P.parse_all log ⟨[], fun _ => none⟩).bind fun p =>
        (P.parse_defaults P.m_options p).map fun q =>
          ⟨P.finalise_keys, P.finalise_values q.m_parsed, log.map entry, []⟩ := by
  rw [parse, parse_args_render_all hscan hlog]
  cases hall : P.parse_all log ⟨[], fun _ => none⟩ with
  | error x => rfl
  | ok p =>
      have hseq : ∀ q, P.parse_defaults P.m_options p = .ok q → q.m_sequential = log.map entry := by
        intro q hdefaults
        rw [(parse_defaults_eq_ok hdefaults).1, (parse_all_eq_ok hall).1]
        rfl
      show (P.parse_defaults P.m_options p).bind (fun q =>
          (P.parse_remaining [] ⟨q, P.m_positional, []⟩).map _) =
        (P.parse_defaults P.m_options p).map _
      cases hdefaults : P.parse_defaults P.m_options p with
      | error x => rfl
      | ok q =>
          rw [← hseq q hdefaults]
          rfl

/-- The matrix of `solver.cpp`. -/
theorem parse_render_solver :
    solver.parse ([(⟨['A'], ['m', 'a', 't', 'r', 'i', 'x'], standard_value_string⟩, ['m'])].map
        fun e : OptionDetails Stored × Text => render e.1.long_name e.2) =
      (solver.parse_all [(⟨['A'], ['m', 'a', 't', 'r', 'i', 'x'], standard_value_string⟩, ['m'])]
        ⟨[], fun _ => none⟩).bind fun p =>
          (solver.parse_defaults solver.m_options p).map fun q =>
            ⟨solver.finalise_keys, solver.finalise_values q.m_parsed,
              [(['m', 'a', 't', 'r', 'i', 'x'], ['m'])], []⟩ :=
  @parse_render _ _ _ solver (Or.inl rfl) _ (List.forall_mem_singleton.2 ⟨rfl,
    ⟨'m', ['a', 't', 'r', 'i', 'x'], rfl, by decide, List.cons_ne_nil _ _, by decide⟩, by decide,
    by decide⟩)

/-- **The two ways to write a value**: behind `=`, and as the next argument. -/
theorem parse_args_equals (hscan : IsScanner P.ParseArgument) {e : OptionDetails S × Text}
    (he : P.Writable e) (hvalue : e.1.value.has_implicit = false) :
    P.parse_args (('-' :: '-' :: e.1.long_name) :: e.2 :: rest) s =
      P.parse_args (render e.1.long_name e.2 :: rest) s := by
  rw [parse_args_render hscan he]
  obtain ⟨hfind, hname, -⟩ := he
  have hne : '-' :: '-' :: e.1.long_name ≠ ['-', '-'] := by
    obtain ⟨c, rest, hname, -⟩ := hname
    rw [hname]
    simp
  have hlength : e.1.long_name.length ≠ 0 := by
    obtain ⟨c, rest, hname, -⟩ := hname
    rw [hname]
    exact Nat.succ_ne_zero _
  rw [parse_args_cons _ hne, step, scan_name hscan hname]
  simp only [Bool.false_eq_true, if_false, if_pos hlength, hfind, checked_parse_arg,
    List.head?_cons, hvalue]
  cases P.parse_option e.1 e.2 s.parser with
  | error x => rfl
  | ok p => rfl

/-! ### Groups -/

/-- A group is parsed letter by letter. -/
theorem parse_args_letters (hscan : IsScanner P.ParseArgument) {letters : Text} (hne : letters ≠ [])
    (hall : letters.all isalnum = true) (rest : List Text) (s : State S H) :
    P.parse_args (('-' :: letters) :: rest) s =
      (P.parse_group rest.head? letters s.parser).bind fun (p, taken) =>
        P.parse_args (if taken then rest.tail else rest) { s with parser := p } := by
  have hdashes : '-' :: letters ≠ ['-', '-'] := by
    intro hdashes
    rw [List.cons.injEq] at hdashes
    rw [hdashes.2] at hall
    revert hall
    decide
  rw [parse_args_cons rest hdashes, step, scan_group hscan hne hall]
  simp only [if_true]
  cases P.parse_group rest.head? letters s.parser with
  | error x => rfl
  | ok result => rfl

/-- What a letter does that has no use for an argument. -/
def parse_letter (P : OptionParser S H) (l : Char) (p : Parser S H) : Except Error (Parser S H) :=
  match P.find [l] with
  | none => if P.m_allow_unrecognised then .ok p else .error (.option_not_exists_exception [l])
  | some details => P.parse_option details details.value.implicit_value p

/-- A letter that has no use for an argument. -/
theorem parse_group_letter {l : Char} {following : Option Text} {p : Parser S H}
    (himplicit : ∀ details, P.find [l] = some details → details.value.has_implicit = true) :
    P.parse_group following [l] p = (P.parse_letter l p).map fun p => (p, false) := by
  rw [parse_group, parse_letter]
  cases hfind : P.find [l] with
  | none =>
      simp only
      split_ifs <;> rfl
  | some details =>
      have himplicit' := himplicit details hfind
      cases following with
      | none => simp only [checked_parse_arg, himplicit', if_true]
      | some arg => simp only [checked_parse_arg, himplicit', if_true]

/-- The letters behind it go on. -/
theorem parse_group_cons {l : Char} {letters : Text} {following : Option Text} {p : Parser S H}
    (hne : letters ≠ [])
    (himplicit : ∀ details, P.find [l] = some details → details.value.has_implicit = true) :
    P.parse_group following (l :: letters) p =
      (P.parse_group following [l] p).bind fun (p, _) => P.parse_group following letters p := by
  rw [parse_group_letter himplicit]
  cases letters with
  | nil => exact absurd rfl hne
  | cons d letters =>
      rw [parse_group, parse_letter]
      cases hfind : P.find [l] with
      | none =>
          simp only
          split_ifs <;> rfl
      | some details =>
          simp only [himplicit details hfind, if_true]
          cases P.parse_option details details.value.implicit_value p with
          | error x => rfl
          | ok q => rfl

/-- **A group is its letters, one after the other**, if all but the last one have no use for an
argument. -/
theorem parse_args_group (hscan : IsScanner P.ParseArgument) {letters : Text} {c : Char}
    (hletters : (letters ++ [c]).all isalnum = true)
    (himplicit : ∀ l ∈ letters, ∀ details, P.find [l] = some details →
      details.value.has_implicit = true) (rest : List Text) (s : State S H) :
    P.parse_args (('-' :: (letters ++ [c])) :: rest) s =
      P.parse_args (letters.map (fun l => ['-', l]) ++ ['-', c] :: rest) s := by
  induction letters generalizing s with
  | nil => rfl
  | cons l letters ih =>
      rw [List.cons_append] at hletters
      obtain ⟨hl, htail⟩ : isalnum l = true ∧ (letters ++ [c]).all isalnum = true := by
        rwa [List.all_cons, Bool.and_eq_true] at hletters
      have himplicit' := himplicit l List.mem_cons_self
      have hne : letters ++ [c] ≠ [] := List.append_ne_nil_of_right_ne_nil _ (List.cons_ne_nil _ _)
      have hone : [l].all isalnum = true := by rw [List.all_cons, hl]; rfl
      have hcons : l :: (letters ++ [c]) ≠ [] := List.cons_ne_nil _ _
      have hleft : P.parse_args (('-' :: l :: (letters ++ [c])) :: rest) s =
          (P.parse_letter l s.parser).bind fun p =>
            P.parse_args (('-' :: (letters ++ [c])) :: rest) { s with parser := p } := by
        rw [parse_args_letters hscan hcons hletters,
          parse_group_cons hne himplicit', parse_group_letter himplicit']
        cases P.parse_letter l s.parser with
        | error x => rfl
        | ok q => exact (parse_args_letters hscan hne htail rest { s with parser := q }).symm
      rw [List.cons_append, hleft, List.map_cons, List.cons_append,
        parse_args_letters hscan (List.cons_ne_nil _ _) hone, parse_group_letter himplicit']
      cases P.parse_letter l s.parser with
      | error x => rfl
      | ok q =>
          exact ih htail (fun k hk => himplicit k (List.mem_cons_of_mem _ hk))
            { s with parser := q }

/-- The help and a matrix, for `solver.cpp`. -/
theorem parse_args_group_solver :
    solver.parse_args [['-', 'h', 'A'], ['m']] ⟨⟨[], fun _ => none⟩, [], []⟩ =
      solver.parse_args [['-', 'h'], ['-', 'A'], ['m']] ⟨⟨[], fun _ => none⟩, [], []⟩ := by
  refine @parse_args_group _ _ _ solver (Or.inl rfl) ['h'] 'A' (by decide) ?_ [['m']] _
  intro l hl details hfind
  cases List.mem_singleton.1 hl
  cases hfind
  rfl

end OptionParser

end Cxxopts
