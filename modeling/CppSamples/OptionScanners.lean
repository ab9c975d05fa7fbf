/-
**The scanners of `cxxopts.hpp`, by regular expressions and by hand.**

`cxxopts.hpp` takes texts apart in five functions of `parser_tool`: integers, the two truth values,
the names of an option, and an argument of the command line.  Each of them is there twice: with a
regular expression, and, for compilers without them, with a scanner that is written by hand.

The texts that come from the command line have no null character; the scanners by hand read to the
first one.

Main definitions:

* `Cxxopts.ByRegex` — the functions with regular expressions;
* `Cxxopts.ByHand` — the functions for `CXXOPTS_NO_REGEX`.

Main results:

* `Cxxopts.truth_agree_iff` — **which texts the two take for the same truth value**;
* `Cxxopts.parseArgument_agree_iff` — **which arguments they take apart in the same way**;
* `Cxxopts.splitSwitchDef_agree_iff` — which definitions of an option.
-/

import CppSamples.RegularExpression

set_option relaxedAutoImplicit false
set_option autoImplicit false

namespace Cxxopts

open RegularExpression Function

/-- A text. -/
abbrev Text := List Char

/-- The exceptions, with the text they are about. -/
inductive Error
  | argument_incorrect_type (text : Text)
  | invalid_option_format_error (text : Text)
  | option_exists_error (option : Text)
  | option_syntax_exception (text : Text)
  | option_not_exists_exception (option : Text)
  | missing_argument_exception (option : Text)
  | option_not_present_exception (option : Text)
  deriving DecidableEq

/-- `IntegerDesc` -/
structure IntegerDesc where
  negative : Text
  base : Text
  value : Text
  deriving DecidableEq

/-- `ArguDesc` -/
structure ArguDesc where
  arg_name : Text
  grouping : Bool
  set_value : Bool
  value : Text
  deriving DecidableEq

/-- `isalnum` and `[[:alnum:]]` -/
def isalnum (c : Char) : Bool := c.isAlphanum

/-- `[-_[:alnum:]]` -/
def isWord (c : Char) : Bool := isalnum c || c = '-' || c = '_'

/-- The characters that a pointer finds before the null character. -/
def c_str (text : Text) : Text := text.takeWhile (· ≠ '\x00')

/-! ### With regular expressions -/

namespace ByRegex

/-- `([[:alnum:]]+)` -/
def letters_pattern (n : ℕ) : Pattern := .group n (.plus (.char isalnum))

/-- `(0x)?([0-9a-zA-Z]+)` -/
def number_pattern : Pattern := .seq (.opt (.group 2 (.text ['0', 'x']))) (letters_pattern 3)

/-- `((0x)?0)` -/
def zero_pattern : Pattern := .group 4 (.seq (.opt (.group 5 (.text ['0', 'x']))) (.text ['0']))

/-- `(-)?(0x)?([0-9a-zA-Z]+)|((0x)?0)` -/
def integer_pattern : Pattern :=
  .alt (.seq (.opt (.group 1 (.text ['-']))) number_pattern) zero_pattern

/-- `(t|T)(rue)?|1` -/
def truthy_pattern : Pattern :=
  .alt
    (.seq (.group 1 (.alt (.text ['t']) (.text ['T'])))
      (.opt (.group 2 (.text ['r', 'u', 'e']))))
    (.text ['1'])

/-- `(f|F)(alse)?|0` -/
def falsy_pattern : Pattern :=
  .alt
    (.seq (.group 1 (.alt (.text ['f']) (.text ['F'])))
      (.opt (.group 2 (.text ['a', 'l', 's', 'e']))))
    (.text ['0'])

/-- The character class `.`, which has no line terminators. -/
def isInline (c : Char) : Bool := c ≠ '\n' && c ≠ '\r'

/-- `([[:alnum:]][-_[:alnum:]]+)` -/
def name_pattern : Pattern := .group 1 (.seq (.char isalnum) (.plus (.char isWord)))

/-- `(=(.*))?` -/
def value_pattern : Pattern :=
  .opt (.group 2 (.seq (.text ['=']) (.group 3 (.star (.char isInline)))))

/-- `--([[:alnum:]][-_[:alnum:]]+)(=(.*))?|-([[:alnum:]]+)` -/
def option_matcher : Pattern :=
  .alt (.seq (.text ['-', '-']) (.seq name_pattern value_pattern))
    (.seq (.text ['-']) (letters_pattern 4))

/-- `([[:alnum:]][-_[:alnum:]]*)?` -/
def long_pattern : Pattern := .opt (.group 3 (.seq (.char isalnum) (.star (.char isWord))))

/-- `(([[:alnum:]]),)?[ ]*([[:alnum:]][-_[:alnum:]]*)?` -/
def option_specifier : Pattern :=
  .seq (.opt (.group 1 (.seq (.group 2 (.char isalnum)) (.text [',']))))
    (.seq (.star (.char (· == ' '))) long_pattern)

/-- `SplitInteger` -/
def SplitInteger (text : Text) : Except Error IntegerDesc :=
  match fullMatch integer_pattern text with
  | none => .error (.argument_incorrect_type text)
  | some g =>
    if 0 < (g.str 4).length then .ok ⟨g.str 1, g.str 5, ['0']⟩
    else .ok ⟨g.str 1, g.str 2, g.str 3⟩

/-- `IsTrueText` -/
def IsTrueText (text : Text) : Bool := (fullMatch truthy_pattern text).isSome

/-- `IsFalseText` -/
def IsFalseText (text : Text) : Bool := (fullMatch falsy_pattern text).isSome

/-- `SplitSwitchDef` -/
def SplitSwitchDef (text : Text) : Except Error (Text × Text) :=
  match fullMatch option_specifier (c_str text) with
  | none => .error (.invalid_option_format_error text)
  | some g => .ok (g.str 2, g.str 3)

/-- `ParseArgument`, unless it has not matched. -/
def ParseArgument (arg : Text) : Option ArguDesc :=
  match fullMatch option_matcher (c_str arg) with
  | none => none
  | some g =>
    if 0 < (g.str 4).length then some ⟨g.str 4, true, 0 < (g.str 2).length, g.str 3⟩
    else some ⟨g.str 1, false, 0 < (g.str 2).length, g.str 3⟩

end ByRegex

/-! ### By hand -/

namespace ByHand

/-- `SplitInteger` -/
def SplitInteger (text : Text) : Except Error IntegerDesc :=
  if text.isEmpty then .error (.argument_incorrect_type text)
  else
    let pdata := c_str text
    let (negative, pdata) := if pdata.head? = some '-' then (['-'], pdata.tail) else ([], pdata)
    let (base, pdata) :=
      if ['0', 'x'].isPrefixOf pdata then (['0', 'x'], pdata.drop 2) else ([], pdata)
    if !pdata.isEmpty then .ok ⟨negative, base, pdata⟩
    else .error (.argument_incorrect_type text)

/-- `IsTrueText` -/
def IsTrueText (text : Text) : Bool :=
  let pdata := c_str text
  if pdata.head? = some 't' ∨ pdata.head? = some 'T' then pdata.tail = ['r', 'u', 'e']
  else pdata = ['1']

/-- `IsFalseText` -/
def IsFalseText (text : Text) : Bool :=
  let pdata := c_str text
  if pdata.head? = some 'f' ∨ pdata.head? = some 'F' then pdata.tail = ['a', 'l', 's', 'e']
  else pdata = ['0']

/-- `SplitSwitchDef` -/
def SplitSwitchDef (text : Text) : Except Error (Text × Text) :=
  let pdata := c_str text
  let (short_sw, pdata) :=
    match pdata with
    | c :: ',' :: rest => if isalnum c then ([c], rest) else ([], pdata)
    | _ => ([], pdata)
  let pdata := pdata.dropWhile (· == ' ')
  match pdata with
  | c :: rest =>
    if isalnum c then
      let rest' := rest.dropWhile isWord
      if rest'.isEmpty then .ok (short_sw, c :: rest.takeWhile isWord)
      else .error (.invalid_option_format_error text)
    else .ok (short_sw, [])
  | [] => .ok (short_sw, [])

/-- `ParseArgument`, unless it has not matched. -/
def ParseArgument (arg : Text) : Option ArguDesc :=
  let pdata := c_str arg
  if ['-', '-'].isPrefixOf pdata then
    match pdata.drop 2 with
    | c :: rest =>
      if isalnum c then
        let arg_name := c :: rest.takeWhile isWord
        let pdata := rest.dropWhile isWord
        if 1 < arg_name.length then
          match pdata with
          | '=' :: value => some ⟨arg_name, false, true, value⟩
          | [] => some ⟨arg_name, false, false, []⟩
          | _ => none
        else none
      else none
    | [] => none
  else if ['-'].isPrefixOf pdata then
    let arg_name := (pdata.drop 1).takeWhile isalnum
    let pdata := (pdata.drop 1).dropWhile isalnum
    if !arg_name.isEmpty && pdata.isEmpty then some ⟨arg_name, true, false, []⟩ else none
  else none

end ByHand

/-! ### Arguments -/

theorem c_str_eq {text : Text} (h : '\x00' ∉ text) : c_str text = text :=
  List.takeWhile_eq_self_iff.2 fun c hc => by
    simp only [decide_eq_true_eq]
    rintro rfl
    exact h hc

/-- A text that does not begin with the first character of another one. -/
theorem not_prefix_of_head {c : Char} {w s : Text} (h : s.head? ≠ some c) :
    (c :: w).isPrefixOf s = false := by
  cases s with
  | nil => rfl
  | cons d rest =>
      have hcd : ¬c = d := fun hcd => h (by rw [← hcd]; rfl)
      simp [List.isPrefixOf, hcd]

theorem not_prefix_hyphens {pdata : Text} (h : pdata.head? ≠ some '-') :
    ['-', '-'].isPrefixOf ('-' :: pdata) = false := by
  rw [List.isPrefixOf, not_prefix_of_head h, Bool.and_false]

theorem isWord_of_isalnum {c : Char} (h : isalnum c = true) : isWord c = true := by
  simp [isWord, h]

theorem not_isWord_equals : isWord '=' = false := by decide

theorem not_isalnum_hyphen : isalnum '-' = false := by decide

/-- The characters of a group whose first one is fixed. -/
theorem take_cons_dropWhile (P : Char → Bool) (c : Char) (rest : Text) :
    (c :: rest).take ((c :: rest).length - (rest.dropWhile P).length) = c :: rest.takeWhile P := by
  have hle : (rest.dropWhile P).length ≤ rest.length := (List.dropWhile_suffix P).length_le
  rw [List.length_cons, Nat.succ_sub hle, List.take_succ_cons, take_sub_length_dropWhile]

/-- A group of letters and digits up to the end. -/
theorem run_alnum (n : ℕ) (pdata : Text) (g : Groups) :
    (ByRegex.letters_pattern n).run pdata g atEnd =
      if pdata ≠ [] ∧ pdata.all isalnum then some (update g n (some pdata)) else none := by
  rw [ByRegex.letters_pattern, run_group, run_plus_char (by intros; rfl)]
  cases pdata with
  | nil => rfl
  | cons c rest =>
      rw [atEnd_dropWhile]
      cases hall : (c :: rest).all isalnum with
      | true =>
          have hc : isalnum c = true := by
            rw [List.all_cons, Bool.and_eq_true] at hall
            exact hall.1
          simp [dropWhile_of_all hall, hc]
      | false => simp

/-- The expression for the value of an argument, behind its name. -/
theorem run_value (s : Text) (g : Groups) :
    ByRegex.value_pattern.run s g atEnd =
      match s with
      | [] => some g
      | c :: v =>
        if c = '=' ∧ v.all ByRegex.isInline then
          some (update (update g 3 (some v)) 2 (some (c :: v)))
        else none := by
  cases s with
  | nil => rfl
  | cons c v =>
      simp only [ByRegex.value_pattern, run_opt, run_group, run_seq, run_text, atEnd_cons,
        Option.or_none]
      by_cases hc : c = '='
      · subst hc
        simp only [List.isPrefixOf, beq_self_eq_true, Bool.and_self, if_true, List.length_singleton,
          List.drop_one, List.tail_cons]
        rw [run_star_char (fun c t g hc => rfl)]
        rw [atEnd_dropWhile]
        cases hall : v.all ByRegex.isInline with
        | true =>
            rw [dropWhile_of_all hall]
            simp
        | false => simp
      · simp [hc, Ne.symm hc]

/-- What `option_matcher` gives for a long name. -/
def longArgument (pdata : Text) : Option ArguDesc :=
  match pdata with
  | c :: rest =>
    if isalnum c ∧ rest.head?.any isWord then
      match rest.dropWhile isWord with
      | [] => some ⟨c :: rest.takeWhile isWord, false, false, []⟩
      | d :: value =>
        if d = '=' ∧ value.all ByRegex.isInline then
          some ⟨c :: rest.takeWhile isWord, false, true, value⟩
        else none
    else none
  | [] => none

/-- The name of a long argument. -/
theorem run_name (pdata : Text) (g : Groups) :
    (Pattern.seq ByRegex.name_pattern ByRegex.value_pattern).run pdata g atEnd =
      match pdata with
      | c :: rest =>
        if isalnum c ∧ rest.head?.any isWord then
          ByRegex.value_pattern.run (rest.dropWhile isWord)
            (update g 1 (some (c :: rest.takeWhile isWord))) atEnd
        else none
      | [] => none := by
  cases pdata with
  | nil => rfl
  | cons c rest =>
      rw [run_seq, ByRegex.name_pattern, run_group, run_seq, run_char_cons]
      by_cases hc : isalnum c = true
      · rw [if_pos hc, run_plus_char, take_cons_dropWhile]
        · simp only [hc, true_and]
        · -- the name is not cut short
          intro d t h hd
          rw [run_value]
          have hne : d ≠ '=' := by
            rintro rfl
            rw [not_isWord_equals] at hd
            cases hd
          simp [hne]
      · simp [hc]

theorem parseArgument_long {arg pdata : Text} (h : c_str arg = '-' :: '-' :: pdata) :
    ByRegex.ParseArgument arg = longArgument pdata := by
  have hmatch : fullMatch ByRegex.option_matcher ('-' :: '-' :: pdata) =
      (Pattern.seq ByRegex.name_pattern ByRegex.value_pattern).run pdata (fun _ => none) atEnd := by
    -- the second alternative stops at the second hyphen
    have hshort : (Pattern.seq (.text ['-']) (ByRegex.letters_pattern 4)).run
        ('-' :: '-' :: pdata) (fun _ => none) atEnd = none := by
      simp [ByRegex.letters_pattern, run_text, Pattern.plus, not_isalnum_hyphen]
    rw [fullMatch, ByRegex.option_matcher, run_alt, hshort, Option.or_none, run_seq, run_text]
    rfl
  rw [ByRegex.ParseArgument, h, hmatch, run_name]
  cases pdata with
  | nil => rfl
  | cons c rest =>
      rw [longArgument]
      by_cases hname : isalnum c ∧ rest.head?.any isWord
      · simp only [if_pos hname, run_value]
        cases rest.dropWhile isWord with
        | nil => simp [Groups.str]
        | cons d value =>
            by_cases hvalue : d = '=' ∧ value.all ByRegex.isInline
            · simp [hvalue, Groups.str]
            · simp only [if_neg hvalue]
      · simp only [if_neg hname]

theorem parseArgument_short {arg pdata : Text} (h : c_str arg = '-' :: pdata)
    (hhead : pdata.head? ≠ some '-') :
    ByRegex.ParseArgument arg =
      if pdata ≠ [] ∧ pdata.all isalnum then some ⟨pdata, true, false, []⟩ else none := by
  have hmatch : fullMatch ByRegex.option_matcher ('-' :: pdata) =
      (ByRegex.letters_pattern 4).run pdata (fun _ => none) atEnd := by
    -- the first alternative wants a second hyphen
    rw [fullMatch, ByRegex.option_matcher, run_alt, run_seq, run_text, not_prefix_hyphens hhead,
      if_neg Bool.false_ne_true, Option.none_or, run_seq, run_text]
    rfl
  rw [ByRegex.ParseArgument, h, hmatch, run_alnum]
  by_cases hall : pdata ≠ [] ∧ pdata.all isalnum
  · have hlength : 0 < pdata.length := List.length_pos_iff.2 hall.1
    simp [hall, Groups.str, hlength]
  · simp only [if_neg hall]

theorem parseArgument_other {arg : Text} (h : (c_str arg).head? ≠ some '-') :
    ByRegex.ParseArgument arg = none := by
  have hmatch : fullMatch ByRegex.option_matcher (c_str arg) = none := by
    rw [fullMatch, ByRegex.option_matcher, run_alt, run_seq, run_text, not_prefix_of_head h,
      if_neg Bool.false_ne_true, run_seq, run_text, not_prefix_of_head h]
    rfl
  rw [ByRegex.ParseArgument, hmatch]

/-- The scanner by hand, behind two hyphens. -/
theorem byHand_long {arg pdata : Text} (h : c_str arg = '-' :: '-' :: pdata) :
    (ByHand.ParseArgument arg).filter (·.value.all ByRegex.isInline) = longArgument pdata := by
  rw [ByHand.ParseArgument, h]
  simp only [List.isPrefixOf, beq_self_eq_true, Bool.and_self, if_true, List.drop_succ_cons,
    List.drop_zero]
  cases pdata with
  | nil => rfl
  | cons c rest =>
      rw [longArgument]
      by_cases hc : isalnum c = true
      · -- the name has a second character exactly when the repetition takes one
        have hname : 1 < (c :: rest.takeWhile isWord).length ↔ rest.head?.any isWord := by
          cases rest with
          | nil => simp
          | cons d rest => cases hd : isWord d <;> simp [hd]
        simp only [hc, hname, if_true, true_and]
        by_cases hsecond : rest.head?.any isWord = true
        · simp only [hsecond, if_true]
          cases rest.dropWhile isWord with
          | nil => rfl
          | cons d value =>
              by_cases hd : d = '='
              · subst hd
                cases hvalue : value.all ByRegex.isInline <;> simp [Option.filter, hvalue]
              · simp [hd]
        · simp [hsecond]
      · simp [hc]

/-- **What the two scanners take apart.**  The regular expression takes what the scanner by hand
takes, unless the value has the end of a line in it. -/
theorem parseArgument_eq_filter (arg : Text) :
    ByRegex.ParseArgument arg =
      (ByHand.ParseArgument arg).filter (·.value.all ByRegex.isInline) := by
  by_cases hhead : (c_str arg).head? = some '-'
  · obtain ⟨pdata, hpdata⟩ := List.head?_eq_some_iff.1 hhead
    by_cases hlong : pdata.head? = some '-'
    · obtain ⟨pdata, rfl⟩ := List.head?_eq_some_iff.1 hlong
      rw [parseArgument_long hpdata, byHand_long hpdata]
    · have hshort : ['-'].isPrefixOf ('-' :: pdata) = true := by simp [List.isPrefixOf]
      rw [parseArgument_short hpdata hlong, ByHand.ParseArgument, hpdata, not_prefix_hyphens hlong,
        if_neg Bool.false_ne_true, hshort, if_pos rfl, List.drop_one, List.tail_cons]
      cases hall : pdata.all isalnum with
      | true =>
          rw [takeWhile_of_all hall, dropWhile_of_all hall]
          cases pdata with
          | nil => rfl
          | cons c rest => rfl
      | false =>
          simp [dropWhile_ne_nil hall]
  · rw [parseArgument_other hhead, ByHand.ParseArgument, not_prefix_of_head hhead,
      not_prefix_of_head hhead]
    rfl

/-- One of the two scanners for arguments. -/
def IsScanner (ParseArgument : Text → Option ArguDesc) : Prop :=
  ParseArgument = ByRegex.ParseArgument ∨ ParseArgument = ByHand.ParseArgument

/-- Both scanners take what the regular expression takes. -/
theorem IsScanner.eq_some {ParseArgument : Text → Option ArguDesc} (h : IsScanner ParseArgument)
    {arg : Text} {d : ArguDesc} (hregex : ByRegex.ParseArgument arg = some d) :
    ParseArgument arg = some d := by
  obtain rfl | rfl := h
  · exact hregex
  · rw [parseArgument_eq_filter] at hregex
    exact (Option.filter_eq_some_iff.1 hregex).1

/-- The scanner by hand takes what any of the two takes. -/
theorem IsScanner.hand_eq_some {ParseArgument : Text → Option ArguDesc}
    (h : IsScanner ParseArgument) {arg : Text} {d : ArguDesc} (hd : ParseArgument arg = some d) :
    ByHand.ParseArgument arg = some d := by
  obtain rfl | rfl := h
  · rw [parseArgument_eq_filter] at hd
    exact (Option.filter_eq_some_iff.1 hd).1
  · exact hd

/-- Two scanners of which one takes less. -/
theorem eq_filter_iff {α : Type} {P : α → Bool} (x : Option α) :
    x.filter P = x ↔ ∀ d ∈ x, P d = true := by
  cases x with
  | none => simp
  | some d => cases hd : P d <;> simp [hd]

/-- **Which arguments the two scanners take apart in the same way**: all whose value, if they have
one, is a single line. -/
theorem parseArgument_agree_iff (arg : Text) :
    ByRegex.ParseArgument arg = ByHand.ParseArgument arg ↔
      ∀ d ∈ ByHand.ParseArgument arg, ∀ c ∈ d.value, c ≠ '\n' ∧ c ≠ '\r' := by
  rw [parseArgument_eq_filter, eq_filter_iff]
  refine forall₂_congr fun d _ => ?_
  simp [ByRegex.isInline]

/-! ### Definitions of an option -/

/-- The short name, and what comes behind it and the blanks. -/
def shortName (pdata : Text) : Text × Text :=
  match pdata with
  | c :: ',' :: rest => if isalnum c then ([c], rest) else ([], pdata)
  | _ => ([], pdata)

/-- The expression for a long name up to the end. -/
theorem run_long (pdata : Text) (g : Groups) :
    ByRegex.long_pattern.run pdata g atEnd =
      match pdata with
      | [] => some g
      | c :: rest =>
        if isalnum c ∧ rest.all isWord then some (update g 3 (some (c :: rest))) else none := by
  cases pdata with
  | nil => rfl
  | cons c rest =>
      rw [ByRegex.long_pattern, run_opt, run_group, run_seq, run_char_cons,
        run_star_char (by intros; rfl), atEnd_dropWhile, atEnd_cons, Option.or_none]
      by_cases hc : isalnum c = true
      · cases hall : rest.all isWord <;> simp [hc, hall, dropWhile_of_all]
      · simp [hc]

/-- Blanks before a long name. -/
theorem run_blanks (pdata : Text) (g : Groups) :
    (Pattern.seq (.star (.char (· == ' '))) ByRegex.long_pattern).run pdata g atEnd =
      ByRegex.long_pattern.run (pdata.dropWhile (· == ' ')) g atEnd := by
  rw [run_seq, run_star_char]
  intro c t g hc
  rw [run_long]
  have hblank : isalnum c = false := by
    rw [beq_iff_eq.1 hc]
    decide
  simp [hblank]

/-- The groups of a short name. -/
def shortGroups (short_sw : Text) : Groups :=
  if short_sw = [] then fun _ => none
  else update (update (fun _ => none) 2 (some short_sw)) 1 (some (short_sw ++ [',']))

theorem str_shortGroups (short_sw : Text) : (shortGroups short_sw).str 2 = short_sw := by
  rw [shortGroups]
  split_ifs with hnil
  · rw [hnil]
    rfl
  · rfl

theorem str_shortGroups_long (short_sw : Text) : (shortGroups short_sw).str 3 = [] := by
  rw [shortGroups]
  split_ifs <;> rfl

/-- A short name that can be taken is taken. -/
theorem match_specifier (pdata : Text) :
    fullMatch ByRegex.option_specifier pdata =
      ByRegex.long_pattern.run ((shortName pdata).2.dropWhile (· == ' '))
        (shortGroups (shortName pdata).1) atEnd := by
  rw [fullMatch, ByRegex.option_specifier, run_seq, run_opt]
  simp only [run_blanks]
  match pdata with
  | [] => rfl
  | [c] =>
      cases hc : isalnum c with
      | true => simp [hc, shortName, shortGroups, run_text]
      | false => simp [hc, shortName, shortGroups]
  | c :: d :: rest =>
      by_cases hname : isalnum c = true ∧ d = ','
      · obtain ⟨hc, rfl⟩ := hname
        -- without the short name the comma is left over
        have hblank : (c == ' ') = false := by
          rw [beq_eq_false_iff_ne]
          rintro rfl
          revert hc
          decide
        have hcomma : isWord ',' = false := by decide
        have hleft : ByRegex.long_pattern.run ((c :: ',' :: rest).dropWhile (· == ' '))
            (fun _ => none) atEnd = none := by
          rw [List.dropWhile_cons_of_neg (by rw [hblank]; exact Bool.false_ne_true), run_long]
          simp [hcomma]
        have htake : (c :: ',' :: rest).take (rest.length + 1 + 1 - rest.length) = [c, ','] := by
          rw [show rest.length + 1 + 1 - rest.length = 2 by omega]
          rfl
        rw [hleft, Option.or_none]
        simp [hc, shortName, shortGroups, run_text, htake]
      · have hshort : shortName (c :: d :: rest) = ([], c :: d :: rest) := by
          by_cases hd : d = ','
          · subst hd
            simp only [shortName, if_neg fun hc => hname ⟨hc, rfl⟩]
          · simp [shortName, hd]
        rw [hshort]
        cases hc : isalnum c with
        | true =>
            have hd : ¬ ',' = d := fun hd => hname ⟨hc, hd.symm⟩
            simp [hc, hd, shortGroups, run_text]
        | false => simp [hc, shortGroups]

/-- **What the regular expression takes for the definition of an option.** -/
theorem splitSwitchDef_regex (text : Text) :
    ByRegex.SplitSwitchDef text =
      match (shortName (c_str text)).2.dropWhile (· == ' ') with
      | [] => .ok ((shortName (c_str text)).1, [])
      | c :: rest =>
        if isalnum c ∧ rest.all isWord then .ok ((shortName (c_str text)).1, c :: rest)
        else .error (.invalid_option_format_error text) := by
  rw [ByRegex.SplitSwitchDef, match_specifier, run_long]
  have hshort := str_shortGroups (shortName (c_str text)).1
  cases (shortName (c_str text)).2.dropWhile (· == ' ') with
  | nil =>
      have hlong : (shortGroups (shortName (c_str text)).1).str 3 = [] := str_shortGroups_long _
      simp only [hshort, hlong]
  | cons c rest =>
      by_cases hname : isalnum c ∧ rest.all isWord
      · have hlong (g : Groups) (w : Text) : Groups.str (update g 3 (some w)) 2 = g.str 2 := rfl
        simp only [if_pos hname, hlong, hshort]
        rfl
      · simp only [if_neg hname]

/-- **Which definitions of an option the two scanners take in the same way**: all in which the text
behind the short name and the blanks is empty or begins with a letter or a digit.  Of every other
one the scanner by hand takes nothing but the short name, and the regular expression takes nothing
at all. -/
theorem splitSwitchDef_agree_iff (text : Text) :
    ByRegex.SplitSwitchDef text = ByHand.SplitSwitchDef text ↔
      ∀ c ∈ ((shortName (c_str text)).2.dropWhile (· == ' ')).head?, isalnum c = true := by
  have hhand : ByHand.SplitSwitchDef text =
      match (shortName (c_str text)).2.dropWhile (· == ' ') with
      | c :: rest =>
        if isalnum c then
          if (rest.dropWhile isWord).isEmpty then
            .ok ((shortName (c_str text)).1, c :: rest.takeWhile isWord)
          else .error (.invalid_option_format_error text)
        else .ok ((shortName (c_str text)).1, [])
      | [] => .ok ((shortName (c_str text)).1, []) := rfl
  rw [splitSwitchDef_regex, hhand]
  cases (shortName (c_str text)).2.dropWhile (· == ' ') with
  | nil => simp
  | cons c rest =>
      cases hc : isalnum c with
      | false => simp [hc]
      | true =>
          cases hall : rest.all isWord with
          | true =>
              simp [hc, hall, takeWhile_of_all hall, dropWhile_of_all hall]
          | false =>
              simp [hc, hall, dropWhile_ne_nil hall]

/-- A name of more than one character, as it can stand behind two hyphens. -/
def LongName (name : Text) : Prop :=
  ∃ c rest, name = c :: rest ∧ isalnum c = true ∧ rest ≠ [] ∧ rest.all isWord = true

theorem isalnum_ne_null {c : Char} (h : isalnum c = true) : c ≠ '\x00' := by
  rintro rfl
  revert h
  decide

theorem isWord_ne_null {c : Char} (h : isWord c = true) : c ≠ '\x00' := by
  rintro rfl
  revert h
  decide

theorem LongName.no_null {name : Text} (h : LongName name) : '\x00' ∉ name := by
  obtain ⟨c, rest, rfl, hc, -, hall⟩ := h
  rw [List.mem_cons, not_or]
  exact ⟨(isalnum_ne_null hc).symm, fun hmem =>
    isWord_ne_null (List.all_eq_true.1 hall _ hmem) rfl⟩

theorem LongName.two_le {name : Text} (h : LongName name) : 2 ≤ name.length := by
  obtain ⟨c, rest, rfl, -, hne, -⟩ := h
  have hpos := List.length_pos_iff.2 hne
  rw [List.length_cons]
  omega

/-- A long name has no short one in front. -/
theorem shortName_of_longName {name : Text} (h : LongName name) : shortName name = ([], name) := by
  obtain ⟨c, rest, rfl, -, hne, hall⟩ := h
  cases rest with
  | nil => exact absurd rfl hne
  | cons d rest =>
      rw [List.all_cons, Bool.and_eq_true] at hall
      have hd : d ≠ ',' := by
        rintro rfl
        exact absurd hall.1 (by decide)
      simp [shortName, hd]

/-- One of the two scanners for definitions. -/
def IsDefScanner (SplitSwitchDef : Text → Except Error (Text × Text)) : Prop :=
  SplitSwitchDef = ByRegex.SplitSwitchDef ∨ SplitSwitchDef = ByHand.SplitSwitchDef

/-- A definition with a long name. -/
theorem IsDefScanner.eq_ok {SplitSwitchDef : Text → Except Error (Text × Text)}
    (h : IsDefScanner SplitSwitchDef) {text short_sw name : Text} (hname : LongName name)
    (hshort : shortName (c_str text) = (short_sw, name)) :
    SplitSwitchDef text = .ok (short_sw, name) := by
  obtain ⟨c, rest, rfl, hc, -, hall⟩ := hname
  have hblank : (c == ' ') = false := by
    rw [beq_eq_false_iff_ne]
    rintro rfl
    revert hc
    decide
  have hdrop : (shortName (c_str text)).2.dropWhile (· == ' ') = c :: rest := by
    rw [hshort, List.dropWhile_cons, hblank]
    rfl
  have hregex : ByRegex.SplitSwitchDef text = .ok (short_sw, c :: rest) := by
    rw [splitSwitchDef_regex, hdrop, hshort]
    exact if_pos ⟨hc, hall⟩
  obtain rfl | rfl := h
  · exact hregex
  · rw [← hregex]
    refine ((splitSwitchDef_agree_iff text).2 ?_).symm
    rw [hdrop]
    rintro d hd
    cases hd
    exact hc

/-! ### Truth values -/

/-- A text that must reach to the end. -/
theorem isSome_text (w s : Text) (g : Groups) {k : Continuation}
    (hk : ∀ t g, (k t g).isSome = true ↔ t = []) :
    ((Pattern.text w).run s g k).isSome = true ↔ s = w := by
  rw [run_text]
  split_ifs with hstart
  · obtain ⟨t, rfl⟩ := List.isPrefixOf_iff_prefix.1 hstart
    rw [List.drop_left, hk]
    simp
  · constructor
    · intro hnone
      cases hnone
    · rintro rfl
      exact absurd (List.isPrefixOf_iff_prefix.2 List.prefix_rfl) hstart

/-- A word, its first character alone, or another character. -/
theorem isSome_word (a b d : Char) (w text : Text) :
    (fullMatch (.alt (.seq (.group 1 (.alt (.text [a]) (.text [b]))) (.opt (.group 2 (.text w))))
      (.text [d])) text).isSome = true ↔
      text ∈ [[a], [b], a :: w, b :: w, [d]] := by
  have hrest (s : Text) (g : Groups) :
      ((Pattern.opt (.group 2 (.text w))).run s g atEnd).isSome = true ↔ s = [] ∨ s = w := by
    rw [run_opt, Option.isSome_or, Bool.or_eq_true, run_group,
      isSome_text w s g fun t g => isSome_atEnd t _, isSome_atEnd]
    exact Or.comm
  have hfirst (e : Char) (k : Continuation)
      (hk : ∀ t g, (k t g).isSome = true ↔ t = [] ∨ t = w) :
      ((Pattern.text [e]).run text (fun _ => none) k).isSome = true ↔
        text = [e] ∨ text = e :: w := by
    cases text with
    | nil => simp [run_text]
    | cons c s =>
        by_cases hc : e = c
        · subst hc
          simp [run_text, hk]
        · simp [run_text, hc, Ne.symm hc]
  rw [fullMatch, run_alt, Option.isSome_or, Bool.or_eq_true, run_seq, run_group, run_alt,
    Option.isSome_or, Bool.or_eq_true, isSome_text [d] text _ isSome_atEnd,
    hfirst a _ fun t g => hrest t _, hfirst b _ fun t g => hrest t _]
  simp only [List.mem_cons, List.not_mem_nil, or_false]
  tauto

/-- The same by hand, without the first character alone. -/
theorem byHand_word (a b d : Char) (w text : Text) (hd : d ≠ a ∧ d ≠ b) :
    (if text.head? = some a ∨ text.head? = some b then decide (text.tail = w)
      else decide (text = [d])) = true ↔ text ∈ [a :: w, b :: w, [d]] := by
  cases text with
  | nil => simp
  | cons c s =>
      split_ifs with hc
      · have hcd : c ≠ d := by
          rintro rfl
          obtain hc | hc := hc
          · exact hd.1 (Option.some.inj hc)
          · exact hd.2 (Option.some.inj hc)
        simp only [List.head?_cons, Option.some.injEq] at hc
        rw [decide_eq_true_iff, List.tail_cons]
        simp only [List.mem_cons, List.cons.injEq, List.not_mem_nil, or_false, hcd, false_and]
        tauto
      · simp only [List.head?_cons, Option.some.injEq] at hc
        rw [decide_eq_true_iff]
        simp only [List.mem_cons, List.cons.injEq, List.not_mem_nil, or_false]
        tauto

/-- **Which texts have the same truth value for both**: all but four. -/
theorem truth_agree_iff {text : Text} (h : '\x00' ∉ text) :
    (ByRegex.IsTrueText text = ByHand.IsTrueText text ∧
      ByRegex.IsFalseText text = ByHand.IsFalseText text) ↔
      text ∉ [['t'], ['T'], ['f'], ['F']] := by
  have htrue : ByRegex.IsTrueText text = true ↔ _ := isSome_word 't' 'T' '1' ['r', 'u', 'e'] text
  have hfalse : ByRegex.IsFalseText text = true ↔ _ :=
    isSome_word 'f' 'F' '0' ['a', 'l', 's', 'e'] text
  have htrue' := byHand_word 't' 'T' '1' ['r', 'u', 'e'] text (by decide)
  have hfalse' := byHand_word 'f' 'F' '0' ['a', 'l', 's', 'e'] text (by decide)
  rw [@Bool.eq_iff_iff (ByRegex.IsTrueText text), @Bool.eq_iff_iff (ByRegex.IsFalseText text),
    ByHand.IsTrueText, ByHand.IsFalseText, c_str_eq h]
  simp only [htrue, htrue', hfalse, hfalse', List.mem_cons, List.not_mem_nil, or_false]
  constructor
  · rintro ⟨htrue, hfalse⟩ (rfl | rfl | rfl | rfl)
    · exact absurd (htrue.1 (Or.inl rfl)) (by decide)
    · exact absurd (htrue.1 (Or.inr (Or.inl rfl))) (by decide)
    · exact absurd (hfalse.1 (Or.inl rfl)) (by decide)
    · exact absurd (hfalse.1 (Or.inr (Or.inl rfl))) (by decide)
  · intro hother
    obtain ⟨ht, hT, hf, hF⟩ : text ≠ ['t'] ∧ text ≠ ['T'] ∧ text ≠ ['f'] ∧ text ≠ ['F'] := by
      simpa only [not_or] using hother
    simp only [ht, hT, hf, hF, false_or, and_self]

/-! ### Integers -/

/-- The sign of a number, and what is behind it. -/
def signOf (text : Text) : Text × Text :=
  if text.head? = some '-' then (['-'], text.tail) else ([], text)

/-- The groups of a sign. -/
def signGroups (negative : Text) : Groups :=
  if negative = [] then fun _ => none else update (fun _ => none) 1 (some negative)

/-- The digits of a number, behind its base or without one. -/
theorem run_number (pdata : Text) (g : Groups) :
    ByRegex.number_pattern.run pdata g atEnd =
      if pdata ≠ [] ∧ pdata.all isalnum then
        if ['0', 'x'].isPrefixOf pdata ∧ pdata.drop 2 ≠ [] then
          some (update (update g 2 (some ['0', 'x'])) 3 (some (pdata.drop 2)))
        else some (update g 3 (some pdata))
      else none := by
  rw [ByRegex.number_pattern, run_seq, run_opt, run_group, run_text]
  simp only [run_alnum]
  by_cases hstart : ['0', 'x'].isPrefixOf pdata = true
  · obtain ⟨t, rfl⟩ := List.isPrefixOf_iff_prefix.1 hstart
    have hall : (['0', 'x'] ++ t).all isalnum = t.all isalnum := rfl
    have hdrop : (['0', 'x'] ++ t).drop 2 = t := rfl
    have htake : (['0', 'x'] ++ t).take ((['0', 'x'] ++ t).length - t.length) = ['0', 'x'] := by
      rw [List.length_append, Nat.add_sub_cancel]
      rfl
    have hnil : ['0', 'x'] ++ t ≠ [] := List.cons_ne_nil _ _
    simp only [hstart, hall, hdrop, hnil, if_true, true_and, ne_eq, not_false_eq_true,
      List.length_cons, List.length_nil, htake]
    by_cases ht : t = []
    · subst ht
      rfl
    · cases t.all isalnum <;> simp [ht]
  · simp only [hstart, Bool.false_eq_true, if_false, false_and, Option.none_or]

/-- What the second alternative takes, the first one has taken before. -/
theorem run_zero (text : Text) (g : Groups)
    (h : (ByRegex.zero_pattern.run text g atEnd).isSome = true) :
    text = ['0'] ∨ text = ['0', 'x', '0'] := by
  rw [ByRegex.zero_pattern, run_group, run_seq, run_opt, Option.isSome_or, Bool.or_eq_true,
    run_group, run_text] at h
  obtain h | h := h
  · right
    split_ifs at h with hstart
    · obtain ⟨t, rfl⟩ := List.isPrefixOf_iff_prefix.1 hstart
      have ht : t = ['0'] := (isSome_text _ _ _ fun t g => isSome_atEnd t _).1 h
      rw [ht]
      rfl
    · cases h
  · left
    exact (isSome_text _ _ _ fun t g => isSome_atEnd t _).1 h

/-- What the pattern for integers takes. -/
theorem match_integer (text : Text) :
    fullMatch ByRegex.integer_pattern text =
      if (signOf text).2 ≠ [] ∧ (signOf text).2.all isalnum then
        if ['0', 'x'].isPrefixOf (signOf text).2 ∧ (signOf text).2.drop 2 ≠ [] then
          some (update (update (signGroups (signOf text).1) 2 (some ['0', 'x'])) 3
            (some ((signOf text).2.drop 2)))
        else some (update (signGroups (signOf text).1) 3 (some (signOf text).2))
      else none := by
  have hfirst :
      (Pattern.seq (.opt (.group 1 (.text ['-']))) ByRegex.number_pattern).run text (fun _ => none)
          atEnd =
        ByRegex.number_pattern.run (signOf text).2 (signGroups (signOf text).1) atEnd := by
    rw [run_seq, run_opt, run_group, run_text]
    by_cases hhead : text.head? = some '-'
    · obtain ⟨t, rfl⟩ := List.head?_eq_some_iff.1 hhead
      -- a hyphen is no digit
      have hhyphen : ByRegex.number_pattern.run ('-' :: t) (fun _ => none) atEnd = none := by
        rw [run_number, List.all_cons, not_isalnum_hyphen, Bool.false_and]
        rfl
      have htake : ('-' :: t).take (t.length + 1 - t.length) = ['-'] := by
        rw [Nat.add_sub_cancel_left]
        rfl
      have hsign : signOf ('-' :: t) = (['-'], t) := rfl
      rw [hhyphen, Option.or_none, hsign, if_pos (by simp [List.isPrefixOf])]
      simp only [List.length_cons, List.length_nil, Nat.zero_add, List.drop_succ_cons,
        List.drop_zero, htake]
      rfl
    · have hsign : signOf text = ([], text) := if_neg hhead
      rw [not_prefix_of_head hhead, if_neg Bool.false_ne_true, Option.none_or, hsign]
      rfl
  rw [fullMatch, ByRegex.integer_pattern, run_alt, hfirst, run_number]
  cases hzero : ByRegex.zero_pattern.run text (fun _ => none) atEnd with
  | none => rw [Option.or_none]
  | some g =>
      obtain rfl | rfl := run_zero text _ (by rw [hzero]; rfl)
      · rfl
      · rfl

/-- **What the regular expression takes for an integer.** -/
theorem splitInteger_regex (text : Text) :
    ByRegex.SplitInteger text =
      if (signOf text).2 ≠ [] ∧ (signOf text).2.all isalnum then
        if ['0', 'x'].isPrefixOf (signOf text).2 ∧ (signOf text).2.drop 2 ≠ [] then
          .ok ⟨(signOf text).1, ['0', 'x'], (signOf text).2.drop 2⟩
        else .ok ⟨(signOf text).1, [], (signOf text).2⟩
      else .error (.argument_incorrect_type text) := by
  have hsign (negative : Text) : (signGroups negative).str 1 = negative := by
    rw [signGroups]
    split_ifs with hnil
    · rw [hnil]
      rfl
    · rfl
  have hother (negative : Text) (n : ℕ) (hn : n ≠ 1) : (signGroups negative).str n = [] := by
    rw [signGroups]
    split_ifs
    · rfl
    · simp [Groups.str, hn]
  rw [ByRegex.SplitInteger, match_integer]
  split_ifs with hdigits hbase
  · have hfour : Groups.str (update (update (signGroups (signOf text).1) 2 (some ['0', 'x'])) 3
        (some ((signOf text).2.drop 2))) 4 = [] := hother _ 4 (by decide)
    have hone : Groups.str (update (update (signGroups (signOf text).1) 2 (some ['0', 'x'])) 3
        (some ((signOf text).2.drop 2))) 1 = (signOf text).1 := hsign _
    simp only [hfour, hone]
    rfl
  · have hfour : Groups.str (update (signGroups (signOf text).1) 3 (some (signOf text).2)) 4 = [] :=
      hother _ 4 (by decide)
    have htwo : Groups.str (update (signGroups (signOf text).1) 3 (some (signOf text).2)) 2 = [] :=
      hother _ 2 (by decide)
    have hone : Groups.str (update (signGroups (signOf text).1) 3 (some (signOf text).2)) 1 =
        (signOf text).1 := hsign _
    simp only [hfour, htwo, hone]
    rfl
  · rfl

/-- What the scanner by hand takes for an integer. -/
theorem splitInteger_hand {text : Text} (h : '\x00' ∉ text) :
    ByHand.SplitInteger text =
      if ['0', 'x'].isPrefixOf (signOf text).2 then
        if (signOf text).2.drop 2 ≠ [] then
          .ok ⟨(signOf text).1, ['0', 'x'], (signOf text).2.drop 2⟩
        else .error (.argument_incorrect_type text)
      else if (signOf text).2 ≠ [] then .ok ⟨(signOf text).1, [], (signOf text).2⟩
      else .error (.argument_incorrect_type text) := by
  rw [ByHand.SplitInteger, c_str_eq h]
  cases text with
  | nil => rfl
  | cons c t =>
      have hsign : (if (c :: t).head? = some '-' then (['-'], (c :: t).tail) else ([], c :: t)) =
        signOf (c :: t) := rfl
      simp only [List.isEmpty_cons, Bool.false_eq_true, if_false, hsign]
      cases hstart : ['0', 'x'].isPrefixOf (signOf (c :: t)).2 with
      | true => simp
      | false => simp

end Cxxopts
