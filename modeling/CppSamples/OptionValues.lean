/-
**The values of `cxxopts.hpp`, and the options of `solver.cpp`.**

A value is a type with its `parse_value`: a text is a string as it is, a truth value, an integer of
some width, or a list of strings with commas between them, to which every text adds.

Main definitions:

* `Cxxopts.getline` — a text at its commas;
* `Cxxopts.standard_value_string`, `Cxxopts.standard_value_bool`, `Cxxopts.standard_value_int`,
  `Cxxopts.standard_value_strings` — the values of the four types;
* `Cxxopts.solver_options` — the options of `solver.cpp`.

Main results:

* `Cxxopts.getline_join` — **a list that is written with commas is read back**.
-/

import CppSamples.IntegerParser
import CppSamples.OptionParser

set_option relaxedAutoImplicit false
set_option autoImplicit false

namespace Cxxopts

open KeyedLog

/-! ### Lists -/

/-- The pieces of a text, behind the characters that have been read: `std::getline` up to the end.
There is no piece behind the last comma if nothing stands there. -/
def getline (token : Text) : Text → List Text
  | [] => if token = [] then [] else [token]
  | c :: rest => if c = ',' then token :: getline [] rest else getline (token ++ [c]) rest

/-- Texts with commas between them. -/
def join : List Text → Text
  | [] => []
  | [token] => token
  | token :: tokens => token ++ ',' :: join tokens

theorem getline_append {token : Text} (s rest : Text) (h : ',' ∉ token) :
    getline s (token ++ rest) = getline (s ++ token) rest := by
  induction token generalizing s with
  | nil => rw [List.nil_append, List.append_nil]
  | cons c token ih =>
      rw [List.mem_cons, not_or] at h
      rw [List.cons_append, getline, if_neg (Ne.symm h.1), ih _ h.2, List.append_assoc,
        List.singleton_append]

/-- **A list that is written with commas is read back**, if its last text is not empty. -/
theorem getline_join {tokens : List Text} (h : ∀ token ∈ tokens, ',' ∉ token)
    (hlast : ∀ token ∈ tokens.getLast?, token ≠ []) : getline [] (join tokens) = tokens := by
  induction tokens with
  | nil => rfl
  | cons token tokens ih =>
      have htoken (rest : Text) := getline_append [] rest (h token List.mem_cons_self)
      cases tokens with
      | nil =>
          have hread := htoken []
          rw [List.append_nil, List.nil_append] at hread
          rw [join, hread, getline, if_neg (hlast token rfl)]
      | cons next tokens =>
          rw [join, htoken, List.nil_append, getline, if_pos rfl,
            ih (fun t ht => h t (List.mem_cons_of_mem _ ht)) hlast]
          intro htail
          cases htail

/-! ### Values -/

/-- What a value of one of the types has stored. -/
inductive Stored
  | string (text : Text)
  | bool (value : Bool)
  | int (value : BitVec 32)
  | strings (texts : List Text)
  deriving DecidableEq

/-- The elements of a list. -/
def Stored.elements : Stored → List Text
  | .strings texts => texts
  | _ => []

/-- `parse_value` of a truth value. -/
def parse_bool (IsTrueText IsFalseText : Text → Bool) (text : Text) : Except Error Bool :=
  if IsTrueText text then .ok true
  else if IsFalseText text then .ok false
  else .error (.argument_incorrect_type text)

/-- `value<std::string>()` -/
def standard_value_string : Value Stored where
  initial := .string []
  parse_value text _ := .ok (.string text)
  is_container := false
  has_default := false
  default_value := []
  has_implicit := false
  implicit_value := []

/-- `value<bool>()` -/
def standard_value_bool : Value Stored where
  initial := .bool false
  parse_value text _ := (parse_bool ByRegex.IsTrueText ByRegex.IsFalseText text).map .bool
  is_container := false
  has_default := true
  default_value := ['f', 'a', 'l', 's', 'e']
  has_implicit := true
  implicit_value := ['t', 'r', 'u', 'e']

/-- `value<int>()->default_value(text)` -/
def standard_value_int (text : Text) : Value Stored where
  initial := .int 0
  parse_value text _ := (integerParser ByRegex.SplitInteger 32 true text).map .int
  is_container := false
  has_default := true
  default_value := text
  has_implicit := false
  implicit_value := []

/-- `value<vector<string>>()` -/
def standard_value_strings : Value Stored where
  initial := .strings []
  parse_value text stored := .ok (.strings (stored.elements ++ getline [] text))
  is_container := true
  has_default := false
  default_value := []
  has_implicit := false
  implicit_value := []

/-! ### The options of `solver.cpp` -/

/-- The options of `solver.cpp`. -/
def solver_options : List (Text × Value Stored) :=
  [(['A', ',', 'm', 'a', 't', 'r', 'i', 'x'], standard_value_string),
    (['b', ',', 'b', 'l', 'o', 'c', 'k', '-', 's', 'i', 'z', 'e'], standard_value_int ['1']),
    (['p', ',', 'p', 'r', 'm'], standard_value_strings),
    (['h', ',', 'h', 'e', 'l', 'p'], standard_value_bool)]

/-- Every default can be parsed. -/
theorem solver_defaults : ∀ d ∈ solver_options, d.2.has_default = true →
    ∃ stored, d.2.parse_value d.2.default_value d.2.initial = .ok stored := by
  intro d hd hdefault
  simp only [solver_options, List.mem_cons, List.not_mem_nil, or_false] at hd
  obtain rfl | rfl | rfl | rfl := hd
  · cases hdefault
  · exact ⟨.int 1, rfl⟩
  · cases hdefault
  · exact ⟨.bool false, rfl⟩

/-- The parser of `solver.cpp`; the hash of a text is the text. -/
def solver : OptionParser Stored Text where
  m_options := (add_options ByRegex.SplitSwitchDef solver_options).toOption.getD []
  m_positional := []
  m_allow_unrecognised := true
  ParseArgument := ByRegex.ParseArgument
  hash := id

/-- The options of `solver.cpp` can be added. -/
theorem solver_added :
    add_options ByRegex.SplitSwitchDef solver_options = .ok solver.m_options := rfl

end Cxxopts
