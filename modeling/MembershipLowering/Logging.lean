import MembershipLowering.Text.Blank

/-! # Logging settings

What to log and how, as the environment says it. A filter is a list of
directives separated by commas, in which some words stand for directives that
are used often.
-/

namespace MembershipLowering.Logging

/-- How log lines are written. -/
inductive Format where
  | text
  | tree
  | json
  deriving DecidableEq, Repr

/-- The format that a word names; any other word means plain text. -/
def Format.ofText (s : String) : Format :=
  if Text.spells "tree" s.toList then .tree
  else if Text.spells "json" s.toList then .json
  else .text

/-- The directives that an entry of a filter stands for. -/
def expandEntry (entry : List Char) : List Char :=
  if entry = "rules".toList then
    "dcf_patcher::in_op=debug,dcf_patcher::main_stage=debug".toList
  else if entry = "edits".toList then "dcf_patcher::main_stage=trace".toList
  else if entry = "parse".toList then "dcf_parser=trace".toList
  else entry

/-- The entries of a filter, without blanks around them and without empty ones. -/
def entries (filter : List Char) : List (List Char) :=
  ((filter.splitOn ',').map Text.trim).filter (· ≠ [])

/-- A filter with every entry replaced by what it stands for. -/
def expandFilter (filter : String) : String :=
  String.ofList ([','].intercalate ((entries filter.toList).map expandEntry))

/-- What to log and how. -/
structure Settings where
  filter : String
  format : Format
  deriving DecidableEq, Repr

/-- The settings that an environment asks for, if it asks for logging at all. -/
def Settings.ofEnvironment (lookup : String → Option String) : Option Settings :=
  ((lookup "DCF_LOG").or (lookup "RUST_LOG")).map fun filter =>
    ⟨expandFilter filter, ((lookup "DCF_LOG_FORMAT").map Format.ofText).getD .text⟩

end MembershipLowering.Logging
