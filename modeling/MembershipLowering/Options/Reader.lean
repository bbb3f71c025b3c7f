import MembershipLowering.Json.Reader
import MembershipLowering.Options.Basic
import MembershipLowering.Text.Blank

/-! # Reading options

Options are a record of which only the field `looseIncludes` counts. Its value is a truth value or
a text that spells one. Which JSON library reads them is left open up to `ofJson`.
-/

namespace MembershipLowering.Options

open Json (Library)

/-- The name of the field that counts. -/
def key : String := "looseIncludes"

/-- The truth value that a text spells. -/
def switch? (cs : List Char) : Option Bool :=
  if ["true", "1", "yes", "on"].any (Text.spells · cs) then some true
  else if ["false", "0", "no", "off"].any (Text.spells · cs) then some false
  else none

/-- What is said about a text that spells none. -/
def unknownWord (text : String) : String :=
  "invalid boolean value: '" ++ text ++ "'. Expected true, false, 'true', or 'false'"

/-- A value of the field. -/
inductive BoolOrString where
  | bool (b : Bool)
  | string (text : String)
  deriving DecidableEq, Repr

namespace BoolOrString

variable (lib : Library)

/-- A truth value if it is one, and a text otherwise. -/
def reader : lib.Reader BoolOrString :=
  lib.firstOf "BoolOrString"
    [lib.andThen lib.bool fun b => .ok (.bool b),
      lib.andThen lib.string fun text => .ok (.string text)]

/-- The truth value that is meant. -/
def switch : BoolOrString → Except lib.Error Bool
  | bool b => .ok b
  | string text =>
    match switch? text.toList with
    | some b => .ok b
    | none => .error (lib.custom (unknownWord text))

end BoolOrString

/-- Read options. What is not said stays at its standard. -/
def read (lib : Library) (text : String) : Except lib.Error Options :=
  let switch := lib.andThen (BoolOrString.reader lib) (BoolOrString.switch lib)
  (lib.record "PatchOptions" key standard.looseIncludes switch text).map Options.mk

abbrev Error := Json.Error

/-- Read options with the library that runs. -/
def ofJson : String → Except Error Options :=
  read Json.library

end MembershipLowering.Options
