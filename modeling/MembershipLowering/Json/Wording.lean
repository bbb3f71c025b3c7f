import MembershipLowering.Decimal.Shortest
import MembershipLowering.Json.Value
import MembershipLowering.Text.Quoted

/-! # Values in messages

How a value is named where another one was expected. Nothing but the wording of errors depends on
it, and with it on the shortest decimals and on the characters that are shown by number.
-/

namespace MembershipLowering.Json

/-- A value as messages name it. -/
def Value.describe : Value → String
  | .null => "null"
  | .bool b => "boolean " ++ "`" ++ (if b then "true" else "false") ++ "`"
  | .number n =>
    match n.integer? with
    | some i => "integer " ++ "`" ++ toString i ++ "`"
    | none => "floating point " ++ "`" ++ Decimal.text (n.float?.getD 0) ++ "`"
  | .string cs => "string " ++ Text.quoted cs
  | .array => "sequence"
  | .object => "map"

end MembershipLowering.Json
