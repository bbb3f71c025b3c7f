import MembershipLowering.Text.Unprintable

/-! # Quoted texts

A text between double quotes, as error messages show it: on one line, and with
every character visible.
-/

namespace MembershipLowering.Text

/-- A number in hexadecimal digits. -/
def hexadecimal (n : Nat) : String :=
  String.ofList (Nat.toDigits 16 n)

/-- A character as it stands in a quoted text. -/
def quotedChar : Char → String
  | '"' => "\\\""
  | '\\' => "\\\\"
  | '\x00' => "\\0"
  | '\t' => "\\t"
  | '\n' => "\\n"
  | '\r' => "\\r"
  | c => if isUnprintable c then "\\u\x7b" ++ hexadecimal c.toNat ++ "\x7d" else c.toString

/-- A text between quotes. -/
def quoted (cs : List Char) : String :=
  "\"" ++ String.join (cs.map quotedChar) ++ "\""

example : quoted ['a', '"', '\n', '\x01'] = "\"a\\\"\\n\\u\x7b1\x7d\"" := by cbv

end MembershipLowering.Text
