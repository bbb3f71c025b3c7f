import MembershipLowering.Arena.Basic

/-! # Adapting the receiver

`a in b` becomes a call of a method of `b`. What has to be put around `b` first
depends on what kind of expression it is and on whether `b` may be trusted to
be an array already.
-/

namespace MembershipLowering

/-- Kinds of expressions, as far as they matter in front of a method call. -/
inductive ReceiverForm where
  | identifier
  | member
  | index
  | call
  | arrayLiteral
  | stringLiteral
  | other
  deriving DecidableEq, Repr

namespace ReceiverForm

def ofKind : NodeKind → ReceiverForm
  | .atom .identifier => identifier
  | .member .. => member
  | .index .. => index
  | .call .. => call
  | .array _ => arrayLiteral
  | .atom .string => stringLiteral
  | _ => other

def isArrayLiteral (f : ReceiverForm) : Bool :=
  f = arrayLiteral

/-- Whether a method call can be put right behind the expression. -/
def acceptsCall (f : ReceiverForm) : Bool :=
  f ≠ other

end ReceiverForm

/-- What is put around a receiver. -/
structure Adaptation where
  /-- Turn the receiver into an array. -/
  arrayFrom : Bool
  /-- Put it in parentheses. -/
  parens : Bool
  deriving DecidableEq, Repr

namespace Adaptation

/-- The function that makes an array of anything that can be iterated over. -/
def arrayFromText : String := "Array.from"

/-- An array literal needs no conversion, and with `loose` nothing is converted.
    A conversion needs parentheses, and so does what is no receiver as it is. -/
def decide (form : ReceiverForm) (loose : Bool) : Adaptation :=
  let arrayFrom := !loose && !form.isArrayLiteral
  ⟨arrayFrom, arrayFrom || !form.acceptsCall⟩

/-- The adapted code of a receiver. -/
def wrap (a : Adaptation) (code : String) : String :=
  if a.arrayFrom then arrayFromText ++ "(" ++ code ++ ")"
  else if a.parens then "(" ++ code ++ ")"
  else code

end Adaptation

end MembershipLowering
