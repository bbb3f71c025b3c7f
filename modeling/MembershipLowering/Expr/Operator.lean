import MembershipLowering.Token.Basic

/-! # Binary operators

The operators of the source language, apart from the membership test, with
their spellings on both sides and their binding strength.
-/

namespace MembershipLowering

inductive BinaryOperator where
  | add
  | subtract
  | multiply
  | divide
  | modulo
  | lessThan
  | lessThanOrEqual
  | greaterThan
  | greaterThanOrEqual
  /-- `is` or `==`. -/
  | equal
  /-- `isnt` or `!=`. -/
  | notEqual
  /-- `and` or `&&`. -/
  | and
  /-- `or` or `||`. -/
  | or
  | instanceOf
  deriving DecidableEq, Repr

namespace BinaryOperator

/-- The operator that a source token spells. -/
def ofText? : String → Option BinaryOperator
  | "+" => some add
  | "-" => some subtract
  | "*" => some multiply
  | "/" => some divide
  | "%" => some modulo
  | "<" => some lessThan
  | "<=" => some lessThanOrEqual
  | ">" => some greaterThan
  | ">=" => some greaterThanOrEqual
  | "is" | "==" => some equal
  | "isnt" | "!=" => some notEqual
  | "and" | "&&" => some and
  | "or" | "||" => some or
  | "instanceof" => some instanceOf
  | _ => none

/-- How the operator is written in JavaScript. -/
def javaScript : BinaryOperator → String
  | add => "+"
  | subtract => "-"
  | multiply => "*"
  | divide => "/"
  | modulo => "%"
  | lessThan => "<"
  | lessThanOrEqual => "<="
  | greaterThan => ">"
  | greaterThanOrEqual => ">="
  | equal => "==="
  | notEqual => "!=="
  | and => "&&"
  | or => "||"
  | instanceOf => "instanceof"

/-- Binding strength; a higher level binds tighter. -/
def level : BinaryOperator → Nat
  | or => 1
  | and => 2
  | equal | notEqual | lessThan | lessThanOrEqual | greaterThan | greaterThanOrEqual => 3
  | instanceOf => 4
  | add | subtract => 5
  | multiply | divide | modulo => 6

/-- The level of the relations `in`, `not in` and `instanceof`. -/
def relationLevel : Nat := 4

/-- The class of the token that stands for the operator between its operands. -/
def tokenKind : BinaryOperator → TokenKind
  | instanceOf => .relation
  | _ => .operator

end BinaryOperator

end MembershipLowering
