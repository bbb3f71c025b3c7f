import MembershipLowering.Expr.Operator

/-! # Expressions

The trees that a source text is read into. Parentheses are no trees of their
own: they widen the outer span of the expression they enclose.
-/

namespace MembershipLowering

/-- Expressions without parts. -/
inductive Atom where
  | identifier
  /-- `this` or `@`. -/
  | this
  | number
  | string
  | bool
  | null
  deriving DecidableEq, Repr

/-- An expression and where each part of it stands. -/
inductive Expr where
  | atom (extent : Extent) (atom : Atom)
  | array (extent : Extent) (elements : List Expr)
  | call (extent : Extent) (callee : Expr) (arguments : List Expr)
  /-- `object.name`, or `@name` with a bare `@` as its object. -/
  | member (extent : Extent) (object : Expr) (name : Span)
  /-- `object[key]`. -/
  | index (extent : Extent) (object key : Expr)
  /-- `not operand` or `!operand`; `sign` is the place of the `not`. -/
  | not (extent : Extent) (sign : Span) (operand : Expr)
  | binary (extent : Extent) (left : Expr) (operator : BinaryOperator) (right : Expr)
  /-- `left in right`, or `left not in right` when negated. -/
  | membership (extent : Extent) (left right : Expr) (negated : Bool)
  | assign (extent : Extent) (target value : Expr)
  deriving Repr

namespace Expr

/-- Where the expression stands. -/
def extent : Expr → Extent
  | atom x _ | array x _ | call x _ _ | member x _ _ | index x _ _ | not x _ _
  | binary x _ _ _ | membership x _ _ _ | assign x _ _ => x

/-- The expression's own text and the parentheses around it. -/
def outer (e : Expr) : Span :=
  e.extent.outer

/-- The same expression in parentheses from `start` to `stop`. -/
def parenthesize (start stop : Nat) : Expr → Expr
  | atom x a => atom (x.wrap start stop) a
  | array x es => array (x.wrap start stop) es
  | call x f es => call (x.wrap start stop) f es
  | member x o n => member (x.wrap start stop) o n
  | index x o k => index (x.wrap start stop) o k
  | not x s e => not (x.wrap start stop) s e
  | binary x l o r => binary (x.wrap start stop) l o r
  | membership x l r n => membership (x.wrap start stop) l r n
  | assign x t v => assign (x.wrap start stop) t v

/-- Whether a value may be assigned to the expression. -/
def isTarget : Expr → Bool
  | atom _ .identifier | member .. | index .. => true
  | _ => false

end Expr

end MembershipLowering
