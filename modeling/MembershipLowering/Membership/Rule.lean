import MembershipLowering.Membership.Host

/-! # The membership rule

JavaScript has no membership operator, so a test becomes a method call on its
right operand:

    x in [1, 2, 3]     [1, 2, 3].includes(x)
    x not in list      !Array.from(list).includes(x)
    foo() in bar()     (needle = foo(), Array.from(bar()).includes(needle))

The call evaluates the right operand first. Where that could be noticed, the left
operand is stored in a temporary beforehand, so that it still comes first.
-/

namespace MembershipLowering

/-- One membership test that is to be lowered. -/
structure Rule where
  node : NodeId
  left : NodeId
  right : NodeId
  negated : Bool
  deriving DecidableEq, Repr

namespace Rule

/-- Base name of the temporary for the left operand. -/
def needle : String := "needle"

/-- Class of the token between the operands. -/
def tokenKind : TokenKind := .relation

/-- The rule of the opposite test. -/
def flip (r : Rule) : Rule :=
  { r with negated := !r.negated }

/-- Whether the lowered test has to be put in parentheses to be a statement. A
    method call and a comma expression in parentheses are fine as they are. -/
def needsParens (_ : Rule) : Bool :=
  false

variable {σ : Type}

/-- What the host has to put around the right operand. -/
def adaptation (r : Rule) (h : Host σ) : Action σ Adaptation := do
  let s ← get
  return .decide (h.form s r.right) (h.loose s)

/-- Both operands are pure: the lowered right operand moves to the front. -/
def lowerMoving (r : Rule) (h : Host σ) : Action σ Unit := do
  let left ← h.extent r.left
  let right ← h.extent r.right
  let adaptation ← r.adaptation h
  let code ← h.lowerToCode r.right
  h.remove left.outer.stop right.outer.stop
  if r.negated then
    h.insert left.outer.start "!"
  h.insert left.outer.start (adaptation.wrap code ++ ".includes(")
  h.lower r.left
  h.insert left.outer.stop ")"

/-- Either operand may have effects: the left one is stored, then the test is
    made on the right one where it stands. -/
def lowerStoring (r : Rule) (h : Host σ) : Action σ Unit := do
  let whole ← h.extent r.node
  let left ← h.extent r.left
  let right ← h.extent r.right
  let adaptation ← r.adaptation h
  h.insert whole.content.start "("
  let name ← h.lowerToName r.left needle true
  h.insert left.outer.stop ", "
  h.remove left.outer.stop right.outer.start
  if r.negated then
    h.insert right.outer.start "!"
  if adaptation.arrayFrom then
    h.insert right.outer.start Adaptation.arrayFromText
  if adaptation.parens then
    h.insert right.outer.start "("
  h.lower r.right
  if adaptation.parens then
    h.insert right.outer.stop ")"
  h.insert right.outer.stop (".includes(" ++ name ++ "))")

/-- Lower a membership test. -/
def lower (r : Rule) (h : Host σ) : Action σ Unit :=
  if h.isPure r.left && h.isPure r.right then r.lowerMoving h else r.lowerStoring h

end Rule

end MembershipLowering
