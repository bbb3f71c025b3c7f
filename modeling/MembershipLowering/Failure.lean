import MembershipLowering.Arena.Basic
import MembershipLowering.Draft
import MembershipLowering.Expr.Parser

/-! # Failures

What can go wrong between a source text and its lowered form.
-/

namespace MembershipLowering

inductive Failure where
  | parse (error : ParseError)
  | edit (error : Draft.Error)
  /-- A node that is not in the table. -/
  | missingNode (node : NodeId)
  /-- A membership test that has been lowered before. -/
  | alreadyLowered (node : NodeId)
  | tooDeep (node : NodeId)
  /-- Every name made from `base` is in use. -/
  | namesExhausted (base : String)
  deriving DecidableEq, Repr

namespace Failure

/-- The message of the error that a failure passes on. -/
def source? : Failure → Option String
  | parse e => some e.message
  | edit e => some e.message
  | _ => none

def message : Failure → String
  | parse e => "parse error: " ++ e.message
  | edit e => "edit error: " ++ e.message
  | missingNode n => "node #" ++ toString n ++ " is not in the arena"
  | alreadyLowered n => "node #" ++ toString n ++ " was already patched"
  | tooDeep n => "expression at node #" ++ toString n ++ " is nested too deeply"
  | namesExhausted base => "no free binding name derived from '" ++ base ++ "'"

end Failure

end MembershipLowering
