import MembershipLowering.Arena.Basic

/-! # Expressions without effects

Calls and assignments have effects. Everything else has them only through its
parts.
-/

namespace MembershipLowering.Arena

/-- Whether node `n` is free of effects, as far as `fuel` steps down can tell. A
    node that does not exist, or lies deeper, is not. -/
def isPureWithin (a : Arena) : (fuel : Nat) → NodeId → Bool
  | 0, _ => false
  | fuel + 1, n =>
    match a.get? n with
    | none => false
    | some node =>
      match node.kind with
      | .program _ | .call .. | .assign .. => false
      | kind => kind.children.all (isPureWithin a fuel)

/-- Whether node `n` and all nodes below it exist and none of them is a call, an
    assignment or a program. No path that visits each node once is longer than
    the table. -/
def isPure (a : Arena) (n : NodeId) : Bool :=
  isPureWithin a a.size n

end MembershipLowering.Arena
