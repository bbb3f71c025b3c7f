import MembershipLowering.Token.Basic

/-! # Finding tokens by position

Tokens stand in the order of the source, so the first one at or behind an offset
is found by halving.
-/

namespace MembershipLowering.Token

/-- Halve the `count` tokens from index `base` on. The answer is `base` or, if
    that one starts before `offset`, the index behind the last such token. -/
def firstFromWithin (tokens : Array Token) (offset base count : Nat) : Nat :=
  let startsBefore (i : Nat) : Bool := tokens[i]?.any (·.span.start < offset)
  if _h : count ≤ 1 then
    if startsBefore base then base + 1 else base
  else
    let half := count / 2
    firstFromWithin tokens offset (if startsBefore (base + half) then base + half else base)
      (count - half)
termination_by count

/-- Index of the first token that starts at or behind `offset`; the number of
    tokens if there is none. -/
def firstFrom (tokens : Array Token) (offset : Nat) : Nat :=
  firstFromWithin tokens offset 0 tokens.size

end MembershipLowering.Token
