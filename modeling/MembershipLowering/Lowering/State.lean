import MembershipLowering.Document
import MembershipLowering.Membership.Rule
import MembershipLowering.NameSupply

/-! # The state of a lowering

Lowering a document edits a draft of its source and hands out names for
temporaries. Every membership test starts with a rule that waits for it, into
which each `not` around the test has been folded; the rule is gone once the test
is lowered.
-/

namespace MembershipLowering

/-- The rules of the membership tests among the nodes from index `n` on. -/
def Rule.ofNodes (n : NodeId) : List Node → List Rule
  | [] => []
  | ⟨.membership left right negated, _⟩ :: nodes =>
    ⟨n, left, right, negated⟩ :: ofNodes (n + 1) nodes
  | _ :: nodes => ofNodes (n + 1) nodes

/-- Fold a node into the rules: a `not` flips the rule of its operand. -/
def Rule.fold (rules : List Rule) (node : Node) : List Rule :=
  match node.kind with
  | .not _ operand => rules.map fun r => if r.node = operand then r.flip else r
  | _ => rules

namespace Arena

/-- The rules for all membership tests of a table. -/
def rules (a : Arena) : List Rule :=
  a.nodes.toList.foldl Rule.fold (Rule.ofNodes 0 a.nodes.toList)

/-- Whether node `n` is a membership test. -/
def isMembership (a : Arena) (n : NodeId) : Bool :=
  match a.get? n with
  | some ⟨.membership .., _⟩ => true
  | _ => false

end Arena

namespace Document

/-- The names that stand in the source as identifiers. -/
def identifiers (d : Document) : List String :=
  d.arena.nodes.toList.filterMap fun node =>
    match node.kind with
    | .atom .identifier => some (node.extent.content.text d.source)
    | _ => none

end Document

namespace Lowering

/-- What changes while a document is lowered. -/
structure State where
  draft : Draft
  names : NameSupply
  /-- The rules of the tests that have not been lowered yet. -/
  pending : List Rule

namespace State

/-- Before anything is lowered. -/
def initial (d : Document) : State where
  draft := .ofSource d.source
  names := .avoiding d.identifiers
  pending := d.arena.rules

def rule? (s : State) (n : NodeId) : Option Rule :=
  s.pending.find? (·.node = n)

/-- Whether the test at node `n` is going to be negated. -/
def isNegated? (s : State) (n : NodeId) : Option Bool :=
  (s.rule? n).map (·.negated)

/-- Whether a statement that is node `n` has to be put in parentheses. -/
def needsParens (s : State) (n : NodeId) : Bool :=
  (s.rule? n).any (·.needsParens)

/-- The state without the rule of node `n`. -/
def drop (s : State) (n : NodeId) : State :=
  { s with pending := s.pending.filter (·.node ≠ n) }

end State

end Lowering

end MembershipLowering
