import MembershipLowering.Expr.Basic

/-! # Node tables

A program as a table of nodes that refer to each other by index. Nothing forces
the indices to exist, to be used once or to form a tree: tables are also built
by hand, and what reads them copes with every table.
-/

namespace MembershipLowering

/-- Place of a node in its table. -/
abbrev NodeId := Nat

/-- What a node is. Parts are given by index. -/
inductive NodeKind where
  | program (statements : List NodeId)
  | atom (atom : Atom)
  | array (elements : List NodeId)
  | call (callee : NodeId) (arguments : List NodeId)
  | member (object : NodeId) (name : Span)
  | index (object key : NodeId)
  | not (sign : Span) (operand : NodeId)
  | binary (left : NodeId) (operator : BinaryOperator) (right : NodeId)
  | membership (left right : NodeId) (negated : Bool)
  | assign (target value : NodeId)
  deriving DecidableEq, Repr

namespace NodeKind

/-- The parts of a node in the order of the source. -/
def children : NodeKind → List NodeId
  | program statements => statements
  | atom _ => []
  | array elements => elements
  | call callee arguments => callee :: arguments
  | member object _ => [object]
  | index object key => [object, key]
  | not _ operand => [operand]
  | binary left _ right => [left, right]
  | membership left right _ => [left, right]
  | assign target value => [target, value]

end NodeKind

/-- A node and where it stands in the source. -/
structure Node where
  kind : NodeKind
  extent : Extent
  deriving DecidableEq, Repr

/-- Nodes in the order in which they were added. -/
structure Arena where
  nodes : Array Node
  deriving DecidableEq, Repr

namespace Arena

def empty : Arena :=
  ⟨#[]⟩

def size (a : Arena) : Nat :=
  a.nodes.size

/-- Add a node without parentheses around it. -/
def add (a : Arena) (kind : NodeKind) (content : Span) : Arena :=
  ⟨a.nodes.push ⟨kind, .bare content⟩⟩

/-- The index that the next added node gets. -/
def nextId (a : Arena) : NodeId :=
  a.nodes.size

def get? (a : Arena) (n : NodeId) : Option Node :=
  a.nodes[n]?

/-- Put node `n`, if it exists, in parentheses from `start` to `stop`. -/
def parenthesize (a : Arena) (n : NodeId) (start stop : Nat) : Arena :=
  ⟨a.nodes.modify n fun node => { node with extent := node.extent.wrap start stop }⟩

end Arena

end MembershipLowering
