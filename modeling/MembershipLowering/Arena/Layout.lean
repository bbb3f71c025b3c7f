import MembershipLowering.Arena.Basic

/-! # Laying out trees

A tree becomes a stretch of a node table in which every node follows its parts,
and the parts follow each other in the order of the source. So the last node of
the stretch is the tree itself.
-/

namespace MembershipLowering.Expr

mutual

/-- Number of nodes below an expression. -/
def countBelow : Expr → Nat
  | atom _ _ => 0
  | array _ es => countAll es
  | call _ f es => f.countBelow + 1 + countAll es
  | member _ o _ => o.countBelow + 1
  | index _ o k => o.countBelow + 1 + (k.countBelow + 1)
  | not _ _ e => e.countBelow + 1
  | binary _ l _ r => l.countBelow + 1 + (r.countBelow + 1)
  | membership _ l r _ => l.countBelow + 1 + (r.countBelow + 1)
  | assign _ t v => t.countBelow + 1 + (v.countBelow + 1)

/-- Number of nodes of a list of expressions. -/
def countAll : List Expr → Nat
  | [] => 0
  | e :: es => e.countBelow + 1 + countAll es

end

/-- Index of an expression whose stretch begins at `base`. -/
def place (base : Nat) (e : Expr) : NodeId :=
  base + e.countBelow

/-- Indices of expressions whose stretches follow each other from `base` on. -/
def places (base : Nat) : List Expr → List NodeId
  | [] => []
  | e :: es => e.place base :: places (e.place base + 1) es

mutual

/-- The nodes of an expression, laid out from index `base` on. -/
def layout (base : Nat) : Expr → List Node
  | atom x a => [⟨.atom a, x⟩]
  | array x es => layoutAll base es ++ [⟨.array (places base es), x⟩]
  | call x f es =>
    let next := f.place base + 1
    f.layout base ++ layoutAll next es ++ [⟨.call (f.place base) (places next es), x⟩]
  | member x o name => o.layout base ++ [⟨.member (o.place base) name, x⟩]
  | index x o k =>
    let next := o.place base + 1
    o.layout base ++ k.layout next ++ [⟨.index (o.place base) (k.place next), x⟩]
  | not x sign e => e.layout base ++ [⟨.not sign (e.place base), x⟩]
  | binary x l op r =>
    let next := l.place base + 1
    l.layout base ++ r.layout next ++ [⟨.binary (l.place base) op (r.place next), x⟩]
  | membership x l r negated =>
    let next := l.place base + 1
    l.layout base ++ r.layout next ++ [⟨.membership (l.place base) (r.place next) negated, x⟩]
  | assign x t v =>
    let next := t.place base + 1
    t.layout base ++ v.layout next ++ [⟨.assign (t.place base) (v.place next), x⟩]

/-- The nodes of a list of expressions, one stretch after the other. -/
def layoutAll (base : Nat) : List Expr → List Node
  | [] => []
  | e :: es => e.layout base ++ layoutAll (e.place base + 1) es

end

mutual

/-- An expression takes as many places as it has nodes. -/
theorem length_layout (base : Nat) (e : Expr) : (e.layout base).length = e.countBelow + 1 := by
  cases e with
  | atom => rfl
  | array x es => simp [layout, countBelow, length_layoutAll]
  | call x f es => simp [layout, countBelow, length_layout, length_layoutAll, Nat.add_assoc]
  | member x o name => simp [layout, countBelow, length_layout]
  | index x o k => simp [layout, countBelow, length_layout, Nat.add_assoc]
  | not x sign e => simp [layout, countBelow, length_layout]
  | binary x l op r => simp [layout, countBelow, length_layout, Nat.add_assoc]
  | membership x l r negated => simp [layout, countBelow, length_layout, Nat.add_assoc]
  | assign x t v => simp [layout, countBelow, length_layout, Nat.add_assoc]

/-- A list of expressions takes as many places as it has nodes. -/
theorem length_layoutAll (base : Nat) (es : List Expr) :
    (layoutAll base es).length = countAll es := by
  cases es with
  | nil => rfl
  | cons e es => simp [layoutAll, countAll, length_layout, length_layoutAll]

end

end MembershipLowering.Expr
