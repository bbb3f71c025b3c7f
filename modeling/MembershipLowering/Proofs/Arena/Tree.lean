import MembershipLowering.Arena.Purity
import MembershipLowering.Lowering.State
import MembershipLowering.Proofs.Expr.Traits

/-! # Trees in a node table

A table that holds the nodes of a tree from some index on answers every question about
them as the tree itself does. Nothing is said about the rest of the table.
-/

namespace MembershipLowering

/-- The table has the given nodes from index `base` on. -/
def Arena.Holds (a : Arena) (base : NodeId) (nodes : List Node) : Prop :=
  ∀ i node, nodes[i]? = some node → a.get? (base + i) = some node

namespace Arena.Holds

variable {a : Arena} {base : NodeId} {nodes front back : List Node} {node : Node}

theorem left (h : a.Holds base (front ++ back)) : a.Holds base front := by
  intro i node get
  exact h i node (by rw [List.getElem?_append_left (List.getElem?_eq_some_iff.1 get).1, get])

theorem right (h : a.Holds base (front ++ back)) : a.Holds (base + front.length) back := by
  intro i node get
  rw [Nat.add_assoc]
  exact h (front.length + i) node (by rw [List.getElem?_append_right (by omega)]; simpa using get)

theorem get (h : a.Holds base (node :: back)) : a.get? base = some node :=
  h 0 node rfl

end Arena.Holds

namespace Expr

/-- The node of the expression itself, when its stretch begins at `base`. -/
def node (base : Nat) : Expr → Node
  | .atom x a => ⟨.atom a, x⟩
  | .array x es => ⟨.array (places base es), x⟩
  | .call x f es => ⟨.call (f.place base) (places (f.place base + 1) es), x⟩
  | .member x o name => ⟨.member (o.place base) name, x⟩
  | .index x o k => ⟨.index (o.place base) (k.place (o.place base + 1)), x⟩
  | .not x sign e => ⟨.not sign (e.place base), x⟩
  | .binary x l op r => ⟨.binary (l.place base) op (r.place (l.place base + 1)), x⟩
  | .membership x l r negated =>
    ⟨.membership (l.place base) (r.place (l.place base + 1)) negated, x⟩
  | .assign x t v => ⟨.assign (t.place base) (v.place (t.place base + 1)), x⟩

@[simp] theorem extent_node (base : Nat) (e : Expr) : (e.node base).extent = e.extent := by
  cases e <;> rfl

@[simp] theorem ofKind_node (base : Nat) (e : Expr) :
    ReceiverForm.ofKind (e.node base).kind = e.form := by
  cases e with
  | atom x a => cases a <;> rfl
  | _ => rfl

/-- A node refers to the parts of its expression. -/
theorem children_node (base : Nat) (e : Expr) :
    (e.node base).kind.children = places base e.parts := by
  cases e <;> rfl

/-- The expression itself comes last in its stretch, behind its parts. -/
theorem layout_eq (base : Nat) (e : Expr) :
    e.layout base = layoutAll base e.parts ++ [e.node base] := by
  cases e <;> simp [layout, layoutAll, parts, node]

/-- The next stretch begins behind the expression. -/
theorem add_length_layout (base : Nat) (e : Expr) :
    base + (e.layout base).length = e.place base + 1 := by
  rw [length_layout, place, Nat.add_assoc]

end Expr

namespace Arena

variable {a : Arena} {base : NodeId}

/-- Looking up the expression. -/
theorem Holds.get?_place {e : Expr} (h : a.Holds base (e.layout base)) :
    a.get? (e.place base) = some (e.node base) := by
  rw [Expr.layout_eq] at h
  have last := h.right.get
  rwa [Expr.length_layoutAll, ← Expr.countBelow_eq] at last

theorem Holds.isMembership {e : Expr} (h : a.Holds base (e.layout base)) :
    a.isMembership (e.place base) = e.isMembership := by
  rw [Arena.isMembership, h.get?_place]
  cases e <;> rfl

theorem Holds.next {e : Expr} {back : List Node} (h : a.Holds base (e.layout base ++ back)) :
    a.Holds (e.place base + 1) back := by
  rw [← e.add_length_layout]
  exact h.right

mutual

/-- As many steps as the tree is high are enough to tell. -/
theorem Holds.isPureWithin {n : Nat} {e : Expr} {base : NodeId}
    (h : a.Holds base (e.layout base)) (enough : e.height ≤ n) :
    a.isPureWithin n (e.place base) = e.isPure := by
  cases n with
  | zero => exact absurd enough (by cases e <;> simp [Expr.height])
  | succ n =>
      rw [Arena.isPureWithin, h.get?_place]
      cases e with
      | atom => rfl
      | array x es =>
          rw [Expr.height] at enough
          rw [Expr.layout] at h
          exact h.left.isPureWithinAll (by omega)
      | call => rfl
      | assign => rfl
      | member x o name | not x sign e =>
          rw [Expr.height] at enough
          rw [Expr.layout] at h
          simp only [Expr.node, NodeKind.children, List.all_cons, List.all_nil, Bool.and_true,
            h.left.isPureWithin (n := n) (by omega), Expr.isPure]
      | index x l r | binary x l op r | membership x l r negated =>
          rw [Expr.height] at enough
          rw [Expr.layout, List.append_assoc] at h
          simp only [Expr.node, NodeKind.children, List.all_cons, List.all_nil, Bool.and_true,
            h.left.isPureWithin (n := n) (by omega),
            h.next.left.isPureWithin (n := n) (by omega), Expr.isPure]

theorem Holds.isPureWithinAll {fuel : Nat} {es : List Expr} {base : NodeId}
    (h : a.Holds base (Expr.layoutAll base es)) (enough : Expr.heightAll es ≤ fuel) :
    (Expr.places base es).all (a.isPureWithin fuel) = Expr.isPureAll es := by
  cases es with
  | nil => rfl
  | cons e es =>
      rw [Expr.heightAll] at enough
      rw [Expr.layoutAll] at h
      rw [Expr.places, List.all_cons, Expr.isPureAll, h.left.isPureWithin (by omega),
        h.next.isPureWithinAll (by omega)]

end

/-- The purity of a node is that of its expression. -/
theorem Holds.isPure {e : Expr} (h : a.Holds base (e.layout base)) :
    a.isPure (e.place base) = e.isPure := by
  have inside : base + e.countBelow < a.size := (Array.getElem?_eq_some_iff.1 h.get?_place).1
  exact h.isPureWithin (Nat.le_trans e.height_le_countBelow
    (Nat.lt_of_le_of_lt (Nat.le_add_left _ base) inside))

end Arena

end MembershipLowering
