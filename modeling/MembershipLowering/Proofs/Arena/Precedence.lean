import MembershipLowering.Proofs.Arena.Rooted
import MembershipLowering.Proofs.Expr.Precedence

/-! # Levels in the table of a source

The table that a source is read into is grouped by the levels of its nodes
(`Document.Grouped`). Binary levels group to the left and assignments to the right, and what
would group otherwise has parentheses, so that its outer range is wider than its content.
-/

namespace MembershipLowering

namespace NodeKind

/-- How tight the node's own construct binds. -/
def level : NodeKind → Nat
  | program _ | assign .. => 0
  | binary _ op _ => op.level
  | membership .. => BinaryOperator.relationLevel
  | not .. => 7
  | atom _ | array _ | call .. | member .. | index .. => 8

/-- The two operands of an operator, a membership test included. -/
def operands? : NodeKind → Option (NodeId × NodeId)
  | binary left _ right | membership left right _ => some (left, right)
  | _ => none

/-- The callee of a call, or the object whose member is accessed. -/
def object? : NodeKind → Option NodeId
  | call object _ | member object _ | index object _ => some object
  | _ => none

/-- The parts that have ends of their own or stand last: statements, elements, arguments,
    indices and assigned values. -/
def delimited : NodeKind → List NodeId
  | program parts | array parts | call _ parts => parts
  | index _ part | assign _ part => [part]
  | _ => []

/-- Names and members, to which a value may be assigned. -/
def isTarget : NodeKind → Bool
  | atom .identifier | member .. | index .. => true
  | _ => false

@[simp] theorem level_node (base : Nat) (e : Expr) : (e.node base).kind.level = e.level := by
  cases e <;> rfl

@[simp] theorem isTarget_node (base : Nat) (e : Expr) :
    (e.node base).kind.isTarget = e.isTarget := by
  cases e with
  | atom x a => cases a <;> rfl
  | _ => rfl

end NodeKind

namespace Arena

/-- The node exists, and if it stands bare it binds at least as tight as the given level. -/
def BindsAt (a : Arena) (least : Nat) (n : NodeId) : Prop :=
  ∃ node, a.get? n = some node ∧ (node.extent.IsBare → least ≤ node.kind.level)

theorem Holds.bindsAt {a : Arena} {base least : Nat} {e : Expr}
    (h : a.Holds base (e.layout base)) (binds : e.BindsAt least) :
    a.BindsAt least (e.place base) := by
  refine ⟨_, h.get?_place, fun bare => ?_⟩
  rw [Expr.extent_node] at bare
  rw [NodeKind.level_node]
  exact binds bare

/-- A node that holds an expression other than an assignment. -/
theorem BindsAt.not_bare_assign {a : Arena} {least n : Nat} {node : Node} {target value : NodeId}
    (h : a.BindsAt least n) (positive : 0 < least) (found : a.get? n = some node)
    (bare : node.extent.IsBare) : node.kind ≠ .assign target value := by
  obtain ⟨node', found', binds⟩ := h
  cases found.symm.trans found'
  intro isAssign
  have tight := binds bare
  rw [isAssign] at tight
  exact absurd (Nat.lt_of_lt_of_le positive tight) (Nat.lt_irrefl 0)

end Arena

/-- The nodes of the document are grouped by level. -/
structure Document.Grouped (d : Document) : Prop where
  /-- Operators of one level group to the left. -/
  operands : ∀ n node, d.arena.get? n = some node → ∀ left right,
    node.kind.operands? = some (left, right) →
      d.arena.BindsAt node.kind.level left ∧ d.arena.BindsAt (node.kind.level + 1) right
  /-- What is negated binds as tight as `not` itself. -/
  negated : ∀ n node, d.arena.get? n = some node → ∀ sign operand,
    node.kind = .not sign operand → d.arena.BindsAt 7 operand
  /-- Only the tightest constructs are called or accessed. -/
  accessed : ∀ n node, d.arena.get? n = some node → ∀ object,
    node.kind.object? = some object → d.arena.BindsAt 8 object
  /-- A bare assignment is nowhere an operand. -/
  assigned : ∀ n node, d.arena.get? n = some node → node.extent.IsBare → ∀ target value,
    node.kind = .assign target value → ∀ m parent, d.arena.get? m = some parent →
      n ∈ parent.kind.children → n ∈ parent.kind.delimited
  /-- Values are assigned to names and members. -/
  targets : ∀ n node, d.arena.get? n = some node → ∀ target value,
    node.kind = .assign target value →
      ∃ part, d.arena.get? target = some part ∧ part.kind.isTarget = true

namespace Arena.Holds

variable {a : Arena} {base : Nat} {e : Expr}

theorem operands (h : a.Holds base (e.layout base)) (grouped : e.Grouped) {left right : NodeId}
    (isOperator : (e.node base).kind.operands? = some (left, right)) :
    a.BindsAt e.level left ∧ a.BindsAt (e.level + 1) right := by
  cases e with
  | binary x l op r | membership x l r negated =>
      cases isOperator
      rw [Expr.layout, List.append_assoc] at h
      exact ⟨h.left.bindsAt grouped.1, h.next.left.bindsAt grouped.2⟩
  | _ => cases isOperator

theorem negated (h : a.Holds base (e.layout base)) (grouped : e.Grouped) {sign : Span}
    {operand : NodeId} (isNot : (e.node base).kind = .not sign operand) :
    a.BindsAt 7 operand := by
  cases e with
  | not x sign e =>
      cases isNot
      rw [Expr.layout] at h
      exact h.left.bindsAt grouped
  | _ => cases isNot

theorem accessed (h : a.Holds base (e.layout base)) (grouped : e.Grouped) {object : NodeId}
    (isObject : (e.node base).kind.object? = some object) : a.BindsAt 8 object := by
  cases e with
  | call x f es | index x o k =>
      cases isObject
      rw [Expr.layout, List.append_assoc] at h
      exact h.left.bindsAt grouped
  | member x o name =>
      cases isObject
      rw [Expr.layout] at h
      exact h.left.bindsAt grouped
  | _ => cases isObject

theorem target (h : a.Holds base (e.layout base)) (grouped : e.Grouped) {target value : NodeId}
    (isAssign : (e.node base).kind = .assign target value) :
    ∃ part, a.get? target = some part ∧ part.kind.isTarget = true := by
  cases e with
  | assign x t v =>
      cases isAssign
      rw [Expr.layout, List.append_assoc] at h
      exact ⟨_, h.left.get?_place, (NodeKind.isTarget_node base t).trans grouped⟩
  | _ => cases isAssign

/-- A part is delimited, or it is the target of an assignment, or it binds tighter than an
    assignment does. -/
theorem part (h : a.Holds base (e.layout base)) (grouped : e.Grouped) {n : NodeId}
    (isPart : n ∈ (e.node base).kind.children) :
    n ∈ (e.node base).kind.delimited ∨ (∃ value, (e.node base).kind = .assign n value) ∨
      ∃ least, 0 < least ∧ a.BindsAt least n := by
  cases e with
  | atom => cases isPart
  | array => exact .inl isPart
  | call x f es | index x o k =>
      cases List.mem_cons.1 isPart with
      | inl same => exact .inr (.inr ⟨8, by decide, h.accessed grouped (congrArg some same.symm)⟩)
      | inr later => exact .inl later
  | member x o name =>
      exact .inr (.inr ⟨8, by decide,
        h.accessed grouped (congrArg some (List.mem_singleton.1 isPart).symm)⟩)
  | not x sign e =>
      cases List.mem_singleton.1 isPart
      exact .inr (.inr ⟨7, by decide, h.negated grouped rfl⟩)
  | binary x l op r =>
      have positive : 0 < op.level := by cases op <;> decide
      obtain ⟨left, right⟩ := h.operands grouped rfl
      cases List.mem_cons.1 isPart with
      | inl same => exact .inr (.inr ⟨_, positive, same ▸ left⟩)
      | inr later => exact .inr (.inr ⟨_, Nat.succ_pos _, List.mem_singleton.1 later ▸ right⟩)
  | membership x l r negated =>
      obtain ⟨left, right⟩ := h.operands grouped rfl
      cases List.mem_cons.1 isPart with
      | inl same =>
          exact .inr (.inr ⟨BinaryOperator.relationLevel, by decide, same ▸ left⟩)
      | inr later => exact .inr (.inr ⟨_, Nat.succ_pos _, List.mem_singleton.1 later ▸ right⟩)
  | assign x t v =>
      cases List.mem_cons.1 isPart with
      | inl same => exact .inr (.inl ⟨_, by rw [same]; rfl⟩)
      | inr later => exact .inl later

end Arena.Holds

namespace Document

variable {source : String} {tokens : List Token} {es : List Expr}

/-- What is read from a source is grouped by level. -/
theorem grouped_ofStatements (read : Token.readAll source = .ok tokens)
    (parsed : Parser.statements source tokens = .ok es) :
    (ofStatements source tokens es).Grouped := by
  -- Every node but the program holds an expression of the source.
  have holds : ∀ n node, (ofStatements source tokens es).arena.get? n = some node →
      (∃ statements, node.kind = .program statements) ∨
        ∃ (c : Expr) (place : Nat), c.Grouped ∧ node = c.node place ∧
          (ofStatements source tokens es).arena.Holds place (c.layout place) := by
    intro n node found
    rcases cases_of_get? found with ⟨-, rfl⟩ | ⟨-, e, he, c, place, within, -, same, holds⟩
    · exact .inl ⟨_, rfl⟩
    · exact .inr ⟨c, place, Parser.grouped_of_statements read parsed he within, same, holds⟩
  constructor
  case operands =>
    intro n node found left right isOperator
    rcases holds n node found with ⟨statements, isProgram⟩ | ⟨c, place, grouped, rfl, holds⟩
    · rw [isProgram] at isOperator
      cases isOperator
    · rw [NodeKind.level_node]
      exact holds.operands grouped isOperator
  case negated =>
    intro n node found sign operand isNot
    rcases holds n node found with ⟨statements, isProgram⟩ | ⟨c, place, grouped, rfl, holds⟩
    · cases isProgram.symm.trans isNot
    · exact holds.negated grouped isNot
  case accessed =>
    intro n node found object isObject
    rcases holds n node found with ⟨statements, isProgram⟩ | ⟨c, place, grouped, rfl, holds⟩
    · rw [isProgram] at isObject
      cases isObject
    · exact holds.accessed grouped isObject
  case targets =>
    intro n node found target value isAssign
    rcases holds n node found with ⟨statements, isProgram⟩ | ⟨c, place, grouped, rfl, holds⟩
    · cases isProgram.symm.trans isAssign
    · exact holds.target grouped isAssign
  case assigned =>
    intro n node found bare target value isAssign m parent foundParent isPart
    rcases holds m parent foundParent with ⟨statements, isProgram⟩ | ⟨c, place, grouped, rfl, holds⟩
    · rw [isProgram] at isPart ⊢
      exact isPart
    · rcases holds.part grouped isPart with delimited | ⟨other, isTarget⟩ | ⟨least, positive, binds⟩
      · exact delimited
      · obtain ⟨part, foundPart, isTarget⟩ := holds.target grouped isTarget
        cases found.symm.trans foundPart
        rw [isAssign] at isTarget
        cases isTarget
      · exact absurd isAssign (binds.not_bare_assign positive found bare)

/-- An accepted source is grouped by level. -/
theorem grouped_of_parse {d : Document} (h : parse source = .ok d) : d.Grouped := by
  obtain ⟨tokens, es, read, parsed, rfl⟩ := exists_of_parse h
  exact grouped_ofStatements read parsed

theorem grouped_of_parse_chain :
    ∃ d, parse "x = not a.b - (c - 1) - d * 2 in [y = 3]" = .ok d ∧ d.arena.size = 19 ∧
      d.Grouped := by
  obtain ⟨d, parsed, size⟩ :
      ∃ d, parse "x = not a.b - (c - 1) - d * 2 in [y = 3]" = .ok d ∧ d.arena.size = 19 := by
    decide +kernel
  exact ⟨d, parsed, size, grouped_of_parse parsed⟩

end Document

end MembershipLowering
