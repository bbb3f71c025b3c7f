import MembershipLowering.Proofs.Expr.Parentheses

/-! # Levels of parsed expressions

The level at which an expression was derived can be read off the expression again, unless it
stands in parentheses. So the parts of an accepted expression that stand bare bind as tight
as their places ask for (`Expr.Grouped`).
-/

namespace MembershipLowering

/-- Nothing but the content is inside the outer range. -/
def Extent.IsBare (x : Extent) : Prop :=
  x.outer = x.content
  deriving Decidable

namespace Expr

/-- How tight the outermost construct binds. -/
def level : Expr → Nat
  | assign .. => 0
  | binary _ _ op _ => op.level
  | membership .. => BinaryOperator.relationLevel
  | not .. => 7
  | atom .. | array .. | call .. | member .. | index .. => 8

/-- Without parentheses around it the expression binds at least as tight as the given level. -/
def BindsAt (least : Nat) (e : Expr) : Prop :=
  e.extent.IsBare → least ≤ e.level

/-- The parts of the expression bind as tight as their places ask for. -/
def Grouped : Expr → Prop
  | atom .. | array .. => True
  | call _ f _ => f.BindsAt 8
  | member _ o _ | index _ o _ => o.BindsAt 8
  | not _ _ e => e.BindsAt 7
  | binary _ l op r => l.BindsAt op.level ∧ r.BindsAt (op.level + 1)
  | membership _ l r _ =>
    l.BindsAt BinaryOperator.relationLevel ∧ r.BindsAt (BinaryOperator.relationLevel + 1)
  | assign _ t _ => t.isTarget = true

@[simp] theorem grouped_parenthesize {start stop : Nat} {e : Expr} :
    (e.parenthesize start stop).Grouped ↔ e.Grouped := by
  cases e <;> rfl

end Expr

namespace Parser

open Token

variable {source : String} {inside : Bool} {level least : Nat} {seg : List Token} {e : Expr}

/-- Parentheses widen the outer range. -/
theorem Derives.not_isBare_parenthesize {segOpen segInner segClose : List Token} {t close : Token}
    (opening : Reaches inside t segOpen) (isOpening : t.kind = .lparen)
    (inner : Derives source true level segInner e)
    (stream : Stream source (segOpen ++ segInner ++ segClose)) :
    ¬(e.parenthesize t.span.start close.span.stop).extent.IsBare := by
  have streamFront := stream.left
  have front := opening.covers (ne_newline_of_kind isOpening rfl)
  have behind := front.le_of_append (inner.covers streamFront.right) streamFront
  have positive := front.start_lt_stop streamFront.left
  have opens := (inner.nested streamFront.right List.infix_rfl).proper.opens
  intro bare
  rw [Extent.IsBare, Expr.extent_parenthesize] at bare
  have starts : min e.outer.start t.span.start = e.extent.content.start := congrArg Span.start bare
  have outer : e.outer.start = e.extent.outer.start := rfl
  omega

/-- What stands bare was derived at the level that it shows. -/
theorem Derives.level_eq (h : Derives source inside level seg e) (stream : Stream source seg)
    (bare : e.extent.IsBare) : e.level = level := by
  cases h with
  | parenthesized opening isOpening inner closing isClosing =>
      exact absurd bare (inner.not_isBare_parenthesize opening isOpening stream)
  | _ => rfl

theorem Derives.bindsAt (h : Derives source inside level seg e) (stream : Stream source seg)
    (tight : least ≤ level) : e.BindsAt least := by
  intro bare
  rw [h.level_eq stream bare]
  exact tight

theorem Derives.grouped {inside : Bool} {level : Nat} {seg : List Token} {e : Expr}
    (h : Derives source inside level seg e) (stream : Stream source seg) : e.Grouped := by
  match h with
  | .atom .. | .array .. => exact trivial
  | .shorthand reaches known .. =>
    exact (Derives.atom reaches known).bindsAt stream.left (Nat.le_refl 8)
  | .parenthesized opening isOpening inner closing isClosing =>
    exact Expr.grouped_parenthesize.2 (inner.grouped stream.left.right)
  | .member object .. => exact object.bindsAt stream.left.left (Nat.le_refl 8)
  | .index object .. => exact object.bindsAt stream.left.left.left (Nat.le_refl 8)
  | .call callee .. => exact callee.bindsAt stream.left.left (Nat.le_refl 8)
  | .not _ _ operand tighter => exact operand.bindsAt stream.right tighter
  | .binary left leftLevel _ _ _ right rightLevel =>
    exact ⟨left.bindsAt stream.left.left leftLevel, right.bindsAt stream.right rightLevel⟩
  | .membership left leftLevel _ _ _ right rightLevel =>
    exact ⟨left.bindsAt stream.left.left leftLevel, right.bindsAt stream.right rightLevel⟩
  | .assign _ _ isTarget .. => exact isTarget

/-- All expressions of an accepted source are grouped by the levels of their parts. -/
theorem grouped_of_statements {tokens : List Token} {es : List Expr} {c : Expr}
    (read : Token.readAll source = .ok tokens) (h : statements source tokens = .ok es)
    (he : e ∈ es) (hc : Expr.Within e c) : c.Grouped := by
  obtain ⟨level, seg, derives, part⟩ := (statements_sound h).exists_statement he
  obtain ⟨inside, level', segPart, derives', part'⟩ := derives.exists_within hc
  exact derives'.grouped
    ((stream_of_readAll read).sublist (part'.trans part).sublist)

end Parser

end MembershipLowering
