import MembershipLowering.Proofs.Arena.Rooted
import MembershipLowering.Proofs.Expr.Parentheses
import MembershipLowering.Proofs.Token.Search

/-! # Operators and their tokens

A node does not keep the token of its operator, only its class. In an accepted source that is
enough: of its own a node with two operands has one token, which stands between them, is found
by its class and spells the operator (`Document.operates_of_parse`).
-/

namespace MembershipLowering

/-- A membership test is written `in`, or `not` and `in` with blanks between them. -/
def SpellsTest (negated : Bool) (text : String) : Prop :=
  if negated then
    ∃ blanks : List Char, blanks ≠ [] ∧ (∀ c ∈ blanks, c = ' ' ∨ c = '\t') ∧
      text = "not" ++ String.ofList blanks ++ "in"
  else text = "in"

namespace Lexeme.Shape

theorem eq_of_wordKind {text : String} (h : wordKind text = .relation) :
    text = "in" ∨ text = "instanceof" := by
  unfold wordKind at h
  split at h <;> first | exact .inl rfl | exact .inr rfl | cases h

/-- The relations are `in`, `instanceof` and `not in`. -/
theorem spellsTest {text : String} (h : Shape .relation text.toList)
    (other : text ≠ "instanceof") : SpellsTest (decide (text ≠ "in")) text := by
  generalize shown : text.toList = chars at h
  generalize isRelation : TokenKind.relation = kind at h
  have spelt : text = String.ofList chars := by rw [← shown, String.ofList_toList]
  cases h with
  | word =>
      rw [← spelt] at isRelation
      obtain rfl : text = "in" := (eq_of_wordKind isRelation.symm).resolve_right other
      exact rfl
  | @notIn blanks some blank =>
      have long : text ≠ "in" := by
        intro short
        rw [short] at shown
        cases shown
      simp only [SpellsTest, long, ne_eq, not_false_eq_true, decide_true, if_true]
      refine ⟨blanks, some, fun c mem => by simpa [isBlank] using blank c mem, ?_⟩
      rw [spelt, String.ofList_append, String.ofList_append]
  | number => cases isRelation
  | string => cases isRelation
  | pair known =>
      subst isRelation
      unfold pairKind at known
      split at known
      · cases known
      · split at known <;> cases known
  | sign known =>
      subst isRelation
      unfold signKind at known
      split at known <;> cases known

end Lexeme.Shape

namespace Expr

/-- If the expression is a membership test, then the one token between its operands says
    whether it is negated. -/
def TestSpelt (source : String) (tokens : List Token) : Expr → Prop
  | .membership x l r negated => ∃ t ∈ tokens, Joins tokens x l r t ∧ t.kind = .relation ∧
      t.text source ≠ "instanceof" ∧ negated = decide (t.text source ≠ "in")
  | _ => True

theorem TestSpelt.parenthesize {source : String} {tokens : List Token} {e : Expr}
    (h : e.TestSpelt source tokens) (start stop : Nat) :
    (e.parenthesize start stop).TestSpelt source tokens := by
  cases e with
  | membership =>
      obtain ⟨t, ht, joins, spelt⟩ := h
      exact ⟨t, ht, ⟨joins.starts, joins.stops, joins.alone, joins.apart⟩, spelt⟩
  | _ => trivial

end Expr

namespace Parser

open Token

theorem Derives.testSpelt {source : String} {inside : Bool} {level : Nat}
    {seg tokens : List Token} {e : Expr} (h : Derives source inside level seg e)
    (stream : Stream source tokens) (part : seg <:+: tokens) : e.TestSpelt source tokens := by
  match h with
  | .membership left _ reaches isRelation spelt right _ =>
    have streamSeg := stream.sublist part.sublist
    refine ⟨_, part.subset ?_, joins_of_operands (left.covers streamSeg.left.left)
      (right.covers streamSeg.right) reaches (ne_newline_of_kind isRelation rfl) stream part,
      isRelation, spelt, rfl⟩
    simp [reaches.mem]
  | .parenthesized _ _ inner _ _ =>
    have inner := inner.testSpelt stream
      ((List.infix_append_right.trans List.infix_append_left).trans part)
    exact inner.parenthesize _ _
  | .atom .. | .shorthand .. | .array .. | .member .. | .index .. | .call .. | .not .. |
    .binary .. | .assign .. => trivial

end Parser

namespace Document

/-- The token stands between the operands `i` and `j` of the node. It is the only one that the
    node has of its own, and the one found by the class. -/
structure Operates (d : Document) (n : NodeId) (node : Node) (i j : NodeId) (kind : TokenKind)
    (t : Token) : Prop where
  between : ∃ left right, d.arena.get? i = some left ∧ d.arena.get? j = some right ∧
    left.extent.outer.stop ≤ t.span.start ∧ t.span.stop ≤ right.extent.outer.start
  alone : d.ownTokens node = [t]
  found : d.operatorToken? n kind = some t

variable {source : String} {tokens : List Token} {d : Document} {base : NodeId}

/-- The token that joins two operands in the tree operates the node in the table. -/
theorem operates_of_joins (stream : Token.Stream source tokens) (h : d.tokens = tokens.toArray)
    {e l r : Expr} {t : Token} {kind : TokenKind} (holds : d.arena.Holds base (e.layout base))
    (operands : e.parts = [l, r]) (left : l.Nested source tokens) (right : r.Nested source tokens)
    (joins : Expr.Joins tokens e.extent l r t) (isKind : t.kind = kind)
    (other : kind ≠ .newline) :
    d.Operates (e.place base) (e.node base) (l.place base) (r.place (l.place base + 1)) kind t := by
  have get := holds.get?_place
  have children : (e.node base).kind.children = [l.place base, r.place (l.place base + 1)] := by
    rw [Expr.children_node, operands]
    rfl
  rw [Expr.layout_eq, operands] at holds
  have getLeft := holds.left.left.get?_place
  have getRight := holds.left.next.left.get?_place
  have bounds := joins.bounds
  subst isKind
  rw [← Expr.extent_node base] at joins
  have isLeft := congrArg Extent.outer (l.extent_node base)
  have isRight := congrArg Extent.outer (r.extent_node (l.place base + 1))
  have hleft := Nat.le_of_lt left.start_lt_stop
  have hright := Nat.le_of_lt right.start_lt_stop
  refine ⟨⟨_, _, getLeft, getRight, ?_, ?_⟩, ?_, ?_⟩
  · rw [isLeft]
    exact bounds.2.1
  · rw [isRight]
    exact joins.apart
  · exact ownTokens_eq h children getLeft getRight isLeft isRight joins hleft hright
  · exact operatorToken?_eq stream h get children getLeft getRight isLeft isRight joins hleft
      hright other

/-- In an accepted source every operator is found where it was read. -/
theorem operates_of_parse (parsed : parse source = .ok d) {n : NodeId} {node : Node}
    (get : d.arena.get? n = some node) :
    (∀ i op j, node.kind = .binary i op j → ∃ t, d.Operates n node i j op.tokenKind t ∧
      BinaryOperator.ofText? (t.text source) = some op) ∧
    ∀ i j negated, node.kind = .membership i j negated →
      ∃ t, d.Operates n node i j Rule.tokenKind t ∧ SpellsTest negated (t.text source) := by
  obtain ⟨tokens, es, read, accepted, rfl⟩ := exists_of_parse parsed
  have stream := Token.stream_of_readAll read
  have nestedAll := Parser.nested_of_statements read accepted
  rcases cases_of_get? get with ⟨-, rfl⟩ | ⟨-, e, he, c, place, within, rfl, rfl, holds⟩
  · exact ⟨nofun, nofun⟩
  have nested := (nestedAll.nested he).within within
  obtain ⟨level, seg, derives, part⟩ := (Parser.statements_sound accepted).exists_statement he
  obtain ⟨inside, level', segPart, derives', part'⟩ := derives.exists_within within
  have spelt := derives'.testSpelt stream (part'.trans part)
  cases nested with
  | @binary x l r op t proper left right joins kind text =>
      refine ⟨?_, nofun⟩
      rintro i op' j ⟨⟩
      exact ⟨t, operates_of_joins stream rfl holds rfl left right joins kind
        (by cases op <;> decide), text⟩
  | @membership x l r negated t proper left right joins kind =>
      refine ⟨nofun, ?_⟩
      rintro i j negated' ⟨⟩
      obtain ⟨t, ht, joins, isRelation, other, rfl⟩ := spelt
      have shape := stream.shape ht
      rw [isRelation] at shape
      exact ⟨t, operates_of_joins stream rfl holds rfl left right joins isRelation nofun,
        shape.spellsTest other⟩
  | _ => exact ⟨nofun, nofun⟩

theorem operates_of_parse_nested :
    ∃ d node t, parse "x - (y not \t in [1 in z])" = .ok d ∧ d.arena.get? 6 = some node ∧
      node.kind = .membership 1 5 true ∧ d.Operates 6 node 1 5 Rule.tokenKind t ∧
        SpellsTest true (t.text "x - (y not \t in [1 in z])") := by
  obtain ⟨d, parsed, kind⟩ : ∃ d, parse "x - (y not \t in [1 in z])" = .ok d ∧
      (d.arena.get? 6).map (·.kind) = some (.membership 1 5 true) := by
    decide +kernel
  obtain ⟨node, get, kind⟩ := Option.map_eq_some_iff.1 kind
  obtain ⟨t, operates, spelt⟩ := (operates_of_parse parsed get).2 1 5 true kind
  exact ⟨d, node, t, parsed, get, kind, operates, spelt⟩

end Document

end MembershipLowering
