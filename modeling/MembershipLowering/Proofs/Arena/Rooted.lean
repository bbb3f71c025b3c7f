import MembershipLowering.Proofs.Expr.Parentheses
import MembershipLowering.Proofs.Lowering.Refinement
import MembershipLowering.Proofs.Lowering.Reading

/-! # The tree in the table of a source

What reading a source puts into the node table is one tree (`Document.Rooted`): the program
is the root and comes last, indices go down, and every other node is referred to once. The
extents are nested like the nodes, and nothing but parentheses stands between the two ends of
an extent. Everything that edits a document by its offsets relies on that.
-/

namespace MembershipLowering

namespace Arena

/-- All indices that nodes of the table refer to. -/
def references (a : Arena) : List NodeId :=
  a.nodes.toList.flatMap (·.kind.children)

/-- The range of a node, its parentheses included. -/
def outer? (a : Arena) (n : NodeId) : Option Span :=
  (a.get? n).map (·.extent.outer)

end Arena

/-- The document is one tree with nested extents. -/
structure Document.Rooted (d : Document) : Prop where
  /-- Between the tokens there is only trivia. -/
  scanned : Token.Scanned 0 d.source.toList d.tokens.toList
  /-- The root comes last. -/
  size : d.arena.size = d.root + 1
  /-- The root is the program, which ranges over the whole source. -/
  program : ∃ statements, d.arena.get? d.root =
    some ⟨.program statements, .bare ⟨0, Text.byteLength d.source.toList⟩⟩
  /-- Indices go down. -/
  descends : ∀ n node, d.arena.get? n = some node → ∀ c ∈ node.kind.children, c < n
  /-- Every node but the root is referred to exactly once. -/
  once : d.arena.references.Perm (List.range d.root)
  /-- The ends of an extent are in order, and only parentheses stand between them. -/
  enclosed : ∀ n node, n < d.root → d.arena.get? n = some node →
    node.extent.Proper d.source ∧ node.extent.Enclosed d.tokens.toList
  /-- The parts of a node stand in its content one behind the other, in order. -/
  parts : ∀ n node, d.arena.get? n = some node → ∃ spans : List Span,
    node.kind.children.map d.arena.outer? = spans.map some ∧
      (∀ s ∈ spans, node.extent.content.start ≤ s.start ∧ s.stop ≤ node.extent.content.stop) ∧
      spans.Pairwise (·.stop < ·.start)

namespace Expr

variable {source : String} {tokens : List Token} {a : Arena}

/-- Trees that are laid out one after the other have their places in their stretches. -/
theorem bounds_of_mem_places {base : Nat} {es : List Expr} {n : Nat} (h : n ∈ places base es) :
    base ≤ n ∧ n < base + countAll es := by
  induction es generalizing base with
  | nil => cases h
  | cons e es ih =>
      rw [countAll]
      cases List.mem_cons.1 h with
      | inl same =>
          have place : n = base + e.countBelow := same
          omega
      | inr later =>
          have := ih later
          rw [place] at this
          omega

mutual

/-- Every node of a stretch but the last one is referred to once. -/
theorem references_layout (base : Nat) (e : Expr) :
    ((e.layout base).flatMap (·.kind.children)).Perm (List.range' base e.countBelow) := by
  rw [layout_eq, List.flatMap_append, List.flatMap_singleton, children_node, countBelow_eq]
  exact references_layoutAll base e.parts
termination_by 2 * e.countBelow + 1
decreasing_by rw [Expr.countBelow_eq]; omega

/-- The nodes of trees refer to each other, and the list of the trees to the trees. -/
theorem references_layoutAll (base : Nat) (es : List Expr) :
    ((layoutAll base es).flatMap (·.kind.children) ++ places base es).Perm
      (List.range' base (countAll es)) := by
  match es with
  | [] => exact .refl _
  | e :: es =>
    have head := references_layout base e
    have tail := references_layoutAll (e.place base + 1) es
    have split : List.range' base (countAll (e :: es)) =
        List.range' base e.countBelow ++ e.place base ::
          List.range' (e.place base + 1) (countAll es) := by
      rw [countAll, Nat.add_assoc, ← List.range'_append_1, Nat.add_comm 1, List.range'_succ]
      rfl
    rw [split, layoutAll, places, List.flatMap_append, List.append_assoc]
    refine head.append ?_
    exact (List.perm_middle).trans (tail.cons _)
termination_by 2 * countAll es
decreasing_by
  all_goals
    simp only [countAll]
    omega

end

/-- Looking up trees that the table holds. -/
theorem map_outer?_places {base : Nat} {es : List Expr} (h : a.Holds base (layoutAll base es)) :
    (places base es).map a.outer? = (es.map (·.outer)).map some := by
  induction es generalizing base with
  | nil => rfl
  | cons e es ih =>
      rw [layoutAll] at h
      have head : a.outer? (e.place base) = some e.outer := by
        rw [Arena.outer?, h.left.get?_place, Option.map_some, extent_node]
        rfl
      rw [places, List.map_cons, List.map_cons, List.map_cons, head, ih h.next]

/-- Nested expressions stand one behind the other. -/
theorem NestedAll.spans {start stop : Nat} {es : List Expr}
    (h : NestedAll source tokens start stop es) :
    (∀ s ∈ es.map (·.outer), start ≤ s.start ∧ s.stop ≤ stop) ∧
      (es.map (·.outer)).Pairwise (·.stop < ·.start) := by
  induction es generalizing start with
  | nil => exact ⟨fun s hs => (List.not_mem_nil hs).elim, .nil⟩
  | cons e es ih =>
      cases h with
      | cons head starts stops tail =>
          have nonempty := head.start_lt_stop
          obtain ⟨bounds, ordered⟩ := ih tail
          refine ⟨fun s hs => ?_, .cons (fun s hs => (bounds s hs).1) ordered⟩
          cases List.mem_cons.1 hs with
          | inl same => rw [same]; exact ⟨starts, stops⟩
          | inr later => have := bounds s later; omega

/-- The parts of an expression are nested in its content. -/
theorem Nested.nestedAll {e : Expr} (h : e.Nested source tokens)
    (stream : Token.Stream source tokens) :
    NestedAll source tokens e.extent.content.start e.extent.content.stop e.parts := by
  cases h with
  | atom => exact .nil
  | array _ elements => exact elements.mono (Nat.le_succ _)
  | @call x f es close proper callee starts apart arguments closes =>
      have nonempty := callee.start_lt_stop
      have last : close.span.start ≤ x.content.stop := by
        obtain ⟨isToken, stops⟩ := mem_of_endingAt closes
        exact stops ▸ Nat.le_of_lt (stream.start_lt_stop isToken)
      exact .cons callee (Nat.le_of_eq starts) (by simp only [extent]; omega) (arguments.widen last)
  | member _ object starts apart nonempty _ stops =>
      exact .cons object (Nat.le_of_eq starts) (by simp only [extent]; omega) .nil
  | index _ object starts apart key stops =>
      have nonempty := key.start_lt_stop
      exact .cons object (Nat.le_of_eq starts) (by simp only [extent]; omega)
        (.cons key apart (by simp only [extent]; omega) .nil)
  | not _ starts nonempty apart operand stops =>
      exact .cons operand (by simp only [extent]; omega) (by simp only [extent]; omega) .nil
  | binary _ left right joins | membership _ left right joins | assign _ left right joins =>
      have bounds := joins.bounds
      have nonempty := right.start_lt_stop
      have starts := joins.starts
      have stops := joins.stops
      exact .cons left (Nat.le_of_eq starts) (by simp only [extent]; omega)
        (.cons right (by omega) (Nat.le_of_eq stops.symm) .nil)

end Expr

namespace Document

variable {source : String} {tokens : List Token} {es : List Expr}

/-- What is read from a source is one tree with nested extents. -/
theorem rooted_ofStatements (read : Token.readAll source = .ok tokens)
    (parsed : Parser.statements source tokens = .ok es) :
    (ofStatements source tokens es).Rooted where
  scanned := Token.readAll_eq_ok_iff.1 read
  size := size_ofStatements source tokens es
  program := ⟨_, get?_root_ofStatements source tokens es⟩
  descends n node found c isPart := by
    rcases cases_of_get? found with ⟨rfl, rfl⟩ | ⟨-, e, he, c', place, within, rfl, rfl, holds⟩
    · exact Nat.lt_of_lt_of_eq (Expr.bounds_of_mem_places isPart).2 (Nat.zero_add _)
    · rw [Expr.children_node] at isPart
      rw [Expr.place, Expr.countBelow_eq]
      exact (Expr.bounds_of_mem_places isPart).2
  once := by
    have nodes : (ofStatements source tokens es).arena.nodes.toList = layout source es := by
      simp [ofStatements]
    rw [Arena.references, nodes, layout, List.flatMap_append, List.flatMap_singleton,
      List.range_eq_range']
    exact Expr.references_layoutAll 0 es
  enclosed n node inside found := by
    rcases cases_of_get? found with ⟨rfl, rfl⟩ | ⟨-, e, he, c, place, within, rfl, rfl, holds⟩
    · exact absurd inside (Nat.lt_irrefl _)
    · have nested := ((Parser.nested_of_statements read parsed).nested he).within within
      rw [Expr.extent_node]
      exact ⟨nested.proper, Parser.enclosed_of_statements read parsed he within⟩
  parts n node found := by
    have whole := Parser.nested_of_statements read parsed
    rcases cases_of_get? found with ⟨rfl, rfl⟩ | ⟨-, e, he, c, place, within, rfl, rfl, holds⟩
    · obtain ⟨bounds, ordered⟩ := whole.spans
      exact ⟨_, Expr.map_outer?_places (siteAll_ofStatements source tokens es).holds, bounds,
        ordered⟩
    · obtain ⟨bounds, ordered⟩ := (((whole.nested he).within within).nestedAll
        (Token.stream_of_readAll read)).spans
      rw [Expr.layout_eq] at holds
      rw [Expr.children_node, Expr.extent_node]
      exact ⟨_, Expr.map_outer?_places holds.left, bounds, ordered⟩

/-- A source is accepted if its tokens can be read as statements. -/
theorem exists_of_parse {d : Document} (h : parse source = .ok d) :
    ∃ tokens es, Token.readAll source = .ok tokens ∧ Parser.statements source tokens = .ok es ∧
      ofStatements source tokens es = d := by
  unfold parse at h
  cases read : Token.readAll source with
  | error e => rw [read] at h; cases h
  | ok tokens =>
      rw [read] at h
      obtain ⟨es, parsed, same⟩ := Parser.ok_of_map h
      exact ⟨tokens, es, rfl, parsed, same⟩

/-- An accepted source is one tree with nested extents. -/
theorem rooted_of_parse {d : Document} (h : parse source = .ok d) :
    d.source = source ∧ d.Rooted := by
  obtain ⟨tokens, es, read, parsed, rfl⟩ := exists_of_parse h
  exact ⟨rfl, rooted_ofStatements read parsed⟩

theorem rooted_of_parse_parens :
    ∃ d, parse "((a) not in [b, @c])" = .ok d ∧ d.arena.size = 7 ∧
      d.source = "((a) not in [b, @c])" ∧ d.Rooted := by
  obtain ⟨d, parsed, size⟩ :
      ∃ d, parse "((a) not in [b, @c])" = .ok d ∧ d.arena.size = 7 := by
    decide +kernel
  exact ⟨d, parsed, size, rooted_of_parse parsed⟩

end Document

/-- In one tree no index leads to no node. -/
theorem Document.Rooted.exists_child {d : Document} (h : d.Rooted) {n : NodeId} {node : Node}
    (found : d.arena.get? n = some node) {c : NodeId} (isPart : c ∈ node.kind.children) :
    ∃ part, d.arena.get? c = some part := by
  obtain ⟨spans, parts, -⟩ := h.parts n node found
  have mem : d.arena.outer? c ∈ spans.map some := parts ▸ List.mem_map_of_mem isPart
  obtain ⟨s, -, same⟩ := List.mem_map.1 mem
  obtain ⟨part, found, -⟩ := Option.map_eq_some_iff.1 same.symm
  exact ⟨part, found⟩

end MembershipLowering
