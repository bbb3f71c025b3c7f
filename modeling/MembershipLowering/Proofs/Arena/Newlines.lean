import MembershipLowering.Proofs.Arena.Rooted
import MembershipLowering.Proofs.Token.Inserting

/-! # Newlines and brackets

Newlines say nothing inside brackets, and nowhere else inside a statement are there any
(`Document.newlines_of_parse`). In the range of a statement they only stand between two of its
brackets. And where a bracket is open another newline may be put in front of any token that
touches nothing it belongs to: the source is read as a tree of the same shape.
-/

namespace MembershipLowering

/-! ## Shapes -/

namespace NodeKind

/-- What a node is, without the places in the source that it keeps. -/
def shape : NodeKind → NodeKind
  | member object _ => member object (.point 0)
  | not _ operand => not (.point 0) operand
  | kind => kind

end NodeKind

/-- The tables have the same nodes, wherever these stand in the source. -/
def Arena.SameShape (a b : Arena) : Prop :=
  a.nodes.map (·.kind.shape) = b.nodes.map (·.kind.shape)

namespace Expr

variable (r : Relocation)

mutual

@[simp] theorem countBelow_relocate (e : Expr) : (e.relocate r).countBelow = e.countBelow := by
  cases e with
  | atom => rfl
  | array x es => exact countAll_relocateAll es
  | call x f es =>
      simp only [relocate, countBelow, countBelow_relocate f, countAll_relocateAll es]
  | member x o name => simp only [relocate, countBelow, countBelow_relocate o]
  | not x sign o => simp only [relocate, countBelow, countBelow_relocate o]
  | index x l k | binary x l op k | membership x l k negated | assign x l k =>
      simp only [relocate, countBelow, countBelow_relocate l, countBelow_relocate k]

@[simp] theorem countAll_relocateAll (es : List Expr) :
    countAll (relocateAll r es) = countAll es := by
  cases es with
  | nil => rfl
  | cons e es =>
      simp only [relocateAll, countAll, countBelow_relocate e, countAll_relocateAll es]

end

@[simp] theorem place_relocate (base : Nat) (e : Expr) :
    (e.relocate r).place base = e.place base := by
  rw [place, countBelow_relocate, place]

@[simp] theorem places_relocateAll (base : Nat) (es : List Expr) :
    places base (relocateAll r es) = places base es := by
  induction es generalizing base with
  | nil => rfl
  | cons e es ih => rw [relocateAll, places, place_relocate, ih, places]

theorem parts_relocate (e : Expr) : (e.relocate r).parts = relocateAll r e.parts := by
  cases e <;> rfl

theorem shape_node_relocate (base : Nat) (e : Expr) :
    ((e.relocate r).node base).kind.shape = (e.node base).kind.shape := by
  cases e <;> simp [relocate, node, NodeKind.shape]

mutual

/-- An expression has the same nodes elsewhere. -/
theorem shapes_relocate (base : Nat) (e : Expr) :
    ((e.relocate r).layout base).map (·.kind.shape) =
      (e.layout base).map (·.kind.shape) := by
  rw [layout_eq, layout_eq, parts_relocate, List.map_append, List.map_append,
    shapes_relocateAll base e.parts]
  exact congrArg (_ ++ [·]) (shape_node_relocate r base e)
termination_by 2 * e.countBelow + 1
decreasing_by rw [Expr.countBelow_eq]; omega

theorem shapes_relocateAll (base : Nat) (es : List Expr) :
    (layoutAll base (relocateAll r es)).map (·.kind.shape) =
      (layoutAll base es).map (·.kind.shape) := by
  match es with
  | [] => rfl
  | e :: es =>
    rw [relocateAll, layoutAll, layoutAll, List.map_append, List.map_append, place_relocate,
      shapes_relocate base e, shapes_relocateAll (e.place base + 1) es]
termination_by 2 * countAll es
decreasing_by
  all_goals
    simp only [countAll]
    omega

end

end Expr

/-! ## Expressions in a table -/

namespace Arena.Holds

variable {a : Arena} {base : Nat} {e c : Expr} {es : List Expr}

theorem exists_mem (h : a.Holds base (Expr.layoutAll base es)) (he : e ∈ es) :
    ∃ place, a.Holds place (e.layout place) := by
  induction es generalizing base with
  | nil => cases he
  | cons d es ih =>
      rw [Expr.layoutAll] at h
      rcases List.mem_cons.1 he with rfl | later
      · exact ⟨base, h.left⟩
      · exact ih h.next later

/-- Every expression in a tree has its stretch in the table. -/
theorem exists_of_within (h : a.Holds base (e.layout base)) (within : e.Within c) :
    ∃ place, a.Holds place (c.layout place) := by
  induction within generalizing base with
  | self => exact ⟨base, h⟩
  | part isPart _ ih =>
      rw [Expr.layout_eq] at h
      obtain ⟨place, holds⟩ := h.left.exists_mem isPart
      exact ih holds

theorem exists_of_mem_places {n : NodeId} (h : a.Holds base (Expr.layoutAll base es))
    (hn : n ∈ Expr.places base es) : ∃ e ∈ es, ∃ place, a.get? n = some (e.node place) := by
  induction es generalizing base with
  | nil => cases hn
  | cons d es ih =>
      rw [Expr.layoutAll] at h
      rcases List.mem_cons.1 hn with rfl | later
      · exact ⟨d, List.mem_cons_self, base, h.left.get?_place⟩
      · obtain ⟨e, he, place, get⟩ := ih h.next later
        exact ⟨e, List.mem_cons_of_mem _ he, place, get⟩

end Arena.Holds

namespace Document

variable {source : String} {d : Document} {tokens : List Token} {es : List Expr} {t : Token}

/-- The token stands between two brackets that belong together, or is the second of them. -/
def IsInside (d : Document) (t : Token) : Prop :=
  ∃ opening inner closing, Token.Brackets d.tokens.toList opening inner closing ∧
    t ∈ inner ++ [closing]

/-- The token is the parenthesis of a call that touches the callee, or a name that touches
    its `@`. -/
def IsAttached (d : Document) (t : Token) : Prop :=
  ∃ n node object part, d.arena.get? n = some node ∧ d.arena.get? object = some part ∧
    part.extent.outer.stop = t.span.start ∧
      ((∃ arguments, node.kind = .call object arguments ∧ t.kind = .lparen) ∨
        node.kind = .member object t.span ∧ t.kind = .identifier ∧
          part.extent.outer.text d.source = "@")

/-- What is attached in a tree is attached in its table. -/
theorem isAttached_of_within {e c : Expr} (he : e ∈ es) (within : e.Within c)
    (attaches : c.Attaches source t) : (ofStatements source tokens es).IsAttached t := by
  obtain ⟨base, holds⟩ := (siteAll_ofStatements source tokens es).holds.exists_mem he
  obtain ⟨place, holds⟩ := holds.exists_of_within within
  have get := holds.get?_place
  rw [Expr.layout_eq] at holds
  cases c with
  | call x f arguments =>
      obtain ⟨kind, touches⟩ := attaches
      refine ⟨_, _, _, _, get, holds.left.left.get?_place, ?_, .inl ⟨_, rfl, kind⟩⟩
      rw [Expr.extent_node]
      exact touches.symm
  | member x o name =>
      obtain ⟨kind, rfl, sign, touches⟩ := attaches
      refine ⟨_, _, _, _, get, holds.left.left.get?_place, ?_, .inr ⟨rfl, kind, ?_⟩⟩
      · rw [Expr.extent_node]
        exact touches.symm
      · rw [Expr.extent_node]
        exact sign
  | _ => cases attaches

/-- A newline is put in where a bracket is open. -/
theorem exists_insert_newline (read : Token.readAll source = .ok tokens)
    (accepted : Parser.statements source tokens = .ok es)
    (inside : (ofStatements source tokens es).IsInside t)
    (loose : ¬(ofStatements source tokens es).IsAttached t) :
    ∃ front back d', source = front ++ back ∧ Text.byteLength front.toList = t.span.start ∧
      parse (front ++ "\n" ++ back) = .ok d' ∧ d'.root = (ofStatements source tokens es).root ∧
        d'.arena.SameShape (ofStatements source tokens es).arena := by
  obtain ⟨opening, inner, closing, brackets, mem⟩ := inside
  obtain ⟨ts, us, split, bracketed⟩ := brackets.exists_nesting mem
  have stream := Token.stream_of_readAll read
  obtain rfl : tokens = ts ++ t :: us := by simpa [ofStatements] using split
  obtain ⟨front, back, tokens', whole, length, read', spaced⟩ :=
    Token.exists_respaced read bracketed
  have keeps : ∀ e ∈ es, (Relocation.insert t.span.start 1).Keeps source (ts ++ t :: us) e := by
    intro e he u hu c within attaches
    -- There is room only where the newline is put in, and only `t` starts there.
    by_cases same : u.span.start = t.span.start
    · obtain rfl := stream.eq_of_start hu (by simp) same
      exact absurd (isAttached_of_within he within attaches) loose
    · simp only [Relocation.insert]
      split <;> split <;> omega
  have accepted' := Parser.statements_of_respaced accepted spaced keeps
  have parsed : parse (front ++ "\n" ++ back) = .ok (ofStatements (front ++ "\n" ++ back) tokens'
      (Expr.relocateAll (.insert t.span.start 1) es)) := by
    rw [parse, read']
    exact congrArg (Except.map _) accepted'
  refine ⟨front, back, _, whole, length, parsed, ?_, ?_⟩
  · exact Expr.countAll_relocateAll _ es
  · simp only [Arena.SameShape, ofStatements, layout, List.map_toArray, List.map_append,
      Expr.shapes_relocateAll, Expr.places_relocateAll]
    rfl

/-- In an accepted source a newline in the range of a statement stands between two brackets of
    the statement, and no semicolon is in its range. Where a bracket is open a newline may be
    put in front of a token that is not attached to anything. -/
theorem newlines_of_parse (parsed : parse source = .ok d) :
    (∃ ns, d.statements? = some ns ∧ ∀ n ∈ ns, ∃ node, d.arena.get? n = some node ∧
      ∀ t ∈ d.tokens, node.extent.outer.contains t.span.start →
        t.kind ≠ .semicolon ∧ (t.kind = .newline →
          ∃ opening inner closing, Token.Brackets d.tokens.toList opening inner closing ∧
            t ∈ inner ∧ node.extent.outer.start ≤ opening.span.start ∧
              closing.span.stop ≤ node.extent.outer.stop)) ∧
    ∀ t ∈ d.tokens, d.IsInside t → ¬d.IsAttached t →
      ∃ front back d', source = front ++ back ∧ Text.byteLength front.toList = t.span.start ∧
        parse (front ++ "\n" ++ back) = .ok d' ∧ d'.root = d.root ∧
          d'.arena.SameShape d.arena := by
  obtain ⟨tokens, es, read, accepted, rfl⟩ := exists_of_parse parsed
  refine ⟨⟨_, Lowering.statements?_ofStatements .., fun n hn => ?_⟩, fun t _ inside loose =>
    exists_insert_newline read accepted inside loose⟩
  obtain ⟨e, he, place, get⟩ :=
    (siteAll_ofStatements source tokens es).holds.exists_of_mem_places hn
  refine ⟨_, get, fun t ht contains => ?_⟩
  rw [Expr.extent_node] at contains ⊢
  rw [Span.contains, Bool.and_eq_true, decide_eq_true_eq, decide_eq_true_eq] at contains
  exact Parser.enclosed_of_statement read accepted he (List.mem_toArray.1 ht) contains.1 contains.2

theorem newlines_of_parse_argument :
    ∃ d ns u, parse "f(a,\nb in c)" = .ok d ∧ d.statements? = some ns ∧
      (∃ n ∈ ns, ∃ node opening inner closing, d.arena.get? n = some node ∧
        Token.Brackets d.tokens.toList opening inner closing ∧ ⟨.newline, 4, 5⟩ ∈ inner ∧
          node.extent.outer.start ≤ opening.span.start ∧
            closing.span.stop ≤ node.extent.outer.stop) ∧
      u.kind = .relation ∧ d.IsInside u ∧ ¬d.IsAttached u ∧
        ∃ front back d', "f(a,\nb in c)" = front ++ back ∧
          Text.byteLength front.toList = u.span.start ∧ parse (front ++ "\n" ++ back) = .ok d' ∧
            d'.root = d.root ∧ d'.arena.SameShape d.arena := by
  obtain ⟨d, parsed, tokens, statements, outer⟩ : ∃ d, parse "f(a,\nb in c)" = .ok d ∧
      d.tokens.toList = [⟨.identifier, 0, 1⟩, ⟨.lparen, 1, 2⟩, ⟨.identifier, 2, 3⟩, ⟨.comma, 3, 4⟩,
        ⟨.newline, 4, 5⟩, ⟨.identifier, 5, 6⟩, ⟨.relation, 7, 9⟩, ⟨.identifier, 10, 11⟩,
        ⟨.rparen, 11, 12⟩] ∧
      d.statements? = some [5] ∧ d.arena.outer? 5 = some ⟨0, 12⟩ := by
    decide +kernel
  obtain ⟨⟨ns, same, enclosed⟩, inserted⟩ := newlines_of_parse parsed
  obtain rfl : ns = [5] := Option.some.inj (same.symm.trans statements)
  obtain ⟨node, get, enclosed⟩ := enclosed 5 List.mem_cons_self
  obtain ⟨_, get', outer⟩ := Option.map_eq_some_iff.1 outer
  cases get.symm.trans get'
  have newline : ⟨.newline, 4, 5⟩ ∈ d.tokens := by simp [← Array.mem_toList_iff, tokens]
  have relation : ⟨.relation, 7, 9⟩ ∈ d.tokens := by simp [← Array.mem_toList_iff, tokens]
  obtain ⟨opening, inner, closing, brackets, mem, ends⟩ :=
    (enclosed _ newline (by rw [outer]; rfl)).2 rfl
  have inside : d.IsInside ⟨.relation, 7, 9⟩ := by
    refine ⟨⟨.lparen, 1, 2⟩, [⟨.identifier, 2, 3⟩, ⟨.comma, 3, 4⟩, ⟨.newline, 4, 5⟩,
      ⟨.identifier, 5, 6⟩, ⟨.relation, 7, 9⟩, ⟨.identifier, 10, 11⟩], ⟨.rparen, 11, 12⟩, ?_,
      by decide⟩
    exact ⟨rfl, .of_plain (by decide), [⟨.identifier, 0, 1⟩], [], tokens.symm⟩
  have loose : ¬d.IsAttached ⟨.relation, 7, 9⟩ := by
    rintro ⟨_, _, _, _, -, -, -, ⟨_, -, kind⟩ | ⟨-, kind, -⟩⟩ <;> cases kind
  exact ⟨d, _, _, parsed, same,
    ⟨5, List.mem_cons_self, node, opening, inner, closing, get, brackets, mem, ends⟩, rfl, inside,
    loose, inserted _ relation inside loose⟩

end Document

end MembershipLowering
