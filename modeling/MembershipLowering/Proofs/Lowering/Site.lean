import MembershipLowering.Proofs.Lowering.Rules

/-! # Sites of trees

A tree sits in a node table when the table holds its nodes and no other node refers to
them, apart from the parent of the tree itself. Then the `not` signs in front of each of
its nodes are those that the tree shows: `Site a base signed e` counts one more in front
of `e` if `signed` is set, for a parent that is a `not`.
-/

namespace MembershipLowering

namespace Expr

mutual

/-- The signs of a tree stand in front of nodes below it. -/
theorem countP_negates_layout {base n : Nat} {e : Expr}
    (h : n < base ∨ base + e.countBelow ≤ n) : (e.layout base).countP (·.negates n) = 0 := by
  cases e with
  | atom => rfl
  | array x es =>
      rw [layout, List.countP_append, countP_negates_layoutAll h]
      rfl
  | call x f es =>
      rw [countBelow] at h
      rw [layout, List.countP_append, List.countP_append,
        countP_negates_layout (by omega),
        countP_negates_layoutAll (by simp only [place]; omega)]
      rfl
  | member x o name =>
      rw [countBelow] at h
      rw [layout, List.countP_append, countP_negates_layout (by omega)]
      rfl
  | index x l r | binary x l op r | membership x l r negated | assign x l r =>
      rw [countBelow] at h
      rw [layout, List.countP_append, List.countP_append,
        countP_negates_layout (by omega),
        countP_negates_layout (by simp only [place]; omega)]
      rfl
  | not x sign e =>
      rw [countBelow] at h
      rw [layout, List.countP_append, countP_negates_layout (by omega)]
      have other : ¬base + e.countBelow = n := by omega
      simp [Node.negates, place, other]

theorem countP_negates_layoutAll {base n : Nat} {es : List Expr}
    (h : n < base ∨ base + countAll es ≤ n) : (layoutAll base es).countP (·.negates n) = 0 := by
  cases es with
  | nil => rfl
  | cons e es =>
      rw [countAll] at h
      rw [layoutAll, List.countP_append, countP_negates_layout (by omega),
        countP_negates_layoutAll (by simp only [place]; omega)]

end

end Expr

/-- The table holds the tree from index `base` on, and only the parent of the tree may
    be a `not` in front of it. -/
structure Site (a : Arena) (base : Nat) (signed : Bool) (e : Expr) : Prop where
  holds : a.Holds base (e.layout base)
  signs : ∀ n : Nat, base ≤ n → n ≤ base + e.countBelow →
    a.signs n = (e.layout base).countP (·.negates n) +
      if n = base + e.countBelow ∧ signed = true then 1 else 0

/-- The table holds the trees one after the other from index `base` on, and none of them
    has a `not` in front of it. -/
structure SiteAll (a : Arena) (base : Nat) (es : List Expr) : Prop where
  holds : a.Holds base (Expr.layoutAll base es)
  signs : ∀ n : Nat, base ≤ n → n < base + Expr.countAll es →
    a.signs n = (Expr.layoutAll base es).countP (·.negates n)

namespace Site

variable {a : Arena} {base : Nat} {signed : Bool}

/-- The rule of a membership test has taken up the sign in front of it. -/
theorem rules_find? {x : Extent} {l r : Expr} {negated : Bool}
    (h : Site a base signed (.membership x l r negated)) :
    a.rules.find? (·.node = (Expr.membership x l r negated).place base) =
      some ⟨(Expr.membership x l r negated).place base, l.place base,
        r.place (l.place base + 1), negated ^^ signed⟩ := by
  have signs := h.signs ((Expr.membership x l r negated).place base) (Nat.le_add_right _ _)
    (Nat.le_refl _)
  rw [Expr.countP_negates_layout (e := .membership x l r negated)
    (n := (Expr.membership x l r negated).place base) (.inr (Nat.le_refl _))] at signs
  rw [Arena.rules_find?, h.holds.get?_place, signs]
  cases signed <;> simp [Expr.node, Expr.place, Rule.ofNode?, Rule.flipIf]

theorem array {x : Extent} {es : List Expr} (h : Site a base signed (.array x es)) :
    SiteAll a base es := by
  obtain ⟨holds, signs⟩ := h
  rw [Expr.layout] at holds
  have count : (Expr.array x es).countBelow = Expr.countAll es := rfl
  refine ⟨holds.left, fun n lower upper => ?_⟩
  rw [signs n lower (by omega), if_neg (by omega), Expr.layout, List.countP_append]
  rfl

theorem call {x : Extent} {f : Expr} {es : List Expr} (h : Site a base signed (.call x f es)) :
    Site a base false f ∧ SiteAll a (base + f.countBelow + 1) es := by
  obtain ⟨holds, signs⟩ := h
  rw [Expr.layout, List.append_assoc] at holds
  have count : (Expr.call x f es).countBelow = f.countBelow + 1 + Expr.countAll es := rfl
  refine ⟨⟨holds.left, fun n lower upper => ?_⟩, ⟨holds.next.left, fun n lower upper => ?_⟩⟩
  · rw [signs n lower (by omega), if_neg (by omega), Expr.layout, List.countP_append,
      List.countP_append, Expr.countP_negates_layoutAll (.inl (by simp only [Expr.place]; omega))]
    simp [Node.negates]
  · rw [signs n (by omega) (by omega), if_neg (by omega), Expr.layout, List.countP_append,
      List.countP_append, Expr.countP_negates_layout (.inr (by omega))]
    simp [Node.negates, Expr.place]

theorem member {x : Extent} {o : Expr} {name : Span} (h : Site a base signed (.member x o name)) :
    Site a base false o := by
  obtain ⟨holds, signs⟩ := h
  rw [Expr.layout] at holds
  have count : (Expr.member x o name).countBelow = o.countBelow + 1 := rfl
  refine ⟨holds.left, fun n lower upper => ?_⟩
  rw [signs n lower (by omega), if_neg (by omega), Expr.layout, List.countP_append]
  simp [Node.negates]

/-- The operand of a `not` has it in front. -/
theorem not {x : Extent} {sign : Span} {e : Expr} (h : Site a base signed (.not x sign e)) :
    Site a base true e := by
  obtain ⟨holds, signs⟩ := h
  rw [Expr.layout] at holds
  have count : (Expr.not x sign e).countBelow = e.countBelow + 1 := rfl
  refine ⟨holds.left, fun n lower upper => ?_⟩
  rw [signs n lower (by omega), if_neg (by omega), Expr.layout, List.countP_append]
  by_cases own : n = base + e.countBelow
  · simp [Node.negates, Expr.place, own]
  · simp [Node.negates, Expr.place, own, Ne.symm own]

/-- Two parts of a node that is no `not`. -/
theorem pair {e l r : Expr} {node : Node} (h : Site a base signed e)
    (layout : e.layout base = l.layout base ++ r.layout (l.place base + 1) ++ [node])
    (count : e.countBelow = l.countBelow + 1 + (r.countBelow + 1))
    (plain : ∀ n, node.negates n = false) :
    Site a base false l ∧ Site a (base + l.countBelow + 1) false r := by
  obtain ⟨holds, signs⟩ := h
  rw [layout, List.append_assoc] at holds
  refine ⟨⟨holds.left, fun n lower upper => ?_⟩, ⟨holds.next.left, fun n lower upper => ?_⟩⟩
  · rw [signs n lower (by omega), if_neg (by omega), layout, List.countP_append,
      List.countP_append,
      Expr.countP_negates_layout (e := r) (.inl (by simp only [Expr.place]; omega))]
    simp [plain]
  · rw [signs n (by omega) (by omega), if_neg (by omega), layout, List.countP_append,
      List.countP_append, Expr.countP_negates_layout (e := l) (.inr (by omega))]
    simp [plain, Expr.place]

theorem index {x : Extent} {o k : Expr} (h : Site a base signed (.index x o k)) :
    Site a base false o ∧ Site a (base + o.countBelow + 1) false k :=
  h.pair rfl rfl fun _ => rfl

theorem binary {x : Extent} {l r : Expr} {op : BinaryOperator}
    (h : Site a base signed (.binary x l op r)) :
    Site a base false l ∧ Site a (base + l.countBelow + 1) false r :=
  h.pair rfl rfl fun _ => rfl

theorem membership {x : Extent} {l r : Expr} {negated : Bool}
    (h : Site a base signed (.membership x l r negated)) :
    Site a base false l ∧ Site a (base + l.countBelow + 1) false r :=
  h.pair rfl rfl fun _ => rfl

theorem assign {x : Extent} {t v : Expr} (h : Site a base signed (.assign x t v)) :
    Site a base false t ∧ Site a (base + t.countBelow + 1) false v :=
  h.pair rfl rfl fun _ => rfl

end Site

theorem SiteAll.cons {a : Arena} {base : Nat} {e : Expr} {es : List Expr}
    (h : SiteAll a base (e :: es)) :
    Site a base false e ∧ SiteAll a (base + e.countBelow + 1) es := by
  obtain ⟨holds, signs⟩ := h
  rw [Expr.layoutAll] at holds
  have count : Expr.countAll (e :: es) = e.countBelow + 1 + Expr.countAll es := rfl
  refine ⟨⟨holds.left, fun n lower upper => ?_⟩, ⟨holds.next, fun n lower upper => ?_⟩⟩
  · rw [signs n lower (by omega), Expr.layoutAll, List.countP_append,
      Expr.countP_negates_layoutAll (.inl (by simp only [Expr.place]; omega))]
    simp
  · rw [signs n (by omega) (by omega), Expr.layoutAll, List.countP_append,
      Expr.countP_negates_layout (.inr (by omega)), Nat.zero_add]
    rfl

/-- The statements of a document that was put together from them. -/
theorem Document.siteAll_ofStatements (source : String) (tokens : List Token) (es : List Expr) :
    SiteAll (Document.ofStatements source tokens es).arena 0 es := by
  have nodes : (Document.ofStatements source tokens es).arena.nodes.toList =
      Document.layout source es := by
    simp [ofStatements]
  constructor
  · intro i node get
    rw [Nat.zero_add, Arena.get?, ← Array.getElem?_toList, nodes, Document.layout,
      List.getElem?_append_left (List.getElem?_eq_some_iff.1 get).1, get]
  · intro n _ _
    rw [Arena.signs, nodes, Document.layout, List.countP_append]
    rfl

/-- The program comes last. -/
theorem Document.get?_root_ofStatements (source : String) (tokens : List Token)
    (es : List Expr) :
    (Document.ofStatements source tokens es).arena.get? (Expr.countAll es) =
      some ⟨.program (Expr.places 0 es), .bare ⟨0, Text.byteLength source.toList⟩⟩ := by
  simp only [ofStatements, Arena.get?, List.getElem?_toArray, layout]
  rw [List.getElem?_append_right (Nat.le_of_eq (Expr.length_layoutAll ..)),
    Expr.length_layoutAll, Nat.sub_self]
  rfl

end MembershipLowering
