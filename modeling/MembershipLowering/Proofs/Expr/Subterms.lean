import MembershipLowering.Proofs.Expr.Effects

/-! # Parts of parts

What is known of a program is known of every expression in it: its parts are nested,
nothing else is kept where it stands, and its effects are among those of the program, in
the same order.
-/

namespace MembershipLowering.Expr

/-- The second expression is the first one, one of its parts, one of theirs, and so on. -/
inductive Within : Expr → Expr → Prop where
  | self {e : Expr} : Within e e
  | part {e c d : Expr} (isPart : c ∈ e.parts) (within : Within c d) : Within e d

variable {source : String} {tokens : List Token} {keep : Nat → Prop} {start stop : Nat}

theorem effects_sublist_effectsAll {es : List Expr} {c : Expr} (h : c ∈ es) :
    (c.effects tokens).Sublist (effectsAll tokens es) := by
  induction es with
  | nil => cases h
  | cons e es ih =>
      rw [effectsAll]
      cases List.mem_cons.1 h with
      | inl same => exact same ▸ List.sublist_append_left _ _
      | inr later => exact (ih later).trans (List.sublist_append_right _ _)

theorem effects_sublist_of_part {e c : Expr} (h : c ∈ e.parts) :
    (c.effects tokens).Sublist (e.effects tokens) := by
  cases e with
  | atom => cases h
  | array x es => exact effects_sublist_effectsAll h
  | call x f es =>
      rw [effects, List.append_assoc]
      cases List.mem_cons.1 h with
      | inl same => exact same ▸ List.sublist_append_left _ _
      | inr later =>
          exact ((effects_sublist_effectsAll later).trans (List.sublist_append_left _ _)).trans
            (List.sublist_append_right _ _)
  | member x o name => exact List.mem_singleton.1 h ▸ List.Sublist.refl _
  | not x sign e => exact List.mem_singleton.1 h ▸ List.Sublist.refl _
  | index x l r | binary x l op r | membership x l r negated =>
      simp only [parts, List.mem_cons, List.not_mem_nil, or_false] at h
      rw [effects]
      rcases h with rfl | rfl
      · exact List.sublist_append_left _ _
      · exact List.sublist_append_right _ _
  | assign x l r =>
      simp only [parts, List.mem_cons, List.not_mem_nil, or_false] at h
      rw [effects]
      rcases h with rfl | rfl
      · exact (List.sublist_append_left _ _).trans (List.sublist_append_left _ _)
      · exact List.sublist_append_right _ _

/-- The effects of an expression in it are among the effects of an expression. -/
theorem Within.effects_sublist {e c : Expr} (h : Within e c) :
    (c.effects tokens).Sublist (e.effects tokens) := by
  induction h with
  | self => exact List.Sublist.refl _
  | part isPart _ ih => exact ih.trans (effects_sublist_of_part isPart)

theorem NestedAll.nested {es : List Expr} (h : NestedAll source tokens start stop es) {c : Expr}
    (hc : c ∈ es) : c.Nested source tokens := by
  induction es generalizing start with
  | nil => cases hc
  | cons e es ih =>
      cases h with
      | cons head _ _ tail =>
          cases List.mem_cons.1 hc with
          | inl same => exact same ▸ head
          | inr later => exact ih tail later

theorem Nested.part {e c : Expr} (h : e.Nested source tokens) (hc : c ∈ e.parts) :
    c.Nested source tokens := by
  cases h with
  | atom => cases hc
  | array _ elements => exact elements.nested hc
  | call _ callee _ _ arguments =>
      cases List.mem_cons.1 hc with
      | inl same => exact same ▸ callee
      | inr later => exact arguments.nested later
  | member _ object => exact List.mem_singleton.1 hc ▸ object
  | not _ _ _ _ operand => exact List.mem_singleton.1 hc ▸ operand
  | index _ left _ _ right | binary _ left right | membership _ left right | assign _ left right =>
      simp only [parts, List.mem_cons, List.not_mem_nil, or_false] at hc
      rcases hc with rfl | rfl <;> assumption

theorem Nested.within {e c : Expr} (h : e.Nested source tokens) (hc : Within e c) :
    c.Nested source tokens := by
  induction hc with
  | self => exact h
  | part isPart _ ih => exact ih (h.part isPart)

/-- Nothing but its effects is kept where one of the expressions stands. -/
theorem Confined.mem {es : List Expr} {first last : Nat} {c : Expr}
    (h : Confined keep start stop (effectsAll tokens es))
    (nested : NestedAll source tokens first last es) (stream : Token.Stream source tokens)
    (hstart : start ≤ first) (hstop : last ≤ stop) (hc : c ∈ es) :
    Confined keep c.outer.start c.outer.stop (c.effects tokens) := by
  induction es generalizing start first with
  | nil => cases hc
  | cons e es ih =>
      cases nested with
      | cons head starts stops tail =>
          obtain ⟨-, hhead, htail⟩ := h.cons head (by omega) (by omega) tail stream
          cases List.mem_cons.1 hc with
          | inl same => exact same ▸ hhead
          | inr later => exact ih htail tail (Nat.le_succ _) later

theorem Confined.of_part {e c : Expr}
    (h : Confined keep e.outer.start e.outer.stop (e.effects tokens))
    (nested : e.Nested source tokens) (stream : Token.Stream source tokens) (hc : c ∈ e.parts) :
    Confined keep c.outer.start c.outer.stop (c.effects tokens) := by
  obtain ⟨-, inner, -⟩ := h.content nested stream
  cases nested with
  | atom => cases hc
  | array _ elements => exact inner.mem elements stream (Nat.le_succ _) (Nat.le_refl _) hc
  | call _ callee starts apart arguments closing =>
      rw [effects, closing] at inner
      obtain ⟨hf, hes, -⟩ := inner.call callee starts apart arguments closing stream
      cases List.mem_cons.1 hc with
      | inl same => exact same ▸ hf
      | inr later => exact hes.mem arguments stream (Nat.le_succ _) (Nat.le_refl _) later
  | @member x o name _ object starts apart nonempty _ stops
  | @not x sign e _ starts nonempty apart operand stops =>
      cases List.mem_singleton.1 hc
      simp only [extent] at inner
      exact inner.narrow (by omega) (by omega)
  | @index x o k _ object starts apart key stops =>
      simp only [parts, List.mem_cons, List.not_mem_nil, or_false] at hc
      simp only [extent] at inner
      obtain ⟨ho, -, hk, -⟩ := Confined.operands inner object key stream (by omega) (by omega)
        (by omega)
      rcases hc with rfl | rfl <;> assumption
  | binary _ left right joins | membership _ left right joins =>
      have bounds := joins.bounds
      simp only [parts, List.mem_cons, List.not_mem_nil, or_false] at hc
      obtain ⟨hl, -, hr, -⟩ := Confined.operands inner left right stream
        (Nat.le_of_eq joins.starts) (by omega) (Nat.le_of_eq joins.stops.symm)
      rcases hc with rfl | rfl <;> assumption
  | assign _ left right joins =>
      rw [effects, joins.alone] at inner
      obtain ⟨hl, -, hr⟩ := inner.assign left right joins stream
      simp only [parts, List.mem_cons, List.not_mem_nil, or_false] at hc
      rcases hc with rfl | rfl <;> assumption

theorem Confined.within {e c : Expr}
    (h : Confined keep e.outer.start e.outer.stop (e.effects tokens))
    (nested : e.Nested source tokens) (stream : Token.Stream source tokens) (hc : Within e c) :
    Confined keep c.outer.start c.outer.stop (c.effects tokens) := by
  induction hc with
  | self => exact h
  | part isPart _ ih => exact ih (h.of_part nested stream isPart) (nested.part isPart)

mutual

theorem token_of_mem_effects {e : Expr} {t : Token} (h : e.Nested source tokens)
    (ht : t ∈ e.effects tokens) : t ∈ tokens ∧ (t.kind = .rparen ∨ t.kind = .assign) := by
  cases h with
  | atom => cases ht
  | array _ elements => exact token_of_mem_effectsAll elements ht
  | call _ callee _ _ arguments closing isClosing =>
      simp only [effects, closing, List.mem_append, List.mem_singleton] at ht
      rcases ht with (ht | ht) | rfl
      · exact token_of_mem_effects callee ht
      · exact token_of_mem_effectsAll arguments ht
      · exact ⟨(mem_of_endingAt closing).1, .inl isClosing⟩
  | @member x o name _ object => exact token_of_mem_effects (e := o) object ht
  | @not x sign e _ _ _ _ operand => exact token_of_mem_effects (e := e) operand ht
  | index _ left _ _ right | binary _ left right | membership _ left right =>
      cases List.mem_append.1 ht with
      | inl ht => exact token_of_mem_effects left ht
      | inr ht => exact token_of_mem_effects right ht
  | assign _ left right joins isAssign =>
      simp only [effects, joins.alone, List.mem_append, List.mem_singleton] at ht
      rcases ht with (ht | rfl) | ht
      · exact token_of_mem_effects left ht
      · exact ⟨joins.bounds.1, .inr isAssign⟩
      · exact token_of_mem_effects right ht

theorem token_of_mem_effectsAll {es : List Expr} {t : Token} {start stop : Nat}
    (h : NestedAll source tokens start stop es) (ht : t ∈ effectsAll tokens es) :
    t ∈ tokens ∧ (t.kind = .rparen ∨ t.kind = .assign) := by
  cases h with
  | nil => cases ht
  | cons head _ _ tail =>
      cases List.mem_append.1 ht with
      | inl ht => exact token_of_mem_effects head ht
      | inr ht => exact token_of_mem_effectsAll tail ht

end

mutual

/-- Effects come in the order of the source. -/
theorem effects_ordered {e : Expr} (h : e.Nested source tokens)
    (stream : Token.Stream source tokens) :
    (e.effects tokens).Pairwise fun t u => t.span.start < u.span.start := by
  cases h with
  | atom => exact .nil
  | array _ elements => exact effectsAll_ordered elements stream
  | @call x f es close _ callee starts apart arguments closing =>
      have nonempty := callee.start_lt_stop
      rw [effects, closing, List.pairwise_append, List.pairwise_append]
      refine ⟨⟨effects_ordered callee stream, effectsAll_ordered arguments stream, ?_⟩,
        List.pairwise_singleton _ _, ?_⟩
      · intro t ht u hu
        have := outer_bounds_of_mem_effects callee stream ht
        have := bounds_of_mem_effectsAll arguments stream hu
        omega
      · intro t ht u hu
        cases List.mem_singleton.1 hu
        cases List.mem_append.1 ht with
        | inl ht => have := outer_bounds_of_mem_effects callee stream ht; omega
        | inr ht => have := bounds_of_mem_effectsAll arguments stream ht; omega
  | @member x o name _ object => exact effects_ordered (e := o) object stream
  | @not x sign e _ _ _ _ operand => exact effects_ordered (e := e) operand stream
  | index _ object _ apart key =>
      rw [effects, List.pairwise_append]
      refine ⟨effects_ordered object stream, effects_ordered key stream, fun t ht u hu => ?_⟩
      have := outer_bounds_of_mem_effects object stream ht
      have := outer_bounds_of_mem_effects key stream hu
      omega
  | binary _ left right joins | membership _ left right joins =>
      have bounds := joins.bounds
      rw [effects, List.pairwise_append]
      refine ⟨effects_ordered left stream, effects_ordered right stream, fun t ht u hu => ?_⟩
      have := outer_bounds_of_mem_effects left stream ht
      have := outer_bounds_of_mem_effects right stream hu
      omega
  | assign _ left right joins =>
      have bounds := joins.bounds
      rw [effects, joins.alone, List.pairwise_append, List.pairwise_append]
      refine ⟨⟨effects_ordered left stream, List.pairwise_singleton _ _, ?_⟩,
        effects_ordered right stream, ?_⟩
      · intro t ht u hu
        cases List.mem_singleton.1 hu
        have := outer_bounds_of_mem_effects left stream ht
        omega
      · intro t ht u hu
        have := outer_bounds_of_mem_effects right stream hu
        simp only [List.mem_append, List.mem_singleton] at ht
        rcases ht with ht | rfl
        · have := outer_bounds_of_mem_effects left stream ht
          omega
        · omega

theorem effectsAll_ordered {start stop : Nat} {es : List Expr}
    (h : NestedAll source tokens start stop es) (stream : Token.Stream source tokens) :
    (effectsAll tokens es).Pairwise fun t u => t.span.start < u.span.start := by
  cases h with
  | nil => exact .nil
  | cons head starts stops tail =>
      rw [effectsAll, List.pairwise_append]
      refine ⟨effects_ordered head stream, effectsAll_ordered tail stream, fun t ht u hu => ?_⟩
      have := outer_bounds_of_mem_effects head stream ht
      have := bounds_of_mem_effectsAll tail stream hu
      omega

end

end MembershipLowering.Expr
