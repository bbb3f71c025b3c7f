import MembershipLowering.Proofs.Expr.Nesting
import MembershipLowering.Proofs.Expr.Traits

/-! # The tokens that stand for effects

A call happens at its closing parenthesis and an assignment at its `=`. The effects of an
expression are these tokens of its parts, in the order of the source. They stand inside
the expression, and a pure expression has none.
-/

namespace MembershipLowering.Expr

mutual

/-- The closing parentheses of calls and the signs of assignments. -/
def effects (tokens : List Token) : Expr → List Token
  | .atom _ _ => []
  | .array _ es => effectsAll tokens es
  | .call x f es =>
    f.effects tokens ++ effectsAll tokens es ++ Token.endingAt tokens x.content.stop
  | .member _ o _ => o.effects tokens
  | .index _ o k => o.effects tokens ++ k.effects tokens
  | .not _ _ e => e.effects tokens
  | .binary _ l _ r | .membership _ l r _ => l.effects tokens ++ r.effects tokens
  | .assign _ t v =>
    t.effects tokens ++ Token.within tokens t.outer.stop v.outer.start ++ v.effects tokens

def effectsAll (tokens : List Token) : List Expr → List Token
  | [] => []
  | e :: es => e.effects tokens ++ effectsAll tokens es

end

variable {source : String} {tokens : List Token}

/-- The token between two operands stands between them. -/
theorem Joins.bounds {x : Extent} {l r : Expr} {t : Token} (h : Joins tokens x l r t) :
    t ∈ tokens ∧ l.outer.stop ≤ t.span.start ∧ t.span.start < r.outer.start := by
  have mem : t ∈ Token.within tokens l.outer.stop r.outer.start := by
    rw [h.alone]
    exact List.mem_singleton.2 rfl
  simp only [Token.within, List.mem_filter, decide_eq_true_eq] at mem
  exact ⟨mem.1, mem.2.2.1, mem.2.2.2⟩

theorem mem_of_endingAt {t : Token} {offset : Nat} (h : Token.endingAt tokens offset = [t]) :
    t ∈ tokens ∧ t.span.stop = offset := by
  have mem : t ∈ Token.endingAt tokens offset := by
    rw [h]
    exact List.mem_singleton.2 rfl
  simpa only [Token.endingAt, List.mem_filter, decide_eq_true_eq] using mem

/-- What stands in one of two operands, or at the token between them, stands in the
    content. -/
theorem Joins.inside {x : Extent} {l r : Expr} {t : Token} {offset : Nat}
    (h : Joins tokens x l r t) (left : l.Nested source tokens) (right : r.Nested source tokens)
    (place : l.outer.start ≤ offset ∧ offset < l.outer.stop ∨ offset = t.span.start ∨
      r.outer.start ≤ offset ∧ offset < r.outer.stop) :
    x.content.start ≤ offset ∧ offset < x.content.stop := by
  have := left.start_lt_stop
  have := right.start_lt_stop
  have := h.starts
  have := h.stops
  have := h.bounds
  omega

/-- What stands in the content stands inside the parentheses too. -/
theorem bounds_of_content {e : Expr} {offset : Nat} (h : e.Nested source tokens)
    (inside : e.extent.content.start ≤ offset ∧ offset < e.extent.content.stop) :
    e.outer.start ≤ offset ∧ offset < e.outer.stop :=
  ⟨Nat.le_trans h.proper.opens inside.1, Nat.lt_of_lt_of_le inside.2 h.proper.closes⟩

mutual

/-- Effects happen inside the expression, and not in the parentheses around it. -/
theorem bounds_of_mem_effects {e : Expr} {t : Token} (h : e.Nested source tokens)
    (stream : Token.Stream source tokens) (ht : t ∈ e.effects tokens) :
    e.extent.content.start ≤ t.span.start ∧ t.span.start < e.extent.content.stop := by
  cases h with
  | atom => cases ht
  | @array x es proper elements =>
      have := bounds_of_mem_effectsAll elements stream ht
      change x.content.start ≤ _ ∧ _ < x.content.stop
      omega
  | @call x f es close proper callee starts apart arguments closing =>
      obtain ⟨isToken, stops⟩ := mem_of_endingAt closing
      have positive := stream.start_lt_stop isToken
      have nonempty := callee.start_lt_stop
      simp only [effects, closing, List.mem_append, List.mem_singleton] at ht
      change x.content.start ≤ _ ∧ _ < x.content.stop
      rcases ht with (ht | ht) | rfl
      · have := bounds_of_content callee (bounds_of_mem_effects callee stream ht)
        omega
      · have := bounds_of_mem_effectsAll arguments stream ht
        omega
      · omega
  | @member x o name proper object starts apart nonempty nameStart stops =>
      have := bounds_of_content object (bounds_of_mem_effects object stream ht)
      change x.content.start ≤ _ ∧ _ < x.content.stop
      omega
  | @index x o k proper object starts apart key stops =>
      have := object.start_lt_stop
      have := key.start_lt_stop
      change x.content.start ≤ _ ∧ _ < x.content.stop
      cases List.mem_append.1 ht with
      | inl ht =>
          have := bounds_of_content object (bounds_of_mem_effects object stream ht)
          omega
      | inr ht =>
          have := bounds_of_content key (bounds_of_mem_effects key stream ht)
          omega
  | @not x sign e proper starts nonempty apart operand stops =>
      have := bounds_of_content operand (bounds_of_mem_effects operand stream ht)
      change x.content.start ≤ _ ∧ _ < x.content.stop
      omega
  | binary proper left right joins kind spelt | membership proper left right joins kind =>
      apply joins.inside left right
      cases List.mem_append.1 ht with
      | inl ht =>
          exact .inl (bounds_of_content left (bounds_of_mem_effects left stream ht))
      | inr ht =>
          exact .inr (.inr (bounds_of_content right
            (bounds_of_mem_effects right stream ht)))
  | assign proper left right joins kind =>
      apply joins.inside left right
      simp only [effects, joins.alone, List.mem_append, List.mem_singleton] at ht
      rcases ht with (ht | rfl) | ht
      · exact .inl (bounds_of_content left (bounds_of_mem_effects left stream ht))
      · exact .inr (.inl rfl)
      · exact .inr (.inr (bounds_of_content right (bounds_of_mem_effects right stream ht)))

theorem bounds_of_mem_effectsAll {es : List Expr} {t : Token} {start stop : Nat}
    (h : NestedAll source tokens start stop es) (stream : Token.Stream source tokens)
    (ht : t ∈ effectsAll tokens es) : start ≤ t.span.start ∧ t.span.start < stop := by
  cases h with
  | nil => cases ht
  | cons head starts stops tail =>
      have := head.start_lt_stop
      cases List.mem_append.1 ht with
      | inl ht =>
          have := bounds_of_content head (bounds_of_mem_effects head stream ht)
          omega
      | inr ht => have := bounds_of_mem_effectsAll tail stream ht; omega

end

theorem outer_bounds_of_mem_effects {e : Expr} {t : Token} (h : e.Nested source tokens)
    (stream : Token.Stream source tokens) (ht : t ∈ e.effects tokens) :
    e.outer.start ≤ t.span.start ∧ t.span.start < e.outer.stop :=
  bounds_of_content h (bounds_of_mem_effects h stream ht)

mutual

/-- A pure expression has no effects. -/
theorem effects_of_isPure (tokens : List Token) {e : Expr} (h : e.isPure = true) :
    e.effects tokens = [] := by
  cases e with
  | atom => rfl
  | array x es => exact effectsAll_of_isPure tokens h
  | call => cases h
  | assign => cases h
  | member x o name => exact effects_of_isPure tokens (e := o) h
  | index x l r | binary x l op r | membership x l r negated =>
      simp only [isPure, Bool.and_eq_true] at h
      rw [effects, effects_of_isPure tokens h.1, effects_of_isPure tokens h.2]
      rfl
  | not x sign e => exact effects_of_isPure tokens (e := e) h

theorem effectsAll_of_isPure (tokens : List Token) {es : List Expr}
    (h : isPureAll es = true) : effectsAll tokens es = [] := by
  cases es with
  | nil => rfl
  | cons e es =>
      simp only [isPureAll, Bool.and_eq_true] at h
      rw [effectsAll, effects_of_isPure tokens h.1, effectsAll_of_isPure tokens h.2]
      rfl

end

/-- Nothing that is to be kept starts in `[start, stop)`. -/
def Clear (keep : Nat → Prop) (start stop : Nat) : Prop :=
  ∀ offset, start ≤ offset → offset < stop → ¬keep offset

mutual

/-- Nothing that is to be kept starts where lowering may remove something: at an atom,
    behind the sign of a `not`, between two operands, and in a right operand that may be
    moved. -/
def Guarded (keep : Nat → Prop) : Expr → Prop
  | .atom x _ => Clear keep x.content.start x.content.stop
  | .array _ es => GuardedAll keep es
  | .call _ f es => f.Guarded keep ∧ GuardedAll keep es
  | .member _ o _ => o.Guarded keep
  | .index _ o k => o.Guarded keep ∧ k.Guarded keep
  | .not _ sign e => Clear keep sign.start e.outer.start ∧ e.Guarded keep
  | .binary _ l _ r =>
    l.Guarded keep ∧ Clear keep l.outer.stop r.outer.start ∧ r.Guarded keep
  | .membership _ l r _ =>
    l.Guarded keep ∧ Clear keep l.outer.stop r.outer.start ∧ r.Guarded keep ∧
      (r.isPure = true → Clear keep r.outer.start r.outer.stop)
  | .assign _ t v => t.Guarded keep ∧ v.Guarded keep

def GuardedAll (keep : Nat → Prop) : List Expr → Prop
  | [] => True
  | e :: es => e.Guarded keep ∧ GuardedAll keep es

end

/-- All that is to be kept in a range is among the given effects. -/
def Confined (keep : Nat → Prop) (start stop : Nat) (effects : List Token) : Prop :=
  ∀ offset, start ≤ offset → offset < stop → keep offset → ∃ t ∈ effects, t.span.start = offset

variable {keep : Nat → Prop} {start stop start' stop' : Nat} {effects effects' : List Token}

/-- A part of the range has those of the effects that are not elsewhere. -/
theorem Confined.part (h : Confined keep start stop effects) (hstart : start ≤ start')
    (hstop : stop' ≤ stop)
    (only : ∀ t ∈ effects, start' ≤ t.span.start → t.span.start < stop' → t ∈ effects') :
    Confined keep start' stop' effects' := by
  intro offset lower upper kept
  obtain ⟨t, ht, same⟩ := h offset (by omega) (by omega) kept
  exact ⟨t, only t ht (by omega) (by omega), same⟩

/-- What is kept in front of the later effects is among the earlier ones. -/
theorem Confined.left (h : Confined keep start stop (effects ++ effects')) (hstop : stop' ≤ stop)
    (behind : ∀ t ∈ effects', stop' ≤ t.span.start) : Confined keep start stop' effects := by
  refine h.part (Nat.le_refl _) hstop fun t ht _ upper => ?_
  cases List.mem_append.1 ht with
  | inl ht => exact ht
  | inr ht => exact absurd upper (Nat.not_lt_of_le (behind t ht))

theorem Confined.right (h : Confined keep start stop (effects ++ effects'))
    (hstart : start ≤ start') (before : ∀ t ∈ effects, t.span.start < start') :
    Confined keep start' stop effects' := by
  refine h.part hstart (Nat.le_refl _) fun t ht lower _ => ?_
  cases List.mem_append.1 ht with
  | inl ht => exact absurd lower (Nat.not_le_of_lt (before t ht))
  | inr ht => exact ht

theorem Confined.narrow (h : Confined keep start stop effects) (hstart : start ≤ start')
    (hstop : stop' ≤ stop) : Confined keep start' stop' effects :=
  h.part hstart hstop fun _ ht _ _ => ht

theorem Confined.clear (h : Confined keep start stop effects) (hstart : start ≤ start')
    (hstop : stop' ≤ stop)
    (none : ∀ t ∈ effects, start' ≤ t.span.start → ¬t.span.start < stop') :
    Clear keep start' stop' := by
  intro offset lower upper kept
  obtain ⟨t, ht, same⟩ := h offset (by omega) (by omega) kept
  exact none t ht (by omega) (by omega)

/-- Behind and in front of what is kept there is nothing. -/
theorem Confined.content {e : Expr}
    (h : Confined keep e.outer.start e.outer.stop (e.effects tokens))
    (nested : e.Nested source tokens) (stream : Token.Stream source tokens) :
    Clear keep e.outer.start e.extent.content.start ∧
      Confined keep e.extent.content.start e.extent.content.stop (e.effects tokens) ∧
      Clear keep e.extent.content.stop e.outer.stop := by
  have opens : e.outer.start ≤ e.extent.content.start := nested.proper.opens
  have nonempty := nested.proper.nonempty
  have closes : e.extent.content.stop ≤ e.outer.stop := nested.proper.closes
  refine ⟨h.clear (Nat.le_refl _) (by omega) ?_, h.narrow opens closes,
    h.clear (by omega) (Nat.le_refl _) ?_⟩
  · intro t ht _ upper
    have := bounds_of_mem_effects nested stream ht
    omega
  · intro t ht lower _
    have := bounds_of_mem_effects nested stream ht
    omega

/-- What is kept in two parts, one behind the other, is among the effects of each. -/
theorem Confined.operands {l r : Expr}
    (h : Confined keep start stop (l.effects tokens ++ r.effects tokens))
    (left : l.Nested source tokens) (right : r.Nested source tokens)
    (stream : Token.Stream source tokens) (hstart : start ≤ l.outer.start)
    (apart : l.outer.stop ≤ r.outer.start) (hstop : r.outer.stop ≤ stop) :
    Confined keep l.outer.start l.outer.stop (l.effects tokens) ∧
      Clear keep l.outer.stop r.outer.start ∧
      Confined keep r.outer.start r.outer.stop (r.effects tokens) ∧
      Clear keep r.outer.stop stop := by
  have := left.start_lt_stop
  have := right.start_lt_stop
  have front : Confined keep start r.outer.start (l.effects tokens) :=
    h.left (by omega) fun t ht => (outer_bounds_of_mem_effects right stream ht).1
  have back : Confined keep l.outer.stop stop (r.effects tokens) :=
    h.right (by omega) fun t ht => (outer_bounds_of_mem_effects left stream ht).2
  refine ⟨front.narrow hstart apart, front.clear (by omega) (Nat.le_refl _) fun t ht lower _ => ?_,
    back.narrow apart hstop, back.clear (by omega) (Nat.le_refl _) fun t ht lower _ => ?_⟩
  · have := outer_bounds_of_mem_effects left stream ht
    omega
  · have := outer_bounds_of_mem_effects right stream ht
    omega

/-- The sign of an assignment is all that is kept between its parts. -/
theorem Confined.assign {x : Extent} {target value : Expr} {sign : Token}
    (h : Confined keep x.content.start x.content.stop
      (target.effects tokens ++ [sign] ++ value.effects tokens))
    (left : target.Nested source tokens) (right : value.Nested source tokens)
    (joins : Joins tokens x target value sign) (stream : Token.Stream source tokens) :
    Confined keep target.outer.start target.outer.stop (target.effects tokens) ∧
      Confined keep target.outer.stop value.outer.start [sign] ∧
      Confined keep value.outer.start value.outer.stop (value.effects tokens) := by
  have starts := joins.starts
  have stops := joins.stops
  have bounds := joins.bounds
  have := left.start_lt_stop
  have := right.start_lt_stop
  rw [starts, stops] at h
  have front : Confined keep target.outer.start value.outer.start
      (target.effects tokens ++ [sign]) :=
    h.left (by omega) fun t ht => (outer_bounds_of_mem_effects right stream ht).1
  refine ⟨front.left (by omega) fun t ht => ?_,
    front.right (by omega) fun t ht => (outer_bounds_of_mem_effects left stream ht).2,
    h.right (by omega) fun t ht => ?_⟩
  · rw [List.mem_singleton.1 ht]
    omega
  · cases List.mem_append.1 ht with
    | inl ht => have := outer_bounds_of_mem_effects left stream ht; omega
    | inr ht => rw [List.mem_singleton.1 ht]; omega

/-- Behind its arguments a call keeps its closing parenthesis. -/
theorem Confined.call {x : Extent} {f : Expr} {es : List Expr} {close : Token}
    (h : Confined keep x.content.start x.content.stop
      (f.effects tokens ++ effectsAll tokens es ++ [close]))
    (callee : f.Nested source tokens) (starts : x.content.start = f.outer.start)
    (apart : f.outer.stop < close.span.start)
    (arguments : NestedAll source tokens (f.outer.stop + 1) close.span.start es)
    (closing : Token.endingAt tokens x.content.stop = [close])
    (stream : Token.Stream source tokens) :
    Confined keep f.outer.start f.outer.stop (f.effects tokens) ∧
      Confined keep f.outer.stop close.span.start (effectsAll tokens es) ∧
      Confined keep close.span.start x.content.stop [close] := by
  obtain ⟨isToken, stops⟩ := mem_of_endingAt closing
  have positive := stream.start_lt_stop isToken
  have nonempty := callee.start_lt_stop
  rw [starts] at h
  have front : Confined keep f.outer.start close.span.start
      (f.effects tokens ++ effectsAll tokens es) :=
    h.left (by omega) fun t ht => Nat.le_of_eq (by rw [List.mem_singleton.1 ht])
  refine ⟨front.left (Nat.le_of_lt apart) fun t ht =>
      Nat.le_of_lt (bounds_of_mem_effectsAll arguments stream ht).1,
    front.right (Nat.le_of_lt nonempty) fun t ht =>
      (outer_bounds_of_mem_effects callee stream ht).2,
    h.right (by omega) fun t ht => ?_⟩
  cases List.mem_append.1 ht with
  | inl ht => have := outer_bounds_of_mem_effects callee stream ht; omega
  | inr ht => exact (bounds_of_mem_effectsAll arguments stream ht).2

theorem Confined.cons {e : Expr} {es : List Expr}
    (h : Confined keep start stop (effectsAll tokens (e :: es))) (head : e.Nested source tokens)
    (starts : start ≤ e.outer.start) (stops : e.outer.stop ≤ stop)
    (tail : NestedAll source tokens (e.outer.stop + 1) stop' es)
    (stream : Token.Stream source tokens) :
    Clear keep start e.outer.start ∧
      Confined keep e.outer.start e.outer.stop (e.effects tokens) ∧
      Confined keep e.outer.stop stop (effectsAll tokens es) := by
  have nonempty := head.start_lt_stop
  rw [effectsAll] at h
  have front := h.left stops fun t ht => Nat.le_of_lt (bounds_of_mem_effectsAll tail stream ht).1
  refine ⟨front.clear (Nat.le_refl _) (Nat.le_of_lt nonempty) fun t ht _ upper => ?_,
    front.narrow starts (Nat.le_refl _),
    h.right (by omega) fun t ht => (outer_bounds_of_mem_effects head stream ht).2⟩
  have := outer_bounds_of_mem_effects head stream ht
  omega

mutual

/-- If all that is to be kept are effects, it is nowhere where lowering may remove it. -/
theorem guarded_of_confined {keep : Nat → Prop} {e : Expr}
    (h : Confined keep e.outer.start e.outer.stop (e.effects tokens))
    (nested : e.Nested source tokens) (stream : Token.Stream source tokens) :
    e.Guarded keep := by
  obtain ⟨-, inner, -⟩ := h.content nested stream
  cases nested with
  | atom proper => exact inner.clear (Nat.le_refl _) (Nat.le_refl _) fun t ht => by cases ht
  | array proper elements =>
      exact guardedAll_of_confined inner elements stream (Nat.le_succ _) (Nat.le_refl _)
  | @call x f es close proper callee starts apart arguments closing =>
      rw [effects, closing] at inner
      obtain ⟨hf, hes, -⟩ := inner.call callee starts apart arguments closing stream
      exact ⟨guarded_of_confined hf callee stream,
        guardedAll_of_confined hes arguments stream (Nat.le_succ _) (Nat.le_refl _)⟩
  | @member x o name proper object starts apart nonempty nameStart stops =>
      simp only [extent] at inner
      exact guarded_of_confined (e := o) (inner.narrow (by omega) (by omega))
        object stream
  | @index x o k proper object starts apart key stops =>
      simp only [extent] at inner
      obtain ⟨ho, -, hk, -⟩ := Confined.operands inner object key stream (by omega) (by omega)
        (by omega)
      exact ⟨guarded_of_confined ho object stream, guarded_of_confined hk key stream⟩
  | @not x sign e proper starts nonempty apart operand stops =>
      have := operand.start_lt_stop
      simp only [extent] at inner
      refine ⟨inner.clear (by omega) (by omega) fun t ht _ upper => ?_, ?_⟩
      · have := outer_bounds_of_mem_effects (e := e) operand stream ht
        omega
      · exact guarded_of_confined (e := e) (inner.narrow (by omega) (by omega))
          operand stream
  | @binary x l r op t proper left right joins kind spelt =>
      have bounds := joins.bounds
      obtain ⟨hl, gap, hr, -⟩ := Confined.operands inner left right stream
        (Nat.le_of_eq joins.starts) (by omega) (Nat.le_of_eq joins.stops.symm)
      exact ⟨guarded_of_confined hl left stream, gap, guarded_of_confined hr right stream⟩
  | @membership x l r negated t proper left right joins kind =>
      have bounds := joins.bounds
      obtain ⟨hl, gap, hr, -⟩ := Confined.operands inner left right stream
        (Nat.le_of_eq joins.starts) (by omega) (Nat.le_of_eq joins.stops.symm)
      refine ⟨guarded_of_confined hl left stream, gap, guarded_of_confined hr right stream, ?_⟩
      intro pure
      refine hr.clear (Nat.le_refl _) (Nat.le_refl _) fun t ht => ?_
      rw [effects_of_isPure tokens pure] at ht
      cases ht
  | @assign x t v sign proper left right joins kind =>
      rw [effects, joins.alone] at inner
      obtain ⟨ht, -, hv⟩ := inner.assign left right joins stream
      exact ⟨guarded_of_confined ht left stream, guarded_of_confined hv right stream⟩

theorem guardedAll_of_confined {keep : Nat → Prop} {es : List Expr}
    {lower upper first last : Nat} (h : Confined keep lower upper (effectsAll tokens es))
    (nested : NestedAll source tokens first last es) (stream : Token.Stream source tokens)
    (hlower : lower ≤ first) (hupper : last ≤ upper) : GuardedAll keep es := by
  cases nested with
  | nil => trivial
  | cons head starts stops tail =>
      obtain ⟨-, hhead, htail⟩ := h.cons head (by omega) (by omega) tail stream
      exact ⟨guarded_of_confined hhead head stream,
        guardedAll_of_confined htail tail stream (Nat.le_succ _) hupper⟩

end

end MembershipLowering.Expr
