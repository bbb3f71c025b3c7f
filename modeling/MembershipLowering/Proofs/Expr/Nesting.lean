import MembershipLowering.Proofs.Expr.Covering
import MembershipLowering.Proofs.Token.Shape

/-! # Nested extents

In the tree of an accepted source the parts of an expression stand inside it, in order
and apart from each other, and every extent begins and ends between two characters.
Between the operands of a binary operator there is just one token besides newlines, and
it is the operator (`Expr.Joins`). Later proofs about positions start from here and not
from the grammar.
-/

namespace MembershipLowering

/-- The tokens other than newlines that start in `[start, stop)`. -/
def Token.within (tokens : List Token) (start stop : Nat) : List Token :=
  tokens.filter fun t => t.kind ≠ .newline ∧ start ≤ t.span.start ∧ t.span.start < stop

/-- The tokens that stop at an offset. -/
def Token.endingAt (tokens : List Token) (offset : Nat) : List Token :=
  tokens.filter (·.span.stop = offset)

/-- An extent with its offsets in order and between characters of the source. There are
    parentheses in front of the content exactly if there are some behind it. -/
structure Extent.Proper (source : String) (x : Extent) : Prop where
  opens : x.outer.start ≤ x.content.start
  nonempty : x.content.start < x.content.stop
  closes : x.content.stop ≤ x.outer.stop
  paired : x.outer.start = x.content.start ↔ x.outer.stop = x.content.stop
  outerStart : Text.isBoundary x.outer.start source.toList = true
  contentStart : Text.isBoundary x.content.start source.toList = true
  contentStop : Text.isBoundary x.content.stop source.toList = true
  outerStop : Text.isBoundary x.outer.stop source.toList = true

namespace Extent

variable {source : String}

theorem Proper.bare {s : Span} (nonempty : s.start < s.stop)
    (hstart : Text.isBoundary s.start source.toList = true)
    (hstop : Text.isBoundary s.stop source.toList = true) : (Extent.bare s).Proper source where
  opens := Nat.le_refl _
  nonempty := nonempty
  closes := Nat.le_refl _
  paired := iff_of_true rfl rfl
  outerStart := hstart
  contentStart := hstart
  contentStop := hstop
  outerStop := hstop

/-- The extent of what was read from a stretch of tokens. -/
theorem Proper.of_covers {seg : List Token} {s : Span} (h : Token.Covers seg s)
    (stream : Token.Stream source seg) : (Extent.bare s).Proper source :=
  .bare (h.start_lt_stop stream) (h.isBoundary_start stream) (h.isBoundary_stop stream)

theorem Proper.wrap {x : Extent} {start stop : Nat} (h : x.Proper source)
    (opens : start < x.outer.start) (closes : x.outer.stop < stop)
    (hstart : Text.isBoundary start source.toList = true)
    (hstop : Text.isBoundary stop source.toList = true) : (x.wrap start stop).Proper source := by
  have outer : (x.wrap start stop).outer = ⟨start, stop⟩ :=
    Span.cover_of_within (Nat.le_of_lt opens) (Nat.le_of_lt closes)
  have content : (x.wrap start stop).content = x.content := rfl
  have := h.opens
  have := h.closes
  constructor
  · rw [outer, content]
    exact Nat.le_trans (Nat.le_of_lt opens) h.opens
  · exact h.nonempty
  · rw [outer, content]
    exact Nat.le_trans h.closes (Nat.le_of_lt closes)
  · rw [outer, content]
    exact iff_of_false (by simp only; omega) (by simp only; omega)
  · rw [outer]
    exact hstart
  · exact h.contentStart
  · exact h.contentStop
  · rw [outer]
    exact hstop

end Extent

namespace Expr

/-- The extent `x` holds two operands and between them, apart from newlines, the
    token `t` only. -/
structure Joins (tokens : List Token) (x : Extent) (left right : Expr) (t : Token) : Prop where
  starts : x.content.start = left.outer.start
  stops : x.content.stop = right.outer.stop
  alone : Token.within tokens left.outer.stop right.outer.start = [t]
  apart : t.span.stop ≤ right.outer.start

mutual

/-- The parts of the expression are nested in it. -/
inductive Nested (source : String) (tokens : List Token) : Expr → Prop where
  | atom {x : Extent} {a : Atom} (proper : x.Proper source) : Nested source tokens (.atom x a)
  | array {x : Extent} {es : List Expr} (proper : x.Proper source)
      (elements : NestedAll source tokens (x.content.start + 1) x.content.stop es) :
      Nested source tokens (.array x es)
  | call {x : Extent} {f : Expr} {es : List Expr} {close : Token} (proper : x.Proper source)
      (callee : Nested source tokens f) (starts : x.content.start = f.outer.start)
      (apart : f.outer.stop < close.span.start)
      (arguments : NestedAll source tokens (f.outer.stop + 1) close.span.start es)
      (closes : Token.endingAt tokens x.content.stop = [close])
      (isClosing : close.kind = .rparen) : Nested source tokens (.call x f es)
  | member {x : Extent} {o : Expr} {name : Span} (proper : x.Proper source)
      (object : Nested source tokens o) (starts : x.content.start = o.outer.start)
      (apart : o.outer.stop ≤ name.start) (nonempty : name.start < name.stop)
      (nameStart : Text.isBoundary name.start source.toList = true)
      (stops : x.content.stop = name.stop) : Nested source tokens (.member x o name)
  | index {x : Extent} {o k : Expr} (proper : x.Proper source)
      (object : Nested source tokens o) (starts : x.content.start = o.outer.start)
      (apart : o.outer.stop < k.outer.start) (key : Nested source tokens k)
      (stops : k.outer.stop < x.content.stop) : Nested source tokens (.index x o k)
  | not {x : Extent} {sign : Span} {e : Expr} (proper : x.Proper source)
      (starts : x.content.start = sign.start) (nonempty : sign.start < sign.stop)
      (apart : sign.stop ≤ e.outer.start) (operand : Nested source tokens e)
      (stops : x.content.stop = e.outer.stop) : Nested source tokens (.not x sign e)
  | binary {x : Extent} {l r : Expr} {op : BinaryOperator} {t : Token} (proper : x.Proper source)
      (left : Nested source tokens l) (right : Nested source tokens r)
      (joins : Joins tokens x l r t) (kind : t.kind = op.tokenKind)
      (spelt : BinaryOperator.ofText? (t.text source) = some op) :
      Nested source tokens (.binary x l op r)
  | membership {x : Extent} {l r : Expr} {negated : Bool} {t : Token} (proper : x.Proper source)
      (left : Nested source tokens l) (right : Nested source tokens r)
      (joins : Joins tokens x l r t) (kind : t.kind = .relation) :
      Nested source tokens (.membership x l r negated)
  | assign {x : Extent} {target value : Expr} {t : Token} (proper : x.Proper source)
      (left : Nested source tokens target) (right : Nested source tokens value)
      (joins : Joins tokens x target value t) (kind : t.kind = .assign) :
      Nested source tokens (.assign x target value)

/-- The expressions stand in `[start, stop)`, in order and apart from each other. -/
inductive NestedAll (source : String) (tokens : List Token) : (start stop : Nat) →
    List Expr → Prop where
  | nil {start stop : Nat} : NestedAll source tokens start stop []
  | cons {start stop : Nat} {e : Expr} {es : List Expr} (head : Nested source tokens e)
      (starts : start ≤ e.outer.start) (stops : e.outer.stop ≤ stop)
      (tail : NestedAll source tokens (e.outer.stop + 1) stop es) :
      NestedAll source tokens start stop (e :: es)

end

variable {source : String} {tokens : List Token}

theorem Nested.proper {e : Expr} (h : Nested source tokens e) : e.extent.Proper source := by
  cases h <;> assumption

theorem Nested.start_lt_stop {e : Expr} (h : Nested source tokens e) :
    e.outer.start < e.outer.stop := by
  have proper := h.proper
  exact Nat.lt_of_le_of_lt proper.opens (Nat.lt_of_lt_of_le proper.nonempty proper.closes)

theorem Nested.elements {x : Extent} {es : List Expr} (h : Nested source tokens (.array x es)) :
    NestedAll source tokens (x.content.start + 1) x.content.stop es := by
  cases h
  assumption

theorem NestedAll.mono {start start' stop : Nat} {es : List Expr}
    (h : NestedAll source tokens start stop es) (hle : start' ≤ start) :
    NestedAll source tokens start' stop es := by
  cases h with
  | nil => exact .nil
  | cons head starts stops tail => exact .cons head (Nat.le_trans hle starts) stops tail

theorem NestedAll.widen {start stop stop' : Nat} {es : List Expr}
    (h : NestedAll source tokens start stop es) (hle : stop ≤ stop') :
    NestedAll source tokens start stop' es := by
  induction es generalizing start with
  | nil => exact .nil
  | cons e es ih =>
      cases h with
      | cons head starts stops tail =>
          exact .cons head starts (Nat.le_trans stops hle) (ih tail)

/-- Parentheses around an expression leave its parts where they are. -/
theorem Nested.parenthesize {start stop : Nat} {e : Expr} (h : Nested source tokens e)
    (proper : (e.extent.wrap start stop).Proper source) :
    Nested source tokens (e.parenthesize start stop) := by
  cases h with
  | atom => exact .atom proper
  | array _ elements => exact .array proper elements
  | call _ callee starts apart arguments closes isClosing =>
      exact .call proper callee starts apart arguments closes isClosing
  | member _ object starts apart nonempty nameStart stops =>
      exact .member proper object starts apart nonempty nameStart stops
  | index _ object starts apart key stops => exact .index proper object starts apart key stops
  | not _ starts nonempty apart operand stops =>
      exact .not proper starts nonempty apart operand stops
  | binary _ left right joins kind spelt =>
      exact .binary proper left right ⟨joins.starts, joins.stops, joins.alone, joins.apart⟩ kind
        spelt
  | membership _ left right joins kind =>
      exact .membership proper left right ⟨joins.starts, joins.stops, joins.alone, joins.apart⟩
        kind
  | assign _ left right joins kind =>
      exact .assign proper left right ⟨joins.starts, joins.stops, joins.alone, joins.apart⟩ kind

end Expr

namespace Parser

open Token

variable {source : String} {inside : Bool} {before after : List Token}

theorem within_append (ts us : List Token) (start stop : Nat) :
    within (ts ++ us) start stop = within ts start stop ++ within us start stop :=
  List.filter_append ..

/-- No token of a stretch that ends before an offset starts behind it. -/
theorem within_eq_nil_of_stop_le {ts : List Token} {start stop : Nat}
    (stream : Stream source ts)
    (h : ∀ t ∈ ts, t.kind ≠ .newline → t.span.stop ≤ start) : within ts start stop = [] := by
  rw [within, List.filter_eq_nil_iff]
  intro t ht isWithin
  simp only [decide_eq_true_eq] at isWithin
  have := h t ht isWithin.1
  have := stream.start_lt_stop ht
  omega

theorem within_eq_nil_of_le_start {ts : List Token} {start stop : Nat}
    (h : ∀ t ∈ ts, t.kind ≠ .newline → stop ≤ t.span.start) : within ts start stop = [] := by
  rw [within, List.filter_eq_nil_iff]
  intro t ht isWithin
  simp only [decide_eq_true_eq] at isWithin
  have := h t ht isWithin.1
  omega

/-- Between two operands that were read one after the other stands the token that was
    read between them. -/
theorem joins_of_operands {tokens segLeft seg segRight : List Token} {t : Token} {l r : Expr}
    (left : Covers segLeft l.outer) (right : Covers segRight r.outer)
    (reaches : Reaches inside t seg) (kind : t.kind ≠ .newline) (stream : Stream source tokens)
    (part : segLeft ++ seg ++ segRight <:+: tokens) :
    Expr.Joins tokens (.bare (l.outer.cover r.outer)) l r t := by
  obtain ⟨before, after, rfl⟩ := part
  have streamAll := stream.left.right
  have middle := reaches.covers kind
  have hleft := left.start_lt_stop streamAll.left.left
  have hright := right.start_lt_stop streamAll.right
  have htoken := middle.start_lt_stop streamAll.left.right
  have hfront := left.le_of_append middle streamAll.left
  have hback := (left.append middle).le_of_append right streamAll
  simp only at hback
  have cover : l.outer.cover r.outer = ⟨l.outer.start, r.outer.stop⟩ :=
    Span.cover_of_le (by omega) (by omega)
  refine ⟨by rw [cover]; rfl, by rw [cover]; rfl, ?_, hback⟩
  have first : within before l.outer.stop r.outer.start = [] := by
    apply within_eq_nil_of_stop_le stream.left.left
    intro u hu _
    obtain ⟨v, hv, -, starts⟩ := left.exists_first
    have := stream.left.le_of_append hu
      (List.mem_append_left _ (List.mem_append_left _ hv))
    omega
  have second : within segLeft l.outer.stop r.outer.start = [] :=
    within_eq_nil_of_stop_le streamAll.left.left fun u hu => left.le_stop streamAll.left.left hu
  have third : within seg l.outer.stop r.outer.start = [t] := by
    have alone := reaches.significant_eq kind
    rw [significant] at alone
    rw [within]
    calc
      seg.filter _ = (seg.filter (·.kind ≠ .newline)).filter
          (fun u => l.outer.stop ≤ u.span.start ∧ u.span.start < r.outer.start) := by
        rw [List.filter_filter]
        congr 1
        funext u
        simp [Bool.and_comm]
      _ = [t] := by
        rw [alone, List.filter_cons_of_pos (by simp; omega), List.filter_nil]
  have fourth : within segRight l.outer.stop r.outer.start = [] :=
    within_eq_nil_of_le_start fun u hu => right.start_le streamAll.right hu
  have last : within after l.outer.stop r.outer.start = [] := by
    apply within_eq_nil_of_le_start
    intro u hu _
    obtain ⟨v, hv, -, stops⟩ := right.exists_last
    have := stream.le_of_append (List.mem_append_right _ (List.mem_append_right _ hv)) hu
    omega
  simp only [within_append, first, second, third, fourth, last, List.nil_append, List.append_nil]

/-- One token stops where it stops. -/
theorem endingAt_eq {tokens : List Token} {t : Token} (stream : Stream source tokens)
    (ht : t ∈ tokens) : endingAt tokens t.span.stop = [t] := by
  obtain ⟨front, back, rfl⟩ := List.append_of_mem ht
  have positive := stream.start_lt_stop ht
  have first : endingAt front t.span.stop = [] := by
    rw [endingAt, List.filter_eq_nil_iff]
    intro u hu same
    have := stream.le_of_append hu (List.mem_cons_self ..)
    simp only [decide_eq_true_eq] at same
    omega
  have last : endingAt back t.span.stop = [] := by
    rw [endingAt, List.filter_eq_nil_iff]
    intro u hu same
    have := (List.pairwise_cons.1 stream.right.ordered).1 u hu
    have := stream.right.start_lt_stop (List.mem_cons_of_mem _ hu)
    simp only [decide_eq_true_eq] at same
    omega
  rw [endingAt] at first last
  rw [endingAt, List.filter_append, List.filter_cons_of_pos (by simp), first, last]
  rfl

/-- The class of an operator's token is the one under which the operator is looked up. -/
theorem kind_of_level? {t : Token} {op : BinaryOperator}
    (shape : Lexeme.Shape t.kind (t.text source).toList)
    (leveled : level? source t = some op.level)
    (spelt : BinaryOperator.ofText? (t.text source) = some op) : t.kind = op.tokenKind := by
  unfold level? at leveled
  split at leveled
  · rename_i isRelation
    rw [isRelation]
    cases op <;> first | rfl | cases leveled
  · rename_i isOperator
    cases op with
    | instanceOf =>
        have text : t.text source = "instanceof" := by
          unfold BinaryOperator.ofText? at spelt
          split at spelt <;> first | assumption | cases spelt
        rw [text] at shape
        exact shape.kind_of_instanceof
    | _ => exact isOperator
  · cases leveled

mutual

/-- An expression that was read from part of the tokens is nested. -/
theorem Derives.nested {inside : Bool} {level : Nat} {seg tokens : List Token} {e : Expr}
    (h : Derives source inside level seg e) (stream : Stream source tokens)
    (part : seg <:+: tokens) : e.Nested source tokens := by
  have streamSeg := stream.sublist part.sublist
  have covers := h.covers streamSeg
  match h with
  | .atom reaches known => exact .atom (.of_covers covers streamSeg)
  | @Derives.shorthand _ _ segSign _ name _ reaches known sign isName touches =>
    have front := reaches.covers (ne_newline_of_atom? known)
    have isLast : name ∈ segSign ++ [name] := List.mem_append_right _ (List.mem_singleton.2 rfl)
    exact .member (.of_covers covers streamSeg) (.atom (.of_covers front streamSeg.left)) rfl
      (Nat.le_of_eq touches.symm) (streamSeg.start_lt_stop isLast)
      (streamSeg.isBoundary_start isLast) rfl
  | .array opening isOpening items =>
    have front := opening.covers (ne_newline_of_kind isOpening rfl)
    have positive := front.start_lt_stop streamSeg.left
    refine .array (.of_covers covers streamSeg) ?_
    have closes := streamSeg.right.start_lt_stop
      (mem_significant.1 (List.mem_of_getLast? (items.getLast? rfl))).1
    refine (items.nested rfl stream (List.infix_append_right.trans part) fun u hu _ => ?_).widen
      (Nat.le_of_lt closes)
    have := streamSeg.le_of_append opening.mem hu
    simp only [Extent.bare]
    omega
  | .parenthesized opening isOpening inner closing isClosing =>
    have covers' := inner.covers streamSeg.left.right
    have nested := inner.nested stream
      ((List.infix_append_right.trans List.infix_append_left).trans part)
    have front := opening.covers (ne_newline_of_kind isOpening rfl)
    have back := closing.covers (ne_newline_of_kind isClosing rfl)
    have hfront := front.le_of_append covers' streamSeg.left
    have hback := (front.append covers').le_of_append back streamSeg
    have positive := front.start_lt_stop streamSeg.left.left
    have positive' := back.start_lt_stop streamSeg.right
    simp only at hback
    refine nested.parenthesize (nested.proper.wrap ?_ ?_
      (front.isBoundary_start streamSeg.left.left) (back.isBoundary_stop streamSeg.right))
    · rw [← Expr.outer]
      omega
    · rw [← Expr.outer]
      omega
  | .member object reachesDot isDot reachesName isName =>
    have covers' := object.covers streamSeg.left.left
    have dot := reachesDot.covers (ne_newline_of_kind isDot rfl)
    have name := reachesName.covers (ne_newline_of_kind isName rfl)
    have hdot := covers'.le_of_append dot streamSeg.left
    have hname := (covers'.append dot).le_of_append name streamSeg
    have positive := dot.start_lt_stop streamSeg.left.right
    simp only at hname
    exact .member (.of_covers covers streamSeg)
      (object.nested stream ((List.infix_append_left.trans List.infix_append_left).trans part))
      rfl (by omega) (name.start_lt_stop streamSeg.right) (name.isBoundary_start streamSeg.right)
      rfl
  | .index object opening isOpening key closing isClosing =>
    have covers' := object.covers streamSeg.left.left.left
    have front := opening.covers (ne_newline_of_kind isOpening rfl)
    have coversKey := key.covers streamSeg.left.right
    have back := closing.covers (ne_newline_of_kind isClosing rfl)
    have hfront := covers'.le_of_append front streamSeg.left.left
    have hkey := (covers'.append front).le_of_append coversKey streamSeg.left
    have hback := ((covers'.append front).append coversKey).le_of_append back streamSeg
    have positive := front.start_lt_stop streamSeg.left.left.right
    have positive' := back.start_lt_stop streamSeg.right
    simp only at hkey hback
    refine .index (.of_covers covers streamSeg)
      (object.nested stream ((List.infix_append_left.trans
        (List.infix_append_left.trans List.infix_append_left)).trans part)) rfl (by omega)
      (key.nested stream ((List.infix_append_right.trans List.infix_append_left).trans part)) ?_
    simp only [Extent.bare]
    omega
  | .call callee opening isOpening touches items =>
    have covers' := callee.covers streamSeg.left.left
    have front := opening.covers (ne_newline_of_kind isOpening rfl)
    have positive := front.start_lt_stop streamSeg.left.right
    have isLast := (mem_significant.1 (List.mem_of_getLast? (items.getLast? rfl))).1
    have apart := streamSeg.le_of_append (List.mem_append_right _ opening.mem) isLast
    refine .call (.of_covers covers streamSeg)
      (callee.nested stream ((List.infix_append_left.trans List.infix_append_left).trans part))
      rfl (by omega) ?_ (endingAt_eq stream (part.subset (List.mem_append_right _ isLast)))
      items.close_kind
    refine items.nested rfl stream (List.infix_append_right.trans part) fun u hu _ => ?_
    have := streamSeg.le_of_append (List.mem_append_right _ opening.mem) hu
    omega
  | .not reaches isNot operand tighter =>
    have front := reaches.covers (ne_newline_of_kind isNot rfl)
    have coversOperand := operand.covers streamSeg.right
    have hle := front.le_of_append coversOperand streamSeg
    have positive := front.start_lt_stop streamSeg.left
    have positive' := coversOperand.start_lt_stop streamSeg.right
    have cover := Span.cover_of_le (Nat.le_of_lt (Nat.lt_of_lt_of_le positive hle))
      (Nat.le_of_lt (Nat.lt_of_le_of_lt hle positive'))
    exact .not (.of_covers covers streamSeg) (by rw [cover]; rfl) positive hle
      (operand.nested stream (List.infix_append_right.trans part)) (by rw [cover]; rfl)
  | .binary left _ reaches leveled spelt right _ =>
    exact .binary (.of_covers covers streamSeg)
      (left.nested stream ((List.infix_append_left.trans List.infix_append_left).trans part))
      (right.nested stream (List.infix_append_right.trans part))
      (joins_of_operands (left.covers streamSeg.left.left) (right.covers streamSeg.right) reaches
        (ne_newline_of_level? leveled) stream part)
      (kind_of_level? (streamSeg.shape (List.mem_append_left _
        (List.mem_append_right _ reaches.mem))) leveled spelt) spelt
  | .membership left _ reaches isRelation _ right _ =>
    exact .membership (.of_covers covers streamSeg)
      (left.nested stream ((List.infix_append_left.trans List.infix_append_left).trans part))
      (right.nested stream (List.infix_append_right.trans part))
      (joins_of_operands (left.covers streamSeg.left.left) (right.covers streamSeg.right) reaches
        (ne_newline_of_kind isRelation rfl) stream part) isRelation
  | .assign left _ _ reaches isAssign right =>
    exact .assign (.of_covers covers streamSeg)
      (left.nested stream ((List.infix_append_left.trans List.infix_append_left).trans part))
      (right.nested stream (List.infix_append_right.trans part))
      (joins_of_operands (left.covers streamSeg.left.left) (right.covers streamSeg.right) reaches
        (ne_newline_of_kind isAssign rfl) stream part) isAssign

theorem DerivesItems.nested {kind : TokenKind} {seg tokens : List Token}
    {es : List Expr} {close : Token} {start : Nat} (h : DerivesItems source kind seg es close)
    (other : decide (kind = .newline) = false) (stream : Stream source tokens)
    (part : seg <:+: tokens) (starts : ∀ t ∈ seg, t.kind ≠ .newline → start ≤ t.span.start) :
    Expr.NestedAll source tokens start close.span.start es := by
  have streamSeg := stream.sublist part.sublist
  match h with
  | .done closing isClosing => exact .nil
  | .last item closing isClosing =>
    have covers := item.covers streamSeg.left
    obtain ⟨first, isFirst, kind, hstart⟩ := covers.exists_first
    obtain ⟨last, isLast, -, hstop⟩ := covers.exists_last
    refine .cons (item.nested stream (List.infix_append_left.trans part)) ?_ ?_ .nil
    · exact hstart ▸ starts first (List.mem_append_left _ isFirst) kind
    · exact hstop ▸ streamSeg.le_of_append isLast closing.mem
  | .more item reaches isComma items =>
    have covers := item.covers streamSeg.left.left
    obtain ⟨first, isFirst, kind, hstart⟩ := covers.exists_first
    obtain ⟨last, isLast, -, hstop⟩ := covers.exists_last
    have hcomma := streamSeg.left.le_of_append isLast reaches.mem
    have positive := streamSeg.left.right.start_lt_stop reaches.mem
    refine .cons (item.nested stream ((List.infix_append_left.trans List.infix_append_left).trans
      part)) ?_ ?_ (items.nested other stream (List.infix_append_right.trans part) fun u hu _ => ?_)
    · exact hstart ▸ starts first (List.mem_append_left _ (List.mem_append_left _ isFirst)) kind
    · have isClose := (mem_significant.1 (List.mem_of_getLast? (items.getLast? other))).1
      exact hstop ▸ streamSeg.le_of_append (List.mem_append_left _ isLast) isClose
    · have := streamSeg.le_of_append (List.mem_append_right _ reaches.mem) hu
      omega

end

/-- Statements that were read from part of the tokens are nested in the source. -/
theorem DerivesProgram.nested {ts tokens : List Token} {es : List Expr} {start : Nat}
    (h : DerivesProgram source ts es) (stream : Stream source tokens) (part : ts <:+: tokens)
    (starts : ∀ t ∈ ts, start ≤ t.span.start) :
    Expr.NestedAll source tokens start (Text.byteLength source.toList) es := by
  induction h generalizing start with
  | nil => exact .nil
  | separator separates later ih =>
      exact ih ((List.suffix_cons _ _).isInfix.trans part)
        fun t ht => starts t (List.mem_cons_of_mem _ ht)
  | last statement =>
      have streamSeg := stream.sublist part.sublist
      have covers := statement.covers streamSeg
      obtain ⟨first, isFirst, -, hstart⟩ := covers.exists_first
      obtain ⟨last, isLast, -, hstop⟩ := covers.exists_last
      refine .cons (statement.nested stream part) ?_ ?_ .nil
      · exact hstart ▸ starts first isFirst
      · exact hstop ▸ streamSeg.stop_le isLast
  | @statement level seg ts t e es statement separates later ih =>
      have streamSeg := stream.sublist part.sublist
      have covers := statement.covers streamSeg.left
      obtain ⟨first, isFirst, -, hstart⟩ := covers.exists_first
      obtain ⟨last, isLast, -, hstop⟩ := covers.exists_last
      have partLater : ts <:+: seg ++ t :: ts :=
        (List.suffix_cons t ts).isInfix.trans List.infix_append_right
      refine .cons (statement.nested stream (List.infix_append_left.trans part)) ?_ ?_
        (ih (partLater.trans part) fun u hu => ?_)
      · exact hstart ▸ starts first (List.mem_append_left _ isFirst)
      · exact hstop ▸ streamSeg.left.stop_le isLast
      · have hle := streamSeg.le_of_append isLast (List.mem_cons_self ..)
        have positive := streamSeg.right.start_lt_stop (List.mem_cons_self ..)
        have := (List.pairwise_cons.1 streamSeg.right.ordered).1 u hu
        omega

end Parser

/-- The statements of an accepted source are nested in it. -/
theorem Parser.nested_of_statements {source : String} {tokens : List Token} {es : List Expr}
    (read : Token.readAll source = .ok tokens) (h : statements source tokens = .ok es) :
    Expr.NestedAll source tokens 0 (Text.byteLength source.toList) es :=
  (statements_sound h).nested (Token.stream_of_readAll read) List.infix_rfl
    fun _ _ => Nat.zero_le _

end MembershipLowering
