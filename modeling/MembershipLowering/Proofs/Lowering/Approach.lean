import MembershipLowering.Proofs.Expr.Bracketing
import MembershipLowering.Proofs.Expr.Continuing
import MembershipLowering.Proofs.Lowering.Weaving
import MembershipLowering.Proofs.Token.Operand

/-! # Copying between places

The source between two tokens is copied with the newlines in it, and ends in front of the second
token (`Reaches.approach`). There the token may be copied too, or an operand be written in
place of what begins with it.
-/

namespace MembershipLowering

open Token Lexeme

namespace Parser

variable {source : String} {inside : Bool} {tokens seg seg' : List Token} {t w : Token}
  {level stop : Nat} {e : Expr} {es : List Expr} {c : Place} {text : List Char}

/-! ## The tokens at the ends of a stretch -/

/-- An expression ends with the last token of its stretch. -/
theorem Derives.exists_last (h : Derives source inside level seg e) (stream : Stream source seg) :
    ∃ front w, seg = front ++ [w] ∧ w.span.stop = e.outer.stop := by
  obtain ⟨front, w, rfl, plain⟩ := h.exists_concat
  have last := (h.covers stream).last
  have other : w.kind ≠ .newline := by
    intro newline
    rw [newline] at plain
    cases plain
  have alone : significant [w] = [w] := by simp [significant, other]
  rw [significant_append, alone, List.getLast?_concat] at last
  exact ⟨front, w, rfl, Option.some.inj last⟩

/-- What comes behind an expression is beside its last token. -/
theorem Derives.beside (h : Derives source inside level seg e) (laced : Laced source tokens)
    (part : seg ++ seg' <:+: tokens) {z : Entry} (closes : z.Closes) :
    ∀ u ∈ seg'.head?, Beside source z.text e.outer.stop u := by
  intro u isNext
  obtain ⟨front, w, rfl, stops⟩ :=
    h.exists_last (laced.stream.sublist (List.infix_append_left.trans part).sublist)
  obtain ⟨back, rfl⟩ := List.head?_eq_some_iff.1 isNext
  have beside := laced.beside w u (List.IsInfix.trans ⟨front, back, by simp⟩ part)
  exact stops ▸ beside.other closes.text_ne.1 closes.text_ne.2

/-- What comes behind a token is beside it. -/
theorem Reaches.beside (h : Reaches inside t seg) (laced : Laced source tokens)
    (part : seg ++ seg' <:+: tokens) :
    ∀ u ∈ seg'.head?, Beside source (t.text source) t.span.stop u := by
  intro u isNext
  obtain ⟨front, rfl⟩ := h.exists_concat
  obtain ⟨back, rfl⟩ := List.head?_eq_some_iff.1 isNext
  exact laced.beside t u (List.IsInfix.trans ⟨front, back, by simp⟩ part)

theorem infix_behind {seg'' : List Token} (part : seg ++ seg' ++ seg'' <:+: tokens) :
    seg' ++ seg'' <:+: tokens := by
  rw [List.append_assoc] at part
  exact List.infix_append_right.trans part

theorem forall_head?_left {p : Token → Prop} (next : ∀ u ∈ (seg ++ seg').head?, p u) :
    ∀ u ∈ seg.head?, p u := by
  intro u isNext
  refine next u ?_
  rw [List.head?_append, Option.mem_def.1 isNext]
  rfl

/-! ## In front of a token -/

/-- From the place `c`, which is beside what comes next, newlines are passed over up to the entry
    `last`, and there is only the gap left in front of the token `t`. -/
structure Approach (source : String) (c : Place) (stop : Nat) (t : Token) (gap : List Char)
    (last : Entry) : Prop where
  flows : ∃ front, Text.excerpt stop t.span.start source.toList = front ++ gap ∧
    Flows c front ⟨last, c.depth, c.opened⟩
  le : stop ≤ t.span.start
  layout : Layout gap
  whole : last.isHalf = false
  admits : ∀ kind, c.last.kind.admits kind = true → last.kind.admits kind = true
  opens : c.last.kind.opensOperand = true → last.kind.opensOperand = true
  bare : gap = [] → last.text = "instanceof" → c.last.text = "instanceof" ∧ t.kind ≠ .number

theorem Reaches.approach (h : Reaches inside t seg) (laced : Laced source tokens)
    (part : seg <:+: tokens) (inline : t.kind ≠ .newline) (whole : c.last.isHalf = false)
    (next : ∀ u ∈ seg.head?, Beside source c.last.text stop u)
    (depth : inside = true → 0 < c.depth) :
    ∃ gap last, Approach source c stop t gap last := by
  induction h generalizing c stop with
  | here =>
      have beside := next t rfl
      have read := laced.read t (part.subset (List.mem_singleton.2 rfl))
      exact ⟨_, c.last, ⟨[], rfl, .refl c⟩, beside.le,
        beside.layout read.shape read.stops.ne_nil inline, whole, fun _ => id, id,
        fun none same => ⟨same, fun number => (beside.apart none).2 ⟨same, number⟩⟩⟩
  | @later u seg bracketed newline reaches ih =>
      have beside := next u rfl
      have read := laced.read u (part.subset (List.mem_cons_self ..))
      have partTail : seg <:+: tokens := (List.suffix_cons u seg).isInfix.trans part
      let e : Entry := ⟨Text.excerpt stop u.span.start source.toList, .newline, u.text source⟩
      have settled : e.Settled := read.settled_fixed newline rfl nofun _
      obtain ⟨notHalf, notRelation⟩ := settled.fixed rfl
      have joins : c.last.Joins e :=
        ⟨settled, beside.gap, fun half => absurd half (Bool.eq_false_iff.1 whole),
          fun _ => TokenKind.admits_newline _,
          fun touches => ⟨((beside.apart touches).1), fun same => nomatch same.2⟩⟩
      have follows : TokenKind.newline.follow? c.depth c.opened = some (c.depth, c.opened) := by
        obtain ⟨n, same⟩ := Nat.exists_eq_succ_of_ne_zero (Nat.ne_of_gt (depth bracketed))
        rw [same]
        rfl
      have front : Flows c _ ⟨e, c.depth, c.opened⟩ := .single joins follows
      have nextTail : ∀ v ∈ seg.head?, Beside source e.text u.span.stop v :=
        (Reaches.here : Reaches inside u [u]).beside laced part
      obtain ⟨gap, last, ⟨text, split, flows⟩, le, layout, whole, admits, opens, bare⟩ :=
        ih (c := ⟨e, c.depth, c.opened⟩) partTail notHalf nextTail depth
      have stream := laced.stream.sublist part.sublist
      have positive := stream.start_lt_stop (List.mem_cons_self ..)
      have ahead := (List.pairwise_cons.1 stream.ordered).1 t reaches.mem
      have hle := Nat.le_trans (Nat.le_of_lt positive) ahead
      refine ⟨gap, last, ⟨_, ?_, front.trans flows⟩, Nat.le_trans beside.le hle, layout, whole,
        fun kind _ => admits kind rfl, fun _ => opens rfl,
        fun none same => absurd (bare none same).1 notRelation⟩
      rw [List.append_assoc, ← split, stream.toList_text (List.mem_cons_self ..), List.append_assoc,
        Text.excerpt_append_excerpt (Nat.le_of_lt positive) ahead,
        Text.excerpt_append_excerpt beside.le hle]

namespace Approach

variable {gap : List Char} {last : Entry}

/-- What may stand behind the place may stand behind the newlines too. -/
theorem joins (h : Approach source c stop t gap last) {kind : TokenKind} {text : String}
    (settled : Entry.Settled ⟨gap, kind, text⟩) (inline : kind ≠ .newline)
    (admitted : c.last.kind.admits kind = true) (number : kind = .number → t.kind = .number) :
    last.Joins ⟨gap, kind, text⟩ where
  settled := settled
  gap := h.layout.toGap _
  whole half := absurd half (Bool.eq_false_iff.1 h.whole)
  admitted _ := h.admits kind admitted
  apart touches :=
    ⟨fun same => settled.ne_feed inline same.2,
      fun same => (h.bare touches same.1).2 (number same.2)⟩

/-- A token that is copied. -/
theorem copied (h : Approach source c stop t gap last) {kind : TokenKind} (isKind : t.kind = kind)
    (settled : Entry.Settled ⟨gap, kind, t.text source⟩) (inline : kind ≠ .newline)
    (admitted : c.last.kind.admits kind = true) {depth : Nat} {opened : Bool}
    (follows : kind.follow? c.depth c.opened = some (depth, opened)) :
    Flows c (Text.excerpt stop t.span.start source.toList ++ (t.text source).toList)
      ⟨⟨gap, kind, t.text source⟩, depth, opened⟩ := by
  obtain ⟨front, split, flows⟩ := h.flows
  have token : Flows ⟨last, c.depth, c.opened⟩ (gap ++ (t.text source).toList)
      ⟨⟨gap, kind, t.text source⟩, depth, opened⟩ :=
    .single (h.joins settled inline admitted isKind.trans) follows
  exact (flows.trans token).congr (by rw [split, List.append_assoc])

/-- An operand that begins where the token does. -/
theorem enter (h : Approach source c stop t gap last) {bare : Prop}
    (operand : Operand inside bare text) (opens : c.last.kind.opensOperand = true)
    (depth : inside = true → 0 < c.depth)
    (touches : c.last.text = "instanceof" → t.kind ≠ .number → bare) :
    ∃ z : Entry, Flows c (Text.excerpt stop t.span.start source.toList ++ text)
      ⟨z, c.depth, true⟩ ∧ z.Closes := by
  obtain ⟨front, split, flows⟩ := h.flows
  obtain ⟨z, flows', closes⟩ := operand ⟨last, c.depth, c.opened⟩ gap ⟨h.opens opens, h.whole⟩ depth
    h.layout fun none same => touches (h.bare none same).1 (h.bare none same).2
  exact ⟨z, (flows.trans flows').congr (by rw [split, List.append_assoc]), closes⟩

/-- An operator of one entry. -/
theorem settled_javaScript (op : BinaryOperator) (other : op ≠ .equal ∧ op ≠ .notEqual) :
    Entry.Settled ⟨[], op.tokenKind, op.javaScript⟩ ∧ op.javaScript ≠ "\r" ∧
      (op.javaScript = "instanceof" → op = .instanceOf) := by
  cases op with
  | equal => exact absurd rfl other.1
  | notEqual => exact absurd rfl other.2
  | instanceOf => exact ⟨⟨rfl, rfl, by decide, fun _ => rfl⟩, by decide, fun _ => rfl⟩
  | _ => exact ⟨⟨rfl, rfl, by decide, nofun⟩, by decide, by decide⟩

/-- An operator in signs, or the word `instanceof`, behind an operand. -/
theorem operator {z : Entry} {depth : Nat} (h : Approach source ⟨z, depth, true⟩ stop t gap last)
    (closes : z.Closes) (op : BinaryOperator) :
    ∃ p : Entry, Flows ⟨z, depth, true⟩
        (Text.excerpt stop t.span.start source.toList ++ op.javaScript.toList) ⟨p, depth, true⟩ ∧
      p.Opens ∧ p.text ≠ "\r" ∧ (p.text = "instanceof" → op = .instanceOf) := by
  obtain ⟨front, split, flows⟩ := h.flows
  -- one entry, up to the second half of `===` and `!==`
  have one : ∀ {kind : TokenKind} {text : String}, kind = .operator ∨ kind = .relation →
      Entry.Settled ⟨[], kind, text⟩ →
        Flows ⟨z, depth, true⟩ (Text.excerpt stop t.span.start source.toList ++ text.toList)
          ⟨⟨gap, kind, text⟩, depth, true⟩ := by
    intro kind text kinds settled
    obtain ⟨inline, begins, notNumber, follows⟩ : kind ≠ .newline ∧ kind.beginsOperand = false ∧
        kind ≠ .number ∧ kind.follow? depth true = some (depth, true) := by
      rcases kinds with rfl | rfl <;> exact ⟨by decide, rfl, by decide, rfl⟩
    have joins : last.Joins ⟨gap, kind, text⟩ :=
      h.joins (settled.regap gap) inline (TokenKind.admits_of_ends closes.ends (.inl begins))
        fun number => absurd number notNumber
    have entry : Flows ⟨last, depth, true⟩ (gap ++ text.toList) ⟨⟨gap, kind, text⟩, depth, true⟩ :=
      .single joins follows
    exact (flows.trans entry).congr (by rw [split, List.append_assoc])
  have two : ∀ {text : String}, text = "==" ∨ text = "!=" →
      Flows ⟨⟨gap, .operator, text⟩, depth, true⟩ ([] ++ "=".toList)
        ⟨⟨[], .assign, "="⟩, depth, true⟩ := by
    intro text half
    have isHalf : (⟨gap, .operator, text⟩ : Entry).isHalf = true := by
      rcases half with rfl | rfl <;> rfl
    refine .single ⟨Operand.settled_assign, .nil, fun _ => rfl, fun notHalf => ?_, fun _ => ?_⟩ rfl
    · rw [isHalf] at notHalf
      cases notHalf
    · exact ⟨fun same => absurd same.2 (by decide), fun same => by cases same.2⟩
  by_cases equality : op = .equal ∨ op = .notEqual
  · refine ⟨⟨[], .assign, "="⟩, ?_, ⟨rfl, rfl⟩, by decide,
      fun same => absurd same (show "=" ≠ "instanceof" by decide)⟩
    rcases equality with rfl | rfl
    · have front := @one .operator "==" (.inl rfl) ⟨rfl, rfl, by decide, nofun⟩
      exact (front.trans (two (.inl rfl))).congr (List.append_assoc ..)
    · have front := @one .operator "!=" (.inl rfl) ⟨rfl, rfl, by decide, nofun⟩
      exact (front.trans (two (.inr rfl))).congr (List.append_assoc ..)
  · obtain ⟨settled, noReturn, isInstanceOf⟩ := settled_javaScript op (not_or.1 equality)
    have kinds : op.tokenKind = .operator ∨ op.tokenKind = .relation := by
      cases op <;> first | exact .inl rfl | exact .inr rfl
    refine ⟨⟨gap, op.tokenKind, op.javaScript⟩, one kinds settled, ⟨?_, ?_⟩, noReturn, isInstanceOf⟩
    · rcases kinds with kind | kind <;> rw [kind] <;> rfl
    · simp only [Entry.isHalf, Bool.or_eq_false_iff, decide_eq_false_iff_not]
      cases op <;> simp [BinaryOperator.javaScript] at equality ⊢

end Approach

/-! ## Behind an operand, and in front of one -/

/-- A bracket, point, comma or `=` behind an operand. -/
theorem Derives.flows_mark (h : Derives source inside level seg e) {inside' : Bool}
    (laced : Laced source tokens) (part : seg ++ seg' <:+: tokens) {z : Entry} (closes : z.Closes)
    (reaches : Reaches inside' t seg') {kind : TokenKind} (isKind : t.kind = kind)
    (mark : kind.isMark = true) {depth depth' : Nat} {opened : Bool}
    (positive : inside' = true → 0 < depth)
    (follows : kind.follow? depth true = some (depth', opened)) :
    ∃ gap, Flows ⟨z, depth, true⟩ (Text.excerpt e.outer.stop t.span.stop source.toList)
      ⟨⟨gap, kind, t.text source⟩, depth', opened⟩ ∧ Entry.Settled ⟨gap, kind, t.text source⟩ := by
  have among : t ∈ tokens := part.subset (List.mem_append_right _ reaches.mem)
  have inline : kind ≠ .newline := fun newline => by rw [newline] at mark; cases mark
  have partTail : seg' <:+: tokens := List.infix_append_right.trans part
  obtain ⟨gap, last, approach⟩ := reaches.approach (c := ⟨z, depth, true⟩) laced partTail
    (isKind ▸ inline) closes.whole (h.beside laced part closes) positive
  have settled := (laced.read t among).settled_mark isKind mark gap
  have flows := approach.copied isKind settled inline
    (TokenKind.admits_of_ends closes.ends (TokenKind.cases_of_isMark mark)) follows
  have stream := laced.stream.sublist part.sublist
  have ahead := (h.covers stream.left).le_of_append (reaches.covers (isKind ▸ inline)) stream
  have longer := laced.stream.start_lt_stop among
  refine ⟨gap, flows.congr ?_, settled⟩
  rw [laced.stream.toList_text among, Text.excerpt_append_excerpt ahead (Nat.le_of_lt longer)]

/-- An expression that may stand right behind the word `instanceof`. -/
def Bare (level : Nat) (seg : List Token) : Prop :=
  BinaryOperator.relationLevel < level ∧ ∀ t ∈ (significant seg).head?, t.kind ≠ .number

theorem Bare.first {level' : Nat} (h : Bare level seg) (front : seg' <+: seg)
    (hle : level ≤ level') : Bare level' seg' := by
  obtain ⟨back, rfl⟩ := front
  refine ⟨Nat.lt_of_lt_of_le h.1 hle, fun t isFirst => h.2 t ?_⟩
  rw [significant_append, List.head?_append, Option.mem_def.1 isFirst]
  rfl

/-- An operand that is written in place of an expression. -/
theorem Derives.enter (h : Derives source inside level seg e) (laced : Laced source tokens)
    (part : seg <:+: tokens) (next : ∀ u ∈ seg.head?, Beside source c.last.text stop u)
    (opens : c.last.Opens) (depth : inside = true → 0 < c.depth)
    (tight : c.last.text = "instanceof" → BinaryOperator.relationLevel < level)
    (operand : Operand inside (Bare level seg) text) :
    ∃ z : Entry, Flows c (Text.excerpt stop e.outer.start source.toList ++ text)
      ⟨z, c.depth, true⟩ ∧ z.Closes := by
  obtain ⟨t, front, back, rfl, reaches, begins⟩ := h.begins
  have inline : t.kind ≠ .newline := fun kind => by rw [kind] at begins; cases begins
  have first : (significant (front ++ back)).head? = some t := by
    rw [significant_append, reaches.significant_eq inline]
    rfl
  have starts : t.span.start = e.outer.start := by
    have covers := (h.covers (laced.stream.sublist part.sublist)).first
    rw [first] at covers
    exact Option.some.inj covers
  obtain ⟨gap, last, approach⟩ := reaches.approach laced (List.infix_append_left.trans part) inline
    opens.whole (forall_head?_left next) depth
  rw [← starts]
  refine approach.enter operand opens.opens depth fun same number => ⟨tight same, ?_⟩
  rw [first]
  rintro _ ⟨⟩
  exact number

end Parser

end MembershipLowering
