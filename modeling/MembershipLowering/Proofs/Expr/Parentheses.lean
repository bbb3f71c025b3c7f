import MembershipLowering.Proofs.Expr.Subterms

/-! # Parentheses around expressions

Between the outer and the inner end of an extent stand the parentheses of the source and
nothing else, as many on the one side as on the other (`Extent.Enclosed`). That is so for
every part of an accepted source, since every part was itself read from a stretch of the
tokens (`Parser.Derives.exists_part`).
-/

namespace MembershipLowering

/-- The content begins and ends with tokens. Besides newlines the only tokens around it are
    `k` opening parentheses in front and `k` closing ones behind, for some `k`. -/
structure Extent.Enclosed (tokens : List Token) (x : Extent) : Prop where
  contentStart : ∃ t ∈ tokens, t.span.start = x.content.start
  contentStop : ∃ t ∈ tokens, t.span.stop = x.content.stop
  parens : ∃ k,
    (Token.within tokens x.outer.start x.content.start).map (·.kind) = List.replicate k .lparen ∧
      (Token.within tokens x.content.stop x.outer.stop).map (·.kind) = List.replicate k .rparen

@[simp] theorem Expr.parts_parenthesize (start stop : Nat) (e : Expr) :
    (e.parenthesize start stop).parts = e.parts := by
  cases e <;> rfl

namespace Parser

open Token

variable {source : String} {inside : Bool} {level : Nat} {seg tokens : List Token} {e : Expr}

@[simp] theorem within_self (tokens : List Token) (offset : Nat) :
    within tokens offset offset = [] := by
  rw [within, List.filter_eq_nil_iff]
  intro t _ isWithin
  simp only [decide_eq_true_eq] at isWithin
  omega

/-- Tokens in a range come in the order of its parts. -/
theorem within_append_within {start stop : Nat} (mid : Nat) (stream : Stream source tokens)
    (hstart : start ≤ mid) (hstop : mid ≤ stop) :
    within tokens start stop = within tokens start mid ++ within tokens mid stop := by
  induction tokens with
  | nil => rfl
  | cons t ts ih =>
      have later := ih (stream.sublist (List.sublist_cons_self t ts))
      simp only [within, List.filter_cons, decide_eq_true_eq] at later ⊢
      by_cases first : t.span.start < mid
      · by_cases here : t.kind ≠ .newline ∧ start ≤ t.span.start
        · rw [if_pos ⟨here.1, here.2, by omega⟩, if_pos ⟨here.1, here.2, first⟩,
            if_neg (by omega), later, List.cons_append]
        · rw [if_neg (fun h => here ⟨h.1, h.2.1⟩), if_neg (fun h => here ⟨h.1, h.2.1⟩),
            if_neg (by omega), later]
      · have none : within ts start mid = [] := by
          apply within_eq_nil_of_le_start
          intro u hu _
          have := (List.pairwise_cons.1 stream.ordered).1 u hu
          have := stream.start_lt_stop (List.mem_cons_self (a := t) (l := ts))
          omega
        rw [within] at none
        rw [none, List.nil_append] at later
        rw [none, later]
        by_cases here : t.kind ≠ .newline ∧ t.span.start < stop
        · rw [if_pos ⟨here.1, by omega, here.2⟩, if_neg (by omega),
            if_pos ⟨here.1, by omega, here.2⟩, List.nil_append]
        · rw [if_neg (fun h => here ⟨h.1, h.2.2⟩), if_neg (by omega),
            if_neg (fun h => here ⟨h.1, h.2.2⟩), List.nil_append]

/-- The tokens of a stretch that is all that starts in a range. -/
theorem within_eq_significant {before seg after : List Token} {start stop : Nat}
    (stream : Stream source (before ++ seg ++ after))
    (hbefore : ∀ t ∈ before, t.kind ≠ .newline → t.span.stop ≤ start)
    (hseg : ∀ t ∈ seg, t.kind ≠ .newline → start ≤ t.span.start ∧ t.span.start < stop)
    (hafter : ∀ t ∈ after, t.kind ≠ .newline → stop ≤ t.span.start) :
    within (before ++ seg ++ after) start stop = significant seg := by
  rw [within_append, within_append, within_eq_nil_of_stop_le stream.left.left hbefore,
    within_eq_nil_of_le_start hafter, List.nil_append, List.append_nil, within, significant]
  refine List.filter_congr fun t ht => ?_
  by_cases newline : t.kind = .newline
  · simp [newline]
  · have := hseg t ht newline
    simp [newline, this]

/-- What has been read from a stretch of the tokens, with no parentheses around it. -/
theorem enclosed_bare {s : Span} (covers : Covers seg s) (part : seg <:+: tokens) :
    (Extent.bare s).Enclosed tokens := by
  obtain ⟨first, isFirst, -, starts⟩ := covers.exists_first
  obtain ⟨last, isLast, -, stops⟩ := covers.exists_last
  refine ⟨⟨first, part.subset isFirst, starts⟩, ⟨last, part.subset isLast, stops⟩, 0, ?_, ?_⟩
  · exact congrArg _ (within_self tokens s.start)
  · exact congrArg _ (within_self tokens s.stop)

/-- A token is all that stands between its start and what comes behind it. -/
theorem within_of_front {before segFront segInner after : List Token} {t : Token} {s : Span}
    (reaches : Reaches inside t segFront) (kind : t.kind ≠ .newline) (covers : Covers segInner s)
    (stream : Stream source (before ++ segFront ++ (segInner ++ after))) :
    within (before ++ segFront ++ (segInner ++ after)) t.span.start s.start = [t] := by
  have alone := reaches.significant_eq kind
  obtain ⟨first, isFirst, -, starts⟩ := covers.exists_first
  have apart := stream.le_of_append (List.mem_append_right _ reaches.mem)
    (List.mem_append_left _ isFirst)
  have positive := stream.left.right.start_lt_stop reaches.mem
  rw [within_eq_significant stream, alone]
  · exact fun u hu _ => stream.left.le_of_append hu reaches.mem
  · intro u hu kind
    have mem := mem_significant.2 ⟨hu, kind⟩
    rw [alone, List.mem_singleton] at mem
    subst mem
    omega
  · intro u hu kind
    cases List.mem_append.1 hu with
    | inl inner => exact covers.start_le stream.right.left inner kind
    | inr later =>
        have := stream.right.le_of_append isFirst later
        have := stream.right.left.start_lt_stop isFirst
        omega

/-- A token is all that stands between what comes in front of it and its end. -/
theorem within_of_behind {before segInner segBehind after : List Token} {t : Token} {s : Span}
    (covers : Covers segInner s) (reaches : Reaches inside t segBehind) (kind : t.kind ≠ .newline)
    (stream : Stream source (before ++ segInner ++ segBehind ++ after)) :
    within (before ++ segInner ++ segBehind ++ after) s.stop t.span.stop = [t] := by
  have alone := reaches.significant_eq kind
  obtain ⟨last, isLast, -, stops⟩ := covers.exists_last
  have apart := stream.left.le_of_append (List.mem_append_right _ isLast) reaches.mem
  have positive := stream.left.right.start_lt_stop reaches.mem
  rw [within_eq_significant stream, alone]
  · intro u hu kind
    cases List.mem_append.1 hu with
    | inl earlier =>
        have := stream.left.left.le_of_append earlier isLast
        have := stream.left.left.right.start_lt_stop isLast
        omega
    | inr inner => exact covers.le_stop stream.left.left.right inner kind
  · intro u hu kind
    have mem := mem_significant.2 ⟨hu, kind⟩
    rw [alone, List.mem_singleton] at mem
    subst mem
    omega
  · exact fun u hu _ => stream.le_of_append (List.mem_append_right _ reaches.mem) hu

/-- One more pair of parentheses around an extent. -/
theorem enclosed_wrap {segOpen segInner segClose : List Token} {t close : Token} {x : Extent}
    (h : x.Enclosed tokens) (proper : x.Proper source) (covers : Covers segInner x.outer)
    (opening : Reaches inside t segOpen) (isOpening : t.kind = .lparen)
    (closing : Reaches true close segClose) (isClosing : close.kind = .rparen)
    (stream : Stream source tokens) (part : segOpen ++ segInner ++ segClose <:+: tokens) :
    (x.wrap t.span.start close.span.stop).Enclosed tokens := by
  obtain ⟨before, after, rfl⟩ := part
  have streamAll := stream.left.right
  have notNewline := ne_newline_of_kind isOpening rfl
  have notNewline' := ne_newline_of_kind isClosing rfl
  have front := opening.covers notNewline
  have positive := streamAll.left.left.start_lt_stop opening.mem
  have positive' := streamAll.right.start_lt_stop closing.mem
  have opens := proper.opens
  have nonempty := proper.nonempty
  have closes := proper.closes
  have hfront := front.le_of_append covers streamAll.left
  have hback := (front.append covers).le_of_append (closing.covers notNewline') streamAll
  simp only at hback
  have outer : (x.wrap t.span.start close.span.stop).outer = ⟨t.span.start, close.span.stop⟩ :=
    Span.cover_of_within (by simp only; omega) (by simp only; omega)
  have sole : within (before ++ (segOpen ++ segInner ++ segClose) ++ after) t.span.start
      x.outer.start = [t] := by
    have split : before ++ (segOpen ++ segInner ++ segClose) ++ after =
        before ++ segOpen ++ (segInner ++ (segClose ++ after)) := by
      simp only [List.append_assoc]
    rw [split] at stream ⊢
    exact within_of_front opening notNewline covers stream
  have sole' : within (before ++ (segOpen ++ segInner ++ segClose) ++ after) x.outer.stop
      close.span.stop = [close] := by
    have split : before ++ (segOpen ++ segInner ++ segClose) ++ after =
        before ++ segOpen ++ segInner ++ segClose ++ after := by
      simp only [List.append_assoc]
    rw [split] at stream ⊢
    exact within_of_behind covers closing notNewline' stream
  obtain ⟨k, opened, closed⟩ := h.parens
  refine ⟨h.contentStart, h.contentStop, k + 1, ?_, ?_⟩
  · rw [outer, show (x.wrap t.span.start close.span.stop).content = x.content from rfl,
      within_append_within x.outer.start stream (by simp only; omega) opens, sole,
      List.map_append, opened, List.replicate_succ]
    simp [isOpening]
  · rw [outer, show (x.wrap t.span.start close.span.stop).content = x.content from rfl,
      within_append_within x.outer.stop stream closes (by simp only; omega), sole',
      List.map_append, closed, List.replicate_succ']
    simp [isClosing]

/-- What has been read from a stretch of the tokens has only parentheses around it. -/
theorem Derives.enclosed {inside : Bool} {level : Nat} {seg tokens : List Token} {e : Expr}
    (h : Derives source inside level seg e) (stream : Stream source tokens)
    (part : seg <:+: tokens) : e.extent.Enclosed tokens := by
  have streamSeg := stream.sublist part.sublist
  have covers := h.covers streamSeg
  match h with
  | .parenthesized opening isOpening inner closing isClosing =>
    have partInner := (List.infix_append_right.trans List.infix_append_left).trans part
    rw [Expr.extent_parenthesize]
    exact enclosed_wrap (inner.enclosed stream partInner) (inner.nested stream partInner).proper
      (inner.covers streamSeg.left.right) opening isOpening closing isClosing stream part
  | .atom .. | .shorthand .. | .array .. | .member .. | .index .. | .call .. | .not .. |
    .binary .. | .membership .. | .assign .. => exact enclosed_bare covers part

theorem DerivesItems.exists_item {kind : TokenKind} {seg : List Token} {es : List Expr}
    {close : Token} {c : Expr} (h : DerivesItems source kind seg es close) (hc : c ∈ es) :
    ∃ inside level segItem, Derives source inside level segItem c ∧ segItem <:+: seg := by
  match h with
  | .done closing isClosing => cases hc
  | .last item closing isClosing =>
    cases List.mem_singleton.1 hc
    exact ⟨_, _, _, item, List.infix_append_left⟩
  | .more item reaches isComma items =>
    cases List.mem_cons.1 hc with
    | inl same =>
        cases same
        exact ⟨_, _, _, item, List.infix_append_left.trans List.infix_append_left⟩
    | inr later =>
        obtain ⟨inside, level, segItem, derives, part⟩ := items.exists_item later
        exact ⟨inside, level, segItem, derives, part.trans List.infix_append_right⟩

/-- A part was itself read from some of the tokens. -/
theorem Derives.exists_part {inside : Bool} {level : Nat} {seg : List Token} {e c : Expr}
    (h : Derives source inside level seg e)
    (hc : c ∈ e.parts) :
    ∃ inside level segPart, Derives source inside level segPart c ∧ segPart <:+: seg := by
  match h with
  | .atom reaches known => cases hc
  | .shorthand reaches known sign isName touches =>
    cases List.mem_singleton.1 hc
    exact ⟨_, _, _, .atom reaches known, List.infix_append_left⟩
  | .array opening isOpening items =>
    obtain ⟨inside, level, segItem, derives, part⟩ := items.exists_item hc
    exact ⟨inside, level, segItem, derives, part.trans List.infix_append_right⟩
  | .parenthesized opening isOpening inner closing isClosing =>
    rw [Expr.parts_parenthesize] at hc
    obtain ⟨inside, level, segPart, derives, part⟩ := inner.exists_part hc
    exact ⟨inside, level, segPart, derives,
      part.trans (List.infix_append_right.trans List.infix_append_left)⟩
  | .member object .. =>
    cases List.mem_singleton.1 hc
    exact ⟨_, _, _, object, List.infix_append_left.trans List.infix_append_left⟩
  | .index object _ _ key _ _ =>
    cases List.mem_cons.1 hc with
    | inl same =>
        cases same
        exact ⟨_, _, _, object, List.infix_append_left.trans
          (List.infix_append_left.trans List.infix_append_left)⟩
    | inr last =>
        cases List.mem_singleton.1 last
        exact ⟨_, _, _, key, List.infix_append_right.trans List.infix_append_left⟩
  | .call callee _ _ _ items =>
    cases List.mem_cons.1 hc with
    | inl same =>
        cases same
        exact ⟨_, _, _, callee, List.infix_append_left.trans List.infix_append_left⟩
    | inr later =>
        obtain ⟨inside, level, segItem, derives, part⟩ := items.exists_item later
        exact ⟨inside, level, segItem, derives, part.trans List.infix_append_right⟩
  | .not _ _ operand _ =>
    cases List.mem_singleton.1 hc
    exact ⟨_, _, _, operand, List.infix_append_right⟩
  | .binary left _ _ _ _ right _ | .membership left _ _ _ _ right _ |
    .assign left _ _ _ _ right =>
    cases List.mem_cons.1 hc with
    | inl same =>
        cases same
        exact ⟨_, _, _, left, List.infix_append_left.trans List.infix_append_left⟩
    | inr last =>
        cases List.mem_singleton.1 last
        exact ⟨_, _, _, right, List.infix_append_right⟩

theorem Derives.exists_within {c : Expr} (h : Derives source inside level seg e)
    (hc : Expr.Within e c) :
    ∃ inside level segPart, Derives source inside level segPart c ∧ segPart <:+: seg := by
  induction hc generalizing inside level seg with
  | self => exact ⟨inside, level, seg, h, List.infix_rfl⟩
  | part isPart _ ih =>
      obtain ⟨inside, level, segPart, derives, part⟩ := h.exists_part isPart
      obtain ⟨inside', level', segWithin, derives', part'⟩ := ih derives
      exact ⟨inside', level', segWithin, derives', part'.trans part⟩

theorem DerivesProgram.exists_statement {ts : List Token} {es : List Expr}
    (h : DerivesProgram source ts es) (he : e ∈ es) :
    ∃ level seg, Derives source false level seg e ∧ seg <:+: ts := by
  induction h with
  | nil => cases he
  | separator separates later ih =>
      obtain ⟨level, seg, derives, part⟩ := ih he
      exact ⟨level, seg, derives, part.trans (List.suffix_cons _ _).isInfix⟩
  | last statement =>
      cases List.mem_singleton.1 he
      exact ⟨_, _, statement, List.infix_rfl⟩
  | @statement level seg ts t e es statement separates later ih =>
      cases List.mem_cons.1 he with
      | inl same =>
          cases same
          exact ⟨_, _, statement, List.infix_append_left⟩
      | inr after =>
          obtain ⟨level, segLater, derives, part⟩ := ih after
          exact ⟨level, segLater, derives,
            part.trans ((List.suffix_cons t ts).isInfix.trans List.infix_append_right)⟩

/-- All expressions of an accepted source have only parentheses around them. -/
theorem enclosed_of_statements {es : List Expr} {c : Expr}
    (read : Token.readAll source = .ok tokens) (h : statements source tokens = .ok es)
    (he : e ∈ es) (hc : Expr.Within e c) : c.extent.Enclosed tokens := by
  obtain ⟨level, seg, derives, part⟩ := (statements_sound h).exists_statement he
  obtain ⟨inside, level', segPart, derives', part'⟩ := derives.exists_within hc
  exact derives'.enclosed (Token.stream_of_readAll read) (part'.trans part)

end Parser

end MembershipLowering
