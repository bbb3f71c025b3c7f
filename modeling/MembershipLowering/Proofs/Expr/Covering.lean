import MembershipLowering.Proofs.Expr.Derivation
import MembershipLowering.Proofs.Token.Stream

/-! # The tokens of an expression

Newlines that were passed over belong to no expression. The other tokens of the stretch
that an expression was read from are its `significant` ones: the first of them begins
where the expression begins, and the last one ends where it ends, its parentheses
included (`Derives.covers`).
-/

namespace MembershipLowering

namespace Token

/-- The tokens other than newlines. -/
def significant (ts : List Token) : List Token :=
  ts.filter (·.kind ≠ .newline)

@[simp] theorem significant_append (ts us : List Token) :
    significant (ts ++ us) = significant ts ++ significant us :=
  List.filter_append ..

theorem mem_significant {ts : List Token} {t : Token} :
    t ∈ significant ts ↔ t ∈ ts ∧ t.kind ≠ .newline := by
  simp [significant]

theorem Stream.significant {source : String} {ts : List Token} (h : Stream source ts) :
    Stream source (significant ts) :=
  h.sublist List.filter_sublist

/-- The significant tokens of a stretch begin and end where the span does. -/
structure Covers (seg : List Token) (s : Span) : Prop where
  first : (significant seg).head?.map (·.span.start) = some s.start
  last : (significant seg).getLast?.map (·.span.stop) = some s.stop

namespace Covers

variable {source : String} {seg seg' : List Token} {s s' : Span} {t : Token}

theorem extend (h : Covers seg s) (last : (significant seg').getLast? = some t) :
    Covers (seg ++ seg') ⟨s.start, t.span.stop⟩ where
  first := by
    obtain ⟨t, head, starts⟩ := Option.map_eq_some_iff.1 h.first
    rw [significant_append, List.head?_append, head]
    exact congrArg some starts
  last := by
    rw [significant_append, List.getLast?_append, last]
    rfl

theorem append (h : Covers seg s) (h' : Covers seg' s') :
    Covers (seg ++ seg') ⟨s.start, s'.stop⟩ := by
  obtain ⟨t, last, stops⟩ := Option.map_eq_some_iff.1 h'.last
  exact stops ▸ h.extend last

theorem exists_first (h : Covers seg s) :
    ∃ t ∈ seg, t.kind ≠ .newline ∧ t.span.start = s.start := by
  obtain ⟨t, head, starts⟩ := Option.map_eq_some_iff.1 h.first
  obtain ⟨mem, kind⟩ := mem_significant.1 (List.mem_of_head? head)
  exact ⟨t, mem, kind, starts⟩

theorem exists_last (h : Covers seg s) :
    ∃ t ∈ seg, t.kind ≠ .newline ∧ t.span.stop = s.stop := by
  obtain ⟨t, last, stops⟩ := Option.map_eq_some_iff.1 h.last
  obtain ⟨mem, kind⟩ := mem_significant.1 (List.mem_of_getLast? last)
  exact ⟨t, mem, kind, stops⟩

theorem start_le (h : Covers seg s) (stream : Stream source seg) (ht : t ∈ seg)
    (kind : t.kind ≠ .newline) : s.start ≤ t.span.start := by
  obtain ⟨first, head, starts⟩ := Option.map_eq_some_iff.1 h.first
  have mem := mem_significant.2 ⟨ht, kind⟩
  have ordered := stream.significant.ordered
  have positive := stream.start_lt_stop (mem_significant.1 (List.mem_of_head? head)).1
  rw [← starts]
  cases shape : significant seg with
  | nil => rw [shape] at head; cases head
  | cons u us =>
      rw [shape] at head mem
      cases head
      cases List.mem_cons.1 mem with
      | inl same => exact Nat.le_of_eq (by rw [same])
      | inr later =>
          rw [shape] at ordered
          have := (List.pairwise_cons.1 ordered).1 t later
          omega

theorem le_stop (h : Covers seg s) (stream : Stream source seg) (ht : t ∈ seg)
    (kind : t.kind ≠ .newline) : t.span.stop ≤ s.stop := by
  obtain ⟨last, tail, stops⟩ := Option.map_eq_some_iff.1 h.last
  have mem := mem_significant.2 ⟨ht, kind⟩
  have ordered := stream.significant.ordered
  have positive := stream.start_lt_stop (mem_significant.1 (List.mem_of_getLast? tail)).1
  rw [← stops]
  obtain ⟨front, shape⟩ := List.getLast?_eq_some_iff.1 tail
  rw [shape] at mem ordered
  cases List.mem_append.1 mem with
  | inl earlier =>
      have := (List.pairwise_append.1 ordered).2.2 t earlier last (List.mem_singleton.2 rfl)
      omega
  | inr same => exact Nat.le_of_eq (by rw [List.mem_singleton.1 same])

theorem start_lt_stop (h : Covers seg s) (stream : Stream source seg) : s.start < s.stop := by
  obtain ⟨t, mem, kind, starts⟩ := h.exists_first
  have := stream.start_lt_stop mem
  have := h.le_stop stream mem kind
  omega

/-- A first stretch ends before a second one begins. -/
theorem le_of_append (h : Covers seg s) (h' : Covers seg' s')
    (stream : Stream source (seg ++ seg')) : s.stop ≤ s'.start := by
  obtain ⟨t, mem, -, stops⟩ := h.exists_last
  obtain ⟨u, mem', -, starts⟩ := h'.exists_first
  rw [← stops, ← starts]
  exact stream.le_of_append mem mem'

theorem isBoundary_start (h : Covers seg s) (stream : Stream source seg) :
    Text.isBoundary s.start source.toList = true := by
  obtain ⟨t, mem, -, starts⟩ := h.exists_first
  exact starts ▸ stream.isBoundary_start mem

theorem isBoundary_stop (h : Covers seg s) (stream : Stream source seg) :
    Text.isBoundary s.stop source.toList = true := by
  obtain ⟨t, mem, -, stops⟩ := h.exists_last
  exact stops ▸ stream.isBoundary_stop mem

end Covers

end Token

namespace Expr

@[simp] theorem extent_parenthesize (start stop : Nat) (e : Expr) :
    (e.parenthesize start stop).extent = e.extent.wrap start stop := by
  cases e <;> rfl

@[simp] theorem outer_parenthesize (start stop : Nat) (e : Expr) :
    (e.parenthesize start stop).outer = e.outer.cover ⟨start, stop⟩ := by
  cases e <;> rfl

end Expr

namespace Span

theorem cover_of_within {s t : Span} (hstart : t.start ≤ s.start) (hstop : s.stop ≤ t.stop) :
    s.cover t = t := by
  rw [cover, Nat.min_eq_right hstart, Nat.max_eq_right hstop]

/-- What covers two spans, the first of which begins first and ends first. -/
theorem cover_of_le {s t : Span} (hstart : s.start ≤ t.start) (hstop : s.stop ≤ t.stop) :
    s.cover t = ⟨s.start, t.stop⟩ := by
  rw [cover, Nat.min_eq_left hstart, Nat.max_eq_right hstop]

end Span

namespace Parser

open Token

variable {source : String} {inside : Bool}

theorem Reaches.significant_eq {t : Token} {seg : List Token} (h : Reaches inside t seg)
    (kind : t.kind ≠ .newline) : significant seg = [t] := by
  induction h with
  | here => simp [significant, kind]
  | later bracketed newline reaches ih => simpa [significant, newline] using ih

theorem Reaches.mem {t : Token} {seg : List Token} (h : Reaches inside t seg) : t ∈ seg := by
  induction h with
  | here => exact List.mem_singleton.2 rfl
  | later bracketed newline reaches ih => exact List.mem_cons_of_mem _ ih

theorem Reaches.covers {t : Token} {seg : List Token} (h : Reaches inside t seg)
    (kind : t.kind ≠ .newline) : Covers seg t.span := by
  constructor <;> rw [h.significant_eq kind] <;> rfl

theorem ne_newline_of_kind {t : Token} {kind : TokenKind} (h : t.kind = kind)
    (other : decide (kind = .newline) = false) : t.kind ≠ .newline := by
  rw [h]
  exact of_decide_eq_false other

theorem ne_newline_of_atom? {t : Token} {a : Atom} (h : atom? t.kind = some a) :
    t.kind ≠ .newline := by
  intro newline
  rw [newline] at h
  cases h

theorem ne_newline_of_level? {t : Token} {own : Nat} (h : level? source t = some own) :
    t.kind ≠ .newline := by
  intro newline
  simp only [level?, newline] at h
  cases h

theorem DerivesItems.close_kind {kind : TokenKind} {seg : List Token} {es : List Expr}
    {close : Token} (h : DerivesItems source kind seg es close) : close.kind = kind := by
  match h with
  | .done closing isClosing => exact isClosing
  | .last item closing isClosing => exact isClosing
  | .more item reaches isComma items => exact items.close_kind

/-- Items end with their closing token. -/
theorem DerivesItems.getLast? {kind : TokenKind} {seg : List Token} {es : List Expr}
    {close : Token} (h : DerivesItems source kind seg es close)
    (other : decide (kind = .newline) = false) :
    (significant seg).getLast? = some close := by
  match h with
  | .done closing isClosing =>
    rw [closing.significant_eq (ne_newline_of_kind isClosing other)]
    rfl
  | .last item closing isClosing =>
    rw [significant_append, closing.significant_eq (ne_newline_of_kind isClosing other)]
    exact List.getLast?_concat
  | .more item reaches isComma items =>
    rw [significant_append, List.getLast?_append, items.getLast? other]
    rfl

/-- Two expressions and a token between them. -/
theorem covers_of_operands {segLeft seg segRight : List Token} {t : Token} {s s' : Span}
    (left : Stream source segLeft → Covers segLeft s)
    (right : Stream source segRight → Covers segRight s') (reaches : Reaches inside t seg)
    (kind : t.kind ≠ .newline) (stream : Stream source (segLeft ++ seg ++ segRight)) :
    Covers (segLeft ++ seg ++ segRight) (s.cover s') := by
  have streamFront := stream.left
  have streamLeft := streamFront.left
  have streamRight := stream.right
  have front := (left streamLeft).append (reaches.covers kind)
  have hle := front.le_of_append (right streamRight) stream
  have hmid := (left streamLeft).le_of_append (reaches.covers kind) streamFront
  have hleft := (left streamLeft).start_lt_stop streamLeft
  have htoken := (reaches.covers kind).start_lt_stop
    streamFront.right
  have hright := (right streamRight).start_lt_stop streamRight
  simp only at hle
  rw [Span.cover_of_le (by omega) (by omega)]
  exact front.append (right streamRight)

/-- An expression begins with the first of its tokens and ends with the last one. -/
theorem Derives.covers {inside : Bool} {level : Nat} {seg : List Token} {e : Expr}
    (h : Derives source inside level seg e) (stream : Stream source seg) :
    Covers seg e.outer := by
  match h, stream with
  | .atom reaches known, _ => exact reaches.covers (ne_newline_of_atom? known)
  | @Derives.shorthand _ _ _ _ name _ reaches known _ isName _, _ =>
    have alone : Reaches false name [name] := .here
    have covers := alone.covers (ne_newline_of_kind isName rfl)
    exact (reaches.covers (ne_newline_of_atom? known)).append covers
  | .array opening isOpening items, _ =>
    exact (opening.covers (ne_newline_of_kind isOpening rfl)).extend (items.getLast? rfl)
  | .parenthesized opening isOpening inner closing isClosing, stream =>
    have front := opening.covers (ne_newline_of_kind isOpening rfl)
    have back := closing.covers (ne_newline_of_kind isClosing rfl)
    have streamFront := stream.left
    have covers := inner.covers streamFront.right
    have hstart := front.le_of_append covers streamFront
    have hstop := (front.append covers).le_of_append back stream
    have hfront := front.start_lt_stop streamFront.left
    have hback := back.start_lt_stop stream.right
    rw [Expr.outer_parenthesize, Span.cover_of_within]
    · exact (front.append covers).append back
    · exact Nat.le_trans (Nat.le_of_lt hfront) hstart
    · exact Nat.le_trans hstop (Nat.le_of_lt hback)
  | .member object reachesDot isDot reachesName isName, stream =>
    have covers := object.covers stream.left.left
    exact (covers.append (reachesDot.covers (ne_newline_of_kind isDot rfl))).append
      (reachesName.covers (ne_newline_of_kind isName rfl))
  | .index object opening isOpening key closing isClosing, stream =>
    have covers := object.covers stream.left.left.left
    have last := closing.significant_eq (ne_newline_of_kind isClosing rfl)
    rw [List.append_assoc, List.append_assoc]
    refine covers.extend ?_
    rw [significant_append, significant_append, last, ← List.append_assoc]
    exact List.getLast?_concat
  | .call callee opening isOpening touches items, stream =>
    have covers := callee.covers stream.left.left
    exact (covers.append (opening.covers (ne_newline_of_kind isOpening rfl))).extend
      (items.getLast? rfl)
  | .not reaches isNot operand tighter, stream =>
    have front := reaches.covers (ne_newline_of_kind isNot rfl)
    have covers := operand.covers stream.right
    have hle := front.le_of_append covers stream
    have hfront := front.start_lt_stop stream.left
    have hcovers := covers.start_lt_stop stream.right
    change Covers _ (Span.cover _ _)
    rw [Span.cover_of_le
      (Nat.le_trans (Nat.le_of_lt hfront) hle) (Nat.le_trans hle (Nat.le_of_lt hcovers))]
    exact front.append covers
  | .binary left _ reaches leveled _ right _, stream =>
    exact covers_of_operands left.covers right.covers reaches (ne_newline_of_level? leveled) stream
  | .membership left _ reaches isRelation _ right _, stream =>
    exact covers_of_operands left.covers right.covers reaches
      (ne_newline_of_kind isRelation rfl) stream
  | .assign left _ _ reaches isAssign right, stream =>
    exact covers_of_operands left.covers right.covers reaches
      (ne_newline_of_kind isAssign rfl) stream

/-- A statement ends where one of its tokens ends, which is no newline. -/
theorem DerivesProgram.exists_last {source : String} {ts : List Token} {es : List Expr}
    (h : DerivesProgram source ts es) (stream : Token.Stream source ts) :
    ∀ e ∈ es, ∃ t ∈ ts, t.kind ≠ .newline ∧ t.span.stop = e.outer.stop := by
  induction h with
  | nil => nofun
  | separator _ _ ih =>
      intro e he
      obtain ⟨t, ht, other⟩ := ih (stream.sublist (List.sublist_cons_self ..)) e he
      exact ⟨t, List.mem_cons_of_mem _ ht, other⟩
  | last statement =>
      intro e he
      rw [List.mem_singleton.1 he]
      exact (statement.covers stream).exists_last
  | statement statement _ _ ih =>
      intro e he
      cases List.mem_cons.1 he with
      | inl same =>
          obtain ⟨t, ht, other⟩ := (statement.covers stream.left).exists_last
          exact ⟨t, List.mem_append_left _ ht, same ▸ other⟩
      | inr later =>
          obtain ⟨t, ht, other⟩ := ih (stream.right.sublist (List.sublist_cons_self ..)) e later
          exact ⟨t, List.mem_append_right _ (List.mem_cons_of_mem _ ht), other⟩

end Parser

end MembershipLowering
