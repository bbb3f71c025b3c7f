import MembershipLowering.Proofs.Expr.Parentheses
import MembershipLowering.Proofs.Token.Brackets

/-! # Newlines inside brackets

The tokens that an expression was read from are balanced, and what separates statements is not
among them, with one exception: newlines that stand between two brackets of the expression, or
of one around it (`Derives.bracketed`).
-/

namespace MembershipLowering.Parser

open Token

/-- Brackets belong together, and what separates statements is only found inside brackets, and
    is a newline there. -/
structure Bracketed (inside : Bool) (seg : List Token) : Prop where
  balanced : Balanced seg
  separators : ∀ t ∈ seg, t.kind.isSeparator = true → t.kind = .newline ∧ (inside = false →
    ∃ opening inner closing, Brackets seg opening inner closing ∧ t ∈ inner)

namespace Bracketed

variable {inside : Bool} {seg seg' : List Token}

theorem append (h : Bracketed inside seg) (h' : Bracketed inside seg') :
    Bracketed inside (seg ++ seg') where
  balanced := h.balanced.append h'.balanced
  separators t ht separates := by
    rcases List.mem_append.1 ht with front | back
    · obtain ⟨newline, enclosed⟩ := h.separators t front separates
      refine ⟨newline, fun outside => ?_⟩
      obtain ⟨opening, inner, closing, brackets, mem⟩ := enclosed outside
      exact ⟨opening, inner, closing, brackets.mono List.infix_append_left, mem⟩
    · obtain ⟨newline, enclosed⟩ := h'.separators t back separates
      refine ⟨newline, fun outside => ?_⟩
      obtain ⟨opening, inner, closing, brackets, mem⟩ := enclosed outside
      exact ⟨opening, inner, closing, brackets.mono List.infix_append_right, mem⟩

/-- Two brackets, and between them what may stand inside brackets. -/
theorem pair {opening closing : Token} (h : Bracketed true seg)
    (matched : opening.kind.closer? = some closing.kind) (inside : Bool) :
    Bracketed inside (opening :: (seg ++ [closing])) where
  balanced := .pair matched h.balanced .nil
  separators t ht separates := by
    obtain ⟨plain, plain'⟩ := TokenKind.not_isSeparator_of_closer? matched
    have inner : t ∈ seg := by
      rcases List.mem_cons.1 ht with rfl | later
      · rw [separates] at plain
        cases plain
      · refine (List.mem_append.1 later).resolve_right fun last => ?_
        rw [List.mem_singleton.1 last] at separates
        rw [separates] at plain'
        cases plain'
    exact ⟨(h.separators t inner separates).1,
      fun _ => ⟨opening, seg, closing, ⟨matched, h.balanced, List.infix_rfl⟩, inner⟩⟩

/-- Newlines, as many as there may be. -/
theorem of_newlines (h : ∀ u ∈ seg, u.kind = .newline) (none : inside = false → seg = []) :
    Bracketed inside seg where
  balanced := .of_plain fun u hu => by rw [h u hu]; rfl
  separators u hu _ := ⟨h u hu, fun outside => by rw [none outside] at hu; cases hu⟩

end Bracketed

variable {source : String} {inside : Bool} {t : Token} {seg : List Token}

theorem Reaches.split (h : Reaches inside t seg) :
    ∃ newlines, seg = newlines ++ [t] ∧ (∀ u ∈ newlines, u.kind = .newline) ∧
      (inside = false → newlines = []) := by
  induction h with
  | here => exact ⟨[], rfl, nofun, fun _ => rfl⟩
  | @later u seg bracketed newline _ ih =>
      obtain ⟨newlines, rfl, all, -⟩ := ih
      refine ⟨u :: newlines, rfl, ?_, fun outside => ?_⟩
      · exact List.forall_mem_cons.2 ⟨newline, all⟩
      · rw [bracketed] at outside
        cases outside

/-- A token that is no bracket and separates nothing, behind newlines. -/
theorem Reaches.bracketed {kind : TokenKind} (h : Reaches inside t seg) (isKind : t.kind = kind)
    (plain : (kind.isBracket || kind.isSeparator) = false) : Bracketed inside seg := by
  subst isKind
  obtain ⟨plain, joins⟩ := Bool.or_eq_false_iff.1 plain
  obtain ⟨newlines, rfl, all, none⟩ := h.split
  refine (Bracketed.of_newlines all none).append ⟨.plain plain .nil, fun u hu separates => ?_⟩
  rw [List.mem_singleton.1 hu, joins] at separates
  cases separates

theorem plain_of_atom? {kind : TokenKind} {a : Atom} (known : atom? kind = some a) :
    (kind.isBracket || kind.isSeparator) = false := by
  revert known
  cases kind <;> first | (intro; rfl) | nofun

theorem Reaches.bracketed_atom {a : Atom} (h : Reaches inside t seg)
    (known : atom? t.kind = some a) : Bracketed inside seg :=
  h.bracketed rfl (plain_of_atom? known)

theorem Reaches.bracketed_operator {own : Nat} (h : Reaches inside t seg)
    (leveled : level? source t = some own) : Bracketed inside seg := by
  refine h.bracketed rfl ?_
  unfold level? at leveled
  split at leveled
  · rename_i isRelation
    rw [isRelation]
    rfl
  · rename_i isOperator
    rw [isOperator]
    rfl
  · cases leveled

/-- Newlines, a pair of brackets and what has been read between them. -/
theorem Reaches.pair {opening closing : Token} {segInner : List Token}
    (h : Reaches inside opening seg) (inner : Bracketed true segInner)
    (matched : opening.kind.closer? = some closing.kind) :
    Bracketed inside (seg ++ (segInner ++ [closing])) := by
  obtain ⟨newlines, rfl, all, none⟩ := h.split
  rw [List.append_assoc]
  exact (Bracketed.of_newlines all none).append (inner.pair matched inside)

/-- The same with newlines in front of the closing bracket. -/
theorem Reaches.pair_of_reaches {opening closing : Token} {segInner segClose : List Token}
    (h : Reaches inside opening seg) (inner : Bracketed true segInner)
    (closes : Reaches true closing segClose)
    (matched : opening.kind.closer? = some closing.kind) :
    Bracketed inside (seg ++ (segInner ++ segClose)) := by
  obtain ⟨newlines, rfl, all, -⟩ := closes.split
  rw [← List.append_assoc segInner]
  exact h.pair (inner.append (Bracketed.of_newlines all nofun)) matched

mutual

theorem Derives.bracketed {inside : Bool} {level : Nat} {seg : List Token} {e : Expr}
    (h : Derives source inside level seg e) : Bracketed inside seg := by
  match h with
  | .atom reaches known => exact reaches.bracketed_atom known
  | .shorthand reaches known _ isName _ =>
    exact (reaches.bracketed_atom known).append (Reaches.here.bracketed isName rfl)
  | .array opening isOpening items =>
    obtain ⟨inner, rfl, bracketed⟩ := items.bracketed
    exact opening.pair bracketed (by rw [isOpening, items.close_kind]; rfl)
  | .parenthesized opening isOpening inner closing isClosing =>
    rw [List.append_assoc]
    exact opening.pair_of_reaches inner.bracketed closing (by rw [isOpening, isClosing]; rfl)
  | .member object reachesDot isDot reachesName isName =>
    exact (object.bracketed.append (reachesDot.bracketed isDot rfl)).append
      (reachesName.bracketed isName rfl)
  | .index object opening isOpening key closing isClosing =>
    rw [List.append_assoc, List.append_assoc]
    exact object.bracketed.append
      (opening.pair_of_reaches key.bracketed closing (by rw [isOpening, isClosing]; rfl))
  | .call callee opening isOpening _ items =>
    obtain ⟨inner, rfl, bracketed⟩ := items.bracketed
    rw [List.append_assoc]
    exact callee.bracketed.append
      (opening.pair bracketed (by rw [isOpening, items.close_kind]; rfl))
  | .not reaches isNot operand _ => exact (reaches.bracketed isNot rfl).append operand.bracketed
  | .binary left _ reaches leveled _ right _ =>
    exact (left.bracketed.append (reaches.bracketed_operator leveled)).append right.bracketed
  | .membership left _ reaches isKind _ right _ | .assign left _ _ reaches isKind right =>
    exact (left.bracketed.append (reaches.bracketed isKind rfl)).append right.bracketed

theorem DerivesItems.bracketed {kind : TokenKind} {seg : List Token} {es : List Expr}
    {close : Token} (h : DerivesItems source kind seg es close) :
    ∃ inner, seg = inner ++ [close] ∧ Bracketed true inner := by
  match h with
  | .done closing isClosing =>
    obtain ⟨newlines, rfl, all, -⟩ := closing.split
    exact ⟨newlines, rfl, Bracketed.of_newlines all nofun⟩
  | .last item closing isClosing =>
    obtain ⟨newlines, rfl, all, -⟩ := closing.split
    exact ⟨_, (List.append_assoc ..).symm,
      item.bracketed.append (Bracketed.of_newlines all nofun)⟩
  | .more item reaches isComma items =>
    obtain ⟨inner, rfl, bracketed⟩ := items.bracketed
    exact ⟨_, (List.append_assoc ..).symm,
      (item.bracketed.append (reaches.bracketed isComma rfl)).append bracketed⟩

end

theorem Reaches.exists_concat (h : Reaches inside t seg) : ∃ front, seg = front ++ [t] := by
  obtain ⟨newlines, same, -⟩ := h.split
  exact ⟨newlines, same⟩

theorem DerivesItems.exists_concat {kind : TokenKind} {seg : List Token} {es : List Expr}
    {close : Token} (h : DerivesItems source kind seg es close) :
    ∃ front, seg = front ++ [close] := by
  obtain ⟨inner, same, -⟩ := h.bracketed
  exact ⟨inner, same⟩

/-- An expression ends with a token that separates no statements. -/
theorem Derives.exists_concat {level : Nat} {seg : List Token} {e : Expr}
    (h : Derives source inside level seg e) :
    ∃ front w, seg = front ++ [w] ∧ w.kind.isSeparator = false := by
  have behind : ∀ {xs ys : List Token},
      (∃ front w, ys = front ++ [w] ∧ w.kind.isSeparator = false) →
        ∃ front w, xs ++ ys = front ++ [w] ∧ w.kind.isSeparator = false := by
    rintro xs _ ⟨front, w, rfl, plain⟩
    exact ⟨xs ++ front, w, (List.append_assoc ..).symm, plain⟩
  have single : ∀ {ys : List Token} {w : Token} {kind : TokenKind}, (∃ front, ys = front ++ [w]) →
      w.kind = kind → kind.isSeparator = false →
        ∃ front w, ys = front ++ [w] ∧ w.kind.isSeparator = false :=
    fun ⟨front, same⟩ isKind plain => ⟨front, _, same, isKind ▸ plain⟩
  match h with
  | .atom reaches known =>
    exact single reaches.exists_concat rfl (Bool.or_eq_false_iff.1 (plain_of_atom? known)).2
  | .shorthand _ _ _ isName _ => exact behind (single ⟨[], rfl⟩ isName rfl)
  | .array _ _ items | .call _ _ _ _ items =>
    exact behind (single items.exists_concat items.close_kind rfl)
  | .parenthesized _ _ _ closing isClosing | .index _ _ _ _ closing isClosing =>
    exact behind (single closing.exists_concat isClosing rfl)
  | .member _ _ _ reachesName isName =>
    exact behind (single reachesName.exists_concat isName rfl)
  | .not _ _ operand _ => exact behind operand.exists_concat
  | .binary _ _ _ _ _ right _ | .membership _ _ _ _ _ right _ | .assign _ _ _ _ _ right =>
    exact behind right.exists_concat

/-- A token that starts between the ends of an expression is one of its tokens. -/
theorem mem_of_covers {tokens : List Token} {s : Span} (covers : Covers seg s)
    (stream : Stream source tokens) (part : seg <:+: tokens) (ht : t ∈ tokens)
    (starts : s.start ≤ t.span.start) (ends : t.span.start < s.stop) : t ∈ seg := by
  obtain ⟨before, after, rfl⟩ := part
  obtain ⟨first, isFirst, -, hstart⟩ := covers.exists_first
  obtain ⟨last, isLast, -, hstop⟩ := covers.exists_last
  rcases List.mem_append.1 ht with front | behind
  · refine (List.mem_append.1 front).resolve_left fun earlier => ?_
    have := stream.left.le_of_append earlier isFirst
    have := stream.start_lt_stop ht
    omega
  · have := stream.le_of_append (List.mem_append_right before isLast) behind
    omega

/-- Between the ends of a statement no semicolon stands, and newlines stand only between two of
    its brackets. -/
theorem enclosed_of_statement {tokens : List Token} {es : List Expr} {e : Expr}
    (read : readAll source = .ok tokens) (accepted : statements source tokens = .ok es)
    (he : e ∈ es) (ht : t ∈ tokens) (starts : e.outer.start ≤ t.span.start)
    (ends : t.span.start < e.outer.stop) :
    t.kind ≠ .semicolon ∧ (t.kind = .newline →
      ∃ opening inner closing, Brackets tokens opening inner closing ∧ t ∈ inner ∧
        e.outer.start ≤ opening.span.start ∧ closing.span.stop ≤ e.outer.stop) := by
  have stream := stream_of_readAll read
  obtain ⟨level, seg, derives, part⟩ := (statements_sound accepted).exists_statement he
  have streamSeg := stream.sublist part.sublist
  have covers := derives.covers streamSeg
  have mem := mem_of_covers covers stream part ht starts ends
  have separators := derives.bracketed.separators t mem
  refine ⟨fun semicolon => ?_, fun newline => ?_⟩
  · have newline := (separators (by rw [semicolon]; rfl)).1
    rw [semicolon] at newline
    cases newline
  · obtain ⟨opening, inner, closing, brackets, isInner⟩ :=
      (separators (by rw [newline]; rfl)).2 rfl
    obtain ⟨other, other'⟩ := brackets.ne_newline
    exact ⟨opening, inner, closing, brackets.mono part, isInner,
      covers.start_le streamSeg (brackets.consecutive.subset (by simp)) other,
      covers.le_stop streamSeg (brackets.consecutive.subset (by simp)) other'⟩

end MembershipLowering.Parser
