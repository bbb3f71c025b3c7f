import MembershipLowering.Proofs.Token.Fusion

/-! # Writing stretches of tokens

The text that stands for a stretch of tokens behind a token that is left (`Writes`), put
together from the texts for its parts.
-/

namespace MembershipLowering

open Token

namespace TokenKind

/-- Whether an operand may stand behind a token of this class. -/
def opensOperand : TokenKind → Bool
  | operator | relation | assign | not | lparen | lbracket | comma | newline | semicolon => true
  | _ => false

/-- The classes of brackets and of the signs between parts, which are written as they are. -/
def isMark : TokenKind → Bool
  | lparen | rparen | lbracket | rbracket | comma | dot | assign => true
  | _ => false

theorem cases_of_isMark {a : TokenKind} (h : a.isMark = true) :
    a.beginsOperand = false ∨ a = lparen ∨ a = lbracket := by
  cases a <;> first | decide | exact absurd h (by decide)

theorem isSeparator_iff {a : TokenKind} : a.isSeparator = true ↔ a = newline ∨ a = semicolon := by
  cases a <;> simp [isSeparator]

theorem admits_newline (a : TokenKind) : a.admits newline = true := by
  cases a <;> rfl

theorem admits_of_opens {a b : TokenKind} (ha : a.opensOperand = true)
    (hb : b.beginsOperand = true) : a.admits b = true := by
  cases a <;> first | exact absurd ha (by decide) | (simp [admits, hb])

theorem admits_of_ends {a b : TokenKind} (ha : a.endsOperand = true)
    (hb : b.beginsOperand = false ∨ b = lparen ∨ b = lbracket) : a.admits b = true := by
  have accepts : (!(b.beginsOperand && b ≠ lparen && b ≠ lbracket)) = true := by
    rcases hb with hb | rfl | rfl
    · simp [hb]
    · rfl
    · rfl
  cases a <;> first | exact absurd ha (by decide) | exact accepts

end TokenKind

namespace Token

variable {source : String} {last mid next : Option Token} {t z : Token} {ts us : List Token}

/-- The tokens behind `last` are written as the text, and `next` is the last one of them that
    is left. -/
structure Writes (source : String) (last : Option Token) (ts : List Token) (next : Option Token)
    (text : List Char) : Prop where
  final : final source last ts = next
  follows : ∀ step ∈ trail source last ts, Follows source [] step.1 step.2
  text : Piece.weave (pieces source [] last ts) [] = text

namespace Writes

variable {text text' : List Char}

theorem append (h : Writes source last ts mid text) (h' : Writes source mid us next text') :
    Writes source last (ts ++ us) next (text ++ text') where
  final := by rw [final_append, h.final, h'.final]
  follows := by
    rw [trail_append, h.final]
    intro step among
    exact (List.mem_append.1 among).elim (h.follows step) (h'.follows step)
  text := by
    rw [pieces_append, h.final, Piece.weave_append, h'.text]
    have front := h.text
    rw [Piece.weave, List.append_nil] at front
    rw [Piece.weave, front]

theorem congr (h : Writes source last ts next text) (same : text = text') :
    Writes source last ts next text' :=
  same ▸ h

end Writes

theorem mem_of_final (h : final source last ts = some z) : z ∈ last.toList ++ ts := by
  induction ts generalizing last with
  | nil =>
      rw [final] at h
      simp [h]
  | cons t ts ih =>
      rw [final] at h
      split at h
      · have among := ih h
        rw [List.mem_append] at among ⊢
        exact among.imp id (List.mem_cons_of_mem _)
      · exact List.mem_append_right _ (ih h)

theorem Stream.front {xs ys zs : List Token} (h : Stream source (xs ++ (ys ++ zs))) :
    Stream source (xs ++ ys) := by
  rw [← List.append_assoc] at h
  exact h.left

theorem Stream.back {xs ys zs : List Token} (h : Stream source (xs ++ ys ++ zs)) :
    Stream source (ys ++ zs) := by
  rw [List.append_assoc] at h
  exact h.right

/-- What comes behind a stretch comes behind the last token of it that is left. -/
theorem Stream.behind (h : Stream source (last.toList ++ (ts ++ us)))
    (isFinal : final source last ts = next) : Stream source (next.toList ++ us) := by
  rw [← List.append_assoc] at h
  cases next with
  | none => exact h.right
  | some z =>
      have among := mem_of_final isFinal
      refine ⟨fun t ht => ?_, List.pairwise_cons.2 ⟨fun u hu => h.le_of_append among hu,
        h.right.ordered⟩⟩
      rcases List.mem_cons.1 ht with rfl | ht
      · exact h.left.stands _ among
      · exact h.right.stands t ht

/-- The texts that stand for other classes of tokens than operators, `not` and `@`. -/
theorem spelling_of_kind (shape : Lexeme.Shape t.kind (t.text source).toList)
    (kind : t.kind ≠ .operator ∧ t.kind ≠ .not ∧ t.text source ≠ "@") :
    spelling source last t =
      if last.any (isShorthand source · t) then [".", t.text source] else [t.text source] := by
  have ofText : ∀ {text : String}, t.text source = text →
      Lexeme.Shape t.kind text.toList := fun same => same ▸ shape
  unfold spelling
  split
  case h_1 same | h_2 same =>
    exact absurd ((ofText same).kind_eq_wordKind (by decide) (by decide)) kind.1
  case h_3 same | h_4 same | h_5 same | h_6 same =>
    exact absurd ((ofText same).kind_of_comparison (by decide)) kind.1
  case h_7 same => exact absurd same (shape.ne_not kind.2.1)
  case h_8 same => exact absurd same kind.2.2
  case h_9 => rfl

theorem spelling_plain (shape : Lexeme.Shape t.kind (t.text source).toList)
    (kind : t.kind ≠ .operator ∧ t.kind ≠ .not ∧ t.text source ≠ "@")
    (plain : last.any (isShorthand source · t) = false) :
    spelling source last t = [t.text source] := by
  rw [spelling_of_kind shape kind, plain, if_neg Bool.false_ne_true]

theorem text_of_not (shape : Lexeme.Shape t.kind (t.text source).toList) (kind : t.kind = .not) :
    t.text source = "not" ∨ t.text source = "!" := by
  generalize same : (t.text source).toList = chars at shape
  rw [kind] at shape
  generalize isNot : TokenKind.not = kind at shape
  cases shape with
  | word =>
      rw [← same, String.ofList_toList] at isNot
      unfold Lexeme.wordKind at isNot
      split at isNot <;> first | exact .inl ‹_› | cases isNot
  | notIn => cases isNot
  | number => cases isNot
  | string => cases isNot
  | pair known =>
      subst isNot
      unfold Lexeme.pairKind at known
      split at known
      · cases known
      · split at known <;> cases known
  | sign known =>
      subst isNot
      unfold Lexeme.signKind at known
      split at known <;> cases known
      exact .inr (String.toList_injective same)

theorem gap_of_kind (shape : Lexeme.Shape t.kind (t.text source).toList) (kind : t.kind ≠ .not)
    (stop : Nat) : gap source (some t) stop = Text.excerpt t.span.stop stop source.toList := by
  rw [gap, if_neg (by simpa using shape.ne_not kind)]
  rfl

theorem Stream.toList_text (h : Stream source ts) (ht : t ∈ ts) :
    (t.text source).toList = Text.excerpt t.span.start t.span.stop source.toList :=
  Span.toList_text (h.isBoundary_start ht) (h.isBoundary_stop ht) (Nat.le_of_lt (h.start_lt_stop ht))

/-- One token that is not passed over. -/
theorem writes_token (passed : passesOver source last t = false)
    (follows : Follows source [] last t) : Writes source last [t] (some t)
      (gap source last t.span.start ++ (spelling source last t).flatMap String.toList) where
  final := by rw [final, if_neg (by simp [passed]), final]
  follows := by
    rw [trail, if_neg (by simp [passed]), trail]
    exact fun step among => (List.mem_singleton.1 among) ▸ follows
  text := by
    rw [pieces_cons passed, pieces_nil, List.append_nil, Piece.weave_append, Piece.weave_bare,
      Piece.weave_behind (spelling_ne_nil source last t)]
    simp [closing]

theorem Writes.pass {text : List Char} (h : Writes source last ts next text)
    (passed : passesOver source last t = true) : Writes source last (t :: ts) next text where
  final := by rw [Token.final, if_pos passed, h.final]
  follows := by
    rw [trail, if_pos passed]
    exact h.follows
  text := by rw [pieces_pass passed, h.text]

theorem Stream.elim_le (h : Stream source (last.toList ++ ts)) (ht : t ∈ ts) :
    last.elim 0 (·.span.stop) ≤ t.span.start := by
  cases last with
  | none => exact Nat.zero_le _
  | some s => exact (List.pairwise_cons.1 h.ordered).1 t ht

/-- A gap, a token that stays as it is and the gap behind it. -/
theorem gap_append (stream : Stream source (last.toList ++ t :: ts))
    (notNot : last.any (·.text source = "not") = false) (stop : Nat) (hle : t.span.stop ≤ stop) :
    gap source last t.span.start ++ (t.text source).toList ++
      Text.excerpt t.span.stop stop source.toList = gap source last stop := by
  have positive := stream.right.start_lt_stop (List.mem_cons_self ..)
  have starts := stream.elim_le (List.mem_cons_self ..)
  rw [gap, if_neg (by simp [notNot]), gap, if_neg (by simp [notNot]),
    stream.right.toList_text (List.mem_cons_self ..),
    Text.excerpt_append_excerpt starts (Nat.le_of_lt positive),
    Text.excerpt_append_excerpt (by omega) hle]

theorem spelling_none (plain : last.any (isShorthand source · t) = false) :
    spelling source last t = spelling source none t := by
  simp only [spelling, plain, Option.any_none]

end Token

end MembershipLowering
