import Mathlib.Data.List.TakeWhile
import MembershipLowering.Expr.Operator
import MembershipLowering.Proofs.Token.Stream

/-! # The shapes of tokens

What the characters of a token look like, by how they were read: as a word, the
relation `not in`, a number, a quoted literal or a sign. From the shape follows what
the text of a token tells about its class, and the other way round.
-/

namespace MembershipLowering

namespace Lexeme

/-- The characters of a token and its class. -/
inductive Shape : TokenKind → List Char → Prop where
  | word {c : Char} {cs : List Char} (start : isWordStart c = true)
      (part : ∀ d ∈ c :: cs, isWordPart d = true) :
      Shape (wordKind (String.ofList (c :: cs))) (c :: cs)
  | notIn {blanks : List Char} (some : blanks ≠ []) (blank : ∀ d ∈ blanks, isBlank d = true) :
      Shape .relation (['n', 'o', 't'] ++ blanks ++ ['i', 'n'])
  | number {c : Char} {cs : List Char} (digit : c.isDigit = true) : Shape .number (c :: cs)
  | string {c : Char} {cs : List Char} (quote : c = '"' ∨ c = '\'') : Shape .string (c :: cs)
  | pair {c d : Char} {kind : TokenKind} (known : pairKind c d = some kind) : Shape kind [c, d]
  | sign {c : Char} {kind : TokenKind} (known : signKind c = some kind) : Shape kind [c]

theorem quotedTail_kind {quote : Char} {cs chars rest : List Char} {kind : TokenKind}
    (h : quotedTail quote cs = .token kind chars rest) : kind = .string := by
  fun_induction quotedTail quote cs generalizing chars with
  | case1 => cases h
  | case2 => cases h
  | case3 => cases h
  | case4 c rest ih | case6 c rest _ _ _ _ ih =>
      obtain ⟨tail, htail, -⟩ := extend_eq_token_iff.1 h
      exact ih htail
  | case5 => exact (Lexeme.token.inj h).1.symm

/-- Every token has a shape. -/
theorem shape_of_ofChars {cs chars rest : List Char} {kind : TokenKind}
    (h : ofChars cs = .token kind chars rest) : Shape kind chars := by
  cases cs with
  | nil => cases h
  | cons c cs =>
      simp only [ofChars] at h
      split at h
      · rename_i start
        have part := isWordPart_of_isWordStart start
        simp only [word] at h
        split at h
        · rename_i hnot
          obtain ⟨rfl, rfl, -⟩ := Lexeme.token.inj h
          rw [hnot.1]
          exact .notIn hnot.2.1 (fun _ => List.mem_takeWhile_imp)
        · obtain ⟨rfl, rfl, -⟩ := Lexeme.token.inj h
          have all : ∀ d ∈ (c :: cs).takeWhile isWordPart, isWordPart d = true :=
            fun _ => List.mem_takeWhile_imp
          rw [List.takeWhile_cons_of_pos part] at all ⊢
          exact .word start all
      · split at h
        · rename_i digit
          simp only [number] at h
          split at h
          · split at h
            · obtain ⟨rfl, rfl, -⟩ := Lexeme.token.inj h
              rw [List.takeWhile_cons_of_pos digit]
              exact .number digit
            · obtain ⟨rfl, rfl, -⟩ := Lexeme.token.inj h
              rw [List.takeWhile_cons_of_pos digit]
              exact .number digit
          · obtain ⟨rfl, rfl, -⟩ := Lexeme.token.inj h
            rw [List.takeWhile_cons_of_pos digit]
            exact .number digit
        · split at h
          · rename_i quote
            obtain ⟨tail, read, rfl⟩ := extend_eq_token_iff.1 h
            rw [quotedTail_kind read]
            exact .string quote
          · unfold Lexeme.sign at h
            split at h
            · rename_i known
              obtain ⟨rfl, rfl, -⟩ := Lexeme.token.inj h
              cases cs with
              | nil => cases known
              | cons d cs => exact .pair known
            · split at h
              · rename_i known
                obtain ⟨rfl, rfl, -⟩ := Lexeme.token.inj h
                exact .sign known
              · cases h

end Lexeme

namespace Token

variable {source : String} {tokens : List Token} {t : Token}

theorem Stream.shape (h : Stream source tokens) (ht : t ∈ tokens) :
    Lexeme.Shape t.kind (t.text source).toList := by
  obtain ⟨before, chars, after, stands⟩ := h.stands t ht
  rw [stands.toList_text]
  exact Lexeme.shape_of_ofChars stands.read

end Token

namespace Lexeme.Shape

/-- A sign is neither a word, nor a digit, nor a quote. -/
theorem plain_of_pairKind {c d : Char} {kind : TokenKind} (h : pairKind c d = some kind) :
    isWordStart c = false ∧ c.isDigit = false ∧ ¬(c = '"' ∨ c = '\'') := by
  unfold pairKind at h
  split at h
  · rename_i same
    rw [same.1]
    decide
  · split at h
    · rename_i known
      simp only [List.mem_cons, List.not_mem_nil, or_false] at known
      rcases known with ⟨(rfl | rfl | rfl | rfl), -⟩ | ⟨(rfl | rfl), -⟩ <;> decide
    · cases h

theorem plain_of_signKind {c : Char} {kind : TokenKind} (h : signKind c = some kind) :
    isWordStart c = false ∧ c.isDigit = false ∧ ¬(c = '"' ∨ c = '\'') := by
  unfold signKind at h
  split at h <;> first | decide | cases h

theorem not_isWordStart_of_isDigit {c : Char} (h : c.isDigit = true) : isWordStart c = false := by
  rw [Bool.eq_false_iff]
  intro start
  unfold isWordStart at start
  simp only [Bool.or_eq_true, beq_iff_eq] at start
  rcases start with (alpha | rfl) | rfl
  · have below : c.val ≤ '9'.val := of_decide_eq_true ((Bool.and_eq_true _ _).mp h).2
    have above : 'A'.val ≤ c.val := by
      cases (Bool.or_eq_true _ _).mp alpha with
      | inl upper => exact (of_decide_eq_true upper).1
      | inr lower =>
          exact UInt32.le_trans (by decide) (of_decide_eq_true ((Bool.and_eq_true _ _).mp lower).1)
    exact absurd (UInt32.le_trans above below) (by decide)
  · exact absurd h (by decide)
  · exact absurd h (by decide)

/-- Only a word is spelt with the letters of a word. -/
theorem kind_eq_wordKind {kind : TokenKind} {c : Char} {cs : List Char}
    (h : Shape kind (c :: cs)) (start : isWordStart c = true)
    (all : (c :: cs).all isWordPart = true) : kind = wordKind (String.ofList (c :: cs)) := by
  have part := List.all_eq_true.1 all
  generalize same : c :: cs = chars at h
  cases h with
  | word => rfl
  | @notIn blanks nonempty blank =>
      cases blanks with
      | nil => exact absurd rfl nonempty
      | cons b blanks =>
          have isPart : isWordPart b = true := part b (by rw [same]; simp)
          have isBlank := blank b (by simp)
          unfold Lexeme.isBlank at isBlank
          simp only [Bool.or_eq_true, beq_iff_eq] at isBlank
          rcases isBlank with rfl | rfl <;> exact absurd isPart (by decide)
  | number digit =>
      cases same
      rw [not_isWordStart_of_isDigit digit] at start
      cases start
  | string quote =>
      cases same
      rcases quote with rfl | rfl <;> exact absurd start (by decide)
  | pair known =>
      cases same
      rw [(plain_of_pairKind known).1] at start
      cases start
  | sign known =>
      cases same
      rw [(plain_of_signKind known).1] at start
      cases start

theorem kind_of_instanceof {kind : TokenKind} (h : Shape kind "instanceof".toList) :
    kind = .relation :=
  h.kind_eq_wordKind (by decide) (by decide)

theorem ne_not {kind : TokenKind} {text : String} (h : Shape kind text.toList)
    (other : kind ≠ .not) : text ≠ "not" := by
  rintro rfl
  exact other (h.kind_eq_wordKind (by decide) (by decide))

/-- A word is neither a parenthesis nor a sign. -/
theorem wordKind_ne (text : String) : wordKind text ≠ .rparen ∧ wordKind text ≠ .assign := by
  unfold wordKind
  split <;> decide

/-- A closing parenthesis, or the sign of an assignment, is a single character. -/
theorem length_eq_one {kind : TokenKind} {chars : List Char} (h : Shape kind chars)
    (known : kind = .rparen ∨ kind = .assign) : chars.length = 1 := by
  cases h with
  | word => exact absurd known (not_or.2 (wordKind_ne _))
  | notIn => simp at known
  | number => simp at known
  | string => simp at known
  | pair isPair =>
      unfold pairKind at isPair
      split at isPair
      · cases isPair
        simp at known
      · split at isPair
        · cases isPair
          simp at known
        · cases isPair
  | sign => rfl

end Lexeme.Shape

end MembershipLowering
