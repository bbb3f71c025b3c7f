import MembershipLowering.Proofs.Token.Respelling

/-! # What respelt tokens begin and end with

How the text that stands for a token begins (`head_spelling`), and what might continue the
end of it (`continues_spelling`): both told by the class of the token.
-/

namespace MembershipLowering

namespace TokenKind

/-- The classes of words that are left as they are. -/
def isName : TokenKind → Bool
  | identifier | this | bool | null => true
  | _ => false

theorem not_admits {a b : TokenKind} (ha : a.isName = true) (hb : b.isName = true ∨ b = number) :
    a.admits b = false := by
  have begins : b.beginsOperand = true ∧ b ≠ lparen ∧ b ≠ lbracket := by
    rcases hb with hb | rfl
    · cases b <;> first | exact absurd hb (by decide) | decide
    · decide
  have refuses : (!(b.beginsOperand && b ≠ lparen && b ≠ lbracket)) = false := by
    simp [begins]
  cases a <;> first | exact absurd ha (by decide) | exact refuses

end TokenKind

namespace Lexeme

theorem isWordPart_eq (c : Char) : isWordPart c = (isWordStart c || c.isDigit) := by
  simp only [isWordPart, isWordStart, Char.isAlphanum]
  grind

/-- A word in front of a text that stops there. -/
theorem Stops.not_continues_word {c : Char} {cs rest : List Char} (h : Stops (c :: cs) rest)
    (part : ∀ d ∈ c :: cs, isWordPart d = true) (start : isWordStart c = true) :
    rest.head?.any isWordPart = false := by
  obtain ⟨kind, read⟩ := h
  rw [List.cons_append, ofChars, if_pos start, ← List.cons_append, word] at read
  split at read
  · rename_i relation
    obtain ⟨-, same, -⟩ := Lexeme.token.inj read
    rw [relation.1] at same
    exfalso
    generalize blank : ((c :: cs ++ rest).dropWhile isWordPart).takeWhile isBlank = blanks at *
    cases blanks with
    | nil => exact relation.2.1 rfl
    | cons b blanks =>
        have isBlank : isBlank b = true := List.mem_takeWhile_imp (by rw [blank]; simp)
        have isPart : isWordPart b = true := part b (by rw [← same]; simp)
        simp only [Lexeme.isBlank, Bool.or_eq_true, beq_iff_eq] at isBlank
        rcases isBlank with rfl | rfl <;> exact absurd isPart (by decide)
  · obtain ⟨-, -, same⟩ := Lexeme.token.inj read
    rw [List.dropWhile_append_of_pos part] at same
    cases rest with
    | nil => rfl
    | cons d rest =>
        show isWordPart d = false
        rw [Bool.eq_false_iff]
        intro isPart
        have length := congrArg List.length same
        rw [List.dropWhile_cons_of_pos isPart] at length
        have := (List.dropWhile_suffix (l := rest) isWordPart).length_le
        simp only [List.length_cons] at length
        omega

namespace Shape

variable {kind : TokenKind} {c : Char} {cs : List Char}

theorem kind_of_digit (h : Shape kind (c :: cs)) (digit : c.isDigit = true) : kind = .number := by
  have noWord := not_isWordStart_of_isDigit digit
  generalize same : c :: cs = chars at h
  cases h with
  | word start => cases same; rw [noWord] at start; cases start
  | notIn => cases same; cases digit
  | number => rfl
  | string quote => cases same; rcases quote with rfl | rfl <;> cases digit
  | pair known => cases same; rw [(plain_of_pairKind known).2.1] at digit; cases digit
  | sign known => cases same; rw [(plain_of_signKind known).2.1] at digit; cases digit

/-- What begins with none of the first characters of words, numbers and literals is a sign. -/
theorem sign_of_plain (h : Shape kind (c :: cs)) (noWord : isWordStart c = false)
    (noDigit : c.isDigit = false) (noQuote : ¬(c = '"' ∨ c = '\'')) :
    (∃ d, cs = [d] ∧ pairKind c d = some kind) ∨ cs = [] ∧ signKind c = some kind := by
  generalize same : c :: cs = chars at h
  cases h with
  | word start => cases same; rw [noWord] at start; cases start
  | notIn => cases same; cases noWord
  | number digit => cases same; rw [noDigit] at digit; cases digit
  | string quote => cases same; exact absurd quote noQuote
  | pair known => cases same; exact .inl ⟨_, rfl, known⟩
  | sign known => cases same; exact .inr ⟨rfl, known⟩

theorem kind_of_equals (h : Shape kind ('=' :: cs)) : kind = .operator ∨ kind = .assign := by
  rcases h.sign_of_plain rfl rfl (by decide) with ⟨d, -, known⟩ | ⟨-, known⟩
  · unfold pairKind at known
    split at known
    · rename_i same
      exact absurd same.1 (by decide)
    · split at known
      · exact .inl (Option.some.inj known).symm
      · cases known
  · exact .inr (Option.some.inj known).symm

theorem kind_of_comparison {text : String} (h : Shape kind text.toList)
    (known : text ∈ ["is", "==", "isnt", "!="]) : kind = .operator := by
  have pair : ∀ {c}, c = '=' ∨ c = '!' → Shape kind [c, '='] → kind = .operator := by
    intro c sign shape
    have plain : isWordStart c = false ∧ c.isDigit = false ∧ ¬(c = '"' ∨ c = '\'') := by
      rcases sign with rfl | rfl <;> decide
    rcases shape.sign_of_plain plain.1 plain.2.1 plain.2.2 with ⟨d, same, known⟩ | ⟨same, -⟩
    · cases same
      rcases sign with rfl | rfl <;> exact (Option.some.inj known).symm
    · cases same
  simp only [List.mem_cons, List.not_mem_nil, or_false] at known
  rcases known with rfl | rfl | rfl | rfl
  · exact h.kind_eq_wordKind (by decide) (by decide)
  · exact pair (.inl rfl) h
  · exact h.kind_eq_wordKind (by decide) (by decide)
  · exact pair (.inr rfl) h

theorem kind_of_point (h : Shape kind ('.' :: cs)) : kind = .dot := by
  rcases h.sign_of_plain rfl rfl (by decide) with ⟨d, -, known⟩ | ⟨-, known⟩
  · simp [pairKind] at known
  · exact (Option.some.inj known).symm

theorem kind_of_at (h : Shape kind ['@']) : kind = .this := by
  rcases h.sign_of_plain rfl rfl (by decide) with ⟨d, same, -⟩ | ⟨-, known⟩
  · cases same
  · exact (Option.some.inj known).symm

theorem ne_at {text : String} (h : Shape kind text.toList) (notThis : kind ≠ .this) :
    text ≠ "@" := by
  rintro rfl
  exact notThis h.kind_of_at

theorem word_of_start (h : Shape kind (c :: cs)) (start : isWordStart c = true) :
    (∀ d ∈ c :: cs, isWordPart d = true) ∧ kind = wordKind (String.ofList (c :: cs)) ∨
      kind = .relation := by
  generalize same : c :: cs = chars at h
  cases h with
  | word _ part => cases same; exact .inl ⟨part, rfl⟩
  | notIn => exact .inr rfl
  | number digit =>
      cases same
      rw [not_isWordStart_of_isDigit digit] at start
      cases start
  | string quote => cases same; rcases quote with rfl | rfl <;> cases start
  | pair known => cases same; rw [(plain_of_pairKind known).1] at start; cases start
  | sign known => cases same; rw [(plain_of_signKind known).1] at start; cases start

/-- Names other than `@` are words. -/
theorem exists_word {chars : List Char} (h : Shape kind chars) (isName : kind.isName = true)
    (notAt : chars ≠ ['@']) :
    ∃ c cs, chars = c :: cs ∧ isWordStart c = true ∧ ∀ d ∈ c :: cs, isWordPart d = true := by
  cases h with
  | word start part => exact ⟨_, _, rfl, start, part⟩
  | notIn => cases isName
  | number => cases isName
  | string => cases isName
  | pair known =>
      unfold pairKind at known
      split at known
      · cases known
        cases isName
      · split at known <;> cases known
        cases isName
  | sign known =>
      unfold signKind at known
      split at known <;> cases known <;> first | exact absurd rfl notAt | cases isName

theorem eq_point_of_dot {chars : List Char} (h : Shape kind chars) (dot : kind = .dot) :
    chars = ['.'] := by
  cases h with
  | word => exact absurd dot (by unfold wordKind; split <;> decide)
  | notIn => cases dot
  | number => cases dot
  | string => cases dot
  | pair known =>
      unfold pairKind at known
      split at known
      · cases known
        cases dot
      · split at known <;> cases known
        cases dot
  | sign known =>
      unfold signKind at known
      split at known <;> cases known <;> first | rfl | cases dot

theorem cases_of_pairKind {rest : List Char} (h : (rest.head?.bind (pairKind c)).isSome = true) :
    (c = '\r' ∧ rest.head? = some '\n') ∨ (c ∈ ['=', '!', '<', '>'] ∧ rest.head? = some '=') ∨
      c ∈ ['|', '&'] := by
  cases rest with
  | nil => cases h
  | cons d rest =>
      simp only [List.head?_cons, Option.bind_some, pairKind] at h ⊢
      split at h
      · rename_i same
        exact .inl ⟨same.1, congrArg _ same.2⟩
      · split at h
        · rename_i known
          exact .inr (known.imp (fun pair => ⟨pair.1, congrArg _ pair.2⟩) (·.1))
        · cases h

/-- What a token may be continued with: a word with a word, a number with a number, a carriage
    return with its line feed, and a sign with `=`. -/
theorem cases_of_continues {chars rest : List Char} (h : Shape kind chars)
    (continued : continues chars rest = true) :
    (rest.head?.any isWordPart = true ∧ (kind = wordKind (String.ofList chars) ∨ kind = .relation)) ∨
      (kind = .number ∧ continuesNumber rest = true) ∨
      (chars = ['\r'] ∧ rest.head? = some '\n') ∨
      ((kind = .operator ∨ kind = .assign ∨ kind = .not) ∧ rest.head? = some '=') := by
  cases h with
  | word start part =>
      rw [continues, if_pos start] at continued
      exact .inl ⟨continued, .inl rfl⟩
  | notIn => exact .inl ⟨continued, .inr rfl⟩
  | number digit =>
      rw [continues, if_neg (by simp [not_isWordStart_of_isDigit digit]), if_pos digit] at continued
      exact .inr (.inl ⟨rfl, continued⟩)
  | @string c cs quote =>
      have plain : isWordStart c = false ∧ c.isDigit = false := by
        rcases quote with rfl | rfl <;> decide
      rw [continues, if_neg (by simp [plain.1]), if_neg (by simp [plain.2]),
        Bool.and_eq_true] at continued
      rcases cases_of_pairKind continued.2 with ⟨rfl, -⟩ | ⟨among, -⟩ | among
      · exact absurd quote (by decide)
      all_goals rcases quote with rfl | rfl <;> exact absurd among (by decide)
  | pair known =>
      obtain ⟨noWord, noDigit, -⟩ := plain_of_pairKind known
      rw [continues, if_neg (by simp [noWord]), if_neg (by simp [noDigit])] at continued
      cases continued
  | @sign c _ known =>
      obtain ⟨noWord, noDigit, -⟩ := plain_of_signKind known
      rw [continues, if_neg (by simp [noWord]), if_neg (by simp [noDigit])] at continued
      rcases cases_of_pairKind (by simpa using continued) with ⟨rfl, feed⟩ | ⟨among, feed⟩ | among
      · exact .inr (.inr (.inl ⟨rfl, feed⟩))
      · refine .inr (.inr (.inr ⟨?_, feed⟩))
        simp only [List.mem_cons, List.not_mem_nil, or_false] at among
        rcases among with rfl | rfl | rfl | rfl <;> cases known <;> simp
      · simp only [List.mem_cons, List.not_mem_nil, or_false] at among
        rcases among with rfl | rfl <;> cases known

end Shape

end Lexeme

open Lexeme

namespace Token

variable {source : String} {last : Option Token} {t u : Token} {c : Char} {rest : List Char}

/-- The words that are spelt with signs. -/
def isSpelt (text : String) : Bool :=
  text = "and" || text = "or" || text = "is" || text = "isnt" || text = "not"

/-- The class of a word that is left as it is. -/
theorem isName_of_wordKind {text : String} (h : isSpelt text = false) :
    (wordKind text).isName = true ∨ wordKind text = .relation := by
  unfold wordKind
  split <;> first | exact .inl rfl | exact .inr rfl | (exact absurd h (by decide))

/-- What the text for a token begins with: the token's own text, the point of a shorthand,
    `this` or a sign. -/
theorem head_spelling (shape : Shape u.kind (u.text source).toList)
    (h : ((spelling source last u).flatMap String.toList).head? = some c) :
    ((u.text source).toList.head? = some c ∧ last.any (isShorthand source · u) = false ∧
        isSpelt (u.text source) = false) ∨
      (c = '.' ∧ last.any (isShorthand source · u) = true) ∨
      (c = 't' ∧ u.text source = "@" ∧ u.kind = .this) ∨
      c ∈ ['&', '|', '!'] ∨ (c = '=' ∧ u.kind = .operator) := by
  unfold spelling at h
  split at h
  case h_1 =>
    obtain rfl : '&' = c := Option.some.inj h
    simp
  case h_2 =>
    obtain rfl : '|' = c := Option.some.inj h
    simp
  case h_3 same | h_4 same =>
    obtain rfl : '=' = c := Option.some.inj h
    exact .inr (.inr (.inr (.inr ⟨rfl, shape.kind_of_comparison (by simp [same])⟩)))
  case h_5 | h_6 | h_7 =>
    obtain rfl : '!' = c := Option.some.inj h
    simp
  case h_8 same =>
    rw [same] at shape
    obtain rfl : 't' = c := Option.some.inj h
    exact .inr (.inr (.inl ⟨rfl, same, shape.kind_of_at⟩))
  case h_9 noAnd noOr noIs _ noIsnt _ noNot _ =>
    split at h
    · rename_i short
      obtain rfl : '.' = c := Option.some.inj h
      exact .inr (.inl ⟨rfl, short⟩)
    · rename_i plain
      refine .inl ⟨?_, by simpa using plain, ?_⟩
      · simpa using h
      · simpa [isSpelt] using ⟨⟨⟨⟨noAnd, noOr⟩, noIs⟩, noIsnt⟩, noNot⟩

/-- What the last text for a token may be continued with. -/
theorem continues_spelling {x : String} (shape : Shape t.kind (t.text source).toList)
    (h : (spelling source last t).getLast? = some x) (continued : continues x.toList rest = true) :
    (rest.head?.any isWordPart = true ∧
        ((x = t.text source ∧ (t.kind.isName = true ∨ t.kind = .relation)) ∨
          (t.text source = "@" ∧ t.kind = .this))) ∨
      (t.kind = .number ∧ continuesNumber rest = true) ∨
      (x = t.text source ∧ (t.text source).toList = ['\r'] ∧ rest.head? = some '\n') ∨
      ((t.kind = .operator ∨ t.kind = .assign ∨ t.kind = .not) ∧ rest.head? = some '=') := by
  have of_sign : ∀ {c}, c ∈ ['=', '!'] → (rest.head?.bind (pairKind c)).isSome = true →
      rest.head? = some '=' := by
    intro c known some
    rcases Shape.cases_of_pairKind some with ⟨rfl, -⟩ | ⟨-, feed⟩ | among
    · simp at known
    · exact feed
    · simp only [List.mem_cons, List.not_mem_nil, or_false] at known among
      rcases known with rfl | rfl <;> simp at among
  have of_comparison : t.text source ∈ ["is", "==", "isnt", "!="] → some "=" = some x →
      (t.kind = .operator ∨ t.kind = .assign ∨ t.kind = .not) ∧ rest.head? = some '=' := by
    intro among same
    cases same
    exact ⟨.inl (shape.kind_of_comparison among), of_sign (c := '=') (by simp) continued⟩
  unfold spelling at h
  split at h
  case h_1 | h_2 =>
    cases h
    cases continued
  case h_3 same | h_4 same | h_5 same | h_6 same =>
    exact .inr (.inr (.inr (of_comparison (by simp [same]) h)))
  case h_7 same =>
    cases h
    rw [same] at shape
    exact .inr (.inr (.inr ⟨.inr (.inr (shape.kind_eq_wordKind (by decide) (by decide))),
      of_sign (c := '!') (by simp) continued⟩))
  case h_8 same =>
    cases h
    rw [same] at shape
    exact .inl ⟨continued, .inr ⟨same, shape.kind_of_at⟩⟩
  case h_9 noAnd noOr noIs _ noIsnt _ noNot _ =>
    obtain rfl : t.text source = x := by
      split at h <;> exact Option.some.inj h
    have left : isSpelt (t.text source) = false := by
      simpa [isSpelt] using ⟨⟨⟨⟨noAnd, noOr⟩, noIs⟩, noIsnt⟩, noNot⟩
    refine (shape.cases_of_continues continued).imp (fun word => ⟨word.1, .inl ⟨rfl, ?_⟩⟩)
      (Or.imp_right (Or.imp_left fun feed => ⟨rfl, feed⟩))
    refine word.2.elim (fun kind => ?_) .inr
    rw [kind, String.ofList_toList]
    exact isName_of_wordKind left

/-- Semicolons and gaps continue nothing. -/
theorem plain_of_skipped (h : ∀ c ∈ rest.head?, c = ';' ∨ isSkipped c = true) :
    rest.head?.any isWordPart = false ∧ continuesNumber rest = false ∧
      rest.head? ≠ some '\n' ∧ rest.head? ≠ some '=' := by
  cases rest with
  | nil => exact ⟨rfl, rfl, by simp, by simp⟩
  | cons c rest =>
      have known := h c rfl
      simp only [isSkipped, Bool.or_eq_true, beq_iff_eq, or_assoc] at known
      rcases known with rfl | rfl | rfl | rfl | rfl <;>
        exact ⟨rfl, rfl, by simp, by simp⟩

theorem exists_head_spelling (last : Option Token) (nonempty : (u.text source).toList ≠ []) :
    ∃ c, ((spelling source last u).flatMap String.toList).head? = some c := by
  unfold spelling
  split
  all_goals try exact ⟨_, rfl⟩
  split
  · exact ⟨'.', rfl⟩
  · obtain ⟨c, cs, same⟩ := List.exists_cons_of_ne_nil nonempty
    exact ⟨c, by simp [same]⟩

/-- A token that is spelt with a word is a word, a number or `@`. -/
theorem word_of_head (shape : Shape u.kind (u.text source).toList)
    (h : ((spelling source last u).flatMap String.toList).head? = some c)
    (part : isWordPart c = true) :
    (u.kind.isName = true ∨ u.kind = .number ∨ u.kind = .relation) ∧
      last.any (isShorthand source · u) = false ∧
      (u.text source = "@" ∨ (u.text source).toList.head? = some c) := by
  rcases head_spelling shape h with ⟨first, plain, left⟩ | ⟨rfl, -⟩ | ⟨rfl, isAt, isThis⟩ | among |
    ⟨rfl, -⟩
  · refine ⟨?_, plain, .inr first⟩
    obtain ⟨cs, same⟩ := List.head?_eq_some_iff.1 first
    rw [same] at shape
    rw [isWordPart_eq, Bool.or_eq_true] at part
    rcases part with start | digit
    · rcases shape.word_of_start start with ⟨-, kind⟩ | kind
      · rw [kind, ← same, String.ofList_toList]
        exact (isName_of_wordKind left).imp id .inr
      · exact .inr (.inr kind)
    · exact .inr (.inl (shape.kind_of_digit digit))
  · cases part
  · refine ⟨.inl (by rw [isThis]; rfl), ?_, .inl isAt⟩
    cases last with
    | none => rfl
    | some s => simp [isShorthand, isThis]
  · simp only [List.mem_cons, List.not_mem_nil, or_false] at among
    rcases among with rfl | rfl | rfl <;> cases part
  · cases part

theorem number_of_head (shape : Shape u.kind (u.text source).toList)
    (h : ((spelling source last u).flatMap String.toList).head? = some c)
    (digit : c.isDigit = true) : u.kind = .number := by
  rcases head_spelling shape h with ⟨first, -⟩ | ⟨rfl, -⟩ | ⟨rfl, -⟩ | among | ⟨rfl, -⟩
  · obtain ⟨cs, same⟩ := List.head?_eq_some_iff.1 first
    rw [same] at shape
    exact shape.kind_of_digit digit
  · cases digit
  · cases digit
  · simp only [List.mem_cons, List.not_mem_nil, or_false] at among
    rcases among with rfl | rfl | rfl <;> cases digit
  · cases digit

theorem equals_of_head (shape : Shape u.kind (u.text source).toList)
    (h : ((spelling source last u).flatMap String.toList).head? = some '=') :
    u.kind = .operator ∨ u.kind = .assign := by
  rcases head_spelling shape h with ⟨first, -⟩ | ⟨same, -⟩ | ⟨same, -⟩ | among | ⟨-, kind⟩
  · obtain ⟨cs, same⟩ := List.head?_eq_some_iff.1 first
    rw [same] at shape
    exact shape.kind_of_equals
  · cases same
  · cases same
  · simp at among
  · exact .inl kind

theorem point_of_head (shape : Shape u.kind (u.text source).toList)
    (h : ((spelling source last u).flatMap String.toList).head? = some '.') :
    u.kind = .dot ∨ last.any (isShorthand source · u) = true := by
  rcases head_spelling shape h with ⟨first, -⟩ | ⟨-, short⟩ | ⟨same, -⟩ | among | ⟨same, -⟩
  · obtain ⟨cs, same⟩ := List.head?_eq_some_iff.1 first
    rw [same] at shape
    exact .inl shape.kind_of_point
  · exact .inr short
  · cases same
  · simp at among
  · cases same

theorem spelling_of_dot (last : Option Token) (shape : Shape u.kind (u.text source).toList)
    (dot : u.kind = .dot) :
    u.text source = "." ∧ spelling source last u = ["."] := by
  have text : u.text source = "." := String.toList_injective (shape.eq_point_of_dot dot)
  refine ⟨text, ?_⟩
  have plain : last.any (isShorthand source · u) = false := by
    cases last with
    | none => rfl
    | some s => simp [isShorthand, dot]
  unfold spelling
  split
  all_goals try (rename_i same; rw [text] at same; exact absurd same (by decide))
  rw [plain, if_neg Bool.false_ne_true, text]

end Token

end MembershipLowering
