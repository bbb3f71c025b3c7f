import MembershipLowering.Proofs.Arena.Operators
import MembershipLowering.Proofs.Expr.Rejection
import MembershipLowering.Proofs.Phrase.Basic
import MembershipLowering.Proofs.Token.Resuming

/-! # One vocabulary

The scanner classifies words and signs by its tables, and the operators have a table of their
own. Whatever a lexer has been through, what it returns as an operator is in that table, and
with a class the table agrees to (`Token.Known`, `Lexer.known_of_answer`). So reading expressions
never stops in front of an operator whose meaning it does not know, and never complains about
one.
-/

namespace MembershipLowering

namespace Lexeme.Shape

/-- The words and signs of the operators other than relations. -/
def operatorTexts : List String :=
  ["+", "-", "*", "/", "%", "<", "<=", ">", ">=", "is", "==", "isnt", "!=", "and", "&&", "or", "||"]

theorem mem_operatorTexts_of_wordKind {text : String} (h : wordKind text = .operator) :
    text ∈ operatorTexts := by
  unfold wordKind at h
  split at h <;> first | decide | cases h

theorem mem_operatorTexts_of_pairKind {c d : Char} (h : pairKind c d = some .operator) :
    String.ofList [c, d] ∈ operatorTexts := by
  unfold pairKind at h
  split at h
  · cases h
  · split at h
    · rename_i known
      simp only [List.mem_cons, List.not_mem_nil, or_false] at known
      rcases known with ⟨(rfl | rfl | rfl | rfl), rfl⟩ | ⟨(rfl | rfl), rfl⟩ <;> decide
    · cases h

theorem mem_operatorTexts_of_signKind {c : Char} (h : signKind c = some .operator) :
    String.ofList [c] ∈ operatorTexts := by
  unfold signKind at h
  split at h <;> first | decide | cases h

theorem mem_operatorTexts {text : String} (h : Shape .operator text.toList) :
    text ∈ operatorTexts := by
  generalize shown : text.toList = chars at h
  generalize isOperator : TokenKind.operator = kind at h
  obtain rfl : text = String.ofList chars := by rw [← shown, String.ofList_toList]
  cases h with
  | word => exact mem_operatorTexts_of_wordKind isOperator.symm
  | notIn => cases isOperator
  | number => cases isOperator
  | string => cases isOperator
  | pair known => exact mem_operatorTexts_of_pairKind (isOperator ▸ known)
  | sign known => exact mem_operatorTexts_of_signKind (isOperator ▸ known)

end Lexeme.Shape

namespace BinaryOperator

/-- The operators that are no relations, by their texts. -/
theorem exists_of_mem_operatorTexts {text : String} (h : text ∈ Lexeme.Shape.operatorTexts) :
    ∃ op, ofText? text = some op ∧ op.tokenKind = .operator := by
  have all : ∀ text ∈ Lexeme.Shape.operatorTexts,
      (ofText? text).any (·.tokenKind = .operator) = true := by decide
  simpa [Option.any_eq_true] using all text h

theorem mem_of_ofText? {text : String} {op : BinaryOperator} (h : ofText? text = some op) :
    text ∈ "instanceof" :: Lexeme.Shape.operatorTexts := by
  unfold ofText? at h
  split at h <;> first | decide | cases h

/-- A membership test is no operator of the table, in which no text has a blank. -/
theorem ofText?_of_spellsTest {text : String} {negated : Bool} (h : SpellsTest negated text) :
    ofText? text = none := by
  cases negated with
  | false =>
      obtain rfl : text = "in" := h
      rfl
  | true =>
      obtain ⟨blanks, some, blank, rfl⟩ := h
      obtain ⟨c, blanks, rfl⟩ := List.exists_cons_of_ne_nil some
      have blankless : ∀ text ∈ "instanceof" :: Lexeme.Shape.operatorTexts,
          text.toList.all (fun c => c ≠ ' ' && c ≠ '\t') = true := by decide
      cases known : ofText? ("not" ++ String.ofList (c :: blanks) ++ "in") with
      | none => rfl
      | some op =>
          have inside := List.all_eq_true.1 (blankless _ (mem_of_ofText? known)) c (by simp)
          simp only [Bool.and_eq_true, decide_eq_true_eq] at inside
          exact absurd (blank c List.mem_cons_self) (not_or.2 inside)

end BinaryOperator

namespace Token

/-- What a token says is known to the operators. -/
structure Known (source : String) (t : Token) : Prop where
  /-- The text of an operator is in the table, for an operator that looks for tokens of this
      class. -/
  operator : t.kind = .operator → ∃ op, BinaryOperator.ofText? (t.text source) = some op ∧
    op.tokenKind = t.kind ∧ Parser.level? source t = some op.level
  relation : t.kind = .relation →
    t.text source = "instanceof" ∨ t.text source = "in" ∨ SpellsTest true (t.text source)
  /-- Of the relations only `instanceof` is in the table. -/
  mapped : t.kind = .relation → ∀ op, BinaryOperator.ofText? (t.text source) = some op ↔
    t.text source = "instanceof" ∧ op = .instanceOf
  /-- No token of these classes ends an expression for lack of a meaning. -/
  leveled : (Parser.level? source t).isSome ↔ t.kind = .operator ∨ t.kind = .relation
  name : t.kind = .identifier → t.text source ∉ reserved

variable {source : String} {t : Token}

theorem relation_cases (shape : Lexeme.Shape .relation (t.text source).toList) :
    t.text source = "instanceof" ∨ ∃ negated, SpellsTest negated (t.text source) :=
  (Classical.em _).imp_right fun other => ⟨_, shape.spellsTest other⟩

theorem not_mem_reserved {text : String} (shape : Lexeme.Shape .identifier text.toList) :
    text ∉ reserved := by
  intro isReserved
  have words : ∀ text ∈ reserved, text.toList.head?.any Lexeme.isWordStart = true ∧
      text.toList.all Lexeme.isWordPart = true ∧ Lexeme.wordKind text ≠ .identifier := by decide
  obtain ⟨start, part, other⟩ := words text isReserved
  cases shown : text.toList with
  | nil => rw [shown] at start; cases start
  | cons c cs =>
      rw [shown] at shape start part
      have isWord := shape.kind_eq_wordKind start part
      rw [← shown, String.ofList_toList] at isWord
      exact other isWord.symm

theorem exists_of_operator (shape : Lexeme.Shape t.kind (t.text source).toList)
    (isOperator : t.kind = .operator) :
    ∃ op, BinaryOperator.ofText? (t.text source) = some op ∧ op.tokenKind = t.kind ∧
      Parser.level? source t = some op.level := by
  rw [isOperator] at shape
  obtain ⟨op, spelt, sameClass⟩ :=
    BinaryOperator.exists_of_mem_operatorTexts shape.mem_operatorTexts
  refine ⟨op, spelt, sameClass.trans isOperator.symm, ?_⟩
  simp only [Parser.level?, isOperator, spelt, Option.map_some]

/-- The shape of a token decides what is known of it. -/
theorem known_of_shape (shape : Lexeme.Shape t.kind (t.text source).toList) :
    t.Known source where
  operator := exists_of_operator shape
  relation isRelation := by
    rw [isRelation] at shape
    obtain isInstanceOf | ⟨_ | _, spelt⟩ := relation_cases shape
    · exact .inl isInstanceOf
    · exact .inr (.inl spelt)
    · exact .inr (.inr spelt)
  mapped isRelation op := by
    rw [isRelation] at shape
    obtain isInstanceOf | ⟨negated, spelt⟩ := relation_cases shape
    · rw [isInstanceOf]
      simp [BinaryOperator.ofText?, eq_comm]
    · rw [BinaryOperator.ofText?_of_spellsTest spelt]
      refine ⟨nofun, ?_⟩
      rintro ⟨isInstanceOf, -⟩
      have unknown := BinaryOperator.ofText?_of_spellsTest spelt
      rw [isInstanceOf] at unknown
      cases unknown
  leveled := by
    constructor
    · intro leveled
      unfold Parser.level? at leveled
      split at leveled
      · rename_i isRelation
        exact .inr isRelation
      · rename_i isOperator
        exact .inl isOperator
      · cases leveled
    · rintro (isOperator | isRelation)
      · obtain ⟨op, -, -, leveled⟩ := exists_of_operator shape isOperator
        rw [leveled]
        rfl
      · rw [Parser.level?, isRelation]
        rfl
  name isName := by
    rw [isName] at shape
    exact not_mem_reserved shape

end Token

namespace Lexer

/-- A token is read at its place, whatever has been read before. -/
theorem Reached.exists_stands {source : String} {s : Lexer} {t : Token} (h : Reached source s)
    (read : s.next.1 = .ok (some t)) :
    ∃ before chars after, t.Stands source before chars after := by
  cases h with
  | beyond => cases read
  | @inside front rest split =>
      simp only [Lexer.next] at read
      split at read
      · cases read
      · rename_i kind chars later front
        cases read
        exact ⟨_, _, _, Token.stands_of_front split rfl front rfl rfl⟩
      · cases read

theorem exists_stands_of_answer {source : String} {calls : Nat} {t : Token}
    (h : (ofSource source).answer calls = .ok (some t)) :
    ∃ before chars after, t.Stands source before chars after :=
  ((Reached.of_split [] rfl rfl : Reached source (ofSource source)).after calls).exists_stands h

/-- Every token that a lexer returns, also after errors, is known to the operators. No source is
    rejected for an operator without a meaning. -/
theorem known_of_answer (source : String) :
    (∀ calls t, (ofSource source).answer calls = .ok (some t) → t.Known source) ∧
      ∀ found span, Document.parse source ≠ .error ⟨.unknownOperator found, span⟩ := by
  constructor
  · intro calls t read
    obtain ⟨before, chars, after, stands⟩ := exists_stands_of_answer read
    apply Token.known_of_shape
    rw [stands.toList_text]
    exact Lexeme.shape_of_ofChars stands.read
  · intro found span refused
    unfold Document.parse at refused
    split at refused
    · cases refused
    · cases Parser.blames_of_statements (Parser.error_of_map refused)

/-- A literal breaks off in front of both tokens. -/
theorem known_of_answer_broken :
    (ofSource "'é\nnot\t in&&is").answer 0 = .error ⟨.unterminatedString, 0⟩ ∧
      (ofSource "'é\nnot\t in&&is").answer 2 = .ok (some ⟨.relation, 4, 11⟩) ∧
      (ofSource "'é\nnot\t in&&is").answer 3 = .ok (some ⟨.operator, 11, 13⟩) ∧
      Token.Known "'é\nnot\t in&&is" ⟨.relation, 4, 11⟩ ∧
      Token.Known "'é\nnot\t in&&is" ⟨.operator, 11, 13⟩ := by
  have broken : (ofSource "'é\nnot\t in&&is").answer 0 = .error ⟨.unterminatedString, 0⟩ := by
    decide +kernel
  have relation : (ofSource "'é\nnot\t in&&is").answer 2 = .ok (some ⟨.relation, 4, 11⟩) := by
    decide +kernel
  have sign : (ofSource "'é\nnot\t in&&is").answer 3 = .ok (some ⟨.operator, 11, 13⟩) := by
    decide +kernel
  obtain ⟨known, -⟩ := known_of_answer "'é\nnot\t in&&is"
  exact ⟨broken, relation, sign, known 2 _ relation, known 3 _ sign⟩

end Lexer

end MembershipLowering
