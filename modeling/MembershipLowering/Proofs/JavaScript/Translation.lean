import MembershipLowering.Proofs.JavaScript.Grouping
import MembershipLowering.Proofs.Lowering.Weaving

/-! # Grouping survives lowering

An expression without membership tests is spelt token by token, and JavaScript groups what is
spelt as the expression was grouped in the source (`Derives.regroups`). The two languages do not
have the same levels, though: in the source orderings are as loose as equality, and looser
than `instanceof`. So the operands of an ordering must not rely on that (`Expr.keepsGrouping`).
-/

namespace MembershipLowering

namespace JavaScript

/-- Whether a text is a newline. -/
def isNewline (text : String) : Bool :=
  text = "\n" || text = "\r" || text = "\r\n"

/-- The texts of tokens as JavaScript has them: newlines are blanks, and `===`, which is read
    as `==` and `=`, is one sign. -/
def signs : List String → List String
  | [] => []
  | "==" :: "=" :: texts => "===" :: signs texts
  | "!=" :: "=" :: texts => "!==" :: signs texts
  | text :: texts => if isNewline text then signs texts else text :: signs texts

theorem signs_cons {text : String} (notEqual : text ≠ "==" ∧ text ≠ "!=") (texts : List String) :
    signs (text :: texts) = if isNewline text then signs texts else text :: signs texts := by
  rw [signs]
  · rintro _ rfl
    exact absurd rfl notEqual.1
  · rintro _ rfl
    exact absurd rfl notEqual.2

end JavaScript

open JavaScript Token

namespace Lexeme.Shape

variable {kind : TokenKind} {text : String}

/-- A newline is a newline of JavaScript. -/
theorem isNewline (h : Shape kind text.toList) (newline : kind = .newline) :
    JavaScript.isNewline text = true := by
  generalize same : text.toList = chars at h
  cases h with
  | word =>
      unfold wordKind at newline
      split at newline <;> cases newline
  | notIn => cases newline
  | number => cases newline
  | string => cases newline
  | pair known =>
      subst newline
      unfold pairKind at known
      split at known
      · rename_i carriage
        rw [carriage.1, carriage.2] at same
        rw [String.toList_injective (same.trans (b := "\r\n".toList) rfl)]
        decide
      · split at known <;> cases known
  | sign known =>
      subst newline
      unfold signKind at known
      split at known <;> cases known
      · rw [String.toList_injective (same.trans (b := "\r".toList) rfl)]
        decide
      · rw [String.toList_injective (same.trans (b := "\n".toList) rfl)]
        decide

/-- The text of a bracket or of a sign that stands for itself. -/
def signText? : TokenKind → Option String
  | .lparen => some "("
  | .rparen => some ")"
  | .lbracket => some "["
  | .rbracket => some "]"
  | .comma => some ","
  | .dot => some "."
  | .assign => some "="
  | .semicolon => some ";"
  | _ => none

theorem eq_signText (h : Shape kind text.toList) {sign : String}
    (known : signText? kind = some sign) : text = sign := by
  generalize same : text.toList = chars at h
  cases h with
  | word =>
      unfold wordKind at known
      split at known <;> cases known
  | notIn => cases known
  | number => cases known
  | string => cases known
  | pair isPair =>
      unfold pairKind at isPair
      split at isPair
      · cases isPair
        cases known
      · split at isPair <;> cases isPair
        cases known
  | sign isSign =>
      unfold signKind at isSign
      split at isSign <;> cases isSign <;> cases known <;> exact String.toList_injective same

/-- Whether a word, a number or a quoted literal begins with the character. -/
def beginsWord (c : Char) : Bool :=
  isWordStart c || c.isDigit || c == '"' || c == '\''

/-- What begins so is no sign of JavaScript, but for one word. -/
theorem mark_eq_word {c : Char} {cs : List Char} (same : text.toList = c :: cs)
    (begins : beginsWord c = true) (other : text ≠ "instanceof") : mark text = .word := by
  have plain : ∀ {d : Char} {ds : List Char}, text.toList = d :: ds → beginsWord d = true := by
    intro d ds same'
    cases same.symm.trans same'
    exact begins
  unfold mark
  split
  all_goals first
    | rfl
    | exact absurd rfl other
    | exact absurd (plain rfl) (by decide)

/-- Comparisons are operators. -/
theorem ne_comparison (h : Shape kind text.toList) (notOperator : kind ≠ .operator) :
    text ≠ "==" ∧ text ≠ "!=" := by
  refine ⟨fun same => ?_, fun same => ?_⟩
  all_goals
    rw [same] at h
    exact notOperator (h.kind_of_comparison (by decide))

theorem isNewline_eq_false {c : Char} {cs : List Char} (same : text.toList = c :: cs)
    (begins : beginsWord c = true) : JavaScript.isNewline text = false := by
  rw [Bool.eq_false_iff]
  intro newline
  simp only [JavaScript.isNewline, Bool.or_eq_true, decide_eq_true_eq] at newline
  rcases newline with (rfl | rfl) | rfl
  all_goals
    cases same
    exact absurd begins (by decide)

/-- Names and literals. -/
def isOperand : TokenKind → Bool
  | .identifier | .this | .number | .string | .bool | .null => true
  | _ => false

/-- Names and literals begin so. -/
theorem exists_beginsWord (h : Shape kind text.toList) (operand : isOperand kind = true)
    (notAt : text ≠ "@") : ∃ c cs, text.toList = c :: cs ∧ beginsWord c = true := by
  generalize same : text.toList = chars at h
  cases h with
  | @word c cs start => exact ⟨c, cs, rfl, by simp [beginsWord, start]⟩
  | notIn => cases operand
  | @number c cs digit => exact ⟨c, cs, rfl, by simp [beginsWord, digit]⟩
  | @string c cs quote => exact ⟨c, cs, rfl, by rcases quote with rfl | rfl <;> decide⟩
  | pair known =>
      unfold pairKind at known
      split at known
      · cases known
        cases operand
      · split at known <;> cases known
        cases operand
  | sign known =>
      unfold signKind at known
      split at known <;> cases known <;> try cases operand
      exact absurd (String.toList_injective same) notAt

/-- Names and literals are words of JavaScript. -/
theorem isWord (h : Shape kind text.toList) (operand : isOperand kind = true)
    (notAt : text ≠ "@") : mark text = .word ∧ signs [text] = [text] := by
  obtain ⟨c, cs, same, begins⟩ := h.exists_beginsWord operand notAt
  have other : text ≠ "instanceof" := by
    rintro rfl
    rw [h.kind_of_instanceof] at operand
    cases operand
  refine ⟨mark_eq_word same begins other, ?_⟩
  rw [signs_cons (h.ne_comparison (by rintro rfl; cases operand)),
    isNewline_eq_false same begins]
  rfl

end Lexeme.Shape

namespace Token

variable {source : String} {last mid next : Option Token} {t u z : Token} {ts us : List Token}

/-- No sign goes beyond what stands for a token. -/
theorem signs_spelling (last : Option Token) (t : Token) (rest : List String) :
    signs (spelling source last t ++ rest) = signs (spelling source last t) ++ signs rest := by
  unfold spelling
  split
  all_goals try rfl
  rename_i noAnd noOr noIs noEqual noIsnt noUnequal noNot noAt
  have own : ∀ rest, signs (t.text source :: rest) = signs [t.text source] ++ signs rest := by
    intro rest
    rw [signs_cons ⟨noEqual, noUnequal⟩, signs_cons ⟨noEqual, noUnequal⟩]
    split <;> rfl
  split
  · exact congrArg ("." :: ·) (own rest)
  · exact own rest

/-- What stands in JavaScript for the tokens behind `last`. -/
def translated (source : String) (last : Option Token) (ts : List Token) : List String :=
  (trail source last ts).flatMap fun step => signs (spelling source step.1 step.2)

/-- The tokens behind `last` are translated as the texts, and `next` is the last one of them
    that is left. -/
structure Translates (source : String) (last : Option Token) (ts : List Token)
    (next : Option Token) (texts : List String) : Prop where
  final : final source last ts = next
  texts : translated source last ts = texts

namespace Translates

variable {texts texts' : List String}

theorem append (h : Translates source last ts mid texts)
    (h' : Translates source mid us next texts') :
    Translates source last (ts ++ us) next (texts ++ texts') where
  final := by rw [final_append, h.final, h'.final]
  texts := by
    rw [translated, trail_append, List.flatMap_append, h.final]
    exact congr (congrArg _ h.texts) h'.texts

theorem congr (h : Translates source last ts next texts) (same : texts = texts') :
    Translates source last ts next texts' :=
  same ▸ h

/-- One token that is not passed over. -/
theorem token (passed : passesOver source last t = false) :
    Translates source last [t] (some t) (signs (spelling source last t)) where
  final := by rw [Token.final, if_neg (by simp [passed]), Token.final]
  texts := by simp [translated, trail, passed]

theorem pass (h : Translates source last ts next texts)
    (passed : passesOver source last t = true) : Translates source last (t :: ts) next texts where
  final := by rw [Token.final, if_pos passed, h.final]
  texts := by
    rw [translated, trail, if_pos passed]
    exact h.texts

end Translates

end Token

namespace Parser

variable {source : String} {inside : Bool} {last : Option Token} {t z : Token} {seg : List Token}

/-- Of a token behind newlines only the token is left. -/
theorem Reaches.translates (h : Reaches inside t seg)
    (stream : Stream source (last.toList ++ seg)) (kind : t.kind ≠ .newline)
    (plain : last.any (isShorthand source · t) = false) :
    Translates source last seg (some t) (signs (spelling source none t)) := by
  induction h generalizing last with
  | here =>
      refine (Translates.token (by simp [passesOver, kind])).congr ?_
      rw [spelling_none plain]
  | @later u seg bracketed newline reaches ih =>
      have shape := stream.shape (List.mem_append_right _ (List.mem_cons_self ..))
      have notAt : u.text source ≠ "@" := shape.ne_at (by rw [newline]; decide)
      by_cases passed : passesOver source last u = true
      · exact (ih (stream.sublist ((List.sublist_cons_self u seg).append_left _)) plain).pass passed
      · rw [Bool.not_eq_true] at passed
        have front : Translates source last [u] (some u) _ := .token passed
        have back : Translates source (some u) seg (some t) _ :=
          ih stream.right (by simp [isShorthand, notAt])
        refine (front.append back).congr ?_
        rw [spelling_plain shape (by rw [newline]; exact ⟨by decide, by decide, notAt⟩)
          (by cases last <;> simp [isShorthand, newline]),
          signs_cons (shape.ne_comparison (by rw [newline]; decide)),
          if_pos (shape.isNewline newline)]
        rfl

end Parser

/-- A term in parentheses if there are any around the content. -/
def Extent.term (x : Extent) (e : Term) : Term :=
  if x.outer = x.content then e else .parens e

theorem Extent.term_bare (s : Span) (e : Term) : (Extent.bare s).term e = e :=
  if_pos rfl

theorem Extent.fits_term (x : Extent) (e : Term) : (x.term e).fits = e.fits := by
  unfold Extent.term
  split <;> rfl

namespace Expr

mutual

/-- The term of an expression without membership tests. For these there is none, but an empty
    word. -/
def term (source : String) : Expr → Term
  | .atom x .this =>
    x.term (.word (if x.content.text source = "@" then "this" else x.content.text source))
  | .atom x _ => x.term (.word (x.content.text source))
  | .array x es => x.term (.array (terms source es))
  | .call x f es => x.term (.call (f.term source) (terms source es))
  | .member x o name => x.term (.member (o.term source) (name.text source))
  | .index x o k => x.term (.index (o.term source) (k.term source))
  | .not x _ e => x.term (.not (e.term source))
  | .binary x l op r => x.term (.binary (l.term source) op (r.term source))
  | .assign x t v => x.term (.assign (t.term source) (v.term source))
  | .membership x _ _ _ => x.term (.word "")

def terms (source : String) : List Expr → List Term
  | [] => []
  | e :: es => e.term source :: terms source es

end

/-- The operator of an expression that has no parentheses around it. -/
def bareOperator? : Expr → Option BinaryOperator
  | .binary x _ op _ => if x.outer = x.content then some op else none
  | _ => none

end Expr

namespace BinaryOperator

/-- Orderings, which in the source are as loose as equality and looser than `instanceof`, but not
    in JavaScript. -/
def isOrdering : BinaryOperator → Bool
  | lessThan | lessThanOrEqual | greaterThan | greaterThanOrEqual => true
  | _ => false

def isEquality : BinaryOperator → Bool
  | equal | notEqual => true
  | _ => false

/-- What may stand without parentheses to the left of an operator may do so in JavaScript, except
    for an equality to the left of an ordering. -/
theorem javaScriptLevel_le {op left : BinaryOperator} (tight : op.level ≤ left.level)
    (agree : (op.isOrdering && left.isEquality) = false) :
    op.javaScriptLevel ≤ left.javaScriptLevel := by
  revert tight agree
  cases op <;> cases left <;> decide

/-- And so to the right of it, except for `instanceof` to the right of an ordering. -/
theorem javaScriptLevel_lt {op right : BinaryOperator} (tight : op.level < right.level)
    (agree : (op.isOrdering && right = instanceOf) = false) :
    op.javaScriptLevel < right.javaScriptLevel := by
  revert tight agree
  cases op <;> cases right <;> decide

/-- These exceptions do not fit the levels of JavaScript. -/
theorem agree_of_javaScriptLevel_le {op left : BinaryOperator}
    (tight : op.javaScriptLevel ≤ left.javaScriptLevel) :
    (op.isOrdering && left.isEquality) = false := by
  revert tight
  cases op <;> cases left <;> decide

theorem agree_of_javaScriptLevel_lt {op right : BinaryOperator}
    (tight : op.javaScriptLevel < right.javaScriptLevel) :
    (op.isOrdering && right = instanceOf) = false := by
  revert tight
  cases op <;> cases right <;> decide

end BinaryOperator

namespace Expr

mutual

/-- Whether no ordering has a bare equality to its left or a bare `instanceof` to its right, which
    JavaScript would group otherwise. -/
def keepsGrouping : Expr → Bool
  | .atom _ _ => true
  | .array _ es => keepsGroupingAll es
  | .call _ f es => f.keepsGrouping && keepsGroupingAll es
  | .member _ e _ | .not _ _ e => e.keepsGrouping
  | .index _ l r | .assign _ l r | .membership _ l r _ => l.keepsGrouping && r.keepsGrouping
  | .binary _ l op r =>
    !(op.isOrdering && l.bareOperator?.any (·.isEquality)) &&
      !(op.isOrdering && r.bareOperator?.any (· = .instanceOf)) &&
        (l.keepsGrouping && r.keepsGrouping)

def keepsGroupingAll : List Expr → Bool
  | [] => true
  | e :: es => e.keepsGrouping && keepsGroupingAll es

end

/-- Parentheses around an expression enclose its term. -/
theorem term_parenthesize (source : String) {start stop : Nat} {e : Expr}
    (opens : start < e.extent.content.start) :
    (e.parenthesize start stop).term source = (e.term source).enclose := by
  have wrap : ∀ (x : Extent) (shape : Term), start < x.content.start →
      shape.enclose = .parens shape → (x.wrap start stop).term shape = (x.term shape).enclose := by
    intro x shape opens bare
    have wrapped : (x.wrap start stop).term shape = .parens shape := by
      refine if_neg fun same => ?_
      have := congrArg Span.start same
      simp only [Extent.wrap, Span.cover] at this
      omega
    rw [wrapped, Extent.term]
    split
    · exact bare.symm
    · rfl
  cases e with
  | atom x a => cases a <;> exact wrap x _ opens rfl
  | _ => exact wrap _ _ opens rfl

theorem level_term {source : String} {e : Expr} {op : BinaryOperator}
    (h : e.bareOperator? = some op) : (e.term source).level = op.javaScriptLevel := by
  cases e with
  | binary x l op' r =>
      rw [bareOperator?] at h
      split at h
      · rename_i bare
        cases h
        rw [term, Extent.term, if_pos bare]
        rfl
      · cases h
  | _ => cases h

mutual

/-- A term that fits the levels of JavaScript keeps the grouping. -/
theorem keepsGrouping_of_fits {source : String} {e : Expr} (plain : e.hasMembership = false)
    (h : (e.term source).fits = true) : e.keepsGrouping = true := by
  cases e with
  | atom => rfl
  | array x es =>
      rw [term, Extent.fits_term] at h
      exact keepsGroupingAll_of_fits plain h
  | call x f es =>
      rw [term, Extent.fits_term] at h
      have plains : _ ∧ _ := Bool.or_eq_false_iff.1 plain
      have both : _ ∧ _ := (Bool.and_eq_true ..).mp h
      exact (Bool.and_eq_true ..).mpr ⟨keepsGrouping_of_fits plains.1 both.1,
        keepsGroupingAll_of_fits plains.2 both.2⟩
  | member x o name =>
      rw [term, Extent.fits_term] at h
      exact keepsGrouping_of_fits (e := o) plain h
  | not x sign e =>
      rw [term, Extent.fits_term] at h
      exact keepsGrouping_of_fits (e := e) plain h
  | index x l r | assign x l r =>
      rw [term, Extent.fits_term] at h
      have plains : _ ∧ _ := Bool.or_eq_false_iff.1 plain
      have both : _ ∧ _ := (Bool.and_eq_true ..).mp h
      exact (Bool.and_eq_true ..).mpr
        ⟨keepsGrouping_of_fits plains.1 both.1, keepsGrouping_of_fits plains.2 both.2⟩
  | binary x l op r =>
      rw [term, Extent.fits_term] at h
      have plains : _ ∧ _ := Bool.or_eq_false_iff.1 plain
      have both : _ ∧ _ := (Bool.and_eq_true ..).mp h
      have levels : _ ∧ _ := (Bool.and_eq_true ..).mp both.1
      have parts : _ ∧ _ := (Bool.and_eq_true ..).mp both.2
      have tightLeft := of_decide_eq_true levels.1
      have tightRight := of_decide_eq_true levels.2
      have agreeLeft : (op.isOrdering && l.bareOperator?.any (·.isEquality)) = false := by
        cases bare : l.bareOperator? with
        | none => exact Bool.and_false _
        | some op' =>
            rw [level_term bare] at tightLeft
            exact BinaryOperator.agree_of_javaScriptLevel_le tightLeft
      have agreeRight : (op.isOrdering && r.bareOperator?.any (· = .instanceOf)) = false := by
        cases bare : r.bareOperator? with
        | none => exact Bool.and_false _
        | some op' =>
            rw [level_term bare] at tightRight
            exact BinaryOperator.agree_of_javaScriptLevel_lt tightRight
      rw [keepsGrouping, agreeLeft, agreeRight, keepsGrouping_of_fits plains.1 parts.1,
        keepsGrouping_of_fits plains.2 parts.2]
      rfl
  | membership => cases plain

theorem keepsGroupingAll_of_fits {source : String} {es : List Expr}
    (plain : hasMembershipAll es = false) (h : Term.fitsAll (terms source es) = true) :
    keepsGroupingAll es = true := by
  cases es with
  | nil => rfl
  | cons e es =>
      have plains : _ ∧ _ := Bool.or_eq_false_iff.1 plain
      have both : _ ∧ _ := (Bool.and_eq_true ..).mp h
      exact (Bool.and_eq_true ..).mpr
        ⟨keepsGrouping_of_fits plains.1 both.1, keepsGroupingAll_of_fits plains.2 both.2⟩

end

theorem keepsGrouping_parenthesize (start stop : Nat) (e : Expr) :
    (e.parenthesize start stop).keepsGrouping = e.keepsGrouping := by
  cases e <;> rfl

end Expr

namespace Parser

variable {source : String} {inside : Bool} {last : Option Token} {t z close : Token}
  {seg segLeft segRight segInner segItems segClose : List Token} {level : Nat} {e l r : Expr}
  {es : List Expr}

/-- A bracket, or a sign that stands for itself. -/
theorem Reaches.translates_sign (h : Reaches inside t seg)
    (stream : Stream source (last.toList ++ seg)) {sign : String}
    (known : Lexeme.Shape.signText? t.kind = some sign) :
    Translates source last seg (some t) [sign] := by
  have shape := stream.right.shape h.mem
  have text := shape.eq_signText known
  have notName : t.kind ≠ .identifier := fun kind => by rw [kind] at known; cases known
  refine (h.translates stream (fun kind => by rw [kind] at known; cases known)
    (by simp [isShorthand, notName])).congr ?_
  rw [spelling_plain shape ⟨fun kind => by (rw [kind] at known; cases known),
    fun kind => by (rw [kind] at known; cases known),
    shape.ne_at fun kind => by (rw [kind] at known; cases known)⟩ rfl, text]
  revert known
  cases t.kind <;> intro known <;> cases known <;> rfl

/-- The level of an expression in the source, and that of its translation. -/
def Levels (e : Expr) (level own : Nat) : Prop :=
  level = own ∧ (level = 0 ∨ 7 ≤ level) ∨
    ∃ op, e.bareOperator? = some op ∧ level = op.level ∧ own = op.javaScriptLevel

/-- Behind any token that opens an operand, JavaScript groups what stands for the stretch as the
    expression is grouped. -/
def Regroups (source : String) (seg : List Token) (level : Nat) (e : Expr) : Prop :=
  ∀ last : Option Token, Stream source (last.toList ++ seg) →
    (∀ s ∈ last, s.kind.opensOperand = true) →
      ∃ z texts own, Translates source last seg (some z) texts ∧ z.kind.endsOperand = true ∧
        Groups own texts (e.term source) ∧ Levels e level own

/-- The same of items behind a bracket or a comma. -/
def RegroupsItems (source : String) (seg : List Token) (es : List Expr) (close : Token)
    (sign : String) : Prop :=
  ∀ s : Token, Stream source (s :: seg) → s.kind.opensOperand = true →
    ∃ texts, Translates source (some s) seg (some close) texts ∧
      GroupsItems sign texts (Expr.terms source es)

/-- What a value may be assigned to ends in itself. -/
theorem Derives.level_of_isTarget (h : Derives source inside level seg e)
    (isTarget : e.isTarget = true) : level = 8 := by
  cases h <;> first | rfl | cases isTarget

section Cases

theorem regroups_array (opening : Reaches inside t seg) (isOpening : t.kind = .lbracket)
    (closes : close.kind = .rbracket) (items : RegroupsItems source segItems es close "]") :
    Regroups source (seg ++ segItems) 8 (.array (.bare ⟨t.span.start, close.span.stop⟩) es) := by
  intro last stream opens
  have front : Translates source last seg (some t) ["["] :=
    opening.translates_sign stream.front (by rw [isOpening]; rfl)
  have behind : Stream source (t :: segItems) := stream.behind front.final
  obtain ⟨texts, back, grouped⟩ := items t behind (by rw [isOpening]; rfl)
  refine ⟨close, _, 8, front.append back, by rw [closes]; rfl, ?_, .inl ⟨rfl, .inr (by decide)⟩⟩
  rw [Expr.term, Extent.term_bare]
  exact .array grouped

/-- The sign `@` is translated as `this`. -/
theorem translates_at {a : Atom} (reaches : Reaches inside t seg) (known : atom? t.kind = some a)
    (sign : t.text source = "@") (stream : Stream source (last.toList ++ seg))
    (opens : ∀ s ∈ last, s.kind.opensOperand = true) :
    Translates source last seg (some t) ["this"] ∧
      Expr.term source (.atom (.bare t.span) a) = .word "this" := by
  have shape := stream.right.shape reaches.mem
  have front := reaches.translates stream (ne_newline_of_atom? known)
    (not_shorthand_of_opens stream opens t)
  rw [spelling_of_at sign] at front
  obtain rfl : a = .this := by
    refine (kind_of_atom? known).2.2.2.2.2 ?_
    rw [sign] at shape
    exact shape.kind_of_at
  refine ⟨front, ?_⟩
  rw [Expr.term, Extent.term_bare]
  exact congrArg Term.word (if_pos sign)

theorem regroups_atom {a : Atom} (reaches : Reaches inside t seg) (known : atom? t.kind = some a) :
    Regroups source seg 8 (.atom (.bare t.span) a) := by
  intro last stream opens
  obtain ⟨-, endsOperand, notOperator, notNot, -, -⟩ := kind_of_atom? known
  by_cases isAt : t.text source = "@"
  · obtain ⟨front, term⟩ := translates_at reaches known isAt stream opens
    exact ⟨t, _, 8, front, endsOperand, term ▸ .word rfl, .inl ⟨rfl, .inr (by decide)⟩⟩
  · have shape := stream.right.shape reaches.mem
    have front := reaches.translates stream (ne_newline_of_atom? known)
      (not_shorthand_of_opens stream opens t)
    have operand : Lexeme.Shape.isOperand t.kind = true := by
      revert known
      cases t.kind <;> intro known <;> cases known <;> rfl
    obtain ⟨isWord, own⟩ := shape.isWord operand isAt
    rw [spelling_plain shape ⟨notOperator, notNot, isAt⟩ rfl, own] at front
    have term : Expr.term source (.atom (.bare t.span) a) = .word (t.text source) := by
      cases a with
      | this =>
          rw [Expr.term, Extent.term_bare]
          exact congrArg Term.word (if_neg isAt)
      | _ => exact Extent.term_bare _ _
    exact ⟨t, _, 8, front, endsOperand, term ▸ .word isWord, .inl ⟨rfl, .inr (by decide)⟩⟩

/-- A name that touches `@` is a member of `this`. -/
theorem regroups_shorthand {name : Token} {a : Atom} (reaches : Reaches inside t seg)
    (known : atom? t.kind = some a) (sign : t.text source = "@") (isName : name.kind = .identifier)
    (touches : name.span.start = t.span.stop) :
    Regroups source (seg ++ [name]) 8
      (.member (.bare ⟨t.span.start, name.span.stop⟩) (.atom (.bare t.span) a) name.span) := by
  intro last stream opens
  obtain ⟨front, term⟩ := translates_at reaches known sign stream.front opens
  have shape := stream.right.right.shape (List.mem_singleton.2 rfl)
  have notAt := shape.ne_at (by rw [isName]; decide)
  obtain ⟨isWord, own⟩ := shape.isWord (by rw [isName]; rfl) notAt
  have short : isShorthand source t name = true := by simp [isShorthand, sign, touches, isName]
  have spelt : spelling source (some t) name = [".", name.text source] := by
    rw [spelling_of_kind shape ⟨by rw [isName]; decide, by rw [isName]; decide, notAt⟩]
    exact if_pos short
  have back : Translates source (some t) [name] (some name) [".", name.text source] := by
    refine (Translates.token (by simp [passesOver, isName])).congr ?_
    rw [spelt]
    exact congrArg ("." :: ·) own
  refine ⟨name, _, 8, front.append back, by rw [isName]; rfl, ?_, .inl ⟨rfl, .inr (by decide)⟩⟩
  rw [Expr.term, Extent.term_bare, term]
  exact .member (.word rfl) isWord

theorem regroups_parenthesized (opening : Reaches inside t seg) (isOpening : t.kind = .lparen)
    (derives : Derives source true level segInner e) (inner : Regroups source segInner level e)
    (closing : Reaches true close segClose)
    (isClosing : close.kind = .rparen) :
    Regroups source (seg ++ segInner ++ segClose) 8
      (e.parenthesize t.span.start close.span.stop) := by
  intro last stream _
  have streamSeg := stream.right
  have positive := streamSeg.left.left.start_lt_stop opening.mem
  have apart := (opening.covers (ne_newline_of_kind isOpening rfl)).le_of_append
    (derives.covers streamSeg.left.right) streamSeg.left
  have opens := (derives.nested streamSeg
    (List.infix_append_right.trans List.infix_append_left)).proper.opens
  have front : Translates source last seg (some t) ["("] :=
    opening.translates_sign stream.front.front (by rw [isOpening]; rfl)
  obtain ⟨z, texts, own, middle, -, grouped, -⟩ := inner (some t)
    (stream.front.behind front.final) (fun s same => by cases same; rw [isOpening]; rfl)
  have back : Translates source (some z) segClose (some close) [")"] :=
    closing.translates_sign (stream.behind (front.append middle).final) (by rw [isClosing]; rfl)
  refine ⟨close, _, 8, (front.append middle).append back, by rw [isClosing]; rfl, ?_,
    .inl ⟨rfl, .inr (by decide)⟩⟩
  rw [Expr.term_parenthesize source
    (Nat.lt_of_lt_of_le positive (Nat.le_trans apart opens))]
  exact .parens grouped

theorem Regroups.tight (h : Regroups source seg 8 e)
    (stream : Stream source (last.toList ++ seg)) (opens : ∀ s ∈ last, s.kind.opensOperand = true) :
    ∃ z texts, Translates source last seg (some z) texts ∧ z.kind.endsOperand = true ∧
      Groups 8 texts (e.term source) := by
  obtain ⟨z, texts, own, front, ends, grouped, ⟨rfl, -⟩ | ⟨op, -, same, -⟩⟩ := h last stream opens
  · exact ⟨z, texts, front, ends, grouped⟩
  · cases op <;> cases same

theorem regroups_member {dot name : Token} {segDot segName : List Token}
    (object : Regroups source segLeft 8 l)
    (reachesDot : Reaches inside dot segDot) (isDot : dot.kind = .dot)
    (reachesName : Reaches inside name segName) (isName : name.kind = .identifier) :
    Regroups source (segLeft ++ segDot ++ segName) 8
      (.member (.bare ⟨l.outer.start, name.span.stop⟩) l name.span) := by
  intro last stream opens
  obtain ⟨z, texts, front, -, grouped⟩ := object.tight stream.front.front opens
  have point : Translates source (some z) segDot (some dot) ["."] :=
    reachesDot.translates_sign (stream.front.behind front.final) (by rw [isDot]; rfl)
  have behind := stream.behind (front.append point).final
  have shape := behind.right.shape reachesName.mem
  have notAt := shape.ne_at (by rw [isName]; decide)
  have notAtDot := (behind.shape (List.mem_cons_self ..)).ne_at (by rw [isDot]; decide)
  obtain ⟨isWord, own⟩ := shape.isWord (by rw [isName]; rfl) notAt
  have back : Translates source (some dot) segName (some name) [name.text source] := by
    refine (reachesName.translates behind (ne_newline_of_kind isName rfl)
      (by simp [isShorthand, notAtDot])).congr ?_
    rw [spelling_plain shape ⟨by rw [isName]; decide, by rw [isName]; decide, notAt⟩ rfl, own]
  refine ⟨name, _, 8, (front.append point).append back, by rw [isName]; rfl, ?_,
    .inl ⟨rfl, .inr (by decide)⟩⟩
  rw [List.append_assoc, Expr.term, Extent.term_bare]
  exact .member grouped isWord

theorem regroups_index (object : Regroups source segLeft 8 l)
    (opening : Reaches inside t seg) (isOpening : t.kind = .lbracket)
    (key : Regroups source segInner level e) (closing : Reaches true close segClose)
    (isClosing : close.kind = .rbracket) :
    Regroups source (segLeft ++ seg ++ segInner ++ segClose) 8
      (.index (.bare ⟨l.outer.start, close.span.stop⟩) l e) := by
  intro last stream opens
  obtain ⟨z, texts, front, -, grouped⟩ := object.tight stream.front.front.front opens
  have bracket : Translates source (some z) seg (some t) ["["] :=
    opening.translates_sign (stream.front.front.behind front.final) (by rw [isOpening]; rfl)
  obtain ⟨y, textsKey, own, middle, -, groupedKey, -⟩ := key (some t)
    (stream.front.behind (front.append bracket).final)
    (fun s same => by cases same; rw [isOpening]; rfl)
  have back : Translates source (some y) segClose (some close) ["]"] :=
    closing.translates_sign (stream.behind ((front.append bracket).append middle).final)
      (by rw [isClosing]; rfl)
  refine ⟨close, _, 8, ((front.append bracket).append middle).append back, by rw [isClosing]; rfl,
    ?_, .inl ⟨rfl, .inr (by decide)⟩⟩
  rw [List.append_assoc, List.append_assoc, Expr.term, Extent.term_bare]
  exact .index grouped groupedKey

theorem regroups_call (callee : Regroups source segLeft 8 l) (opening : Reaches inside t seg)
    (isOpening : t.kind = .lparen) (closes : close.kind = .rparen)
    (items : RegroupsItems source segItems es close ")") :
    Regroups source (segLeft ++ seg ++ segItems) 8
      (.call (.bare ⟨l.outer.start, close.span.stop⟩) l es) := by
  intro last stream opens
  obtain ⟨z, texts, front, -, grouped⟩ := callee.tight stream.front.front opens
  have bracket : Translates source (some z) seg (some t) ["("] :=
    opening.translates_sign (stream.front.behind front.final) (by rw [isOpening]; rfl)
  have behind : Stream source (t :: segItems) := stream.behind (front.append bracket).final
  obtain ⟨textsItems, back, groupedItems⟩ := items t behind (by rw [isOpening]; rfl)
  refine ⟨close, _, 8, (front.append bracket).append back, by rw [closes]; rfl, ?_,
    .inl ⟨rfl, .inr (by decide)⟩⟩
  rw [List.append_assoc, Expr.term, Extent.term_bare]
  exact .call grouped groupedItems

theorem regroups_not (reaches : Reaches inside t seg) (isNot : t.kind = .not)
    (operand : Regroups source segInner level e) (tighter : 7 ≤ level) :
    Regroups source (seg ++ segInner) 7 (.not (.bare (t.span.cover e.outer)) t.span e) := by
  intro last stream opens
  have shape := stream.front.right.shape reaches.mem
  have front : Translates source last seg (some t) ["!"] := by
    refine (reaches.translates stream.front (ne_newline_of_kind isNot rfl)
      (not_shorthand_of_opens stream opens t)).congr ?_
    rcases text_of_not shape isNot with isWord | isSign
    · simp only [spelling, isWord]
      rfl
    · simp only [spelling, isSign]
      rfl
  obtain ⟨z, texts, own, back, ends, grouped, levels⟩ := operand (some t)
    (stream.behind front.final) (fun s same => by cases same; rw [isNot]; rfl)
  have tighterOwn : 7 ≤ own := by
    rcases levels with ⟨rfl, -⟩ | ⟨op, -, same, -⟩
    · exact tighter
    · exact absurd (same ▸ tighter) (by cases op <;> decide)
  refine ⟨z, _, 7, front.append back, ends, ?_, .inl ⟨rfl, .inr (Nat.le_refl 7)⟩⟩
  rw [Expr.term, Extent.term_bare]
  exact .not grouped tighterOwn

/-- The sign of an operator is the one that it has in JavaScript. -/
theorem translates_operator {op : BinaryOperator} (reaches : Reaches inside t seg)
    (leveled : level? source t = some op.level)
    (spelt : BinaryOperator.ofText? (t.text source) = some op)
    (stream : Stream source (last.toList ++ seg)) :
    Translates source last seg (some t) [op.javaScript] := by
  have shape := stream.right.shape reaches.mem
  have kinds := (kind_of_operator (kind_of_level? shape leveled spelt) spelt).1
  have notName : t.kind ≠ .identifier := by rcases kinds with kind | kind <;> rw [kind] <;> decide
  refine (reaches.translates stream (ne_newline_of_level? leveled)
    (by simp [isShorthand, notName])).congr ?_
  unfold BinaryOperator.ofText? at spelt
  split at spelt
  all_goals try cases spelt
  all_goals
    rename_i same
    simp only [spelling, same]
    rfl

/-- A left operand that is tight enough in the source is so in JavaScript. -/
theorem Levels.left {own : Nat} {op : BinaryOperator} (h : Levels e level own)
    (tight : op.level ≤ level)
    (agree : (op.isOrdering && e.bareOperator?.any (·.isEquality)) = false) :
    op.javaScriptLevel ≤ own := by
  have atMost : 0 < op.level ∧ op.javaScriptLevel ≤ 6 := by cases op <;> decide
  rcases h with ⟨rfl, special⟩ | ⟨op', bare, rfl, rfl⟩
  · omega
  · rw [bare] at agree
    exact BinaryOperator.javaScriptLevel_le tight agree

/-- And so is a right one. -/
theorem Levels.right {own : Nat} {op : BinaryOperator} (h : Levels e level own)
    (tight : op.level < level)
    (agree : (op.isOrdering && e.bareOperator?.any (· = .instanceOf)) = false) :
    op.javaScriptLevel < own := by
  have atMost : op.javaScriptLevel ≤ 6 := by cases op <;> decide
  rcases h with ⟨rfl, special⟩ | ⟨op', bare, rfl, rfl⟩
  · omega
  · rw [bare] at agree
    exact BinaryOperator.javaScriptLevel_lt tight agree

theorem regroups_binary {i j : Nat} {op : BinaryOperator} (left : Regroups source segLeft i l)
    (leftLevel : op.level ≤ i) (reaches : Reaches inside t seg)
    (leveled : level? source t = some op.level)
    (spelt : BinaryOperator.ofText? (t.text source) = some op)
    (right : Regroups source segRight j r) (rightLevel : op.level < j)
    (agreeLeft : (op.isOrdering && l.bareOperator?.any (·.isEquality)) = false)
    (agreeRight : (op.isOrdering && r.bareOperator?.any (· = .instanceOf)) = false) :
    Regroups source (segLeft ++ seg ++ segRight) op.level
      (.binary (.bare (l.outer.cover r.outer)) l op r) := by
  intro last stream opens
  obtain ⟨z, texts, own, front, -, grouped, levels⟩ := left last stream.front.front opens
  have sign : Translates source (some z) seg (some t) [op.javaScript] :=
    translates_operator reaches leveled spelt (stream.front.behind front.final)
  have behind := stream.behind (front.append sign).final
  have kinds := (kind_of_operator (kind_of_level? (behind.shape (List.mem_cons_self ..)) leveled
    spelt) spelt).1
  obtain ⟨y, textsRight, ownRight, back, ends, groupedRight, levelsRight⟩ := right (some t) behind
    (fun s same => by cases same; rcases kinds with kind | kind <;> rw [kind] <;> rfl)
  refine ⟨y, _, op.javaScriptLevel, (front.append sign).append back, ends, ?_,
    .inr ⟨op, if_pos rfl, rfl, rfl⟩⟩
  rw [List.append_assoc, Expr.term, Extent.term_bare]
  exact .binary grouped (levels.left leftLevel agreeLeft) groupedRight
    (levelsRight.right rightLevel agreeRight)

theorem regroups_assign {j : Nat} (target : Regroups source segLeft 8 l)
    (reaches : Reaches inside t seg) (isAssign : t.kind = .assign)
    (value : Regroups source segRight j r) :
    Regroups source (segLeft ++ seg ++ segRight) 0
      (.assign (.bare (l.outer.cover r.outer)) l r) := by
  intro last stream opens
  obtain ⟨z, texts, front, -, grouped⟩ := target.tight stream.front.front opens
  have sign : Translates source (some z) seg (some t) ["="] :=
    reaches.translates_sign (stream.front.behind front.final) (by rw [isAssign]; rfl)
  obtain ⟨y, textsRight, own, back, ends, groupedRight, -⟩ := value (some t)
    (stream.behind (front.append sign).final) (fun s same => by cases same; rw [isAssign]; rfl)
  refine ⟨y, _, 0, (front.append sign).append back, ends, ?_, .inl ⟨rfl, .inl rfl⟩⟩
  rw [List.append_assoc, Expr.term, Extent.term_bare]
  exact .assign grouped groupedRight

theorem regroupsItems_nil {sign : String} (closing : Reaches true close seg)
    (known : Lexeme.Shape.signText? close.kind = some sign) :
    RegroupsItems source seg [] close sign := by
  intro s stream opens
  have streamAll : Stream source ((some s).toList ++ seg) := stream
  exact ⟨[sign], closing.translates_sign streamAll known, .done⟩

theorem regroupsItems_last {sign : String} (item : Regroups source segInner level e)
    (closing : Reaches true close seg) (known : Lexeme.Shape.signText? close.kind = some sign) :
    RegroupsItems source (segInner ++ seg) [e] close sign := by
  intro s stream opens
  have streamAll : Stream source ((some s).toList ++ (segInner ++ seg)) := stream
  obtain ⟨z, texts, own, front, -, grouped, -⟩ := item (some s) streamAll.front
    (fun s' same => by cases same; exact opens)
  have back : Translates source (some z) seg (some close) [sign] :=
    closing.translates_sign (streamAll.behind front.final) known
  exact ⟨_, front.append back, .last grouped⟩

theorem regroupsItems_more {sign : String} (item : Regroups source segInner level e)
    (reaches : Reaches true t seg) (isComma : t.kind = .comma)
    (items : RegroupsItems source segItems es close sign) :
    RegroupsItems source (segInner ++ seg ++ segItems) (e :: es) close sign := by
  intro s stream opens
  have streamAll : Stream source ((some s).toList ++ (segInner ++ seg ++ segItems)) := stream
  obtain ⟨z, texts, own, front, -, grouped, -⟩ := item (some s) streamAll.front.front
    (fun s' same => by cases same; exact opens)
  have comma : Translates source (some z) seg (some t) [","] :=
    reaches.translates_sign (streamAll.front.behind front.final) (by rw [isComma]; rfl)
  have behind : Stream source (t :: segItems) := streamAll.behind (front.append comma).final
  obtain ⟨textsItems, back, groupedItems⟩ := items t behind (by rw [isComma]; rfl)
  refine ⟨_, (front.append comma).append back, ?_⟩
  rw [List.append_assoc]
  exact .more grouped groupedItems

end Cases

mutual

/-- JavaScript groups what stands for an expression as the expression is grouped. -/
theorem Derives.regroups {inside : Bool} {level : Nat} {seg : List Token} {e : Expr}
    (h : Derives source inside level seg e) (plain : e.hasMembership = false)
    (keeps : e.keepsGrouping = true) : Regroups source seg level e := by
  match h with
  | .atom reaches known => exact regroups_atom reaches known
  | .shorthand reaches known sign isName touches =>
    exact regroups_shorthand reaches known sign isName touches
  | .array opening isOpening items =>
    exact regroups_array opening isOpening items.close_kind (items.regroups rfl plain keeps)
  | .parenthesized opening isOpening inner closing isClosing =>
    exact regroups_parenthesized opening isOpening inner
      (inner.regroups (by rwa [Printer.hasMembership_parenthesize] at plain)
        (by rwa [Expr.keepsGrouping_parenthesize] at keeps)) closing isClosing
  | .member object reachesDot isDot reachesName isName =>
    exact regroups_member (object.regroups plain keeps) reachesDot isDot reachesName isName
  | .index object opening isOpening key closing isClosing =>
    have plains : _ ∧ _ := Bool.or_eq_false_iff.1 plain
    have both : _ ∧ _ := (Bool.and_eq_true ..).mp keeps
    exact regroups_index (object.regroups plains.1 both.1) opening isOpening
      (key.regroups plains.2 both.2) closing isClosing
  | .call callee opening isOpening touches items =>
    have plains : _ ∧ _ := Bool.or_eq_false_iff.1 plain
    have both : _ ∧ _ := (Bool.and_eq_true ..).mp keeps
    exact regroups_call (callee.regroups plains.1 both.1) opening isOpening items.close_kind
      (items.regroups rfl plains.2 both.2)
  | .not reaches isNot operand tighter =>
    exact regroups_not reaches isNot (operand.regroups plain keeps) tighter
  | .binary left leftLevel reaches leveled spelt right rightLevel =>
    have plains : _ ∧ _ := Bool.or_eq_false_iff.1 plain
    have both : _ ∧ _ := (Bool.and_eq_true ..).mp keeps
    have agree : _ ∧ _ := (Bool.and_eq_true ..).mp both.1
    have parts : _ ∧ _ := (Bool.and_eq_true ..).mp both.2
    exact regroups_binary (left.regroups plains.1 parts.1) leftLevel reaches leveled spelt
      (right.regroups plains.2 parts.2) rightLevel ((Bool.not_eq_true' _).mp agree.1)
      ((Bool.not_eq_true' _).mp agree.2)
  | .assign left leftLevel isTarget reaches isAssign right =>
    have plains : _ ∧ _ := Bool.or_eq_false_iff.1 plain
    have both : _ ∧ _ := (Bool.and_eq_true ..).mp keeps
    have tight := left.level_of_isTarget isTarget
    exact regroups_assign (tight ▸ left.regroups plains.1 both.1) reaches isAssign
      (right.regroups plains.2 both.2)

theorem DerivesItems.regroups {kind : TokenKind} {seg : List Token} {es : List Expr}
    {close : Token} {sign : String} (h : DerivesItems source kind seg es close)
    (known : Lexeme.Shape.signText? kind = some sign) (plain : Expr.hasMembershipAll es = false)
    (keeps : Expr.keepsGroupingAll es = true) : RegroupsItems source seg es close sign := by
  match h with
  | .done closing isClosing => exact regroupsItems_nil closing (isClosing ▸ known)
  | .last item closing isClosing =>
    have plains : _ ∧ _ := Bool.or_eq_false_iff.1 plain
    have both : _ ∧ _ := (Bool.and_eq_true ..).mp keeps
    exact regroupsItems_last (item.regroups plains.1 both.1) closing (isClosing ▸ known)
  | .more item reaches isComma items =>
    have plains : _ ∧ _ := Bool.or_eq_false_iff.1 plain
    have both : _ ∧ _ := (Bool.and_eq_true ..).mp keeps
    exact regroupsItems_more (item.regroups plains.1 both.1) reaches isComma
      (items.regroups known plains.2 both.2)

end

end Parser

end MembershipLowering
