import MembershipLowering.Proofs.Phrase.Basic
import MembershipLowering.Proofs.Token.Layout

/-! # Reading the tokens of phrases

Every word that a phrase is written with is read back as one token of its class, because
what stands behind it is a blank, a newline, the parenthesis of a call or nothing
(`IsLoose`). Only `not` looks further, for the word `in`, with which no operand begins.
-/

namespace MembershipLowering

open Lexeme

/-- What may stand behind a word. -/
def IsLoose (rest : List Char) : Prop :=
  ∀ c ∈ rest.head?, c = ' ' ∨ c = '\n' ∨ c = '('

section Loose

variable {rest : List Char}

theorem IsLoose.any (h : IsLoose rest) {p : Char → Bool} (blank : p ' ' = false)
    (newline : p '\n' = false) (paren : p '(' = false) : rest.head?.any p = false := by
  cases rest with
  | nil => rfl
  | cons c rest => rcases h c rfl with rfl | rfl | rfl <;> assumption

theorem IsLoose.not_continuesNumber (h : IsLoose rest) : continuesNumber rest = false := by
  cases rest with
  | nil => rfl
  | cons c rest => rcases h c rfl with rfl | rfl | rfl <;> rfl

theorem IsLoose.not_pair (h : IsLoose rest) {c : Char} {kind : TokenKind}
    (known : signKind c = some kind) (noReturn : c ≠ '\r') :
    rest.head?.bind (pairKind c) = none := by
  cases rest with
  | nil => rfl
  | cons d rest =>
      have other : ¬(d = '=' ∨ d = '|' ∨ d = '&') := by
        rcases h d rfl with rfl | rfl | rfl <;> decide
      simp only [not_or] at other
      simp only [List.head?_cons, Option.bind_some, pairKind, noReturn, false_and, if_false,
        other.1, and_false, false_or]
      refine if_neg fun same => ?_
      simp only [List.mem_cons, List.not_mem_nil, or_false] at same
      rcases same with ⟨rfl | rfl, rfl⟩
      · exact other.2.1 rfl
      · exact other.2.2 rfl

end Loose

namespace Word

/-- Wherever it may stand, the word is read as one token. -/
def Stands (w : Word) : Prop :=
  ∀ rest, IsLoose rest →
    ofChars (w.text.toList ++ rest) = .token w.kind w.text.toList rest

theorem stands_sign {kind : TokenKind} {text : String} {c : Char} {glued : Bool}
    (single : text.toList = [c]) (known : signKind c = some kind) (inline : kind ≠ .newline) :
    Stands ⟨kind, text, glued⟩ := by
  intro rest loose
  have noReturn : c ≠ '\r' := fun same => inline (by rw [same] at known; cases known; rfl)
  simp only [single]
  exact ofChars_sign known (loose.not_pair known noReturn)

theorem stands_word {kind : TokenKind} {text : String}
    (start : text.toList.head?.any isWordStart = true) (part : text.toList.all isWordPart = true)
    (isKind : wordKind text = kind) (notNot : text ≠ "not") : Stands (plain kind text) := by
  intro rest loose
  have stop : rest.head?.any isWordPart = false := loose.any rfl rfl rfl
  have letters : text.toList ≠ ['n', 'o', 't'] := fun same => notNot (String.toList_injective same)
  have read : ∀ cs, text.toList = cs → ofChars (cs ++ rest) = .token kind cs rest := by
    intro cs same
    cases cs with
    | nil => rw [same] at start; cases start
    | cons c cs =>
        rw [same] at start part letters
        rw [← isKind, ← String.ofList_toList (s := text), same]
        exact ofChars_word start (List.all_eq_true.1 part) letters stop
  exact read _ rfl

theorem stands_name {text : String} (h : isName text = true) :
    Stands (plain .identifier text) := by
  simp only [isName, Bool.and_eq_true, decide_eq_true_eq, reserved, List.mem_cons,
    List.not_mem_nil, or_false, not_or] at h
  obtain ⟨⟨start, part⟩, others⟩ := h
  refine stands_word start part ?_ others.2.2.2.2.2.2.2.2.2.2
  unfold wordKind
  split <;> first | rfl | (exfalso; simp_all)

theorem stands_numeral {text : String} (h : isNumeral text = true) :
    Stands (plain .number text) := by
  intro rest loose
  simp only [isNumeral, Bool.and_eq_true, decide_eq_true_eq] at h
  obtain ⟨nonempty, fraction⟩ := h
  have digits : ∀ c ∈ text.toList.takeWhile Char.isDigit, c.isDigit = true :=
    fun _ => List.mem_takeWhile_imp
  have split := (List.takeWhile_append_dropWhile (p := Char.isDigit) (l := text.toList)).symm
  generalize text.toList.takeWhile Char.isDigit = whole at *
  obtain ⟨d, whole, rfl⟩ := List.exists_cons_of_ne_nil nonempty
  have digit := digits d (List.mem_cons_self ..)
  have stop := loose.not_continuesNumber
  show ofChars (text.toList ++ rest) = .token .number text.toList rest
  rw [split]
  split at fraction
  · rename_i none
    rw [none, List.append_nil]
    exact (ofChars_of_isDigit digit _).trans (number_of_digits digits stop)
  · rename_i fraction' behind
    simp only [Bool.and_eq_true, decide_eq_true_eq] at fraction
    obtain ⟨e, fraction', rfl⟩ := List.exists_cons_of_ne_nil fraction.1
    rw [behind]
    exact (ofChars_of_isDigit digit _).trans
      (number_of_fraction digits (List.all_eq_true.1 fraction.2)
        (not_isDigit_of_not_continuesNumber stop))
  · cases fraction

theorem quotedTail_of_isClosedBy {quote : Char} (rest : List Char)
    (isQuote : quote = '"' ∨ quote = '\'') {cs : List Char} (h : isClosedBy quote cs = true) :
    quotedTail quote (cs ++ rest) = .token .string cs rest := by
  have notNewline : quote ≠ '\n' := by rcases isQuote with rfl | rfl <;> decide
  have notEscape : quote ≠ '\\' := by rcases isQuote with rfl | rfl <;> decide
  fun_induction isClosedBy quote cs with
  | case1 => cases h
  | case2 c cs ih =>
      show (quotedTail quote (cs ++ rest)).extend ['\\', c] = _
      rw [ih h]
      rfl
  | case3 cs noPair =>
      rw [List.isEmpty_iff] at h
      subst h
      rw [List.singleton_append, quotedTail_cons notNewline notEscape, if_pos rfl]
  | case4 c cs noPair other ih =>
      simp only [Bool.and_eq_true, decide_eq_true_eq] at h
      rw [List.cons_append, quotedTail_cons h.1.1 h.1.2, if_neg other, ih h.2]
      rfl

theorem stands_quoted {text : String} (h : isQuoted text = true) :
    Stands (plain .string text) := by
  intro rest _
  unfold isQuoted at h
  show ofChars (text.toList ++ rest) = .token .string text.toList rest
  split at h
  · cases h
  · rename_i quote cs same
    simp only [Bool.and_eq_true, Bool.or_eq_true, decide_eq_true_eq] at h
    have plain : ∀ ds, ofChars (quote :: ds) = (quotedTail quote ds).extend [quote] := by
      intro ds
      rcases h.1 with rfl | rfl <;> rfl
    rw [same, List.cons_append, plain, quotedTail_of_isClosedBy rest h.1 h.2]
    rfl

theorem stands_atom {a : Atom} {text : String} (h : a.isSpelt text = true) :
    Stands (plain a.tokenKind text) := by
  cases a with
  | identifier => exact stands_name h
  | number => exact stands_numeral h
  | string => exact stands_quoted h
  | this | null =>
      obtain rfl := of_decide_eq_true h
      exact stands_word (by decide) (by decide) rfl (by decide)
  | bool =>
      simp only [Atom.isSpelt, Bool.or_eq_true, decide_eq_true_eq] at h
      rcases h with rfl | rfl
      · exact stands_word (by decide) (by decide) rfl (by decide)
      · exact stands_word (by decide) (by decide) rfl (by decide)

theorem stands_operator {text : String} {op : BinaryOperator}
    (spelt : BinaryOperator.ofText? text = some op) : Stands (plain op.tokenKind text) := by
  unfold BinaryOperator.ofText? at spelt
  split at spelt <;> cases spelt
  all_goals first
    | exact stands_sign rfl rfl (by decide)
    | exact stands_word (by decide) (by decide) rfl (by decide)
    | exact fun rest _ => ofChars_pair (by decide) rest

theorem stands_relation (negated : Bool) :
    Stands (plain .relation (if negated then "not in" else "in")) := by
  cases negated with
  | false => exact stands_word (by decide) (by decide) rfl (by decide)
  | true =>
      intro rest loose
      exact ofChars_notIn (by decide : [' '] ≠ []) (List.all_eq_true.1 rfl) (loose.any rfl rfl rfl)

/-! ## Words in a row -/

@[simp] theorem chars_nil : chars [] = [] := rfl

@[simp] theorem chars_cons (w : Word) (ws : List Word) :
    chars (w :: ws) = w.gap ++ (w.text.toList ++ chars ws) := by
  simp [chars]

@[simp] theorem chars_append (ws vs : List Word) : chars (ws ++ vs) = chars ws ++ chars vs := by
  simp [chars]

/-- In front of `rest` the words are read one after the other. -/
def Clear : List Word → List Char → Prop
  | [], _ => True
  | w :: ws, rest =>
    ofChars (w.text.toList ++ (chars ws ++ rest)) =
      .token w.kind w.text.toList (chars ws ++ rest) ∧ Clear ws rest

theorem clear_append {ws vs : List Word} {rest : List Char} :
    Clear (ws ++ vs) rest ↔ Clear ws (chars vs ++ rest) ∧ Clear vs rest := by
  induction ws with
  | nil => exact (and_iff_right trivial).symm
  | cons w ws ih =>
      simp only [List.cons_append, Clear, ih, chars_append, List.append_assoc, and_assoc]

/-- The first word of a line is read without the blank in front of it as well. -/
theorem clear_flush {ws : List Word} {rest : List Char} :
    Clear (flush ws) rest ↔ Clear ws rest := by
  cases ws <;> rfl

/-- Words of one line that may stand behind others and in front of others. -/
structure Readable (ws : List Word) : Prop where
  inline : ∀ w ∈ ws, w.kind ≠ .newline
  loose : ∀ rest, IsLoose rest → IsLoose (chars ws ++ rest)
  clear : ∀ rest, IsLoose rest → Clear ws rest

variable {w : Word} {ws vs : List Word}

theorem Readable.nil : Readable [] :=
  ⟨by simp, fun _ loose => loose, fun _ _ => trivial⟩

theorem isLoose_chars (glued : w.glued = true → w.text = "(") (rest : List Char) :
    IsLoose (chars (w :: ws) ++ rest) := by
  rw [chars_cons, gap]
  split
  · rename_i isGlued
    rw [glued isGlued]
    exact fun c hc => .inr (.inr (Option.some.inj hc).symm)
  · exact fun c hc => .inl (Option.some.inj hc).symm

theorem Readable.cons (stands : w.Stands) (inline : w.kind ≠ .newline)
    (glued : w.glued = true → w.text = "(") (later : Readable ws) : Readable (w :: ws) where
  inline := List.forall_mem_cons.2 ⟨inline, later.inline⟩
  loose rest _ := isLoose_chars glued rest
  clear rest loose := ⟨stands _ (later.loose rest loose), later.clear rest loose⟩

theorem Readable.append (h : Readable ws) (h' : Readable vs) : Readable (ws ++ vs) where
  inline := List.forall_mem_append.2 ⟨h.inline, h'.inline⟩
  loose rest loose := by
    rw [chars_append, List.append_assoc]
    exact h.loose _ (h'.loose rest loose)
  clear rest loose := clear_append.2 ⟨h.clear _ (h'.loose rest loose), h'.clear rest loose⟩

theorem Readable.plain {kind : TokenKind} {text : String} (stands : Stands (.plain kind text))
    (inline : kind ≠ .newline) (later : Readable ws) : Readable (.plain kind text :: ws) :=
  later.cons stands inline fun glued => Bool.noConfusion glued

theorem Readable.sign {kind : TokenKind} {text : String} {c : Char} (later : Readable ws)
    (single : text.toList = [c]) (known : signKind c = some kind) (inline : kind ≠ .newline) :
    Readable (.plain kind text :: ws) :=
  later.plain (stands_sign single known inline) inline

/-- The words begin as an operand does. -/
def BeginsOperand (ws : List Word) : Prop :=
  ∃ w vs, ws = w :: vs ∧ w.glued = false ∧ w.kind.beginsOperand = true

theorem Readable.not {s : Spelling} (operand : Readable ws) (begins : BeginsOperand ws) :
    Readable (.plain .not s.negation :: ws) := by
  rcases s.negates with same | same
  · refine ⟨List.forall_mem_cons.2 ⟨nofun, operand.inline⟩,
      fun rest _ => isLoose_chars (fun glued => Bool.noConfusion glued) rest,
      fun rest loose => ?_⟩
    obtain ⟨w, vs, rfl, blank, begins⟩ := begins
    have read := (operand.clear rest loose).1
    have notIn := takeWhile_ne_of_ofChars read fun isIn => by
      have shape := shape_of_ofChars read
      rw [isIn] at shape
      rw [shape.kind_eq_wordKind rfl rfl] at begins
      cases begins
    refine ⟨?_, operand.clear rest loose⟩
    simp only [Word.plain, same, chars_cons, gap, blank, Bool.false_eq_true, if_false,
      List.append_assoc]
    exact ofChars_not_layout (.blank rfl .nil) nofun (not_isBlank_of_ofChars read) notIn
  · rw [same]
    exact operand.sign rfl rfl (by decide)

theorem BeginsOperand.append (h : BeginsOperand ws) (vs : List Word) :
    BeginsOperand (ws ++ vs) := by
  obtain ⟨w, ws, rfl, blank, begins⟩ := h
  exact ⟨w, ws ++ vs, rfl, blank, begins⟩

/-! ## Their tokens -/

/-- The tokens are those of the words, the first of which may touch what stops at `stop`. -/
inductive Placed (source : String) : (stop : Nat) → List Word → List Token → Prop where
  | nil {stop : Nat} : Placed source stop [] []
  | cons {stop : Nat} {w : Word} {ws : List Word} {t : Token} {ts : List Token}
      (kind : t.kind = w.kind) (text : t.text source = w.text)
      (touches : w.glued = true → t.span.start = stop) (later : Placed source t.span.stop ws ts) :
      Placed source stop (w :: ws) (t :: ts)

theorem leads_gap {kind : TokenKind} {cs chars rest : List Char}
    (read : ofChars cs = .token kind chars rest) (w : Word) : Leads w.gap cs := by
  have plain : Leads [] cs := by
    have front := leads_nil_of_shape (shape_of_ofChars read) (ne_nil_of_ofChars read) rest
    rwa [ofChars_append read] at front
  rw [gap]
  split
  · exact plain
  · show trivia (' ' :: cs) = ([' '], cs)
    rw [trivia, show trivia cs = ([], cs) from plain]

/-- What the words make is read as their tokens. -/
theorem exists_scanned {source : String} {before : List Char} {position : Nat} {ws : List Word}
    (clear : Clear ws []) (split : source.toList = before ++ chars ws)
    (length : Text.byteLength before = position) :
    ∃ ts, Token.Scanned position (chars ws) ts ∧ Placed source position ws ts := by
  induction ws generalizing before position with
  | nil => exact ⟨[], .nothing rfl, .nil⟩
  | cons w ws ih =>
      obtain ⟨read, clear⟩ := clear
      rw [List.append_nil] at read
      have skipped : trivia (chars (w :: ws)) = (w.gap, w.text.toList ++ chars ws) := by
        rw [chars_cons]
        exact leads_gap read w
      have front : ofChars (trivia (chars (w :: ws))).2 =
          .token w.kind w.text.toList (chars ws) := by
        rw [skipped]
        exact read
      have here := Token.stands_of_front split length front rfl rfl
      obtain ⟨ts, scanned, placed⟩ := ih clear here.split
        ((Text.byteLength_append ..).trans here.stop)
      refine ⟨_, .token front rfl rfl scanned, .cons rfl ?_ (fun glued => ?_) placed⟩
      · exact String.toList_injective here.toList_text
      · show position + Text.byteLength (trivia (chars (w :: ws))).1 = position
        rw [skipped, gap, if_pos glued]
        rfl

/-- Where the last token stops. -/
def stopOf (stop : Nat) : List Token → Nat
  | [] => stop
  | t :: ts => stopOf t.span.stop ts

theorem stopOf_of_getLast? (stop : Nat) {ts : List Token} {t : Token} (h : ts.getLast? = some t) :
    stopOf stop ts = t.span.stop := by
  induction ts generalizing stop with
  | nil => cases h
  | cons u ts ih =>
      cases ts with
      | nil => cases h; rfl
      | cons v ts => exact ih u.span.stop h

theorem Placed.split {source : String} {stop : Nat} {ws vs : List Word} {ts : List Token}
    (h : Placed source stop (ws ++ vs) ts) :
    ∃ front back, ts = front ++ back ∧ Placed source stop ws front ∧
      Placed source (stopOf stop front) vs back := by
  induction ws generalizing stop ts with
  | nil => exact ⟨[], ts, rfl, .nil, h⟩
  | cons w ws ih =>
      cases h with
      | @cons _ _ _ t ts kind text touches later =>
          obtain ⟨front, back, rfl, placed, placed'⟩ := ih later
          exact ⟨t :: front, back, rfl, .cons kind text touches placed, placed'⟩

end Word

namespace Phrase

open Word

variable (s : Spelling)

theorem begins_wrap (least : Nat) (p : Phrase) {ws : List Word} (h : BeginsOperand ws) :
    BeginsOperand (wrap least p ws) := by
  unfold wrap
  split
  · exact ⟨_, _, rfl, rfl, rfl⟩
  · exact h

theorem begins_words (p : Phrase) : BeginsOperand (p.words s) := by
  match p with
  | .atom a _ => exact ⟨_, _, rfl, rfl, by cases a <;> rfl⟩
  | .array _ | .not _ => exact ⟨_, _, rfl, rfl, rfl⟩
  | .call l _ | .member l _ | .index l _ | .binary l _ _ | .membership l _ _ =>
    exact (begins_wrap _ l (begins_words l)).append _
  | .assign t _ => exact (begins_words t).append _

theorem readable_wrap (least : Nat) (p : Phrase) {ws : List Word} (h : Readable ws) :
    Readable (wrap least p ws) := by
  unfold wrap
  split
  · exact .sign (.append h (.sign .nil rfl rfl (by decide))) rfl rfl (by decide)
  · exact h

theorem intercalate_cons {α : Type} (sep xs : List α) (xss : List (List α)) :
    List.intercalate sep (xs :: xss) =
      xs ++ if xss.isEmpty then [] else sep ++ List.intercalate sep xss := by
  cases xss <;> simp [List.intercalate]

theorem separate_cons (ws : List Word) (items : List (List Word)) :
    separate (ws :: items) =
      ws ++ if items.isEmpty then [] else .plain .comma "," :: separate items :=
  intercalate_cons ..

theorem readable_separate {items : List (List Word)} (h : ∀ ws ∈ items, Readable ws) :
    Readable (separate items) := by
  induction items with
  | nil => exact .nil
  | cons ws items ih =>
      rw [separate_cons]
      refine (h ws (List.mem_cons_self ..)).append ?_
      split
      · exact .nil
      · exact .sign (ih fun vs hvs => h vs (List.mem_cons_of_mem _ hvs)) rfl rfl (by decide)

mutual

/-- A tree is written so that every token is read back. -/
theorem readable_words {p : Phrase} (proper : p.isProper = true) : Readable (p.words s) := by
  match p with
  | .atom a text => exact .plain (stands_atom proper) (by cases a <;> decide) .nil
  | .array ps =>
    exact .sign (.append (readable_separate (readable_wordsAll proper))
      (.sign .nil rfl rfl (by decide))) rfl rfl (by decide)
  | .call f ps =>
    rw [isProper, Bool.and_eq_true] at proper
    exact .append (readable_wrap 8 f (readable_words proper.1))
      (.cons (stands_sign rfl rfl (by decide)) (by decide) (fun _ => rfl)
        (.append (readable_separate (readable_wordsAll proper.2)) (.sign .nil rfl rfl (by decide))))
  | .member o name =>
    rw [isProper, Bool.and_eq_true] at proper
    exact .append (readable_wrap 8 o (readable_words proper.1))
      (.sign (.plain (stands_name proper.2) (by decide) .nil) rfl rfl (by decide))
  | .index o k =>
    rw [isProper, Bool.and_eq_true] at proper
    exact .append (readable_wrap 8 o (readable_words proper.1))
      (.sign (.append (readable_words proper.2) (.sign .nil rfl rfl (by decide))) rfl rfl
        (by decide))
  | .not q =>
    exact (readable_wrap 7 q (readable_words (p := q) proper)).not
      (begins_wrap 7 q (begins_words s q))
  | .binary l op r =>
    rw [isProper, Bool.and_eq_true] at proper
    exact .append (readable_wrap _ l (readable_words proper.1))
      (.plain (stands_operator (s.spells op)) (by cases op <;> decide)
        (readable_wrap _ r (readable_words proper.2)))
  | .membership l r negated =>
    rw [isProper, Bool.and_eq_true] at proper
    exact .append (readable_wrap _ l (readable_words proper.1))
      (.plain (stands_relation negated) (by decide) (readable_wrap _ r (readable_words proper.2)))
  | .assign t v =>
    rw [isProper, Bool.and_eq_true, Bool.and_eq_true] at proper
    exact .append (readable_words proper.1.2)
      (.sign (readable_words proper.2) rfl rfl (by decide))

theorem readable_wordsAll {ps : List Phrase} (proper : isProperAll ps = true) :
    ∀ ws ∈ wordsAll s ps, Readable ws := by
  match ps with
  | [] => exact fun ws hws => nomatch hws
  | p :: ps =>
    rw [isProperAll, Bool.and_eq_true] at proper
    intro ws hws
    cases List.mem_cons.1 hws with
    | inl same => exact same ▸ readable_words proper.1
    | inr later => exact readable_wordsAll proper.2 ws later

end

end Phrase

end MembershipLowering
