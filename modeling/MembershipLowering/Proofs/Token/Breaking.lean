import MembershipLowering.Proofs.Token.Cutting
import MembershipLowering.Proofs.Token.Resuming

/-! # Where reading breaks off

Reading breaks off in front of a literal that does not end, or in front of a character that
begins no token (`Lexeme.Breaks`). The text up to there can be read, and its tokens are those that
were read before the error (`Token.breaksOff_of_readAll`): neither a blank nor a token in front of
the place is joined to what stands there.
-/

namespace MembershipLowering

namespace Lexeme

/-- From behind its opening quote on, a literal meets the end of its line or of the text before
    a closing quote. A backslash takes the next character along. -/
inductive Unclosed (quote : Char) : List Char → Prop where
  | ended : Unclosed quote []
  | newline {rest : List Char} : Unclosed quote ('\n' :: rest)
  | backslash : Unclosed quote ['\\']
  | escaped {c : Char} {rest : List Char} (later : Unclosed quote rest) :
      Unclosed quote ('\\' :: c :: rest)
  | plain {c : Char} {rest : List Char} (noQuote : c ≠ quote) (noBackslash : c ≠ '\\')
      (later : Unclosed quote rest) : Unclosed quote (c :: rest)

/-- What stands where reading breaks off: a literal that does not end, or a character that is
    neither skipped nor the beginning of a token. -/
inductive Breaks : LexError.Cause → List Char → Prop where
  | unterminated {quote : Char} {rest : List Char} (isQuote : quote = '"' ∨ quote = '\'')
      (unclosed : Unclosed quote rest) : Breaks .unterminatedString (quote :: rest)
  | unexpected {c : Char} {rest : List Char} (notSkipped : Leads [] (c :: rest))
      (noWord : isWordStart c = false) (noDigit : c.isDigit = false)
      (noQuote : c ≠ '"' ∧ c ≠ '\'') (noSign : signKind c = none)
      (noPair : rest.head?.bind (pairKind c) = none) :
      Breaks (.unexpectedCharacter c) (c :: rest)

theorem unclosed_of_quotedTail {quote : Char} {cs rest : List Char} {cause : LexError.Cause}
    {bytes : Nat} (h : quotedTail quote cs = .broken cause bytes rest) : Unclosed quote cs := by
  fun_induction quotedTail quote cs generalizing bytes with
  | case1 => exact .ended
  | case2 => exact .newline
  | case3 => exact .backslash
  | case4 c tail ih =>
      obtain ⟨fewer, broken, -⟩ := extend_eq_broken_iff.1 h
      exact .escaped (ih broken)
  | case5 => cases h
  | case6 c tail _ notLast notPair noQuote ih =>
      obtain ⟨fewer, broken, -⟩ := extend_eq_broken_iff.1 h
      refine .plain noQuote (fun isBackslash => ?_) (ih broken)
      cases tail with
      | nil => exact notLast isBackslash rfl
      | cons d tail => exact notPair d tail isBackslash rfl

theorem breaks_of_ofChars {cs rest : List Char} {cause : LexError.Cause} {bytes : Nat}
    (plain : Leads [] cs) (h : ofChars cs = .broken cause bytes rest) : Breaks cause cs := by
  cases cs with
  | nil => cases h
  | cons c cs =>
      simp only [ofChars] at h
      split at h
      · simp only [word] at h
        split at h <;> cases h
      · rename_i noWord
        split at h
        · simp only [number] at h
          split at h
          · split at h <;> cases h
          · cases h
        · rename_i noDigit
          rw [Bool.not_eq_true] at noWord noDigit
          split at h
          · rename_i isQuote
            obtain ⟨fewer, broken, -⟩ := extend_eq_broken_iff.1 h
            obtain ⟨rfl, -⟩ := quotedTail_broken broken
            exact .unterminated isQuote (unclosed_of_quotedTail broken)
          · rename_i noQuote
            unfold sign at h
            split at h
            · cases h
            · rename_i noPair
              split at h
              · cases h
              · rename_i noSign
                cases h
                exact .unexpected plain noWord noDigit (not_or.1 noQuote) noSign noPair

/-- Reading does not break off within a word. -/
theorem Breaks.not_isWordPart_head {cause : LexError.Cause} {cs : List Char}
    (h : Breaks cause cs) : cs.head?.any isWordPart = false := by
  cases h with
  | unterminated isQuote => rcases isQuote with rfl | rfl <;> rfl
  | @unexpected c _ _ noWord noDigit =>
      show isWordPart c = false
      rw [isWordPart_eq, noWord, noDigit]
      rfl

end Lexeme

namespace Token

open Lexeme

/-- The tokens of a text that begins at byte `position`, up to the error where reading breaks
    off. -/
inductive BreaksOff : (position : Nat) → List Char → List Token → LexError → Prop where
  | broken {position start bytes : Nat} {cs rest : List Char} {cause : LexError.Cause}
      (front : ofChars (trivia cs).2 = .broken cause bytes rest)
      (starts : start = position + Text.byteLength (trivia cs).1) :
      BreaksOff position cs [] ⟨cause, start⟩
  | token {position start stop : Nat} {cs chars rest : List Char} {kind : TokenKind}
      {ts : List Token} {e : LexError} (front : ofChars (trivia cs).2 = .token kind chars rest)
      (starts : start = position + Text.byteLength (trivia cs).1)
      (stops : stop = start + Text.byteLength chars) (later : BreaksOff stop rest ts e) :
      BreaksOff position cs (⟨kind, start, stop⟩ :: ts) e

theorem breaksOff_of_tokens {s : Lexer} {e : LexError} (h : s.tokens = .error e) :
    ∃ ts, BreaksOff s.position s.rest ts e := by
  fun_induction Lexer.tokens s with
  | case1 s e' after step =>
      cases h
      simp only [Lexer.next] at step
      split at step
      · cases step
      · cases step
      · rename_i front
        cases step
        exact ⟨[], .broken front rfl⟩
  | case2 => cases h
  | case3 s t after step ih =>
      cases read : after.tokens with
      | ok us => rw [read] at h; cases h
      | error e' =>
          rw [read] at h
          cases h
          obtain ⟨ts, later⟩ := ih read
          simp only [Lexer.next] at step
          split at step
          · cases step
          · rename_i front
            cases step
            exact ⟨_, .token front rfl rfl later⟩
          · cases step

/-- The text in front of the place can be read, as the tokens that were read. -/
theorem BreaksOff.cut {position : Nat} {cs : List Char} {ts : List Token} {e : LexError}
    (h : BreaksOff position cs ts e) :
    ∃ front back, cs = front ++ back ∧ e.position = position + Text.byteLength front ∧
      Breaks e.cause back ∧ Scanned position front ts := by
  induction h with
  | @broken position start bytes cs rest cause front starts =>
      obtain ⟨gap, text, leads, rfl⟩ : ∃ gap text, Leads gap text ∧ gap ++ text = cs :=
        ⟨_, _, leads_trivia cs, trivia_append cs⟩
      have plain : Leads [] text := by
        have same := trivia_trivia (gap ++ text)
        rwa [leads] at same
      simp only [leads.trivia_eq] at front starts
      have alone : Leads gap [] := leads.replace rfl fun _ => rfl
      refine ⟨gap, text, rfl, starts, breaks_of_ofChars plain front, .nothing ?_⟩
      rw [← List.append_nil gap, alone.trivia_eq]
      rfl
  | @token position start stop cs chars rest kind ts e read starts stops later ih =>
      obtain ⟨front, back, rfl, place, breaks, scanned⟩ := ih
      obtain ⟨gap, text, leads, rfl⟩ : ∃ gap text, Leads gap text ∧ gap ++ text = cs :=
        ⟨_, _, leads_trivia cs, trivia_append cs⟩
      simp only [leads.trivia_eq] at read starts
      obtain rfl := ofChars_append read
      have nonempty := ne_nil_of_ofChars read
      have whole : EndsWhole front back := fun _ _ _ => breaks.not_isWordPart_head
      have leads' : Leads gap (chars ++ front) := by
        refine leads.replace (leads_nil_of_shape (shape_of_ofChars read) nonempty _) ?_
        obtain ⟨c, chars, rfl⟩ := List.exists_cons_of_ne_nil nonempty
        exact id
      refine ⟨gap ++ (chars ++ front), back, by simp, ?_, breaks,
        .of_leads leads' (ofChars_cut read whole) starts stops scanned⟩
      simp only [Text.byteLength_append]
      omega

/-- The answers of a lexer up to the error. -/
theorem BreaksOff.answers {position : Nat} {cs : List Char} {ts : List Token} {e : LexError}
    (h : BreaksOff position cs ts e) :
    (List.range (ts.length + 1)).map (Lexer.answer ⟨position, cs⟩) =
      ts.map (fun t => .ok (some t)) ++ [.error e] := by
  induction h with
  | @broken position start bytes cs rest cause front starts =>
      simp [List.range_one, Lexer.answer, Lexer.after, Lexer.next, front, starts]
  | @token position start stop cs chars rest kind ts e read starts stops later ih =>
      have step : (⟨position, cs⟩ : Lexer).next =
          (.ok (some ⟨kind, start, stop⟩), ⟨stop, rest⟩) := by
        simp only [Lexer.next, read, starts, stops]
      have behind : ∀ calls, Lexer.answer ⟨position, cs⟩ (calls + 1) =
          Lexer.answer ⟨stop, rest⟩ calls := by
        intro calls
        rw [Lexer.answer, Nat.add_comm, Lexer.after_add, Lexer.answer, Lexer.after, Lexer.after,
          step]
      have first : Lexer.answer ⟨position, cs⟩ 0 = .ok (some ⟨kind, start, stop⟩) :=
        congrArg Prod.fst step
      rw [List.length_cons, List.range_succ_eq_map, List.map_cons, List.map_map, first,
        List.map_cons, List.cons_append, ← ih]
      exact congrArg _ (List.map_congr_left fun calls _ => behind calls)

/-- The place of the error in the source: what stands there, and what was read before. -/
structure BrokenOff (source : String) (e : LexError) (front back : List Char)
    (read : List Token) : Prop where
  split : source.toList = front ++ back
  position : Text.byteLength front = e.position
  breaks : Breaks e.cause back
  /-- The calls up to the error answered with the tokens, and the next one with the error. -/
  answers : (List.range (read.length + 1)).map (Lexer.ofSource source).answer =
    read.map (fun t => .ok (some t)) ++ [.error e]
  /-- By itself, the text in front is read as these tokens. -/
  readFront : readAll (String.ofList front) = .ok read

theorem breaksOff_of_readAll {source : String} {e : LexError} (h : readAll source = .error e) :
    ∃ front back read, BrokenOff source e front back read := by
  obtain ⟨read, breaksOff⟩ := breaksOff_of_tokens h
  obtain ⟨front, back, split, place, breaks, scanned⟩ := breaksOff.cut
  refine ⟨front, back, read, split, ?_, breaks, breaksOff.answers, ?_⟩
  · rw [place]
    exact (Nat.zero_add _).symm
  · rw [readAll_eq_ok_iff, String.toList_ofList]
    exact scanned

end Token

end MembershipLowering
