import MembershipLowering.Proofs.Text.Embedding
import MembershipLowering.Proofs.Token.Continuation

/-! # Reading texts one behind the other

A newline goes on with no token but a lone carriage return. So the tokens of two texts with a
newline between them are those of the first text, the newline and those of the second text,
unless the first text ends with a carriage return: then that and the newline are one token
(`Scanned.join`). Comments and line continuations at the end of the first text make no
difference.
-/

namespace MembershipLowering

namespace Lexeme

variable {kind : TokenKind} {cs chars rest : List Char}

/-- What is taken off the front up to a newline does not go on behind it. -/
theorem takeWhile_append_newline {p : Char → Bool} (stop : p '\n' = false) (cs tail : List Char) :
    (cs ++ '\n' :: tail).takeWhile p = cs.takeWhile p ∧
      (cs ++ '\n' :: tail).dropWhile p = cs.dropWhile p ++ '\n' :: tail := by
  induction cs with
  | nil =>
      rw [List.nil_append, List.takeWhile_cons_of_neg (by simp [stop]),
        List.dropWhile_cons_of_neg (by simp [stop])]
      exact ⟨rfl, rfl⟩
  | cons c cs ih =>
      by_cases taken : p c = true
      · rw [List.cons_append, List.takeWhile_cons_of_pos taken, List.takeWhile_cons_of_pos taken,
          List.dropWhile_cons_of_pos taken, List.dropWhile_cons_of_pos taken, ih.1, ih.2]
        exact ⟨rfl, rfl⟩
      · rw [List.cons_append, List.takeWhile_cons_of_neg taken, List.takeWhile_cons_of_neg taken,
          List.dropWhile_cons_of_neg taken, List.dropWhile_cons_of_neg taken]
        exact ⟨rfl, rfl⟩

theorem word_append_newline (h : word cs = .token kind chars rest) (tail : List Char) :
    word (cs ++ '\n' :: tail) = .token kind chars (rest ++ '\n' :: tail) := by
  have part := takeWhile_append_newline (p := isWordPart) rfl
  have blank := takeWhile_append_newline (p := isBlank) rfl
  simp only [word, part, blank] at h ⊢
  split at h
  · rename_i notIn
    rw [if_pos notIn]
    cases h
    rfl
  · rename_i alone
    rw [if_neg alone]
    cases h
    rfl

theorem number_append_newline (h : number cs = .token kind chars rest) (tail : List Char) :
    number (cs ++ '\n' :: tail) = .token kind chars (rest ++ '\n' :: tail) := by
  have digit := takeWhile_append_newline (p := Char.isDigit) rfl
  simp only [number, digit] at h ⊢
  split at h
  · rename_i d later behind
    rw [behind]
    simp only [List.cons_append]
    split at h
    · rename_i fraction
      rw [if_pos fraction, ← List.cons_append, (digit _ _).1, (digit _ _).2]
      cases h
      rfl
    · rename_i none
      rw [if_neg none]
      cases h
      rfl
  · rename_i noFraction
    cases h
    split
    · rename_i d later behind
      rcases shape : cs.dropWhile Char.isDigit with _ | ⟨c, _ | ⟨d', later'⟩⟩
      · rw [shape] at behind
        cases behind
      · rw [shape] at behind
        cases behind
        rfl
      · rw [shape] at behind
        cases behind
        exact absurd shape (noFraction _ _)
    · rfl

theorem sign_append_newline {c : Char} (h : sign c cs = .token kind chars rest)
    (apart : c = '\r' → cs ≠ []) (tail : List Char) :
    sign c (cs ++ '\n' :: tail) = .token kind chars (rest ++ '\n' :: tail) := by
  cases cs with
  | nil =>
      have single : pairKind c '\n' = none := by
        rw [pairKind, if_neg (fun pair => apart pair.1 rfl), if_neg]
        rintro (⟨-, same⟩ | ⟨known, rfl⟩)
        · cases same
        · simp at known
      unfold sign at h ⊢
      simp only [List.nil_append, List.head?_cons, Option.bind_some, single]
      simp only [List.head?_nil, Option.bind_none] at h
      split at h
      · cases h
        rfl
      · cases h
  | cons d cs =>
      unfold sign at h ⊢
      simp only [List.cons_append, List.head?_cons, Option.bind_some] at h ⊢
      cases pair : pairKind c d with
      | some known =>
          simp only [pair] at h ⊢
          cases h
          rfl
      | none =>
          simp only [pair] at h ⊢
          split at h
          · cases h
            rfl
          · cases h

/-- A newline behind the text goes on with no token but a carriage return at its end. -/
theorem ofChars_append_newline (h : ofChars cs = .token kind chars rest) (apart : cs ≠ ['\r'])
    (tail : List Char) :
    ofChars (cs ++ '\n' :: tail) = .token kind chars (rest ++ '\n' :: tail) := by
  cases cs with
  | nil => cases h
  | cons c cs =>
      simp only [List.cons_append, ofChars] at h ⊢
      split at h
      · rename_i start
        rw [if_pos start]
        exact word_append_newline h tail
      · rename_i noWord
        rw [if_neg noWord]
        split at h
        · rename_i digit
          rw [if_pos digit]
          exact number_append_newline h tail
        · rename_i noDigit
          rw [if_neg noDigit]
          split at h
          · rename_i quote
            obtain ⟨later, read, rfl⟩ := extend_eq_token_iff.1 h
            have split := quotedTail_append read
            rw [if_pos quote, ← split, List.append_assoc, quotedTail_of_append read]
            rfl
          · rename_i noQuote
            rw [if_neg noQuote]
            exact sign_append_newline h (fun same empty => apart (by rw [same, empty])) tail

theorem ofChars_newline (tail : List Char) :
    ofChars ('\n' :: tail) = .token .newline ['\n'] tail := by
  refine ofChars_sign rfl ?_
  cases tail with
  | nil => rfl
  | cons c tail => simp [pairKind]

theorem Leads.trivia_eq {gap : List Char} (h : Leads gap cs) : trivia (gap ++ cs) = (gap, cs) :=
  h

/-- A comment at the end of a text ends in front of a newline. -/
theorem Leads.append_newline {gap tail : List Char} (h : Leads gap cs)
    (plain : Leads [] (cs ++ '\n' :: tail)) : Leads gap (cs ++ '\n' :: tail) := by
  refine h.replace plain fun ends => ?_
  cases cs with
  | nil => rfl
  | cons c cs => exact ends

end Lexeme

namespace Token

open Lexeme

/-- The token `n` bytes further behind. -/
def shift (n : Nat) (t : Token) : Token :=
  ⟨t.kind, t.span.shift n⟩

theorem Scanned.shift {position : Nat} {cs : List Char} {ts : List Token}
    (h : Scanned position cs ts) (n : Nat) : Scanned (position + n) cs (ts.map (·.shift n)) := by
  induction h with
  | nothing front => exact .nothing front
  | @token position start stop cs chars rest kind ts front starts stops _ ih =>
      exact .token front (show start + n = _ by omega) (show stop + n = start + n + _ by omega) ih

theorem Scanned.of_leads {position : Nat} {gap cs chars rest : List Char} {kind : TokenKind}
    {ts : List Token} (leads : Leads gap cs) (front : ofChars cs = .token kind chars rest)
    {start stop : Nat} (starts : start = position + Text.byteLength gap)
    (stops : stop = start + Text.byteLength chars) (later : Scanned stop rest ts) :
    Scanned position (gap ++ cs) (⟨kind, start, stop⟩ :: ts) :=
  .token (by rw [leads.trivia_eq]; exact front) (by rw [leads.trivia_eq]; exact starts) stops later

theorem Scanned.eq_nil {position : Nat} {ts : List Token} (h : Scanned position [] ts) :
    ts = [] := by
  cases h with
  | nothing => rfl
  | token front => cases front

/-- The tokens of two texts with a newline between them. -/
theorem Scanned.join {position stop : Nat} {cs tail : List Char} {ts us : List Token}
    (h : Scanned position cs ts) (ends : position + Text.byteLength cs = stop)
    (later : Scanned (stop + 1) tail us) :
    Scanned position (cs ++ '\n' :: tail) (ts ++ ⟨.newline, stop, stop + 1⟩ :: us) ∨
      ∃ front start, ts = front ++ [⟨.newline, start, stop⟩] ∧
        Scanned position (cs ++ '\n' :: tail) (front ++ ⟨.newline, start, stop + 1⟩ :: us) := by
  induction h with
  | @nothing position cs front =>
      obtain ⟨gap, text, leads, rfl⟩ : ∃ gap text, Leads gap text ∧ gap ++ text = cs :=
        ⟨_, _, leads_trivia cs, trivia_append cs⟩
      simp only [leads.trivia_eq] at front
      obtain rfl := eq_nil_of_ofChars front
      rw [List.append_nil] at ends ⊢
      exact .inl (.of_leads (leads.append_newline rfl) (ofChars_newline tail) ends.symm rfl later)
  | @token position start stop' cs chars rest kind ts front starts stops scanned ih =>
      obtain ⟨gap, text, leads, rfl⟩ : ∃ gap text, Leads gap text ∧ gap ++ text = cs :=
        ⟨_, _, leads_trivia cs, trivia_append cs⟩
      simp only [leads.trivia_eq] at front starts
      have split := ofChars_append front
      have leads' : Leads gap (text ++ '\n' :: tail) := leads.append_newline (by
        rw [← split, List.append_assoc]
        exact leads_nil_of_shape (shape_of_ofChars front) (ne_nil_of_ofChars front) _)
      rw [Text.byteLength_append] at ends
      rw [List.append_assoc]
      by_cases lone : text = ['\r']
      · subst lone
        cases front
        cases scanned.eq_nil
        exact .inr ⟨[], start, by rw [stops, ← ends, starts]; rfl,
          .of_leads leads' rfl starts (by rw [← ends, starts]; rfl) later⟩
      · have front' := ofChars_append_newline front lone tail
        rw [← split, Text.byteLength_append] at ends
        rcases ih (by omega) with read | ⟨before, last, rfl, read⟩
        · exact .inl (.of_leads leads' front' starts stops read)
        · exact .inr ⟨_ :: before, last, rfl, .of_leads leads' front' starts stops read⟩

end Token

end MembershipLowering
