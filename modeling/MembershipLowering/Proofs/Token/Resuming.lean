import Mathlib.Control.Monad.Basic
import MembershipLowering.Proofs.Token.Spelling

/-! # Reading on

A lexer may be asked again whatever it answered, and is: `Lexer.after` and `Lexer.answer`
follow the calls. A broken literal leaves it at the end of a line, at the end of the text or
one byte beyond that, a character that begins no token leaves it in front of that character.
Each call is one of four kinds (`Lexer.Reads`), a place that was reached is followed by
another such place (`Lexer.Reached`), and what one call guarantees every call guarantees
(`Lexer.resumes`). Only the first two kinds go on, and they take text away, so that the
answers settle.

Text is cut out of the source at byte offsets. `Lexer.cuts` lists the pieces one call asks
for: a word, the word behind `not`, the text from a comment on and the text from a character
on that begins no token. A `Scanner`, which reads the bytes themselves, cuts as it goes.
-/

namespace MembershipLowering

/-- A piece asked for: the byte offset it begins at and its characters. -/
structure Cut where
  start : Nat
  chars : List Char
  deriving DecidableEq, Repr

namespace Cut

/-- The piece stands in a text that begins at byte `position`. -/
def Inside (position : Nat) (cs : List Char) (cut : Cut) : Prop :=
  ∃ before after, cs = before ++ cut.chars ++ after ∧
    cut.start = position + Text.byteLength before

/-- The offsets of the piece are offsets in the source, and its characters are found there. -/
def Found (source : String) (cut : Cut) : Prop :=
  Text.slice? cut.start (cut.start + Text.byteLength cut.chars) source.toList = some cut.chars

theorem Inside.behind {position : Nat} {cs : List Char} {cut : Cut} (front : List Char)
    (h : Inside (position + Text.byteLength front) cs cut) :
    Inside position (front ++ cs) cut := by
  obtain ⟨before, after, rfl, start⟩ := h
  refine ⟨front ++ before, after, by simp, ?_⟩
  rw [start, Text.byteLength_append, Nat.add_assoc]

theorem Inside.found {source : String} {front cs : List Char} {cut : Cut}
    (h : Inside (Text.byteLength front) cs cut) (split : source.toList = front ++ cs) :
    Found source cut := by
  obtain ⟨before, after, rfl, start⟩ := h
  apply Text.slice?_eq_some_iff.2
  refine ⟨front ++ before, after, by simp [split], ?_, ?_⟩
  · rw [Text.byteLength_append, start]
  · rw [Text.byteLength_append, start]

end Cut

namespace Lexeme

/-- A comment is looked through from its sign to the end of the text. -/
def triviaCuts (position : Nat) : List Char → List Cut
  | '#' :: cs => [⟨position, '#' :: cs⟩]
  | ' ' :: cs => triviaCuts (position + 1) cs
  | '\t' :: cs => triviaCuts (position + 1) cs
  | '\\' :: '\n' :: cs => triviaCuts (position + 2) cs
  | _ => []

/-- A word is compared with the known words. Behind `not` and blanks the next word, if
    there is one, is compared with `in`. -/
def wordCuts (position : Nat) (cs : List Char) : List Cut :=
  let chars := cs.takeWhile isWordPart
  let rest := cs.dropWhile isWordPart
  let blanks := rest.takeWhile isBlank
  let afterBlanks := rest.dropWhile isBlank
  ⟨position, chars⟩ ::
    if chars = ['n', 'o', 't'] ∧ blanks ≠ [] ∧ afterBlanks.head?.any isWordStart then
      [⟨position + Text.byteLength chars + Text.byteLength blanks,
        afterBlanks.takeWhile isWordPart⟩]
    else []

/-- A character that begins no token is read off the rest of the text. -/
def frontCuts (position : Nat) (cs : List Char) : List Cut :=
  if cs.head?.any isWordStart then wordCuts position cs
  else
    match ofChars cs with
    | .broken (.unexpectedCharacter _) _ _ => [⟨position, cs⟩]
    | _ => []

theorem inside_of_mem_triviaCuts {position : Nat} {cs : List Char} {cut : Cut}
    (h : cut ∈ triviaCuts position cs) : cut.Inside position cs := by
  fun_induction triviaCuts position cs with
  | case1 position cs =>
      obtain rfl := List.mem_singleton.1 h
      exact ⟨[], [], by simp, rfl⟩
  | case2 position cs ih => exact Cut.Inside.behind [' '] (ih h)
  | case3 position cs ih => exact Cut.Inside.behind ['\t'] (ih h)
  | case4 position cs ih => exact Cut.Inside.behind ['\\', '\n'] (ih h)
  | case5 => cases h

theorem inside_of_mem_wordCuts {position : Nat} {cs : List Char} {cut : Cut}
    (h : cut ∈ wordCuts position cs) : cut.Inside position cs := by
  simp only [wordCuts, List.mem_cons] at h
  rcases h with rfl | h
  · exact ⟨[], cs.dropWhile isWordPart, by simp, rfl⟩
  · split at h
    · obtain rfl := List.mem_singleton.1 h
      refine ⟨cs.takeWhile isWordPart ++ (cs.dropWhile isWordPart).takeWhile isBlank,
        ((cs.dropWhile isWordPart).dropWhile isBlank).dropWhile isWordPart, ?_, ?_⟩
      · simp only [List.append_assoc, List.takeWhile_append_dropWhile]
      · rw [Text.byteLength_append, Nat.add_assoc]
    · cases h

theorem inside_of_mem_frontCuts {position : Nat} {cs : List Char} {cut : Cut}
    (h : cut ∈ frontCuts position cs) : cut.Inside position cs := by
  unfold frontCuts at h
  split at h
  · exact inside_of_mem_wordCuts h
  · split at h
    · obtain rfl := List.mem_singleton.1 h
      exact ⟨[], [], by simp, rfl⟩
    · cases h

theorem extend_eq_broken_iff {l : Lexeme} {front rest : List Char} {cause : LexError.Cause}
    {bytes : Nat} : l.extend front = .broken cause bytes rest ↔
      ∃ fewer, l = .broken cause fewer rest ∧ bytes = Text.byteLength front + fewer := by
  cases l with
  | nothing => simp [extend]
  | token => simp [extend]
  | broken =>
      simp only [extend, Lexeme.broken.injEq]
      grind

/-- A literal that does not end is given up in front of a newline or where nothing is left.
    A backslash at the end of the text is counted with the character it lacks. -/
theorem quotedTail_broken {quote : Char} {cs rest : List Char} {cause : LexError.Cause}
    {bytes : Nat} (h : quotedTail quote cs = .broken cause bytes rest) :
    cause = .unterminatedString ∧ ∃ chars beyond, cs = chars ++ rest ∧
      bytes = Text.byteLength chars + beyond ∧
        (beyond = 0 ∧ rest.head? = some '\n' ∨ beyond ≤ 1 ∧ rest = []) := by
  fun_induction quotedTail quote cs generalizing bytes with
  | case1 => cases h; exact ⟨rfl, [], 0, rfl, rfl, .inr ⟨Nat.zero_le _, rfl⟩⟩
  | case2 => cases h; exact ⟨rfl, [], 0, rfl, rfl, .inl ⟨rfl, rfl⟩⟩
  | case3 => cases h; exact ⟨rfl, ['\\'], 1, rfl, rfl, .inr ⟨Nat.le_refl _, rfl⟩⟩
  | case4 c tail ih =>
      obtain ⟨fewer, broken, rfl⟩ := extend_eq_broken_iff.1 h
      obtain ⟨cause, chars, beyond, rfl, rfl, left⟩ := ih broken
      exact ⟨cause, '\\' :: c :: chars, beyond, rfl, by simp [Nat.add_assoc], left⟩
  | case5 => cases h
  | case6 c tail _ _ _ _ ih =>
      obtain ⟨fewer, broken, rfl⟩ := extend_eq_broken_iff.1 h
      obtain ⟨cause, chars, beyond, rfl, rfl, left⟩ := ih broken
      exact ⟨cause, c :: chars, beyond, rfl, by simp [Nat.add_assoc], left⟩

/-- Reading breaks off at a literal that does not end, or in front of a character that begins
    no token. -/
theorem ofChars_broken {cs rest : List Char} {cause : LexError.Cause} {bytes : Nat}
    (h : ofChars cs = .broken cause bytes rest) :
    (cause = .unterminatedString ∧ ∃ chars beyond, chars ≠ [] ∧ cs = chars ++ rest ∧
      bytes = Text.byteLength chars + beyond ∧
        (beyond = 0 ∧ rest.head? = some '\n' ∨ beyond ≤ 1 ∧ rest = [])) ∨
      ∃ c, cause = .unexpectedCharacter c ∧ bytes = 0 ∧ rest = cs ∧ cs.head? = some c := by
  cases cs with
  | nil => cases h
  | cons c cs =>
      simp only [ofChars] at h
      split at h
      · simp only [word] at h
        split at h <;> cases h
      · split at h
        · simp only [number] at h
          split at h
          · split at h <;> cases h
          · cases h
        · split at h
          · obtain ⟨fewer, broken, rfl⟩ := extend_eq_broken_iff.1 h
            obtain ⟨cause, chars, beyond, rfl, rfl, left⟩ := quotedTail_broken broken
            exact .inl ⟨cause, c :: chars, beyond, by simp, rfl, by simp [Nat.add_assoc], left⟩
          · unfold sign at h
            split at h
            · cases h
            · split at h
              · cases h
              · cases h
                exact .inr ⟨c, rfl, rfl, rfl, rfl⟩

/-- Nothing more is skipped where skipping stopped. -/
theorem trivia_trivia (cs : List Char) : trivia (trivia cs).2 = ([], (trivia cs).2) := by
  fun_induction trivia cs with
  | case1 cs r ih => exact ih
  | case2 cs r ih => exact ih
  | case3 cs r ih => exact ih
  | case4 cs =>
      have ends := endsComment_dropWhile cs
      cases stop : cs.dropWhile (· ≠ '\n') with
      | nil => rfl
      | cons c rest =>
          rw [stop] at ends
          obtain rfl : c = '\n' := by simpa [endsComment] using ends
          rfl
  | case5 cs noBlank noTab noContinuation noComment =>
      rw [trivia] <;> assumption

end Lexeme

namespace Lexer

open Lexeme

/-- Where a call leaves the lexer, and with which answer. -/
inductive Reads (position : Nat) : List Char → Except LexError (Option Token) → Lexer → Prop where
  /-- A token, which has characters. -/
  | token {gap chars rest : List Char} {kind : TokenKind} {start stop : Nat}
      (nonempty : chars ≠ [])
      (starts : start = position + Text.byteLength gap)
      (stops : stop = start + Text.byteLength chars) :
      Reads position (gap ++ (chars ++ rest)) (.ok (some ⟨kind, start, stop⟩)) ⟨stop, rest⟩
  /-- A broken literal, given up at the end of the line or of the text. -/
  | broken {gap chars rest : List Char} {start beyond : Nat} (nonempty : chars ≠ [])
      (starts : start = position + Text.byteLength gap)
      (left : beyond = 0 ∧ rest.head? = some '\n' ∨ beyond ≤ 1 ∧ rest = []) :
      Reads position (gap ++ (chars ++ rest)) (.error ⟨.unterminatedString, start⟩)
        ⟨start + (Text.byteLength chars + beyond), rest⟩
  /-- A character that begins no token. Asked again, the lexer stays. -/
  | unexpected {gap rest : List Char} {c : Char} {start : Nat}
      (starts : start = position + Text.byteLength gap)
      (again : next ⟨start, c :: rest⟩ =
        (.error ⟨.unexpectedCharacter c, start⟩, ⟨start, c :: rest⟩)) :
      Reads position (gap ++ c :: rest) (.error ⟨.unexpectedCharacter c, start⟩)
        ⟨start, c :: rest⟩
  /-- The end. -/
  | ended {gap : List Char} : Reads position gap (.ok none) ⟨position + Text.byteLength gap, []⟩

/-- Every call is of one of the four kinds. -/
theorem reads (s : Lexer) : Reads s.position s.rest s.next.1 s.next.2 := by
  obtain ⟨position, cs⟩ := s
  obtain ⟨gap, text, leads, rfl⟩ : ∃ gap text, Leads gap text ∧ gap ++ text = cs :=
    ⟨_, _, leads_trivia cs, trivia_append cs⟩
  have plain : trivia text = ([], text) := by
    have same := trivia_trivia (gap ++ text)
    rwa [leads] at same
  unfold Leads at leads
  simp only [next, leads]
  cases read : ofChars text with
  | nothing =>
      obtain rfl := eq_nil_of_ofChars read
      simpa using @Reads.ended position gap
  | token kind chars rest =>
      obtain rfl := ofChars_append read
      exact .token (ne_nil_of_ofChars read) rfl rfl
  | broken cause bytes rest =>
      rcases ofChars_broken read with ⟨rfl, chars, beyond, nonempty, rfl, rfl, left⟩ |
        ⟨c, rfl, rfl, rfl, head⟩
      · exact .broken nonempty rfl left
      · cases rest with
        | nil => cases head
        | cons d rest =>
            obtain rfl : d = c := by simpa using head
            refine .unexpected rfl ?_
            simp [next, plain, read]

/-- A place in the source, or one byte beyond its end with nothing left to read. -/
inductive Reached (source : String) : Lexer → Prop where
  | inside {front rest : List Char} (split : source.toList = front ++ rest) :
      Reached source ⟨Text.byteLength front, rest⟩
  | beyond : Reached source ⟨Text.byteLength source.toList + 1, []⟩

theorem Reached.of_split {source : String} {position : Nat} {rest : List Char}
    (front : List Char) (split : source.toList = front ++ rest)
    (length : position = Text.byteLength front) :
    Reached source ⟨position, rest⟩ := by
  subst length
  exact .inside split

/-- A call leads from one such place to another. -/
theorem Reached.step {source : String} {position : Nat} {cs : List Char} {s : Lexer}
    {answer : Except LexError (Option Token)} (h : Reached source ⟨position, cs⟩)
    (reads : Reads position cs answer s) : Reached source s := by
  cases h with
  | beyond =>
      generalize empty : ([] : List Char) = cs at reads
      cases reads with
      | token nonempty => simp [nonempty] at empty
      | broken nonempty => simp [nonempty] at empty
      | unexpected => simp at empty
      | ended => subst empty; exact .beyond
  | @inside front _ split =>
      cases reads with
      | @token gap chars rest kind start stop _ starts stops =>
          refine .of_split (front ++ gap ++ chars) (by simp [split]) ?_
          simp [starts, stops, Nat.add_assoc]
      | @broken gap chars rest start beyond _ starts left =>
          rcases left with ⟨rfl, -⟩ | ⟨atMost, rfl⟩
          · refine .of_split (front ++ gap ++ chars) (by simp [split]) ?_
            simp [starts, Nat.add_assoc]
          · have length : Text.byteLength source.toList = start + Text.byteLength chars := by
              simp [split, starts, Nat.add_assoc]
            rcases Nat.le_one_iff_eq_zero_or_eq_one.1 atMost with rfl | rfl
            · exact .of_split source.toList (by simp) length.symm
            · rw [← Nat.add_assoc, ← length]
              exact .beyond
      | @unexpected gap rest c start starts =>
          refine .of_split (front ++ gap) (by simp [split]) ?_
          simp [starts]
      | ended =>
          refine .of_split (front ++ cs) (by simp [split]) ?_
          simp

theorem Reached.next {source : String} {s : Lexer} (h : Reached source s) :
    Reached source s.next.2 :=
  h.step s.reads

/-- The pieces that a call asks for. -/
def cuts (s : Lexer) : List Cut :=
  let (skipped, text) := trivia s.rest
  triviaCuts s.position s.rest ++ frontCuts (s.position + Text.byteLength skipped) text

/-- They stand in the source wherever the lexer has got to. -/
theorem Reached.found {source : String} {s : Lexer} (h : Reached source s) :
    ∀ cut ∈ s.cuts, cut.Found source := by
  intro cut mem
  cases h with
  | beyond => cases mem
  | @inside front rest split =>
      refine Cut.Inside.found ?_ split
      simp only [cuts, List.mem_append] at mem
      rcases mem with mem | mem
      · exact inside_of_mem_triviaCuts mem
      · rw [← trivia_append rest]
        exact (inside_of_mem_frontCuts mem).behind _

/-- The lexer after a number of calls. -/
def after (s : Lexer) : Nat → Lexer
  | 0 => s
  | calls + 1 => (s.after calls).next.2

/-- The answer to the call made after that many others. -/
def answer (s : Lexer) (calls : Nat) : Except LexError (Option Token) :=
  (s.after calls).next.1

theorem after_add (s : Lexer) (calls more : Nat) :
    s.after (calls + more) = (s.after calls).after more := by
  induction more with
  | zero => rfl
  | succ more ih => exact congrArg (fun later => later.next.2) ih

theorem Reached.after {source : String} {s : Lexer} (h : Reached source s) (calls : Nat) :
    Reached source (s.after calls) := by
  induction calls with
  | zero => exact h
  | succ calls ih => exact ih.next

/-- The lexer has its last answer: asked again, it gives this one and stays. -/
def Settled (s : Lexer) : Prop :=
  s.next.2.next = s.next

theorem Settled.next {s : Lexer} (h : s.Settled) : s.next.2.Settled := by
  unfold Settled at *
  rw [h, h]

theorem Settled.after {s : Lexer} (h : s.Settled) (calls : Nat) :
    (s.after calls).Settled ∧ s.answer calls = s.next.1 := by
  induction calls with
  | zero => exact ⟨h, rfl⟩
  | succ calls ih =>
      refine ⟨ih.1.next, ?_⟩
      rw [← ih.2]
      exact congrArg Prod.fst ih.1

/-- A token and a broken literal take text away. Any other answer is the last. -/
theorem Reads.settled_or_shorter {position : Nat} {cs : List Char} {s : Lexer}
    {answer : Except LexError (Option Token)} (h : Reads position cs answer s) :
    s.next = (answer, s) ∨ s.rest.length < cs.length := by
  cases h with
  | token nonempty | broken nonempty =>
      have some := List.length_pos_iff.2 nonempty
      exact .inr (by simp only [List.length_append]; omega)
  | unexpected _ again => exact .inl again
  | ended => exact .inl rfl

theorem settled_or_shorter (s : Lexer) : s.Settled ∨ s.next.2.rest.length < s.rest.length :=
  s.reads.settled_or_shorter

theorem settled_of_nil {s : Lexer} (empty : s.rest = []) : s.Settled := by
  obtain ⟨position, rest⟩ := s
  subst empty
  rfl

/-- As many calls as there are characters reach the last answer. -/
theorem settled_after {s : Lexer} {calls : Nat} (many : s.rest.length ≤ calls) :
    (s.after calls).Settled := by
  have run (calls : Nat) :
      (s.after calls).Settled ∨ (s.after calls).rest.length + calls ≤ s.rest.length := by
    induction calls with
    | zero => exact .inr (Nat.le_refl _)
    | succ calls ih =>
        rcases ih with settled | left
        · exact .inl settled.next
        · rcases (s.after calls).settled_or_shorter with settled | shorter
          · exact .inl settled.next
          · have step : s.after (calls + 1) = (s.after calls).next.2 := rfl
            rw [step]
            exact .inr (by omega)
  rcases run calls with settled | left
  · exact settled
  · exact settled_of_nil (List.length_eq_zero_iff.1 (by omega))

/-- In front of a newline, at the end of the source or one byte beyond it. -/
def Interrupted (source : String) (s : Lexer) : Prop :=
  Text.slice? s.position (s.position + 1) source.toList = some ['\n'] ∨
    Text.byteLength source.toList ≤ s.position ∧ s.position ≤ Text.byteLength source.toList + 1

theorem Reached.interrupted {source : String} {s : Lexer} (h : Reached source s)
    (left : s.rest.head? = some '\n' ∨ s.rest = []) : s.Interrupted source := by
  cases h with
  | @inside front rest split =>
      cases rest with
      | nil => exact .inr (by rw [split, List.append_nil]; simp)
      | cons c rest =>
          obtain rfl : c = '\n' := by simpa using left
          exact .inl (Text.slice?_eq_some_iff.2 ⟨front, rest, by simp [split], rfl, rfl⟩)
  | beyond => exact .inr (by simp)

/-- What a call guarantees. -/
structure Resumes (source : String) (s : Lexer) : Prop where
  /-- The pieces it asks for are cut out of the source between two characters. -/
  found : ∀ cut ∈ s.cuts, cut.Found source
  forward : s.position ≤ s.next.2.position
  token : ∀ t, s.next.1 = .ok (some t) →
    s.position ≤ t.span.start ∧ t.span.start < t.span.stop ∧ t.span.stop = s.next.2.position
  unterminated : ∀ start, s.next.1 = .error ⟨.unterminatedString, start⟩ →
    s.position < s.next.2.position ∧ s.next.2.Interrupted source
  unexpected : ∀ c start, s.next.1 = .error ⟨.unexpectedCharacter c, start⟩ →
    ∀ more, s.answer more = .error ⟨.unexpectedCharacter c, start⟩
  ended : s.next.1 = .ok none → ∀ more, s.answer more = .ok none

/-- One call, by its kinds. -/
theorem Reached.resumes {source : String} {s : Lexer} (h : Reached source s) :
    Resumes source s := by
  obtain ⟨position, cs⟩ := s
  have found := h.found
  have reached := h.next
  have last : (⟨position, cs⟩ : Lexer).Settled → ∀ more, _ := fun settled more =>
    (settled.after more).2
  have reads : Reads position cs _ _ := (⟨position, cs⟩ : Lexer).reads
  unfold Settled at last
  generalize same : (⟨position, cs⟩ : Lexer).next = step at reached reads last
  obtain ⟨answer, s⟩ := step
  cases reads with
  | token nonempty starts stops =>
      have some := Text.byteLength_pos nonempty
      refine ⟨found, ?_, ?_, ?_, ?_, ?_⟩ <;> simp only [same]
      · omega
      · rintro t ⟨⟩
        exact ⟨by simp only; omega, by simp only; omega, rfl⟩
      all_goals nofun
  | broken nonempty starts left =>
      have some := Text.byteLength_pos nonempty
      refine ⟨found, ?_, ?_, ?_, ?_, ?_⟩ <;> simp only [same]
      · omega
      · nofun
      · intro start _
        refine ⟨by omega, reached.interrupted ?_⟩
        rcases left with ⟨-, newline⟩ | ⟨-, none⟩
        · exact .inl newline
        · exact .inr none
      all_goals nofun
  | unexpected starts again =>
      refine ⟨found, ?_, ?_, ?_, ?_, ?_⟩ <;> simp only [same]
      · omega
      · nofun
      · nofun
      · rintro c start ⟨⟩
        exact last again
      · nofun
  | ended =>
      refine ⟨found, ?_, ?_, ?_, ?_, ?_⟩ <;> simp only [same]
      · exact Nat.le_add_right _ _
      · nofun
      · nofun
      · nofun
      · exact fun _ => last rfl

/-- Whatever the calls before it answered, a call does as it should, and the answer to the call
    after as many as the source has bytes is the last one. -/
theorem resumes_and_settles (source : String) :
    (∀ calls, Resumes source ((ofSource source).after calls)) ∧
      ∀ more, (ofSource source).answer (Text.byteLength source.toList + more) =
        (ofSource source).answer (Text.byteLength source.toList) := by
  have start : Reached source (ofSource source) := .of_split [] rfl rfl
  have settled : ((ofSource source).after (Text.byteLength source.toList)).Settled :=
    settled_after (Text.length_le_byteLength source.toList)
  refine ⟨fun calls => (start.after calls).resumes, fun more => ?_⟩
  rw [answer, after_add]
  exact (settled.after more).2

/-- Two literals break off, the second one behind a backslash. -/
example : (List.range 6).map (ofSource "'é\n\"\\").answer =
    [.error ⟨.unterminatedString, 0⟩, .ok (some ⟨.newline, 3, 4⟩),
      .error ⟨.unterminatedString, 4⟩, .ok none, .ok none, .ok none] := by decide +kernel

end Lexer

end MembershipLowering
