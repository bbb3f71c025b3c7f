import MembershipLowering.Proofs.Text.Bytes
import MembershipLowering.Token.Lexer

/-! # Reading tokens byte by byte

A text can be read without decoding it: every test is about ASCII, so one byte decides, and
only words and a character that begins no token are cut out of the source. Read like this it
can break. The byte behind a backslash is passed over unseen, which may leave the scanner
between the bytes of a character, or behind the end; nothing can be cut out there. The steps of
a `Scanner` crash where this happens.
-/

namespace MembershipLowering

/-- A source and the byte offset that reading has come to. -/
structure Scanner where
  source : String
  position : Nat
  deriving DecidableEq, Repr

namespace Scanner

open Lexeme

def ofSource (source : String) : Scanner :=
  ⟨source, 0⟩

/-- The byte at an offset, as the character of ASCII that it is. The bytes of other characters
    come out as characters that are not ASCII either. -/
def charAt? (bs : List UInt8) (i : Nat) : Option Char :=
  bs[i]?.map Char.ofUInt8

theorem lt_length_of_charAt? {bs : List UInt8} {i : Nat} {c : Char}
    (h : charAt? bs i = some c) : i < bs.length := by
  obtain ⟨b, read, -⟩ := Option.map_eq_some_iff.1 h
  exact (List.getElem?_eq_some_iff.1 read).1

/-- The offset where a run of bytes that pass the test ends. -/
def runEnd (test : Char → Bool) (bs : List UInt8) (i : Nat) : Nat :=
  match _h : charAt? bs i with
  | some c => if test c then runEnd test bs (i + 1) else i
  | none => i
termination_by bs.length - i
decreasing_by
  have := lt_length_of_charAt? _h
  omega

theorem runEnd_some {test : Char → Bool} {bs : List UInt8} {i : Nat} {c : Char}
    (h : charAt? bs i = some c) :
    runEnd test bs i = if test c then runEnd test bs (i + 1) else i := by
  rw [runEnd]
  split <;> simp_all

/-- The number of bytes up to a newline or the end. -/
def toNewline (bs : List UInt8) : Nat :=
  bs.findIdx (Char.ofUInt8 · = '\n')

/-- A comment has its sign at least. -/
theorem toNewline_pos {bs : List UInt8} {i : Nat} (h : charAt? bs i = some '#') :
    0 < toNewline (bs.drop i) := by
  have inside := lt_length_of_charAt? h
  rw [charAt?, List.getElem?_eq_getElem inside, Option.map_some, Option.some.injEq] at h
  rw [List.drop_eq_getElem_cons inside, toNewline, List.findIdx_cons, h]
  exact Nat.succ_pos _

/-- Go past blanks, line continuations and a comment, whose end is looked for in the bytes from
    its sign on. -/
def skipTrivia? (bs : List UInt8) (i : Nat) : Option Nat :=
  match _h : charAt? bs i with
  | some c =>
    if isBlank c then skipTrivia? bs (i + 1)
    else if c = '\\' ∧ charAt? bs (i + 1) = some '\n' then skipTrivia? bs (i + 2)
    else if _sign : c = '#' then
      if i ≤ bs.length then skipTrivia? bs (i + toNewline (bs.drop i)) else none
    else some i
  | none => some i
termination_by bs.length - i
decreasing_by
  all_goals have inside := lt_length_of_charAt? _h
  · omega
  · omega
  · have := toNewline_pos (_sign ▸ _h)
    omega

theorem skipTrivia?_some {bs : List UInt8} {i : Nat} {c : Char} (h : charAt? bs i = some c) :
    skipTrivia? bs i =
      if isBlank c then skipTrivia? bs (i + 1)
      else if c = '\\' ∧ charAt? bs (i + 1) = some '\n' then skipTrivia? bs (i + 2)
      else if c = '#' then skipTrivia? bs (i + toNewline (bs.drop i))
      else some i := by
  have inside := Nat.le_of_lt (lt_length_of_charAt? h)
  rw [skipTrivia?]
  split <;> simp_all

/-- Where the word behind some blanks begins and ends. -/
def nextWord? (bs : List UInt8) (i : Nat) : Option (Nat × Nat) :=
  let start := runEnd isBlank bs i
  if start ≠ i ∧ (charAt? bs start).any isWordStart then
    some (start, runEnd isWordPart bs start)
  else none

/-- What was read, a token or not, and where reading stopped. -/
abbrev Left := Except LexError.Cause TokenKind × Nat

def word? (source : List Char) (start : Nat) : Option Left := do
  let stop := runEnd isWordPart (Text.bytes source) start
  let chars ← Text.slice? start stop source
  if chars = ['n', 'o', 't'] then
    match nextWord? (Text.bytes source) stop with
    | some (first, last) =>
      let next ← Text.slice? first last source
      some (if next = ['i', 'n'] then (.ok .relation, last) else (.ok .not, stop))
    | none => some (.ok .not, stop)
  else some (.ok (wordKind (String.ofList chars)), stop)

def number (bs : List UInt8) (start : Nat) : Left :=
  let stop := runEnd Char.isDigit bs start
  if charAt? bs stop = some '.' ∧ (charAt? bs (stop + 1)).any Char.isDigit then
    (.ok .number, runEnd Char.isDigit bs (stop + 1))
  else (.ok .number, stop)

/-- A quoted literal, from somewhere behind its opening quote on. -/
def quotedTail (quote : Char) (bs : List UInt8) (i : Nat) : Left :=
  match _h : charAt? bs i with
  | some c =>
    if c = '\n' then (.error .unterminatedString, i)
    else if c = '\\' then quotedTail quote bs (i + 2)
    else if c = quote then (.ok .string, i + 1)
    else quotedTail quote bs (i + 1)
  | none => (.error .unterminatedString, i)
termination_by bs.length - i
decreasing_by all_goals
  have := lt_length_of_charAt? _h
  omega

theorem quotedTail_some {quote : Char} {bs : List UInt8} {i : Nat} {c : Char}
    (h : charAt? bs i = some c) :
    quotedTail quote bs i =
      if c = '\n' then (.error .unterminatedString, i)
      else if c = '\\' then quotedTail quote bs (i + 2)
      else if c = quote then (.ok .string, i + 1)
      else quotedTail quote bs (i + 1) := by
  rw [quotedTail]
  split <;> simp_all

/-- A sign that begins with the given byte. The character that is none is read off the source. -/
def sign? (source : List Char) (c : Char) (start : Nat) : Option Left :=
  match (charAt? (Text.bytes source) (start + 1)).bind (pairKind c) with
  | some kind => some (.ok kind, start + 2)
  | none =>
    match signKind c with
    | some kind => some (.ok kind, start + 1)
    | none => do
      let rest ← Text.slice? start (Text.byteLength source) source
      some (.error (.unexpectedCharacter (rest.head?.getD '\x00')), start)

/-- What begins with the given byte. -/
def take? (source : List Char) (c : Char) (start : Nat) : Option Left :=
  if isWordStart c then word? source start
  else if c.isDigit then some (number (Text.bytes source) start)
  else if c = '"' ∨ c = '\'' then some (quotedTail c (Text.bytes source) (start + 1))
  else sign? source c start

/-- Read the next token. -/
def next? (s : Scanner) : Option (Except LexError (Option Token) × Scanner) := do
  let bs := Text.bytes s.source.toList
  let start ← skipTrivia? bs s.position
  match charAt? bs start with
  | some c =>
    match ← take? s.source.toList c start with
    | (.ok kind, stop) => some (.ok (some ⟨kind, start, stop⟩), { s with position := stop })
    | (.error cause, stop) => some (.error ⟨cause, start⟩, { s with position := stop })
  | none => some (.ok none, { s with position := start })

/-- The scanner after a number of calls. -/
def after? (s : Scanner) : Nat → Option Scanner
  | 0 => some s
  | calls + 1 => do
    let (_, next) ← (← s.after? calls).next?
    some next

end Scanner

end MembershipLowering
