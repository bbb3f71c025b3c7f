import MembershipLowering.Token.Basic

/-! # Reading tokens

A `Lexer` stands somewhere in a text and reads one token at a time. Each step
skips blanks and comments (`trivia`) and then takes one `lexeme` off the front.
A failed step leaves the lexer where reading stopped, so that it can be asked
again: `Lexer.next_shorter` says that a step which yields a token consumes text,
and a failed step never gives any back.
-/

namespace MembershipLowering

/-- Why no token can be read. -/
inductive LexError.Cause where
  /-- A quoted literal meets the end of its line or of the text. -/
  | unterminatedString
  /-- No token begins with this character. -/
  | unexpectedCharacter (c : Char)
  deriving DecidableEq, Repr

namespace LexError.Cause

def text : LexError.Cause → String
  | unterminatedString => "unterminated string literal"
  | unexpectedCharacter c => "unexpected character '" ++ c.toString ++ "'"

end LexError.Cause

/-- A cause and the byte offset of the text that it is about. -/
structure LexError where
  cause : LexError.Cause
  position : Nat
  deriving DecidableEq, Repr

namespace LexError

def message (e : LexError) : String :=
  e.cause.text ++ " at offset " ++ toString e.position

end LexError

/-- What stands at the front of a text. -/
inductive Lexeme where
  /-- The text is empty. -/
  | nothing
  /-- A token: its class, its characters and what follows them. -/
  | token (kind : TokenKind) (chars rest : List Char)
  /-- No token: the number of bytes given up and what follows them. -/
  | broken (cause : LexError.Cause) (bytes : Nat) (rest : List Char)
  deriving DecidableEq, Repr

namespace Lexeme

/-- Letters, `_` and `$` begin a word. Only ASCII letters count. -/
def isWordStart (c : Char) : Bool :=
  c.isAlpha || c == '_' || c == '$'

/-- Digits continue a word too. -/
def isWordPart (c : Char) : Bool :=
  c.isAlphanum || c == '_' || c == '$'

/-- Blanks within a line. -/
def isBlank (c : Char) : Bool :=
  c == ' ' || c == '\t'

/-- The class of a word that stands alone. -/
def wordKind : String → TokenKind
  | "this" => .this
  | "true" | "false" => .bool
  | "null" => .null
  | "in" | "instanceof" => .relation
  | "is" | "isnt" | "and" | "or" => .operator
  | "not" => .not
  | _ => .identifier

/-- A word. The word `not`, blanks and the word `in` make one relation. -/
def word (cs : List Char) : Lexeme :=
  let chars := cs.takeWhile isWordPart
  let rest := cs.dropWhile isWordPart
  let blanks := rest.takeWhile isBlank
  let afterBlanks := rest.dropWhile isBlank
  if chars = ['n', 'o', 't'] ∧ blanks ≠ [] ∧ afterBlanks.takeWhile isWordPart = ['i', 'n'] then
    .token .relation (chars ++ blanks ++ ['i', 'n']) (afterBlanks.dropWhile isWordPart)
  else
    .token (wordKind (String.ofList chars)) chars rest

/-- Digits, and then a point with more digits if a digit follows the point. -/
def number (cs : List Char) : Lexeme :=
  let digits := cs.takeWhile Char.isDigit
  match cs.dropWhile Char.isDigit with
  | '.' :: d :: rest =>
    if d.isDigit then
      .token .number (digits ++ '.' :: (d :: rest).takeWhile Char.isDigit)
        ((d :: rest).dropWhile Char.isDigit)
    else .token .number digits ('.' :: d :: rest)
  | rest => .token .number digits rest

/-- The same lexeme with more characters in front of it. -/
def extend (front : List Char) : Lexeme → Lexeme
  | .nothing => .nothing
  | .token kind chars rest => .token kind (front ++ chars) rest
  | .broken cause bytes rest => .broken cause (Text.byteLength front + bytes) rest

/-- A quoted literal from behind its opening quote on. A backslash takes the
    character after it along; one that ends the text counts as two bytes. -/
def quotedTail (quote : Char) : List Char → Lexeme
  | [] => .broken .unterminatedString 0 []
  | '\n' :: rest => .broken .unterminatedString 0 ('\n' :: rest)
  | ['\\'] => .broken .unterminatedString 2 []
  | '\\' :: c :: rest => (quotedTail quote rest).extend ['\\', c]
  | c :: rest =>
    if c = quote then .token .string [c] rest else (quotedTail quote rest).extend [c]

/-- Signs of two characters. -/
def pairKind (c d : Char) : Option TokenKind :=
  if c = '\r' ∧ d = '\n' then some .newline
  else if c ∈ ['=', '!', '<', '>'] ∧ d = '=' ∨ c ∈ ['|', '&'] ∧ d = c then some .operator
  else none

/-- Signs of one character. -/
def signKind : Char → Option TokenKind
  | '\r' | '\n' => some .newline
  | ';' => some .semicolon
  | '(' => some .lparen
  | ')' => some .rparen
  | '[' => some .lbracket
  | ']' => some .rbracket
  | ',' => some .comma
  | '.' => some .dot
  | '@' => some .this
  | '=' => some .assign
  | '!' => some .not
  | '+' | '-' | '*' | '/' | '%' | '<' | '>' => some .operator
  | _ => none

/-- A sign, of two characters if they make one together. -/
def sign (c : Char) (rest : List Char) : Lexeme :=
  match rest.head?.bind (pairKind c) with
  | some kind => .token kind (c :: rest.take 1) (rest.drop 1)
  | none =>
    match signKind c with
    | some kind => .token kind [c] rest
    | none => .broken (.unexpectedCharacter c) 0 (c :: rest)

/-- The lexeme at the front of a text without leading trivia. -/
def ofChars : List Char → Lexeme
  | [] => .nothing
  | c :: rest =>
    if isWordStart c then word (c :: rest)
    else if c.isDigit then number (c :: rest)
    else if c = '"' ∨ c = '\'' then (quotedTail c rest).extend [c]
    else sign c rest

/-- Split off leading blanks, line continuations and a comment. The comment runs
    up to the newline, which is a token and stays. -/
def trivia : List Char → List Char × List Char
  | ' ' :: cs => let r := trivia cs; (' ' :: r.1, r.2)
  | '\t' :: cs => let r := trivia cs; ('\t' :: r.1, r.2)
  | '\\' :: '\n' :: cs => let r := trivia cs; ('\\' :: '\n' :: r.1, r.2)
  | '#' :: cs => ('#' :: cs.takeWhile (· ≠ '\n'), cs.dropWhile (· ≠ '\n'))
  | cs => ([], cs)

/-- Trivia and what follows it make up the text. -/
theorem trivia_append (cs : List Char) : (trivia cs).1 ++ (trivia cs).2 = cs := by
  fun_induction trivia cs with
  | case1 cs r ih => simpa [r] using ih
  | case2 cs r ih => simpa [r] using ih
  | case3 cs r ih => simpa [r] using ih
  | case4 cs => simp
  | case5 cs => rfl

theorem word_append {cs chars rest : List Char} {kind : TokenKind}
    (h : word cs = .token kind chars rest) : chars ++ rest = cs := by
  simp only [word] at h
  split at h
  · rename_i hnot
    obtain ⟨-, rfl, rfl⟩ := Lexeme.token.inj h
    rw [← hnot.2.2, List.append_assoc, List.append_assoc, List.takeWhile_append_dropWhile,
      List.takeWhile_append_dropWhile, List.takeWhile_append_dropWhile]
  · obtain ⟨-, rfl, rfl⟩ := Lexeme.token.inj h
    exact List.takeWhile_append_dropWhile

theorem number_append {cs chars rest : List Char} {kind : TokenKind}
    (h : number cs = .token kind chars rest) : chars ++ rest = cs := by
  have hsplit := List.takeWhile_append_dropWhile (p := Char.isDigit) (l := cs)
  simp only [number] at h
  split at h
  · rename_i d after hafter
    rw [hafter] at hsplit
    split at h
    · obtain ⟨-, rfl, rfl⟩ := Lexeme.token.inj h
      rw [List.append_assoc, List.cons_append, List.takeWhile_append_dropWhile, hsplit]
    · obtain ⟨-, rfl, rfl⟩ := Lexeme.token.inj h
      exact hsplit
  · obtain ⟨-, rfl, rfl⟩ := Lexeme.token.inj h
    exact hsplit

theorem extend_eq_token_iff {l : Lexeme} {front chars rest : List Char} {kind : TokenKind} :
    l.extend front = .token kind chars rest ↔
      ∃ tail, l = .token kind tail rest ∧ chars = front ++ tail := by
  cases l with
  | nothing => simp [extend]
  | broken => simp [extend]
  | token =>
    simp only [extend, Lexeme.token.injEq]
    grind

theorem quotedTail_append {quote : Char} {cs chars rest : List Char} {kind : TokenKind}
    (h : quotedTail quote cs = .token kind chars rest) : chars ++ rest = cs := by
  fun_induction quotedTail quote cs generalizing chars with
  | case1 => cases h
  | case2 rest => cases h
  | case3 => cases h
  | case4 c rest ih | case6 c rest _ _ _ _ ih =>
    obtain ⟨tail, htail, rfl⟩ := extend_eq_token_iff.1 h
    simp [ih htail]
  | case5 rest => obtain ⟨-, rfl, rfl⟩ := Lexeme.token.inj h; rfl

theorem sign_append {c : Char} {cs chars rest : List Char} {kind : TokenKind}
    (h : sign c cs = .token kind chars rest) : chars ++ rest = c :: cs := by
  unfold sign at h
  split at h
  · obtain ⟨-, rfl, rfl⟩ := Lexeme.token.inj h
    rw [List.cons_append, List.take_append_drop]
  · split at h
    · obtain ⟨-, rfl, rfl⟩ := Lexeme.token.inj h
      rfl
    · cases h

/-- A token and what follows it make up the text. -/
theorem ofChars_append {cs chars rest : List Char} {kind : TokenKind}
    (h : ofChars cs = .token kind chars rest) : chars ++ rest = cs := by
  cases cs with
  | nil => cases h
  | cons c cs =>
    simp only [ofChars] at h
    split at h
    · exact word_append h
    · split at h
      · exact number_append h
      · split at h
        · obtain ⟨tail, htail, rfl⟩ := extend_eq_token_iff.1 h
          simp [quotedTail_append htail]
        · exact sign_append h

theorem isWordPart_of_isWordStart {c : Char} (h : isWordStart c = true) :
    isWordPart c = true := by
  grind [isWordStart, isWordPart, Char.isAlphanum]

/-- A token has at least one character. -/
theorem ne_nil_of_ofChars {cs chars rest : List Char} {kind : TokenKind}
    (h : ofChars cs = .token kind chars rest) : chars ≠ [] := by
  cases cs with
  | nil => cases h
  | cons c cs =>
    simp only [ofChars] at h
    split at h
    · rename_i hc
      have hc := isWordPart_of_isWordStart hc
      simp only [word] at h
      split at h <;> obtain ⟨-, rfl, -⟩ := Lexeme.token.inj h <;> simp [hc]
    · split at h
      · rename_i hc
        simp only [number] at h
        split at h
        · split at h <;> obtain ⟨-, rfl, -⟩ := Lexeme.token.inj h <;> simp [hc]
        · obtain ⟨-, rfl, -⟩ := Lexeme.token.inj h
          simp [hc]
      · split at h
        · obtain ⟨tail, -, rfl⟩ := extend_eq_token_iff.1 h
          simp
        · unfold sign at h
          split at h
          · obtain ⟨-, rfl, -⟩ := Lexeme.token.inj h
            simp
          · split at h
            · obtain ⟨-, rfl, -⟩ := Lexeme.token.inj h
              simp
            · cases h

end Lexeme

/-- A place in a text: the byte offset and what is still to be read. -/
structure Lexer where
  position : Nat
  rest : List Char
  deriving DecidableEq, Repr

namespace Lexer

/-- At the start of a source text. -/
def ofSource (source : String) : Lexer :=
  ⟨0, source.toList⟩

/-- Read the next token. At the end of the text there is none. -/
def next (s : Lexer) : Except LexError (Option Token) × Lexer :=
  let (skipped, text) := Lexeme.trivia s.rest
  let start := s.position + Text.byteLength skipped
  match Lexeme.ofChars text with
  | .nothing => (.ok none, ⟨start, []⟩)
  | .token kind chars rest =>
    let stop := start + Text.byteLength chars
    (.ok (some ⟨kind, start, stop⟩), ⟨stop, rest⟩)
  | .broken cause bytes rest => (.error ⟨cause, start⟩, ⟨start + bytes, rest⟩)

/-- A step that yields a token consumes text. -/
theorem next_shorter {s after : Lexer} {t : Token} (h : s.next = (.ok (some t), after)) :
    after.rest.length < s.rest.length := by
  have htrivia := Lexeme.trivia_append s.rest
  simp only [next] at h
  split at h
  · cases h
  · rename_i kind chars rest hlexeme
    obtain ⟨-, rfl⟩ := Prod.mk.inj h
    have hsplit := congrArg List.length (Lexeme.ofChars_append hlexeme)
    have hlength := congrArg List.length htrivia
    have hpos := List.length_pos_iff.2 (Lexeme.ne_nil_of_ofChars hlexeme)
    simp only [List.length_append] at hsplit hlength
    show rest.length < s.rest.length
    omega
  · cases h

/-- The tokens from here to the end of the text, or the first error. -/
def tokens (s : Lexer) : Except LexError (List Token) :=
  match _h : s.next with
  | (.error e, _) => .error e
  | (.ok none, _) => .ok []
  | (.ok (some t), after) => (tokens after).map (t :: ·)
termination_by s.rest.length
decreasing_by exact next_shorter _h

end Lexer

/-- The tokens of a source text. -/
def Token.readAll (source : String) : Except LexError (List Token) :=
  (Lexer.ofSource source).tokens

example : Token.readAll "x not  in [1]" =
    .ok [⟨.identifier, 0, 1⟩, ⟨.relation, 2, 9⟩, ⟨.lbracket, 10, 11⟩, ⟨.number, 11, 12⟩,
      ⟨.rbracket, 12, 13⟩] := by cbv

end MembershipLowering
