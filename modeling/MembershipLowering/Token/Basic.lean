import MembershipLowering.Span

/-! # Tokens

A token is a class and a place in the source; its text is read off the source.
Blanks and comments are not tokens. Newlines are, since they separate statements.
-/

namespace MembershipLowering

/-- The classes of tokens. -/
inductive TokenKind where
  | identifier
  /-- `this` or `@`. -/
  | this
  | number
  | string
  | bool
  | null
  /-- `in`, `not in` (one token) and `instanceof`. -/
  | relation
  /-- Arithmetic, comparison and logical operators, in words or in signs. -/
  | operator
  /-- `not` or `!`. -/
  | not
  /-- The sign `=`. -/
  | assign
  | dot
  | comma
  | lparen
  | rparen
  | lbracket
  | rbracket
  | newline
  | semicolon
  deriving DecidableEq, Repr

namespace TokenKind

/-- Every class, in a fixed order. -/
def all : List TokenKind :=
  [identifier, this, number, string, bool, null, relation, operator, not, assign, dot, comma,
    lparen, rparen, lbracket, rbracket, newline, semicolon]

/-- Whether a token of this class ends a statement. -/
def isSeparator : TokenKind → Bool
  | newline | semicolon => true
  | _ => false

end TokenKind

/-- A classified stretch of the source. -/
structure Token where
  kind : TokenKind
  span : Span
  deriving DecidableEq, Repr

namespace Token

/-- What the source says at the token's place. -/
def text (t : Token) (source : String) : String :=
  t.span.text source

end Token

end MembershipLowering
