import MembershipLowering.Expr.Basic
import MembershipLowering.Reading
import MembershipLowering.Token.Lexer

/-! # Reading expressions

Recursive descent over the list of tokens. From loosest to tightest: `=`, which
groups to the right; `or`; `and`; comparisons; the relations `in`, `not in` and
`instanceof`; sums; products; `not`; calls and member access. Binary levels
group to the left.

Every reader returns a shorter list of tokens than it was given, and says so in
its type (`Reading`), so that the loops end. Nesting is bounded by `maxDepth`: the
readers of one depth (`Nested`) are built from those one level further in.
-/

namespace MembershipLowering

/-- How deeply expressions may be nested, in the source and while lowering. -/
def maxDepth : Nat := 200

/-- What the grammar asks for at some place. -/
inductive Expectation where
  | expression
  | propertyName
  | closingBracket
  | closingParenthesis
  deriving DecidableEq, Repr

namespace Expectation

def text : Expectation → String
  | expression => "expression"
  | propertyName => "property name"
  | closingBracket => "']'"
  | closingParenthesis => "')'"

end Expectation

/-- Why a source text is rejected. -/
inductive ParseError.Cause where
  | lexical (cause : LexError.Cause)
  /-- Something else than the grammar asks for, or the end of the text. -/
  | expected (what : Expectation) (found : Option String)
  /-- A token behind a complete statement on the same line. -/
  | unexpected (found : String)
  | invalidTarget
  /-- An operator token without a meaning. -/
  | unknownOperator (found : String)
  | tooDeep
  deriving DecidableEq, Repr

namespace ParseError.Cause

def text : ParseError.Cause → String
  | lexical cause => cause.text
  | expected what (some found) => "expected " ++ what.text ++ ", found '" ++ found ++ "'"
  | expected what none => "expected " ++ what.text ++ ", found end of input"
  | unexpected found => "unexpected '" ++ found ++ "'"
  | invalidTarget => "invalid assignment target"
  | unknownOperator found => "unknown operator '" ++ found ++ "'"
  | tooDeep => "expression nested too deeply"

end ParseError.Cause

/-- A cause and the part of the source that it is about. -/
structure ParseError where
  cause : ParseError.Cause
  span : Span
  deriving DecidableEq, Repr

namespace ParseError

def message (e : ParseError) : String :=
  e.cause.text ++ " at " ++ toString e.span.start ++ ".." ++ toString e.span.stop

end ParseError

namespace Parser

/-- The next token and the tokens behind it. Inside brackets newlines are
    passed over. -/
def next? (inside : Bool) : (ts : List Token) → Option (Reading Token ts)
  | [] => none
  | t :: ts =>
    if inside && t.kind = .newline then
      (next? inside ts).map (·.since (by simp))
    else some ⟨t, ts, by simp⟩

/-- The empty span at the end of the source. -/
def endSpan (source : String) : Span :=
  .point (Text.byteLength source.toList)

/-- The complaint that the tokens do not begin with what is asked for. -/
def unmet (source : String) (what : Expectation) (inside : Bool) (ts : List Token) : ParseError :=
  match next? inside ts with
  | some t => ⟨.expected what (some (t.value.text source)), t.value.span⟩
  | none => ⟨.expected what none, endSpan source⟩

/-- The next token, which has to be of the given class. -/
def expect (source : String) (kind : TokenKind) (what : Expectation) (inside : Bool)
    (ts : List Token) : Except ParseError (Reading Token ts) :=
  match next? inside ts with
  | some t => if t.value.kind = kind then .ok t else .error (unmet source what inside ts)
  | none => .error (unmet source what inside ts)

/-- The readers that go one level deeper. Their first argument tells whether
    they stand inside brackets. -/
structure Nested where
  assignment : Bool → (ts : List Token) → Except ParseError (Reading Expr ts)
  /-- An operand of operators that bind tighter than the given level. -/
  operand : Nat → Bool → (ts : List Token) → Except ParseError (Reading Expr ts)
  unary : Bool → (ts : List Token) → Except ParseError (Reading Expr ts)

/-- Expressions separated by commas up to the closing token, of which a last
    comma is allowed. The opening token has been read. -/
def items (source : String) (inner : Nested) (close : TokenKind) (what : Expectation)
    (ts : List Token) : Except ParseError (Reading (List Expr × Token) ts) :=
  let more : Except ParseError (Reading (List Expr × Token) ts) :=
    match inner.assignment true ts with
    | .error e => .error e
    | .ok item =>
      let closed := (expect source close what true item.rest).map fun t =>
        item.andThen (t.map fun t => ([item.value], t))
      match next? true item.rest with
      | none => closed
      | some comma =>
        if comma.value.kind = .comma then
          have := Nat.lt_trans comma.shorter item.shorter
          (items source inner close what comma.rest).map fun tail =>
            (item.andThen comma).andThen (tail.map fun (es, t) => (item.value :: es, t))
        else closed
  match next? true ts with
  | some t => if t.value.kind = close then .ok (t.map fun t => ([], t)) else more
  | none => more
termination_by ts.length

/-- An expression up to the closing token. The opening token has been read. -/
def enclosed (source : String) (inner : Nested) (close : TokenKind) (what : Expectation)
    (ts : List Token) : Except ParseError (Reading (Expr × Token) ts) :=
  match inner.assignment true ts with
  | .error e => .error e
  | .ok e =>
    (expect source close what true e.rest).map fun t => e.andThen (t.map fun t => (e.value, t))

/-- The atom that a token stands for. -/
def atom? : TokenKind → Option Atom
  | .identifier => some .identifier
  | .this => some .this
  | .number => some .number
  | .string => some .string
  | .bool => some .bool
  | .null => some .null
  | _ => none

/-- An atom whose token has been read. The sign `@` and a name that touches it
    are a member of `this`. -/
def atom (source : String) (a : Atom) {ts : List Token} (t : Reading Token ts) : Reading Expr ts :=
  let object : Expr := .atom (.bare t.value.span) a
  if t.value.text source = "@" then
    match h : t.rest with
    | name :: rest =>
      if name.kind = .identifier ∧ name.span.start = t.value.span.stop then
        ⟨.member (.bare ⟨t.value.span.start, name.span.stop⟩) object name.span, rest, by
          have := t.shorter
          rw [h, List.length_cons] at this
          omega⟩
      else ⟨object, t.rest, t.shorter⟩
    | [] => ⟨object, t.rest, t.shorter⟩
  else ⟨object, t.rest, t.shorter⟩

/-- An atom, an array or an expression in parentheses. -/
def primary (source : String) (inner : Nested) (inside : Bool) (ts : List Token) :
    Except ParseError (Reading Expr ts) :=
  match next? inside ts with
  | none => .error (unmet source .expression inside ts)
  | some t =>
    match atom? t.value.kind with
    | some a => .ok (atom source a t)
    | none =>
      match t.value.kind with
      | .lbracket =>
        (items source inner .rbracket .closingBracket t.rest).map fun p =>
          t.andThen (p.map fun (es, close) =>
            .array (.bare ⟨t.value.span.start, close.span.stop⟩) es)
      | .lparen =>
        (enclosed source inner .rparen .closingParenthesis t.rest).map fun p =>
          t.andThen (p.map fun (e, close) => e.parenthesize t.value.span.start close.span.stop)
      | _ => .error (unmet source .expression inside ts)

/-- Member accesses and calls that follow an expression. Only a parenthesis that
    touches the expression makes a call. -/
def postfixes (source : String) (inner : Nested) (inside : Bool) {ts : List Token}
    (object : Reading Expr ts) : Except ParseError (Reading Expr ts) :=
  match next? inside object.rest with
  | none => .ok object
  | some t =>
    let outer := object.value.outer
    if t.value.kind = .dot then
      match expect source .identifier .propertyName inside t.rest with
      | .error e => .error e
      | .ok name =>
        have := Nat.lt_trans name.shorter t.shorter
        postfixes source inner inside ((object.andThen t).andThen (name.map fun name =>
          .member (.bare ⟨outer.start, name.span.stop⟩) object.value name.span))
    else if t.value.kind = .lbracket then
      match enclosed source inner .rbracket .closingBracket t.rest with
      | .error e => .error e
      | .ok key =>
        have := Nat.lt_trans key.shorter t.shorter
        postfixes source inner inside ((object.andThen t).andThen (key.map fun (key, close) =>
          .index (.bare ⟨outer.start, close.span.stop⟩) object.value key))
    else if t.value.kind = .lparen ∧ t.value.span.start = outer.stop then
      match items source inner .rparen .closingParenthesis t.rest with
      | .error e => .error e
      | .ok arguments =>
        have := Nat.lt_trans arguments.shorter t.shorter
        postfixes source inner inside ((object.andThen t).andThen (arguments.map fun (es, close) =>
          .call (.bare ⟨outer.start, close.span.stop⟩) object.value es))
    else .ok object
termination_by object.rest.length

/-- A negated expression, or a primary one with what follows it. -/
def unary (source : String) (inner : Nested) (inside : Bool) (ts : List Token) :
    Except ParseError (Reading Expr ts) :=
  let unsigned : Except ParseError (Reading Expr ts) :=
    match primary source inner inside ts with
    | .error e => .error e
    | .ok p => postfixes source inner inside p
  match next? inside ts with
  | none => unsigned
  | some t =>
    if t.value.kind = .not then
      (inner.unary inside t.rest).map fun operand =>
        t.andThen (operand.map fun e => .not (.bare (t.value.span.cover e.outer)) t.value.span e)
    else unsigned

/-- The level of the operator that a token stands for. -/
def level? (source : String) (t : Token) : Option Nat :=
  match t.kind with
  | .relation => some BinaryOperator.relationLevel
  | .operator => (BinaryOperator.ofText? (t.text source)).map BinaryOperator.level
  | _ => none

/-- The expression that the operator token `t` makes of its two operands. A
    relation other than `instanceof` is a membership test. -/
def combine (source : String) (t : Token) (left right : Expr) : Except ParseError Expr :=
  let extent := Extent.bare (left.outer.cover right.outer)
  let text := t.text source
  if t.kind = .relation ∧ text ≠ "instanceof" then
    .ok (.membership extent left right (text ≠ "in"))
  else
    match BinaryOperator.ofText? text with
    | some operator => .ok (.binary extent left operator right)
    | none => .error ⟨.unknownOperator text, t.span⟩

/-- The operators tighter than `level` that follow an expression, with their
    right operands. -/
def operators (source : String) (inner : Nested) (level : Nat) (inside : Bool) {ts : List Token}
    (left : Reading Expr ts) : Except ParseError (Reading Expr ts) :=
  match next? inside left.rest with
  | none => .ok left
  | some t =>
    match level? source t.value with
    | none => .ok left
    | some own =>
      if own ≤ level then .ok left
      else
        match inner.operand own inside t.rest with
        | .error e => .error e
        | .ok right =>
          match combine source t.value left.value right.value with
          | .error e => .error e
          | .ok e =>
            have := Nat.lt_trans right.shorter t.shorter
            operators source inner level inside
              ((left.andThen t).andThen (right.map fun _ => e))
termination_by left.rest.length

/-- An expression of operators tighter than `level`. -/
def operand (source : String) (inner : Nested) (level : Nat) (inside : Bool) (ts : List Token) :
    Except ParseError (Reading Expr ts) :=
  match unary source inner inside ts with
  | .error e => .error e
  | .ok left => operators source inner level inside left

/-- An assignment, or any tighter expression. -/
def assignment (source : String) (inner : Nested) (inside : Bool) (ts : List Token) :
    Except ParseError (Reading Expr ts) :=
  match operand source inner 0 inside ts with
  | .error e => .error e
  | .ok target =>
    match next? inside target.rest with
    | none => .ok target
    | some t =>
      if t.value.kind ≠ .assign then .ok target
      else if !target.value.isTarget then .error ⟨.invalidTarget, t.value.span⟩
      else
        (inner.assignment inside t.rest).map fun value =>
          (target.andThen t).andThen (value.map fun e =>
            .assign (.bare (target.value.outer.cover e.outer)) target.value e)

/-- The readers with `depth` more levels below them. With none left they refuse
    whatever comes next. -/
def nested (source : String) : (depth : Nat) → Nested
  | 0 =>
    let refuse (inside : Bool) (ts : List Token) : Except ParseError (Reading Expr ts) :=
      .error ⟨.tooDeep, ((next? inside ts).map (·.value.span)).getD (endSpan source)⟩
    ⟨refuse, fun _ => refuse, refuse⟩
  | depth + 1 =>
    let inner := nested source depth
    ⟨assignment source inner, operand source inner, unary source inner⟩

/-- Statements, each ended by a newline, a semicolon or the end of the text. -/
def statements (source : String) (ts : List Token) : Except ParseError (List Expr) :=
  match ts with
  | [] => .ok []
  | t :: rest =>
    if t.kind.isSeparator then statements source rest
    else
      match (nested source maxDepth).assignment false (t :: rest) with
      | .error e => .error e
      | .ok e =>
        match _h : e.rest with
        | [] => .ok [e.value]
        | u :: later =>
          if u.kind.isSeparator then (statements source later).map (e.value :: ·)
          else .error ⟨.unexpected (u.text source), u.span⟩
termination_by ts.length
decreasing_by
  · simp
  · have := e.shorter
    rw [_h, List.length_cons] at this
    simp only [List.length_cons] at this ⊢
    omega

end Parser

end MembershipLowering
