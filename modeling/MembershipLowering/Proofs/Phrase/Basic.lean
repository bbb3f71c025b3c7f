import MembershipLowering.Document

/-! # Phrases

The trees of the language apart from any source text, and how they are written down: one
blank between two tokens, none in front of the parenthesis of a call, and parentheses
around the operands that bind looser than their place asks for. Which of its spellings an
operator is written with is left open (`Spelling`).
-/

namespace MembershipLowering

/-- A tree of the language. -/
inductive Phrase where
  | atom (atom : Atom) (text : String)
  | array (elements : List Phrase)
  | call (callee : Phrase) (arguments : List Phrase)
  | member (object : Phrase) (name : String)
  | index (object key : Phrase)
  | not (operand : Phrase)
  | binary (left : Phrase) (operator : BinaryOperator) (right : Phrase)
  | membership (left right : Phrase) (negated : Bool)
  | assign (target value : Phrase)
  deriving Repr

/-- A token to be written, and whether it touches what is in front of it. -/
structure Word where
  kind : TokenKind
  text : String
  glued : Bool
  deriving DecidableEq, Repr

namespace Word

/-- A token behind a blank. -/
def plain (kind : TokenKind) (text : String) : Word :=
  ⟨kind, text, false⟩

def newline : Word :=
  ⟨.newline, "\n", true⟩

def gap (w : Word) : List Char :=
  if w.glued then [] else [' ']

/-- The characters of words, one behind the other. -/
def chars (ws : List Word) : List Char :=
  ws.flatMap fun w => w.gap ++ w.text.toList

/-- The first word has nothing in front of it. -/
def flush : List Word → List Word
  | [] => []
  | w :: ws => { w with glued := true } :: ws

end Word

/-- The words that are no names. -/
def reserved : List String :=
  ["this", "true", "false", "null", "in", "instanceof", "is", "isnt", "and", "or", "not"]

/-- Letters, digits, `_` and `$`, of which the first is no digit, but no reserved word. -/
def isName (text : String) : Bool :=
  text.toList.head?.any Lexeme.isWordStart && text.toList.all Lexeme.isWordPart &&
    text ∉ reserved

/-- Digits, which may be followed by a point and more digits. -/
def isNumeral (text : String) : Bool :=
  let whole := text.toList.takeWhile Char.isDigit
  whole ≠ [] &&
    match text.toList.dropWhile Char.isDigit with
    | [] => true
    | '.' :: fraction => fraction ≠ [] && fraction.all Char.isDigit
    | _ => false

/-- Whether a literal goes on to its closing quote and no further. A backslash takes the next
    character along; other newlines are not allowed. -/
def isClosedBy (quote : Char) : List Char → Bool
  | [] => false
  | '\\' :: _ :: cs => isClosedBy quote cs
  | c :: cs => if c = quote then cs.isEmpty else c ≠ '\n' && c ≠ '\\' && isClosedBy quote cs

def isQuoted (text : String) : Bool :=
  match text.toList with
  | [] => false
  | quote :: cs => (quote = '"' || quote = '\'') && isClosedBy quote cs

namespace Atom

def tokenKind : Atom → TokenKind
  | identifier => .identifier
  | this => .this
  | number => .number
  | string => .string
  | bool => .bool
  | null => .null

/-- Whether the text is one for such an atom. -/
def isSpelt : Atom → String → Bool
  | identifier, text => isName text
  | this, text => text = "this"
  | number, text => isNumeral text
  | string, text => isQuoted text
  | bool, text => text = "true" || text = "false"
  | null, text => text = "null"

end Atom

/-- How the operators with more than one spelling are written. -/
structure Spelling where
  operator : BinaryOperator → String
  negation : String
  spells : ∀ op, BinaryOperator.ofText? (operator op) = some op
  negates : negation = "not" ∨ negation = "!"

/-- Words wherever there are some. -/
def Spelling.inWords : Spelling where
  operator
    | .add => "+"
    | .subtract => "-"
    | .multiply => "*"
    | .divide => "/"
    | .modulo => "%"
    | .lessThan => "<"
    | .lessThanOrEqual => "<="
    | .greaterThan => ">"
    | .greaterThanOrEqual => ">="
    | .equal => "is"
    | .notEqual => "isnt"
    | .and => "and"
    | .or => "or"
    | .instanceOf => "instanceof"
  negation := "not"
  spells op := by cases op <;> rfl
  negates := .inl rfl

namespace Phrase

/-- How tight an operator binds: `or`, `and`, comparisons, relations, sums, products. -/
def operatorLevel : BinaryOperator → Nat
  | .or => 1
  | .and => 2
  | .equal | .notEqual | .lessThan | .lessThanOrEqual | .greaterThan | .greaterThanOrEqual => 3
  | .instanceOf => 4
  | .add | .subtract => 5
  | .multiply | .divide | .modulo => 6

/-- How tight the outermost construct binds: assignments looser than any operator, then the
    operators, `not`, and what ends in itself. -/
def level : Phrase → Nat
  | assign .. => 0
  | binary _ op _ => operatorLevel op
  | membership .. => 4
  | not _ => 7
  | atom .. | array _ | call .. | member .. | index .. => 8

/-- Whether a value may be assigned to the tree. -/
def isTarget : Phrase → Bool
  | atom .identifier _ | member .. | index .. => true
  | _ => false

mutual

/-- Whether the texts in the tree are ones for their places, and values are assigned to names
    and members only. -/
def isProper : Phrase → Bool
  | atom a text => a.isSpelt text
  | array ps => isProperAll ps
  | call f ps => f.isProper && isProperAll ps
  | member o name => o.isProper && isName name
  | index o k => o.isProper && k.isProper
  | not p => p.isProper
  | binary l _ r | membership l r _ => l.isProper && r.isProper
  | assign t v => t.isTarget && t.isProper && v.isProper

def isProperAll : List Phrase → Bool
  | [] => true
  | p :: ps => p.isProper && isProperAll ps

end

/-- Put the words of a tree that binds looser than `least` in parentheses. -/
def wrap (least : Nat) (p : Phrase) (ws : List Word) : List Word :=
  if p.level < least then .plain .lparen "(" :: (ws ++ [.plain .rparen ")"]) else ws

/-- Words with commas between them. -/
def separate (items : List (List Word)) : List Word :=
  List.intercalate [.plain .comma ","] items

mutual

/-- The tokens that the tree is written with. -/
def words (s : Spelling) : Phrase → List Word
  | atom a text => [.plain a.tokenKind text]
  | array ps => .plain .lbracket "[" :: (separate (wordsAll s ps) ++ [.plain .rbracket "]"])
  | call f ps =>
    wrap 8 f (words s f) ++
      ⟨.lparen, "(", true⟩ :: (separate (wordsAll s ps) ++ [.plain .rparen ")"])
  | member o name => wrap 8 o (words s o) ++ [.plain .dot ".", .plain .identifier name]
  | index o k =>
    wrap 8 o (words s o) ++ .plain .lbracket "[" :: (words s k ++ [.plain .rbracket "]"])
  | not p => .plain .not s.negation :: wrap 7 p (words s p)
  | binary l op r =>
    wrap (operatorLevel op) l (words s l) ++ .plain op.tokenKind (s.operator op) ::
      wrap (operatorLevel op + 1) r (words s r)
  | membership l r negated =>
    wrap 4 l (words s l) ++ .plain .relation (if negated then "not in" else "in") ::
      wrap 5 r (words s r)
  | assign t v => words s t ++ .plain .assign "=" :: words s v

def wordsAll (s : Spelling) : List Phrase → List (List Word)
  | [] => []
  | p :: ps => words s p :: wordsAll s ps

end

/-- One more level for parentheses, if the tree needs them. -/
def deepen (least : Nat) (p : Phrase) (depth : Nat) : Nat :=
  if p.level < least then depth + 1 else depth

mutual

/-- How deep the tree is nested when it is written down. Brackets, parentheses, `not`, right
    operands and assigned values are one level further in. -/
def depth : Phrase → Nat
  | atom .. => 1
  | array ps => depthAll ps + 1
  | call f ps => max (deepen 8 f f.depth) (depthAll ps + 1)
  | member o _ => deepen 8 o o.depth
  | index o k => max (deepen 8 o o.depth) (k.depth + 1)
  | not p => deepen 7 p p.depth + 1
  | binary l op r =>
    max (deepen (operatorLevel op) l l.depth) (deepen (operatorLevel op + 1) r r.depth + 1)
  | membership l r _ => max (deepen 4 l l.depth) (deepen 5 r r.depth + 1)
  | assign t v => max t.depth (v.depth + 1)

def depthAll : List Phrase → Nat
  | [] => 0
  | p :: ps => max p.depth (depthAll ps)

end

/-- The line on which a statement is written. -/
def line (s : Spelling) (p : Phrase) : List Char :=
  Word.chars (Word.flush (p.words s))

/-- Statements on lines of their own. -/
def print (s : Spelling) (ps : List Phrase) : String :=
  String.ofList (List.intercalate ['\n'] (ps.map (line s)))

end Phrase

end MembershipLowering
