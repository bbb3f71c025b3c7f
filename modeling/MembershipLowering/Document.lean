import MembershipLowering.Arena.Layout
import MembershipLowering.Expr.Parser
import MembershipLowering.Token.Search

/-! # Documents

A source text that has been read: its tokens and the table of its nodes. Besides
`Document.parse`, documents are also put together by hand, from any table and
any tokens.
-/

namespace MembershipLowering

/-- A source text with its tokens and nodes. -/
structure Document where
  source : String
  tokens : Array Token
  arena : Arena
  root : NodeId
  deriving Repr

namespace Document

/-- The nodes of a list of statements one after the other, and the program as
    the last node. -/
def layout (source : String) (statements : List Expr) : List Node :=
  Expr.layoutAll 0 statements ++
    [⟨.program (Expr.places 0 statements), .bare ⟨0, Text.byteLength source.toList⟩⟩]

/-- The document of a list of statements read from the source. -/
def ofStatements (source : String) (tokens : List Token) (statements : List Expr) : Document where
  source := source
  tokens := tokens.toArray
  arena := ⟨(layout source statements).toArray⟩
  root := Expr.countAll statements

/-- Read a source text. -/
def parse (source : String) : Except ParseError Document :=
  match Token.readAll source with
  | .error e => .error ⟨.lexical e.cause, .point e.position⟩
  | .ok tokens => (Parser.statements source tokens).map (ofStatements source tokens)

/-- The statements of the program. A root that is no program has none; a root
    that does not exist has no answer. -/
def statements? (d : Document) : Option (List NodeId) :=
  (d.arena.get? d.root).map fun node =>
    match node.kind with
    | .program statements => statements
    | _ => []

/-- Whether the first token at or behind `offset` is a semicolon. -/
def isTerminatedAt (d : Document) (offset : Nat) : Bool :=
  d.tokens[Token.firstFrom d.tokens offset]?.any (·.kind = .semicolon)

/-- The first token of class `kind` that starts in the node's own text but not in
    one of its parts. -/
def operatorToken? (d : Document) (n : NodeId) (kind : TokenKind) : Option Token :=
  match d.arena.get? n with
  | none => none
  | some node =>
    let content := node.extent.content
    let parts := (node.kind.children.filterMap d.arena.get?).map (·.extent.outer)
    (((d.tokens.toList.drop (Token.firstFrom d.tokens content.start)).takeWhile
        (·.span.start < content.stop)).filter
      fun t => !parts.any (·.contains t.span.start)).find? (·.kind = kind)

end Document

end MembershipLowering
