import MembershipLowering.Lowering.Traversal

/-! # Lowering a source text

`lowerSource` reads a source text and lowers all its statements.
-/

namespace MembershipLowering

/-- A lowered text. -/
structure Output where
  code : String
  /-- The temporaries in the text, in the order in which they were introduced.
      Nothing declares them yet. -/
  bindings : List String
  deriving DecidableEq, Repr

namespace Output

/-- The text behind a declaration of its temporaries, if there are any. -/
def declared (p : Output) : String :=
  if p.bindings.isEmpty then p.code
  else "var " ++ ", ".intercalate p.bindings ++ ";\n" ++ p.code

end Output

namespace Lowering

/-- Lower the statements of a document, from any state on. -/
def run (d : Document) (o : Options) : Action State Output := do
  (d.statements?.getD []).forM (lowerStatement d (lower d o maxDepth))
  let s ← get
  return ⟨s.draft.render, s.names.claimed⟩

end Lowering

namespace Document

/-- Lower a document. -/
def lower (d : Document) (o : Options) : Except Failure Output :=
  match (Lowering.run d o).run (.initial d) with
  | .ok output _ => .ok output
  | .error e _ => .error e

end Document

/-- Lower a source text. -/
def lowerSource (source : String) (o : Options) : Except Failure Output :=
  match Document.parse source with
  | .error e => .error (.parse e)
  | .ok d => d.lower o

end MembershipLowering
