import MembershipLowering.Arena.Purity
import MembershipLowering.Lowering.State
import MembershipLowering.Options.Basic

/-! # Lowering a document

Nodes are visited from the outside in, statements in the order of the source.
Each kind of node has its own small set of edits; membership tests are handed to
their rule, with the traversal itself as the host. The traversal goes down
`maxDepth` levels and no further, whatever the node table looks like.

What is done at one node is told for any state to which the actions on `State`
can be lifted, so that a traversal may keep more in its state than it needs.
-/

namespace MembershipLowering.Lowering

variable (d : Document) (o : Options)

/-- The state as it is now. -/
def current : Action State State :=
  get

def setNames (names : NameSupply) : Action State Unit :=
  modify fun s => { s with names := names }

/-- Use up the rule of a node. -/
def drop (n : NodeId) : Action State Unit :=
  modify (·.drop n)

/-- Insert a text into the draft. -/
def insert (offset : Nat) (text : String) : Action State Unit := do
  match (← get).draft.insert offset text with
  | .ok draft => modify fun s => { s with draft := draft }
  | .error e => throw (.edit e)

/-- Remove a part of the draft. -/
def remove (start stop : Nat) : Action State Unit := do
  match (← get).draft.remove start stop with
  | .ok draft => modify fun s => { s with draft := draft }
  | .error e => throw (.edit e)

/-- Write `text` in place of a part of the source. -/
def replace (span : Span) (text : String) : Action State Unit := do
  remove span.start span.stop
  insert span.start text

def node (n : NodeId) : Action State Node :=
  match d.arena.get? n with
  | some node => pure node
  | none => throw (.missingNode n)

def extent (n : NodeId) : Action State Extent := do
  return (← node d n).extent

/-- The receiver form of a node; one that does not exist has the weakest. -/
def form (n : NodeId) : ReceiverForm :=
  match d.arena.get? n with
  | some node => .ofKind node.kind
  | none => .other

/-- `@` becomes `this`. -/
def lowerThis (content : Span) : Action State Unit :=
  if content.text d.source = "@" then replace content "this" else pure ()

section Visit

/- How parts are lowered: `visit` goes one level down. -/
variable {σ : Type} [MonadLiftT (Action State) (Action σ)] (visit : NodeId → Action σ Unit)

/-- Lower a node and read its lowered text. -/
def code (n : NodeId) : Action σ String := do
  visit n
  let x ← extent d n
  match (← current).draft.slice x.outer.start x.outer.stop with
  | .ok text => return text
  | .error e => throw (.edit e)

/-- Lower a node so that its value can be used again. A pure node is repeated as
    it is, unless `force` is set; any other is stored in a fresh temporary. -/
def name (n : NodeId) (base : String) (force : Bool) : Action σ String := do
  if !force && d.arena.isPure n then
    code d visit n
  else
    let some (name, names) := (← current).names.claim? base
      | throw (.namesExhausted base)
    setNames names
    let x ← extent d n
    insert x.content.start (name ++ " = ")
    visit n
    return name

/-- The traversal as the host of the membership rule. -/
def host : Host σ where
  loose _ := o.looseIncludes
  form _ := form d
  isPure := d.arena.isPure
  extent n := extent d n
  lower := visit
  lowerToCode := code d visit
  lowerToName := name d visit
  insert offset text := insert offset text
  remove start stop := remove start stop

/-- A statement is closed by a semicolon, unless the source has one already. Else
    a next statement that begins with a bracket would continue it. -/
def lowerStatement (n : NodeId) : Action σ Unit := do
  let x ← extent d n
  if (← current).needsParens n then
    insert x.outer.start "("
    visit n
    insert x.outer.stop ")"
  else
    visit n
  if !d.isTerminatedAt x.outer.stop then
    insert x.outer.stop ";"

/-- `@name` becomes `this.name`. -/
def lowerMember (object : NodeId) (name : Span) : Action σ Unit := do
  let part ← node d object
  let content := part.extent.content
  if part.kind = .atom .this ∧ content.text d.source = "@" ∧ content.stop = name.start then
    replace content "this."
  else
    visit object

/-- `not` becomes `!`. In front of a membership test it goes away, since the rule
    of the test has taken it up. -/
def lowerNot (sign : Span) (operand : NodeId) : Action σ Unit := do
  let start := (← extent d operand).outer.start
  if d.arena.isMembership operand then
    remove sign.start start
  else if sign.text d.source ≠ "!" then
    replace ⟨sign.start, start⟩ "!"
  visit operand

/-- A binary operator is written the JavaScript way. -/
def lowerBinary (n left : NodeId) (operator : BinaryOperator) (right : NodeId) :
    Action σ Unit := do
  visit left
  match d.operatorToken? n operator.tokenKind with
  | some t => if t.text d.source ≠ operator.javaScript then replace t.span operator.javaScript
  | none => pure ()
  visit right

/-- A membership test is left to its rule, which is used up. -/
def lowerMembership (n : NodeId) : Action σ Unit := do
  match (← current).rule? n with
  | none => throw (.alreadyLowered n)
  | some rule =>
    drop n
    rule.lower (host d o visit)

/-- Lower a node, with its parts one level further down. -/
def lowerNode (n : NodeId) : Action σ Unit := do
  let node ← node d n
  match node.kind with
  | .program statements => statements.forM (lowerStatement d visit)
  | .atom .this => lowerThis d node.extent.content
  | .atom _ => pure ()
  | .array elements => elements.forM visit
  | .call callee arguments =>
    visit callee
    arguments.forM visit
  | .member object name => lowerMember d visit object name
  | .index object key =>
    visit object
    visit key
  | .not sign operand => lowerNot d visit sign operand
  | .binary left operator right => lowerBinary d visit n left operator right
  | .membership .. => lowerMembership d o visit n
  | .assign target value =>
    visit target
    visit value

end Visit

/-- Lower a node with `depth` levels to go. -/
def lower : (depth : Nat) → NodeId → Action State Unit
  | 0, n => throw (.tooDeep n)
  | depth + 1, n => lowerNode d o (lower depth) n

end MembershipLowering.Lowering
