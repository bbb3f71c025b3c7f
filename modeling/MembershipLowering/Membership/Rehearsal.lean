import MembershipLowering.Membership.Rule

/-! # Rehearsals

A host that acts by a script: it is told beforehand where each node stands, and
which edits lowering it makes. It keeps a log of what it is asked to do.
-/

namespace MembershipLowering

/-- What the script says about one node. -/
structure Part where
  /-- Where the node stands, if it exists. -/
  extent : Option Extent
  isPure : Bool
  /-- What lowering the node does. -/
  edits : List Draft.Edit
  deriving Repr

/-- A script for a rule on the nodes `0` and `1` in node `2`. -/
structure Script where
  left : Part
  right : Part
  whole : Part
  form : ReceiverForm
  loose : Bool
  /-- The name to give to stored operands, instead of the one asked for. -/
  name : Option String
  deriving Repr

namespace Rehearsal

/-- What the host has been asked to do. -/
inductive Call where
  | lower (node : NodeId)
  | lowerToCode (node : NodeId)
  | lowerToName (node : NodeId) (base : String) (force : Bool)
  | insert (offset : Nat) (text : String)
  | remove (start stop : Nat)
  deriving DecidableEq, Repr

/-- The draft so far and the calls so far, in order. -/
structure State where
  draft : Draft
  log : List Call

end Rehearsal

namespace Script

open Rehearsal

def part (s : Script) : NodeId → Part
  | 0 => s.left
  | 1 => s.right
  | _ => s.whole

/-- Write down a call. -/
def note (call : Call) : Action State Unit :=
  modify fun s => { s with log := s.log ++ [call] }

/-- Make an edit. -/
def edit (e : Draft.Edit) : Action State Unit := do
  match (← get).draft.apply e with
  | .ok draft => modify fun s => { s with draft := draft }
  | .error e => throw (.edit e)

/-- Make the edits that lowering a node consists of. -/
def act (s : Script) (n : NodeId) : Action State Unit :=
  (s.part n).edits.forM edit

def extent (s : Script) (n : NodeId) : Action State Extent :=
  match (s.part n).extent with
  | some x => pure x
  | none => throw (.missingNode n)

/-- The host that acts by the script. -/
def host (s : Script) : Host State where
  loose _ := s.loose
  form _ _ := s.form
  isPure n := (s.part n).isPure
  extent := s.extent
  lower n := do
    note (.lower n)
    s.act n
  lowerToCode n := do
    note (.lowerToCode n)
    s.act n
    let x ← s.extent n
    match (← get).draft.slice x.outer.start x.outer.stop with
    | .ok code => return code
    | .error e => throw (.edit e)
  lowerToName n base force := do
    note (.lowerToName n base force)
    let name := s.name.getD base
    let x ← s.extent n
    edit (.insert x.content.start (name ++ " = "))
    s.act n
    return name
  insert offset text := do
    note (.insert offset text)
    edit (.insert offset text)
  remove start stop := do
    note (.remove start stop)
    edit (.remove start stop)

end Script

end MembershipLowering
