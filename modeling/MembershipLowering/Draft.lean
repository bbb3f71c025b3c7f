import MembershipLowering.Text.Slice

/-! # Drafts

A source text under edit. Every edit is addressed by offsets of the source as it
was, so edits do not move each other:

* texts inserted at one offset stand there in the order of their calls;
* a removal deletes what the source says in `[start, stop)` and the texts
  inserted so far in `(start, stop]`; what stands at `start` belongs to the text
  before it and stays, and so does everything inserted later.

A draft is a row of slots, one before each character and one at the end.
-/

namespace MembershipLowering

/-- A place between two characters of the source. -/
structure Slot where
  offset : Nat
  /-- The character behind the place; the last place has none. -/
  char : Option Char
  /-- Texts inserted here, in order. -/
  inserted : List String
  /-- Whether the character has been removed. -/
  removed : Bool
  deriving DecidableEq, Repr

namespace Slot

/-- What is left of the character. -/
def kept (s : Slot) : List Char :=
  if s.removed then [] else s.char.toList

/-- The inserted texts one after the other. -/
def insertedChars (s : Slot) : List Char :=
  s.inserted.flatMap String.toList

/-- The slot after a text has been inserted at byte `offset`. -/
def insert (offset : Nat) (text : String) (s : Slot) : Slot :=
  if s.offset = offset then { s with inserted := s.inserted ++ [text] } else s

/-- The slot after the source from `start` to `stop` has been removed. -/
def strike (start stop : Nat) (s : Slot) : Slot :=
  { s with
    inserted := if start < s.offset ∧ s.offset ≤ stop then [] else s.inserted
    removed := s.removed || (start ≤ s.offset && s.offset < stop) }

@[simp] theorem offset_insert (offset : Nat) (text : String) (s : Slot) :
    (s.insert offset text).offset = s.offset := by
  unfold insert
  split <;> rfl

@[simp] theorem offset_strike (start stop : Nat) (s : Slot) :
    (s.strike start stop).offset = s.offset := rfl

end Slot

/-- A source text and the edits made to it so far. -/
structure Draft where
  slots : List Slot
  /-- Length of the source in bytes. -/
  length : Nat
  deriving DecidableEq, Repr

namespace Draft

/-- Why an edit or a reading is refused. -/
inductive Error where
  | offsetOutOfBounds (offset length : Nat)
  | notBoundary (offset : Nat)
  | inverted (start stop : Nat)
  deriving DecidableEq, Repr

def Error.message : Error → String
  | offsetOutOfBounds offset length =>
    "offset " ++ toString offset ++ " is past the end of the source (" ++ toString length ++
      " bytes)"
  | notBoundary offset => "offset " ++ toString offset ++ " is not on a character boundary"
  | inverted start stop =>
    "range " ++ toString start ++ ".." ++ toString stop ++ " ends before it starts"

/-- The slots of an unedited text that begins at byte `offset`. -/
def slotsFrom (offset : Nat) : List Char → List Slot
  | [] => [⟨offset, none, [], false⟩]
  | c :: cs => ⟨offset, some c, [], false⟩ :: slotsFrom (offset + c.utf8Size) cs

/-- The draft of a source without edits. -/
def ofSource (source : String) : Draft :=
  ⟨slotsFrom 0 source.toList, Text.byteLength source.toList⟩

/-- Whether anything has been inserted or removed. -/
def isChanged (d : Draft) : Bool :=
  d.slots.any fun s => !s.inserted.isEmpty || s.removed

/-- What is wrong with an offset, if anything: it lies past the end, or between
    the bytes of a character. -/
def offsetError? (d : Draft) (offset : Nat) : Option Error :=
  if d.length < offset then some (.offsetOutOfBounds offset d.length)
  else if d.slots.any (·.offset = offset) then none
  else some (.notBoundary offset)

/-- What is wrong with a range, if anything. -/
def rangeError? (d : Draft) (start stop : Nat) : Option Error :=
  if stop < start then some (.inverted start stop)
  else (d.offsetError? start).or (d.offsetError? stop)

/-- Insert a text at an offset, behind what is there. -/
def insert (d : Draft) (offset : Nat) (text : String) : Except Error Draft :=
  match d.offsetError? offset with
  | some e => .error e
  | none =>
    if text = "" then .ok d else .ok { d with slots := d.slots.map (Slot.insert offset text) }

/-- Remove the source from `start` to `stop`. -/
def remove (d : Draft) (start stop : Nat) : Except Error Draft :=
  match d.rangeError? start stop with
  | some e => .error e
  | none => .ok { d with slots := d.slots.map (Slot.strike start stop) }

/-- What the draft says from `start` to `stop`, with the texts inserted at both
    ends. -/
def textBetween (d : Draft) (start stop : Nat) : String :=
  String.ofList <| (d.slots.filter fun s => start ≤ s.offset && s.offset ≤ stop).flatMap fun s =>
    s.insertedChars ++ if s.offset < stop then s.kept else []

/-- Read the draft from `start` to `stop`. -/
def slice (d : Draft) (start stop : Nat) : Except Error String :=
  match d.rangeError? start stop with
  | some e => .error e
  | none => .ok (d.textBetween start stop)

/-- The whole edited text. -/
def render (d : Draft) : String :=
  d.textBetween 0 d.length

/-- One call on a draft. -/
inductive Edit where
  | insert (offset : Nat) (text : String)
  | remove (start stop : Nat)
  | slice (start stop : Nat)
  deriving DecidableEq, Repr

/-- The draft after a call. A slice only reads, but may be refused. -/
def apply (d : Draft) : Edit → Except Error Draft
  | .insert offset text => d.insert offset text
  | .remove start stop => d.remove start stop
  | .slice start stop => (d.slice start stop).map fun _ => d

end Draft

end MembershipLowering
