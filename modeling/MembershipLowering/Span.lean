import MembershipLowering.Text.Slice

/-! # Spans of the source text

A `Span` is a half-open range of byte offsets. An `Extent` gives a piece of
syntax two of them: its own text, and the same with any parentheses around it.

    x in ((a or b))
         ^^^^^^^^^^  outer
           ^^^^^^    content

Offsets are natural numbers. They stand for numbers of 32 bits, and agree with
these in sources shorter than 2 ^ 32 bytes, where no offset is past the end.
-/

namespace MembershipLowering

/-- The bytes from `start` up to, but not including, `stop`. -/
structure Span where
  start : Nat
  stop : Nat
  deriving DecidableEq, Repr, Inhabited

namespace Span

/-- The empty span at one position. -/
def point (position : Nat) : Span :=
  ⟨position, position⟩

/-- Number of bytes covered; a span with its ends reversed covers none. -/
def length (s : Span) : Nat :=
  s.stop - s.start

def isEmpty (s : Span) : Bool :=
  s.stop ≤ s.start

/-- Whether the byte at `position` is covered. -/
def contains (s : Span) (position : Nat) : Bool :=
  s.start ≤ position && position < s.stop

/-- The smallest span that covers both. -/
def cover (s t : Span) : Span :=
  ⟨min s.start t.start, max s.stop t.stop⟩

/-- The text of a span. It is empty when the span does not fit the source or
    would cut a character. -/
def text (s : Span) (source : String) : String :=
  String.ofList ((Text.slice? s.start s.stop source.toList).getD [])

end Span

/-- Where a piece of syntax stands: `content` is its own text, and `outer` also
    takes in the parentheses written around it. -/
structure Extent where
  outer : Span
  content : Span
  deriving DecidableEq, Repr, Inhabited

namespace Extent

/-- The extent of syntax without parentheses around it. -/
def bare (content : Span) : Extent :=
  ⟨content, content⟩

/-- Widen the outer span to parentheses that begin at `start` and end at `stop`. -/
def wrap (e : Extent) (start stop : Nat) : Extent :=
  { e with outer := e.outer.cover ⟨start, stop⟩ }

end Extent

end MembershipLowering
