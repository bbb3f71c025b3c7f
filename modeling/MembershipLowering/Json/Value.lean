import MembershipLowering.Json.Numeral

/-! # Values of JSON

Values are read by recursive descent. A value that is going to be used may be
nested up to a limit, and its numbers have to exist; a value that is skipped may
be anything of the right form.
-/

namespace MembershipLowering.Json

/-- What a value is, without the parts of arrays and objects. -/
inductive Value where
  | null
  | bool (b : Bool)
  | number (n : Numeral)
  | string (cs : List Char)
  | array
  | object
  deriving DecidableEq, Repr

/-- How closely a value is read: how many more brackets may be open, or nothing
    if it is skipped. -/
abbrev Limit := Option Nat

namespace Limit

def purpose : Limit → Purpose
  | some _ => .use
  | none => .skip

/-- The limit behind one more bracket. -/
def enter? : Limit → Option Limit
  | some 0 | some 1 => none
  | some (depth + 2) => some (some (depth + 1))
  | none => some none

end Limit

/-- A numeral. One that is going to be used has to have a value. -/
def numeral (purpose : Purpose) (negative : Bool) (cs : List Char) :
    Except Fault (Reading Value cs) :=
  match Numeral.unsigned purpose negative cs with
  | .error e => .error e
  | .ok n =>
    if purpose = .use ∧ !n.value.hasValue then .error .malformed else .ok (n.map .number)

mutual

/-- A value behind any spaces. -/
def value (limit : Limit) (cs : List Char) : Except Fault (Reading Value cs) :=
  match first? cs with
  | none => .error .incomplete
  | some c =>
    have := c.shorter
    match c.value with
    | 'n' =>
      (letters ['u', 'l', 'l'] c.rest).map fun r => ⟨.null, r.1, Nat.lt_of_le_of_lt r.2 c.shorter⟩
    | 't' =>
      (letters ['r', 'u', 'e'] c.rest).map fun r =>
        ⟨.bool true, r.1, Nat.lt_of_le_of_lt r.2 c.shorter⟩
    | 'f' =>
      (letters ['a', 'l', 's', 'e'] c.rest).map fun r =>
        ⟨.bool false, r.1, Nat.lt_of_le_of_lt r.2 c.shorter⟩
    | '"' => (quoted limit.purpose c.rest).map fun r => (c.andThen r).map .string
    | '-' => (numeral limit.purpose true c.rest).map c.andThen
    | '[' =>
      match Limit.enter? limit with
      | none => .error .malformed
      | some inner =>
        match first? c.rest with
        | none => .error .incomplete
        | some close =>
          if close.value = ']' then .ok ((c.andThen close).map fun _ => .array)
          else (elements inner c.rest).map fun r => (c.andThen r).map fun _ => .array
    | '\x7b' =>
      match Limit.enter? limit with
      | none => .error .malformed
      | some inner =>
        match first? c.rest with
        | none => .error .incomplete
        | some close =>
          if close.value = '\x7d' then .ok ((c.andThen close).map fun _ => .object)
          else (members inner c.rest).map fun r => (c.andThen r).map fun _ => .object
    | d =>
      if d.isDigit then
        -- The digit is part of the numeral, which is read from the digit on.
        (numeral limit.purpose false (d :: c.rest)).map fun n =>
          ⟨n.value, n.rest, by
            have := n.shorter
            simp only [List.length_cons] at this
            omega⟩
      else .error .malformed
termination_by 2 * cs.length

/-- The elements of an array, of which there is at least one, and its closing
    bracket. -/
def elements (limit : Limit) (cs : List Char) : Except Fault (Reading Unit cs) :=
  match value limit cs with
  | .error e => .error e
  | .ok element =>
    match first? element.rest with
    | none => .error .incomplete
    | some c =>
      have := element.shorter
      have := c.shorter
      match c.value with
      | ']' => .ok ((element.andThen c).map fun _ => ())
      | ',' => (elements limit c.rest).map (element.andThen c).andThen
      | _ => .error .malformed
termination_by 2 * cs.length + 1

/-- The members of an object, of which there is at least one, and its closing
    brace. -/
def members (limit : Limit) (cs : List Char) : Except Fault (Reading Unit cs) :=
  match first? cs with
  | none => .error .incomplete
  | some quote =>
    if quote.value ≠ '"' then .error .malformed
    else
      match quoted limit.purpose quote.rest with
      | .error e => .error e
      | .ok key =>
        match first? key.rest with
        | none => .error .incomplete
        | some colon =>
          have := quote.shorter
          have := key.shorter
          have := colon.shorter
          if colon.value ≠ ':' then .error .malformed
          else
            match value limit colon.rest with
            | .error e => .error e
            | .ok part =>
              match first? part.rest with
              | none => .error .incomplete
              | some c =>
                have := part.shorter
                have := c.shorter
                match c.value with
                | '\x7d' => .ok ⟨(), c.rest, by omega⟩
                | ',' => (members limit c.rest).map fun r => r.since (by omega)
                | _ => .error .malformed
termination_by 2 * cs.length

end

end MembershipLowering.Json
