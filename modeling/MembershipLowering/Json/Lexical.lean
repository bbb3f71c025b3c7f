import MembershipLowering.Reading
import MembershipLowering.Text.Slice

/-! # Words of JSON

Spaces, literals, quoted texts and numerals, each read off the front of a text.
A value that is going to be used is read with more care than one that is
skipped: only then surrogates have to come in pairs, and a numeral that breaks
off at the end of the text counts as incomplete.
-/

namespace MembershipLowering.Json

/-- What is wrong with a text. -/
inductive Fault where
  /-- The text ends too early. -/
  | incomplete
  /-- Some character cannot stand where it stands. -/
  | malformed
  deriving DecidableEq, Repr

/-- What a value is read for. -/
inductive Purpose where
  | use
  | skip
  deriving DecidableEq, Repr

def isSpace (c : Char) : Bool :=
  c == ' ' || c == '\n' || c == '\t' || c == '\r'

/-- The first character that is no space. -/
def first? : (cs : List Char) → Option (Reading Char cs)
  | [] => none
  | c :: cs =>
    if isSpace c then (first? cs).map (·.since (by simp)) else some ⟨c, cs, by simp⟩

/-- What follows the given letters, which have to come next. -/
def letters : (word cs : List Char) → Except Fault { rest : List Char // rest.length ≤ cs.length }
  | [], cs => .ok ⟨cs, Nat.le_refl _⟩
  | _ :: _, [] => .error .incomplete
  | w :: word, c :: cs =>
    if w = c then (letters word cs).map fun r => ⟨r.1, Nat.le_succ_of_le r.2⟩
    else .error .malformed

/-! ## Quoted texts -/

/-- The value of a hexadecimal digit. -/
def hexDigit? (c : Char) : Option Nat :=
  if c.isDigit then some (c.toNat - '0'.toNat)
  else if 'a' ≤ c ∧ c ≤ 'f' then some (c.toNat - 'a'.toNat + 10)
  else if 'A' ≤ c ∧ c ≤ 'F' then some (c.toNat - 'A'.toNat + 10)
  else none

/-- Four hexadecimal digits. A text with fewer than four bytes left ends too
    early, whatever the bytes are. -/
def hexUnit : (cs : List Char) → Except Fault (Reading Nat cs)
  | a :: b :: c :: d :: rest =>
    match hexDigit? a, hexDigit? b, hexDigit? c, hexDigit? d with
    | some a, some b, some c, some d =>
      .ok ⟨((a * 16 + b) * 16 + c) * 16 + d, rest, by simp only [List.length_cons]; omega⟩
    | _, _, _, _ => .error .malformed
  | cs => .error (if Text.byteLength cs < 4 then .incomplete else .malformed)

/-- First halves of surrogate pairs. -/
def isHigh (unit : Nat) : Bool :=
  0xd800 ≤ unit && unit ≤ 0xdbff

/-- Second halves of surrogate pairs. -/
def isLow (unit : Nat) : Bool :=
  0xdc00 ≤ unit && unit ≤ 0xdfff

/-- The second half of a surrogate pair, as an escape of its own. -/
def lowEscape : (cs : List Char) → Except Fault (Reading Nat cs)
  | [] | ['\\'] => .error .incomplete
  | '\\' :: 'u' :: cs =>
    match hexUnit cs with
    | .error e => .error e
    | .ok low =>
      if isLow low.value then .ok (low.since (by simp only [List.length_cons]; omega))
      else .error .malformed
  | _ => .error .malformed

/-- The characters that an escape by number stands for, from behind its `u` on.
    A lone surrogate stands for none, and is accepted only where it is skipped. -/
def numberedEscape (purpose : Purpose) (cs : List Char) : Except Fault (Reading (List Char) cs) :=
  match hexUnit cs with
  | .error e => .error e
  | .ok unit =>
    if !isHigh unit.value && !isLow unit.value then .ok (unit.map fun n => [Char.ofNat n])
    else if purpose = .skip then .ok (unit.map fun _ => [])
    else if isLow unit.value then .error .malformed
    else
      match lowEscape unit.rest with
      | .error e => .error e
      | .ok low =>
        .ok ((unit.andThen low).map fun n =>
          [Char.ofNat (0x10000 + (unit.value - 0xd800) * 0x400 + (n - 0xdc00))])

/-- The character that an escape by letter stands for. -/
def letterEscape? : Char → Option Char
  | '"' => some '"'
  | '\\' => some '\\'
  | '/' => some '/'
  | 'b' => some '\x08'
  | 'f' => some '\x0c'
  | 'n' => some '\n'
  | 'r' => some '\r'
  | 't' => some '\t'
  | _ => none

/-- The characters that an escape stands for, from behind its backslash on. -/
def escape (purpose : Purpose) : (cs : List Char) → Except Fault (Reading (List Char) cs)
  | [] => .error .incomplete
  | c :: cs =>
    if c = 'u' then (numberedEscape purpose cs).map (·.since (by simp))
    else
      match letterEscape? c with
      | some d => .ok ⟨[d], cs, by simp⟩
      | none => .error .malformed

/-- A quoted text from behind its opening quote on. -/
def quoted (purpose : Purpose) (cs : List Char) : Except Fault (Reading (List Char) cs) :=
  match cs with
  | [] => .error .incomplete
  | c :: rest =>
    if c = '"' then .ok ⟨[], rest, by simp⟩
    else if c = '\\' then
      match escape purpose rest with
      | .error e => .error e
      | .ok e =>
        have := e.shorter
        match quoted purpose e.rest with
        | .error e => .error e
        | .ok tail => .ok ⟨e.value ++ tail.value, tail.rest, by
            have := tail.shorter
            simp only [List.length_cons]
            omega⟩
    else if c < ' ' then .error .malformed
    else
      match quoted purpose rest with
      | .error e => .error e
      | .ok tail => .ok ((tail.map (c :: ·)).since (by simp))
termination_by cs.length
decreasing_by
  all_goals simp only [List.length_cons]
  all_goals omega

end MembershipLowering.Json
