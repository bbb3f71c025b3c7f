import MembershipLowering.Json.Lexical

/-! # Numerals of JSON

A numeral is read into its digits first. Its value is an integer where one of 64
bits will do, and a double precision number otherwise: of the digits, as many as
fit into 64 bits are kept, and the rest moves the exponent.
-/

namespace MembershipLowering.Json

/-- A numeral as it is written. -/
structure Numeral where
  negative : Bool
  whole : List Nat
  fraction : List Nat
  /-- Whether the exponent is negative, and its digits. -/
  exponent : Option (Bool × List Nat)
  deriving DecidableEq, Repr

namespace Numeral

/-- The fault of a numeral that breaks off where the text ends. -/
def atEnd : Purpose → Fault
  | .use => .incomplete
  | .skip => .malformed

/-- One digit or more. -/
def digits (purpose : Purpose) : (cs : List Char) → Except Fault (Reading (List Nat) cs)
  | [] => .error (atEnd purpose)
  | c :: cs =>
    if c.isDigit then
      .ok ⟨((c :: cs.takeWhile Char.isDigit)).map fun d => d.toNat - '0'.toNat,
        cs.dropWhile Char.isDigit,
        Nat.lt_succ_of_le (List.dropWhile_suffix (l := cs) Char.isDigit).length_le⟩
    else .error .malformed

/-- The digits in front of the point. A zero stands alone. -/
def wholePart (purpose : Purpose) (cs : List Char) : Except Fault (Reading (List Nat) cs) :=
  match digits purpose cs with
  | .error e => .error e
  | .ok ds =>
    if ds.value.head? = some 0 ∧ 1 < ds.value.length then .error .malformed else .ok ds

/-- A point and digits, if a point follows. -/
def fractionPart (purpose : Purpose) {cs : List Char} (n : Reading Numeral cs) :
    Except Fault (Reading Numeral cs) :=
  match h : n.rest with
  | '.' :: rest =>
    (digits purpose rest).map fun ds =>
      (ds.map fun ds => { n.value with fraction := ds }).since (by
        have := n.shorter
        rw [h, List.length_cons] at this
        omega)
  | _ => .ok n

/-- An exponent, if one follows. -/
def exponentPart (purpose : Purpose) {cs : List Char} (n : Reading Numeral cs) :
    Except Fault (Reading Numeral cs) :=
  let withDigits (negative : Bool) (rest : List Char) (shorter : rest.length < cs.length) :=
    (digits purpose rest).map fun ds =>
      (ds.map fun ds => { n.value with exponent := some (negative, ds) }).since shorter
  match h : n.rest with
  | c :: rest =>
    have rest_shorter : rest.length < cs.length := by
      have := n.shorter
      rw [h, List.length_cons] at this
      omega
    if c = 'e' ∨ c = 'E' then
      match rest with
      | '+' :: rest => withDigits false rest (Nat.lt_of_succ_lt rest_shorter)
      | '-' :: rest => withDigits true rest (Nat.lt_of_succ_lt rest_shorter)
      | rest => withDigits false rest rest_shorter
    else .ok n
  | [] => .ok n

/-- A numeral from behind its sign on. -/
def unsigned (purpose : Purpose) (negative : Bool) (cs : List Char) :
    Except Fault (Reading Numeral cs) :=
  match wholePart purpose cs with
  | .error e => .error e
  | .ok whole =>
    match fractionPart purpose (whole.map fun ds => ⟨negative, ds, [], none⟩) with
    | .error e => .error e
    | .ok n => exponentPart purpose n

/-- The greatest number that is kept without rounding. -/
def maxKept : Nat := Nat.pow 2 64 - 1

/-- Append digits to a number as long as it stays within `maxKept`. -/
def keep (kept : Nat) : List Nat → Nat × List Nat
  | [] => (kept, [])
  | d :: ds => if kept * 10 + d ≤ maxKept then keep (kept * 10 + d) ds else (kept, d :: ds)

/-- The integer that the numeral stands for, if it is written as one and fits. A
    negative zero is no integer. -/
def integer? (n : Numeral) : Option Int :=
  match n.fraction, n.exponent, keep 0 n.whole with
  | [], none, (m, []) =>
    if !n.negative then some m
    else if 0 < m ∧ m ≤ Nat.pow 2 63 then some (-m)
    else none
  | _, _, _ => none

/-- A power of ten as the nearest double. -/
def powerOfTen (exponent : Nat) : Float :=
  .ofScientific 1 false exponent

/-- The greatest exponent of a power of ten among the doubles. -/
def maxPower : Nat := 308

/-- Divide by a power of ten, in steps if the power is no double. -/
def shrink (x : Float) (exponent : Nat) : Float :=
  if _h : exponent ≤ maxPower then x / powerOfTen exponent
  else if x == 0 then x
  else shrink (x / powerOfTen maxPower) (exponent - maxPower)
termination_by exponent
decreasing_by
  have : 0 < maxPower := by decide
  omega

/-- Multiply by a power of ten, unless the product is beyond the doubles. -/
def grow? (x : Float) (exponent : Nat) : Option Float :=
  if exponent ≤ maxPower then
    let product := x * powerOfTen exponent
    if product.isInf then none else some product
  else if x == 0 then some x
  else none

/-- The greatest exponent that is taken as it is; a greater one, in size, makes
    the number zero or puts it beyond the doubles. -/
def maxExponent : Nat := Nat.pow 2 31 - 1

/-- The double that the numeral stands for, if it is not beyond the doubles. -/
def float? (n : Numeral) : Option Float :=
  let (m, moved) := keep 0 n.whole
  let (m, dropped) := keep m n.fraction
  let shift : Int := (moved.length : Int) - ((n.fraction.length - dropped.length : Nat) : Int)
  let scale (shift : Int) : Option Float :=
    let x := (UInt64.ofNat m).toFloat
    match shift with
    | .ofNat up => grow? x up
    | .negSucc down => some (shrink x (down + 1))
  let size :=
    match n.exponent with
    | none => scale shift
    | some (down, ds) =>
      let e := ds.foldl (fun e d => e * 10 + d) 0
      if e ≤ maxExponent then scale (if down then shift - e else shift + e)
      else if m ≠ 0 ∧ !down then none
      else some 0
  size.map fun x => if n.negative then -x else x

/-- Whether the numeral has a value. -/
def hasValue (n : Numeral) : Bool :=
  n.integer?.isSome || n.float?.isSome

end Numeral

end MembershipLowering.Json
