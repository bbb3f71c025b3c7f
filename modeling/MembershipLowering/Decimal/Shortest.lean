/-! # Shortest decimals

A double stands for all reals that are rounded to it. Its shortest decimal is the
one on the coarsest grid of powers of ten that meets those reals, and of two
points of that grid the nearer one.
-/

namespace MembershipLowering.Decimal

/-- The positive number `mantissa * 2 ^ exponent`. -/
structure Binary where
  mantissa : Nat
  exponent : Int
  /-- Whether the next smaller double is half as far away as the next greater. -/
  crowded : Bool
  deriving DecidableEq, Repr

/-- The size of a double that is neither infinite nor no number. -/
def Binary.ofBits (bits : Nat) : Binary :=
  let fraction := bits % Nat.pow 2 52
  let exponent : Nat := bits / Nat.pow 2 52 % Nat.pow 2 11
  if exponent = 0 then ⟨fraction, -1074, false⟩
  else ⟨Nat.pow 2 52 + fraction, Int.ofNat exponent - 1075, fraction = 0 ∧ 1 < exponent⟩

/-- The number `digits * 10 ^ exponent`. -/
structure Scaled where
  digits : Nat
  exponent : Int
  deriving DecidableEq, Repr

/-- The point on the grid of `10 ^ k` that is nearest to `b`, if it or the other
    neighbour of `b` on the grid is rounded to `b`. -/
def Binary.onGrid? (b : Binary) (k : Int) : Option Scaled :=
  -- Quarters of the last binary place, and points of the grid, in one unit.
  let quarter := Nat.pow 2 (b.exponent - 2).toNat * Nat.pow 10 (-k).toNat
  let point := Nat.pow 10 k.toNat * Nat.pow 2 (2 - b.exponent).toNat
  let value := 4 * b.mantissa * quarter
  let low := value - (if b.crowded then 1 else 2) * quarter
  let high := value + 2 * quarter
  let meets (d : Nat) : Bool :=
    if b.mantissa % 2 = 0 then low ≤ d * point && d * point ≤ high
    else low < d * point && d * point < high
  let d := value / point
  let nearer :=
    if 2 * value < (2 * d + 1) * point ∨ (2 * value = (2 * d + 1) * point ∧ d % 2 = 0) then d
    else d + 1
  let other := if nearer = d then d + 1 else d
  if nearer ≠ 0 ∧ meets nearer then some ⟨nearer, k⟩
  else if other ≠ 0 ∧ meets other then some ⟨other, k⟩
  else none

/-- The exponents of the grids that are tried, from the coarsest on. Every double
    has a neighbour on the last of them. -/
def gridExponents : List Int :=
  (List.range 700).map fun i => 320 - Int.ofNat i

/-- The shortest decimal of a positive double. -/
def Binary.shortest (b : Binary) : Scaled :=
  (gridExponents.findSome? b.onGrid?).getD ⟨0, 0⟩

/-- Zeros, as many as asked for. -/
def zeros (count : Nat) : String :=
  String.ofList (List.replicate count '0')

/-- The text of a positive decimal. The point is written out where at most
    sixteen places stand before it, or at most four zeros between it and the first
    digit; elsewhere it stands behind the first digit and an exponent follows, with
    a sign in any case. -/
def Scaled.text (s : Scaled) : String :=
  let digits := (toString s.digits).toList
  let before : Int := digits.length + s.exponent
  if 0 ≤ s.exponent ∧ before ≤ 16 then
    String.ofList digits ++ zeros s.exponent.toNat ++ ".0"
  else if 0 < before ∧ before ≤ 16 then
    String.ofList (digits.take before.toNat) ++ "." ++ String.ofList (digits.drop before.toNat)
  else if -5 < before ∧ before ≤ 0 then
    "0." ++ zeros (-before).toNat ++ String.ofList digits
  else
    let exponent := (if 0 < before then "e+" else "e") ++ toString (before - 1)
    match digits with
    | [d] => String.ofList [d] ++ exponent
    | ds => String.ofList (ds.take 1) ++ "." ++ String.ofList (ds.drop 1) ++ exponent

example : (Scaled.mk 1 15).text = "1000000000000000.0" := by rfl
example : (Scaled.mk 1 16).text = "1e+16" := by rfl
example : (Scaled.mk 125 (-2)).text = "1.25" := by rfl
example : (Scaled.mk 1 (-5)).text = "0.00001" := by rfl
example : (Scaled.mk 12 (-7)).text = "1.2e-6" := by rfl

/-- The text of a double that is neither infinite nor no number. -/
def text (x : Float) : String :=
  let bits := x.toBits.toNat
  let b := Binary.ofBits bits
  (if bits / Nat.pow 2 63 = 1 then "-" else "") ++ if b.mantissa = 0 then "0.0" else b.shortest.text

end MembershipLowering.Decimal
