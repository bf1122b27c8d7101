import MiniC.Decimal.Binary64

namespace MiniC

/-- The number `digits * 10 ^ exponent`. -/
structure Decimal where
  digits : Nat
  exponent : Int
  deriving DecidableEq

namespace Decimal

def length (n : Nat) : Nat := (Nat.toDigits 10 n).length

/-- Moves the zeros at the end of the digits into the exponent. -/
def normalize (d : Decimal) : Decimal :=
  if d.digits ≠ 0 ∧ d.digits % 10 = 0 then
    normalize ⟨d.digits / 10, d.exponent + 1⟩
  else
    d
termination_by d.digits
decreasing_by exact Nat.div_lt_self (by omega) (by omega)

/-- The digits in full: with zeros up to the unit, or with a point and the places after it. -/
def positional (d : Decimal) : String :=
  let text := Nat.toDigits 10 d.digits
  if 0 ≤ d.exponent then
    String.ofList (text ++ List.replicate d.exponent.toNat '0')
  else
    let places := (-d.exponent).toNat
    let padded := List.replicate (places + 1 - text.length) '0' ++ text
    let whole := padded.length - places
    String.ofList (padded.take whole ++ '.' :: padded.drop whole)

/-- A positive fraction `num / den` and the bounds `low / den` and `high / den` between which all
numbers read back as the same; the bounds themselves do if `closed`. -/
structure Range where
  low : Nat
  num : Nat
  high : Nat
  den : Nat
  closed : Bool

namespace Range

/-- Around `mantissa * 2 ^ exponent`: halfway to either neighbour. The lower neighbour is nearer by
half where the mantissa is the least of its scale. -/
def around (mantissa : Nat) (exponent : Int) : Range :=
  let below :=
    if mantissa = Binary64.hiddenBit ∧ exponent ≠ Binary64.leastExponent then 1 else 2
  let up := 1 <<< (exponent - 2).toNat
  { low := (4 * mantissa - below) * up
    num := 4 * mantissa * up
    high := (4 * mantissa + 2) * up
    den := 1 <<< (2 - exponent).toNat
    closed := mantissa % 2 == 0 }

/-- The least `k` with `num / den < 10 ^ k`. -/
def magnitude (r : Range) : Int :=
  if r.den ≤ r.num then length (r.num / r.den) else 1 - length ((r.den - 1) / r.num)

def holds (r : Range) (a b : Nat) : Bool :=
  if r.closed then r.low * b ≤ a && a ≤ r.high * b else r.low * b < a && a < r.high * b

/-- The point of the grid of `count` digits that reads back: the neighbour of the number below or
above it, the nearer one if both do, and the upper one in the middle. -/
def onGrid? (r : Range) (count : Nat) : Option Decimal :=
  let exponent := r.magnitude - count
  let grow := Nat.pow 10 (-exponent).toNat
  let shrink := Nat.pow 10 exponent.toNat
  let step := r.den * shrink
  let below := r.num * grow / step
  let above := below + 1
  let rest := r.num * grow % step
  match r.holds (below * step) grow, r.holds (above * step) grow with
  | true, true => some ⟨if 2 * rest < step then below else above, exponent⟩
  | true, false => some ⟨below, exponent⟩
  | false, true => some ⟨above, exponent⟩
  | false, false => none

end Range

/-- Seventeen digits tell all numbers apart. -/
def mostDigits : Nat := 17

/-- The shortest decimal that reads back as `mantissa * 2 ^ exponent`, which is positive. -/
def shortest (mantissa : Nat) (exponent : Int) : Decimal :=
  let r := Range.around mantissa exponent
  match (List.range mostDigits).findSome? fun n => r.onGrid? (n + 1) with
  | some d => d.normalize
  | none => ⟨0, 0⟩

end Decimal

namespace Binary64

def text (x : Binary64) : String :=
  let sign := if x.isNegative then "-" else ""
  match x.number with
  | .notANumber => "NaN"
  | .infinite => sign ++ "inf"
  | .finite 0 _ => sign ++ "0"
  | .finite mantissa exponent => sign ++ (Decimal.shortest mantissa exponent).positional

end Binary64

end MiniC
