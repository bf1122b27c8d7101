namespace MiniC

structure Binary64 where
  bits : UInt64
  deriving DecidableEq, Inhabited

namespace Binary64

/-- The number behind the bits; a finite one has the size `mantissa * 2 ^ exponent`. -/
inductive Number where
  | notANumber
  | infinite
  | finite (mantissa : Nat) (exponent : Int)
  deriving DecidableEq

/-- The least exponent, which the subnormal numbers and zero share. -/
def leastExponent : Int := -1074

def hiddenBit : Nat := 1 <<< 52

def isNegative (x : Binary64) : Bool := x.bits.toNat >>> 63 == 1

def number (x : Binary64) : Number :=
  let fraction := x.bits.toNat % hiddenBit
  let scale := x.bits.toNat / hiddenBit % 2048
  if scale = 2047 then
    if fraction = 0 then .infinite else .notANumber
  else if scale = 0 then
    .finite fraction leastExponent
  else
    .finite (hiddenBit + fraction) (leastExponent + (scale - 1 : Nat))

/-- Equality of numbers: a NaN differs from all and the two zeros are the same. -/
def sameNumber (x y : Binary64) : Bool :=
  match x.number, y.number with
  | .notANumber, _ => false
  | .finite 0 _, .finite 0 _ => true
  | _, _ => x == y

end Binary64

end MiniC
