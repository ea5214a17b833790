/-!
This module contains binary64 numbers as exact data: a number is its 64 bits, and its magnitude is a
natural number of units of 2⁻¹⁰⁷⁴, the least positive magnitude.
-/

namespace VirtualDom

def twoPow (n : Nat) : Nat :=
  Nat.pow 2 n

def tenPow (n : Nat) : Nat :=
  Nat.pow 10 n

structure Number where
  bits : UInt64
deriving DecidableEq, Inhabited

namespace Number

def isNegative (x : Number) : Bool :=
  twoPow 63 ≤ x.bits.toNat

/-- The biased exponent: zero for zeros and subnormals, 2047 for infinities and NaNs. -/
def exponentField (x : Number) : Nat :=
  x.bits.toNat / twoPow 52 % twoPow 11

def fractionField (x : Number) : Nat :=
  x.bits.toNat % twoPow 52

def isFinite (x : Number) : Bool :=
  x.exponentField != 2047

def isNaN (x : Number) : Bool :=
  x.exponentField == 2047 && x.fractionField != 0

def isZero (x : Number) : Bool :=
  x.exponentField == 0 && x.fractionField == 0

def spacing (x : Number) : Nat :=
  twoPow (x.exponentField - 1)

/-- The magnitude of a finite number in units. -/
def units (x : Number) : Nat :=
  if x.exponentField = 0 then x.fractionField else (twoPow 52 + x.fractionField) * x.spacing

/--
Numeric equality: both zeros are equal, a NaN equals nothing, and any other number has one bit
pattern.
-/
def same (x y : Number) : Bool :=
  !x.isNaN && !y.isNaN && (x.bits == y.bits || (x.isZero && y.isZero))

end Number
end VirtualDom
