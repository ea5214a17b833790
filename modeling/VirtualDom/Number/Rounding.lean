import VirtualDom.Number.Basic

/-!
This module contains rounding of exact quotients to numbers: to the nearest one, a half to the even
neighbour, and to an infinity where no finite number is near enough.
-/

namespace VirtualDom

/-- The natural number nearest to `num / den`; of two, the even one. -/
def roundHalfEven (num den : Nat) : Nat :=
  let q := num / den
  let r := num % den
  if 2 * r < den then q
  else if den < 2 * r then q + 1
  else q + q % 2

namespace Number

def infiniteBits : Nat :=
  2047 * twoPow 52

def ofMagnitudeBits (negative : Bool) (bits : Nat) : Number :=
  ⟨UInt64.ofNat (if negative then twoPow 63 + bits else bits)⟩

/--
The number nearest to `num / den`. The magnitude bits of a number are monotone in its units, and a
significand that is rounded up to the next power of two carries into the exponent field by itself.
-/
def nearest (negative : Bool) (num den : Nat) : Number :=
  let shift := (num * twoPow 1074 / den).log2 - 52
  let significand := roundHalfEven (num * twoPow 1074) (den * twoPow shift)
  ofMagnitudeBits negative (min (shift * twoPow 52 + significand) infiniteBits)

def digitCount (n : Nat) : Nat :=
  (Nat.toDigits 10 n).length

/--
The number nearest to `digits * 10 ^ exponent`. Magnitudes from 10³¹⁰ on are infinite and those
below 10⁻³³⁰ are zero, so that no huge power is ever computed.
-/
def ofDecimal (negative : Bool) (digits : Nat) (exponent : Int) : Number :=
  let top := exponent + digitCount digits
  if digits = 0 ∨ top < -330 then ofMagnitudeBits negative 0
  else if 310 < top then ofMagnitudeBits negative infiniteBits
  else nearest negative (digits * tenPow exponent.toNat) (tenPow (-exponent).toNat)

end Number
end VirtualDom
