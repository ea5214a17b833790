import VirtualDom.Number.Rounding

/-!
This module contains the shortest decimal digits of a number: the fewest that read back as the same
number, and of those the nearest to it.
-/

namespace VirtualDom.Number

/-- The decimal `d₀.d₁d₂… * 10 ^ exponent` with `digits = [d₀, d₁, d₂, …]`. -/
structure Decimal where
  digits : List Char
  exponent : Int
deriving DecidableEq

def Decimal.ofNat (n : Nat) (exponent : Int) : Decimal :=
  let digits := Nat.toDigits 10 n
  ⟨(digits.reverse.dropWhile (· == '0')).reverse, exponent + digits.length - 1⟩

/-- The greatest `e` with `10 ^ e ≤ x`, for a positive finite `x`. -/
def leadingExponent (x : Number) : Int :=
  let whole := x.units / twoPow 1074
  if whole = 0 then
    -(((List.range 325).find? fun k => twoPow 1074 ≤ x.units * tenPow k).getD 324 : Nat)
  else
    digitCount whole - 1

/--
The multiple of `10 ^ exponent` nearest to `x` among those that read back as `x`, the greater one if
two are equally near. All lengths are in quarters of a unit, in which the ends of the interval that
rounds to `x` are whole numbers; the ends belong to it iff the significand is even.
-/
def onGrid (x : Number) (exponent : Int) : Option Nat :=
  let scale := tenPow (-exponent).toNat
  let step := twoPow 1076 * tenPow exponent.toNat
  let above := 2 * x.spacing * scale
  let below := if x.fractionField = 0 ∧ 1 < x.exponentField then x.spacing * scale else above
  let down := 4 * x.units * scale % step
  let up := step - down
  let reads (distance reach : Nat) : Bool :=
    distance < reach || (distance == reach && x.fractionField % 2 == 0)
  let floor := 4 * x.units * scale / step
  if reads down below && (down < up || !reads up above) then some floor
  else if reads up above then some (floor + 1)
  else none

/-- The shortest digits of a finite number; seventeen are always enough. -/
def shortest (x : Number) : Decimal :=
  if x.isZero then
    ⟨['0'], 0⟩
  else
    let grid := (List.range 17).findSome? fun (i : Nat) =>
      let exponent := x.leadingExponent - i
      (x.onGrid exponent).map (Decimal.ofNat · exponent)
    grid.getD ⟨['0'], 0⟩

end VirtualDom.Number
