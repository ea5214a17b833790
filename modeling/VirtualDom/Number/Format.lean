import VirtualDom.Number.Shortest

/-!
This module contains the written forms of a number: as text for a reader of the page, and for
debugging.
-/

namespace VirtualDom.Number

structure Format where
  /-- The least leading exponent that is written positionally. -/
  lowest : Int
  /-- The greatest leading exponent that is written positionally. -/
  highest : Int
  /-- Whether a whole number in positional form ends in `.0`. -/
  wholeFraction : Bool
  /-- Whether a nonnegative exponent has a plus sign. -/
  plusSign : Bool
  /-- Whether the zeros are told apart. -/
  signedZero : Bool
  infinity : String

def Format.page : Format :=
  ⟨-6, 20, false, true, false, "Infinity"⟩

def Format.debugging : Format :=
  ⟨-4, 15, true, false, true, "inf"⟩

def zeros (n : Nat) : List Char :=
  List.replicate n '0'

def Decimal.positional (d : Decimal) (wholeFraction : Bool) : List Char :=
  if d.exponent < 0 then
    '0' :: '.' :: zeros (-d.exponent - 1).toNat ++ d.digits
  else
    let width := d.exponent.toNat + 1
    if d.digits.length ≤ width then
      d.digits ++ zeros (width - d.digits.length) ++ if wholeFraction then ['.', '0'] else []
    else
      d.digits.take width ++ '.' :: d.digits.drop width

def Decimal.scientific (d : Decimal) (plusSign : Bool) : List Char :=
  let significand := match d.digits with
    | [] => []
    | [digit] => [digit]
    | digit :: more => digit :: '.' :: more
  let sign := if d.exponent < 0 then ['-'] else if plusSign then ['+'] else []
  significand ++ 'e' :: sign ++ Nat.toDigits 10 d.exponent.natAbs

def format (f : Format) (x : Number) : String :=
  if x.isNaN then
    "NaN"
  else
    let sign := if x.isNegative && (f.signedZero || !x.isZero) then "-" else ""
    if x.isFinite then
      let d := x.shortest
      let positional := f.lowest ≤ d.exponent && d.exponent ≤ f.highest
      sign ++ String.ofList
        (if positional then d.positional f.wholeFraction else d.scientific f.plusSign)
    else
      sign ++ f.infinity

end VirtualDom.Number
