import VirtualDom.Number.Rounding

/-!
This module contains the decimal numerals that denote a number: an optional sign, digits with at
most one point, and an optional exponent.
-/

namespace VirtualDom.Number

def signed : List Char → Bool × List Char
  | '-' :: rest => (true, rest)
  | '+' :: rest => (false, rest)
  | rest => (false, rest)

def ofDigits (digits : List Char) : Nat :=
  digits.foldl (fun n c => 10 * n + (c.toNat - '0'.toNat)) 0

/-- The exponent part of a numeral, or zero if there is none. -/
def exponentPart? : List Char → Option Int
  | [] => some 0
  | e :: rest =>
    let (negative, digits) := signed rest
    if (e == 'e' || e == 'E') && !digits.isEmpty && digits.all Char.isDigit then
      some (if negative then -(ofDigits digits) else ofDigits digits)
    else
      none

def read? (s : String) : Option Number :=
  let (negative, body) := signed s.toList
  let whole := body.takeWhile Char.isDigit
  let (fraction, rest) := match body.dropWhile Char.isDigit with
    | '.' :: rest => (rest.takeWhile Char.isDigit, rest.dropWhile Char.isDigit)
    | rest => ([], rest)
  if whole.isEmpty && fraction.isEmpty then
    none
  else do
    let exponent ← exponentPart? rest
    let x := ofDecimal negative (ofDigits (whole ++ fraction)) (exponent - fraction.length)
    if x.isFinite then some x else none

end VirtualDom.Number
