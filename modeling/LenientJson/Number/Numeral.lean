import LenientJson.Number.Integer

/-! Decimal numerals with an optional fraction and an optional exponent: read exactly, and brought to
their canonical form, which has no zero at the end of a fraction and no point without a fraction.
Texts with an exponent stay as they are. -/
namespace LenientJson

/-- The number `coefficient · 10 ^ exponent`, with a sign that zero keeps as well. -/
structure Numeral where
  negative : Bool
  coefficient : Nat
  exponent : Int
deriving DecidableEq

namespace Numeral

/-- The exponent part after a numeral; nothing at all stands for zero. -/
def readExponent? : Text → Option Int
  | [] => some 0
  | c :: t =>
    if c.lowerAscii = Symbol.letterE then
      let (negative, digits) := Text.splitSign t
      if digits ≠ [] ∧ digits.all CodePoint.isAsciiDigit then
        some (if negative then -(digitsValue digits : Int) else digitsValue digits)
      else none
    else none

/-- Digits with an optional point among them or at either end, and an exponent. -/
def readUnsigned? (negative : Bool) (t : Text) : Option Numeral :=
  let whole := t.takeWhile CodePoint.isAsciiDigit
  let (fraction, tail) := match t.dropWhile CodePoint.isAsciiDigit with
    | 0x2E :: rest => (rest.takeWhile CodePoint.isAsciiDigit, rest.dropWhile CodePoint.isAsciiDigit)
    | rest => ([], rest)
  if whole ++ fraction = [] then none
  else (readExponent? tail).map fun exponent =>
    { negative, coefficient := digitsValue (whole ++ fraction)
      exponent := exponent - fraction.length }

def read? (t : Text) : Option Numeral :=
  let (negative, unsigned) := Text.splitSign t
  readUnsigned? negative unsigned

end Numeral

def dropTrailingZeros (t : Text) : Text :=
  (t.reverse.dropWhile (· == Symbol.zero)).reverse

/-- The text of a number without redundant zeros in its fraction. -/
def shaved (t : Text) : Text :=
  if t.contains Symbol.dot && !t.contains Symbol.letterE && !t.contains 0x45 then
    let short := dropTrailingZeros t
    if short.getLast? = some Symbol.dot then short.dropLast else short
  else t

end LenientJson
