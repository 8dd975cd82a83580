import LenientJson.Number.Shortest

/-! Decimal numbers that keep their digits: `1.50` and `1.5` are equal in value and differ in text.
Besides finite numbers there are infinities and values that are no numbers, with digits of their
own. -/
namespace LenientJson

inductive Decimal
  | finite (numeral : Numeral)
  | infinity (negative : Bool)
  | nan (negative signaling : Bool) (payload : Text)
deriving DecidableEq

namespace Numeral

def toRat (n : Numeral) : Rat :=
  let magnitude : Rat :=
    if 0 ≤ n.exponent then ((n.coefficient * tenTo n.exponent.toNat : Nat) : Rat)
    else mkRat n.coefficient (tenTo (-n.exponent).toNat)
  if n.negative then -magnitude else magnitude

def leadingExponent (n : Numeral) : Int :=
  n.exponent + (decimalText n.coefficient).length - 1

/-- Scientific text: positional while the exponent is not positive and the leading digit stands no
more than six places after the point, otherwise with one digit before the point and an exponent. -/
def scientificText (n : Numeral) : Text :=
  let digits := decimalText n.coefficient
  let place := n.exponent + digits.length
  let magnitude :=
    if n.exponent ≤ 0 ∧ -6 < place then
      if n.exponent = 0 then digits
      else if place ≤ 0 then
        [Symbol.zero, Symbol.dot] ++ List.replicate (-place).toNat Symbol.zero ++ digits
      else digits.take place.toNat ++ [Symbol.dot] ++ digits.drop place.toNat
    else
      let mantissa := match digits with
        | first :: second :: rest => first :: Symbol.dot :: second :: rest
        | short => short
      let exponent := place - 1
      if exponent = 0 then mantissa
      else mantissa ++ [0x45, if exponent < 0 then Symbol.minus else Symbol.plus] ++
        decimalText exponent.natAbs
  if n.negative then Symbol.minus :: magnitude else magnitude

end Numeral

namespace Decimal

def isFinite : Decimal → Bool
  | finite _ => true
  | _ => false

private def signed (negative : Bool) (t : Text) : Text :=
  if negative then Symbol.minus :: t else t

def text : Decimal → Text
  | finite numeral => numeral.scientificText
  | infinity negative => signed negative (Text.ofString "Infinity")
  | nan negative signaling payload =>
    signed negative (Text.ofString (if signaling then "sNaN" else "NaN") ++ payload)

/-- The nearest binary64 number; a signaling value has none. -/
def toDouble? : Decimal → Option Double
  | finite numeral => some (Double.ofNumeral numeral)
  | infinity negative => some (.infinity negative)
  | nan _ signaling _ => if signaling then none else some (.nan none)

/-- The decimal that a text denotes; underscores are ignored. -/
def read? (t : Text) : Option Decimal :=
  let ascii := Text.asciiNumeral (t.strip.filter (· != Symbol.underscore))
  let (negative, unsigned) := Text.splitSign ascii
  let lowered := unsigned.map CodePoint.lowerAscii
  if lowered = Text.ofString "inf" ∨ lowered = Text.ofString "infinity" then
    some (.infinity negative)
  else
    let payload? := fun digits : Text =>
      if digits.all CodePoint.isAsciiDigit then some (digits.dropWhile (· == Symbol.zero))
      else none
    match Text.after? (Text.ofString "nan") lowered, Text.after? (Text.ofString "snan") lowered with
    | some digits, _ => (payload? digits).map (.nan negative false)
    | none, some digits => (payload? digits).map (.nan negative true)
    | none, none => (Numeral.readUnsigned? negative unsigned).map .finite

end Decimal
end LenientJson
