import LenientJson.Number.Double

/-! The shortest decimal text of a binary64 number: the fewest digits that read back as the number,
and the nearest of those. Positional notation is used for decimal exponents from -4 to 15 and always
shows a fraction digit; other exponents are written with a sign and at least two digits. -/
namespace LenientJson
namespace Double

/-- The decimal exponent of the leading digit of a positive quotient. -/
def leadingExponent (numerator denominator : Nat) : Int :=
  if denominator ≤ numerator then (decimalText (numerator / denominator)).length - 1
  else -((decimalText ((denominator - 1) / numerator)).length : Int)

def scaleDown (numerator denominator : Nat) (exponent : Int) : Nat × Nat :=
  if 0 ≤ exponent then (numerator, denominator * tenTo exponent.toNat)
  else (numerator * tenTo (-exponent).toNat, denominator)

/-- Whether a positive decimal reads back as the magnitude of this rank. -/
def readsBack (rank coefficient : Nat) (exponent : Int) : Bool :=
  match ofNumeral { negative := false, coefficient, exponent } with
  | .finite _ r => r.val == rank
  | _ => false

/-- The coefficient on the grid of multiples of `10 ^ exponent` that reads back as the rank and is
nearest to it, if one of the two neighbours on the grid reads back; an even coefficient wins a
tie. -/
def onGrid? (rank : Nat) (exponent : Int) : Option Nat :=
  let (numerator, denominator) := scaleDown (unitsOf rank) (twoTo 1074) exponent
  let low := numerator / denominator
  let rest := numerator % denominator
  let highIsNearer := denominator < 2 * rest ∨ (2 * rest = denominator ∧ low % 2 = 1)
  match readsBack rank low exponent, readsBack rank (low + 1) exponent with
  | true, true => some (if highIsNearer then low + 1 else low)
  | true, false => some low
  | false, true => some (low + 1)
  | false, false => none

/-- The first of ever finer grids, `count` of them, that has an answer; failing all of them, the
exact value. -/
def searchGrids (rank : Nat) : (count : Nat) → (exponent : Int) → Nat × Int
  | 0, _ => (unitsOf rank * Nat.pow 5 1074, -1074)
  | count + 1, exponent => match onGrid? rank exponent with
    | some coefficient => (coefficient, exponent)
    | none => searchGrids rank count (exponent - 1)

/-- Coefficient and exponent of the shortest decimal of a positive magnitude. -/
def shortest (rank : Nat) : Nat × Int :=
  searchGrids rank 17 (leadingExponent (unitsOf rank) (twoTo 1074))

/-- Digits without the zeros at the end; at least one digit stays. -/
def significantDigits (coefficient : Nat) : Text :=
  match ((decimalText coefficient).reverse.dropWhile (· == Symbol.zero)).reverse with
  | [] => [Symbol.zero]
  | digits => digits

/-- The exponent part, with a sign and at least two digits. -/
def exponentText (exponent : Int) : Text :=
  let digits := decimalText exponent.natAbs
  Symbol.letterE :: (if exponent < 0 then Symbol.minus else Symbol.plus) ::
    (List.replicate (2 - digits.length) Symbol.zero ++ digits)

/-- Digits with a point after the first `place` of them; zeros fill what is missing. -/
def positional (digits : Text) (place : Int) : Text :=
  if place ≤ 0 then
    [Symbol.zero, Symbol.dot] ++ List.replicate (-place).toNat Symbol.zero ++ digits
  else
    let whole := digits.take place.toNat
    let fraction := digits.drop place.toNat
    whole ++ List.replicate (place.toNat - digits.length) Symbol.zero ++ [Symbol.dot] ++
      (if fraction = [] then [Symbol.zero] else fraction)

/-- One digit before the point, if there are more digits, and the exponent. -/
def scientific (digits : Text) (exponent : Int) : Text :=
  match digits with
  | [] => []
  | first :: rest =>
    (if rest = [] then [first] else first :: Symbol.dot :: rest) ++ exponentText exponent

def magnitudeText (rank : Nat) : Text :=
  if rank = 0 then Text.ofString "0.0"
  else
    let (coefficient, exponent) := shortest rank
    let place := exponent + (decimalText coefficient).length
    let digits := significantDigits coefficient
    if -4 < place ∧ place ≤ 16 then positional digits place else scientific digits (place - 1)

def text : Double → Text
  | .nan _ => Text.ofString "nan"
  | .infinity negative => Text.ofString (if negative then "-inf" else "inf")
  | .finite negative rank =>
    if negative then Symbol.minus :: magnitudeText rank else magnitudeText rank

end Double
end LenientJson
