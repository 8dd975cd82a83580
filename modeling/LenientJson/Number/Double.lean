import LenientJson.Number.Numeral

/-! Numbers of the binary64 format. A finite magnitude is held by its rank, its place among all
finite magnitudes in increasing order, so that the neighbours of a number have neighbouring ranks.
Magnitudes are measured in units of 2^-1074, the least positive one. -/
namespace LenientJson

abbrev rankCount : Nat := 2047 * twoTo 52

/-- Numbers, infinities, and values that are no numbers. Of the latter two are the same object if
their tags are the same; of one without a tag this is not known. -/
inductive Double
  | nan (tag : Option Nat)
  | infinity (negative : Bool)
  | finite (negative : Bool) (rank : Fin rankCount)
deriving DecidableEq

namespace Double

/-- A magnitude in units of 2^-1074. The first 2^53 ranks are one unit apart; from there the
distance doubles after every 2^52 ranks. -/
def unitsOf (rank : Nat) : Nat :=
  if rank < twoTo 52 then rank
  else (twoTo 52 + rank % twoTo 52) * twoTo (rank / twoTo 52 - 1)

/-- The rank nearest to `numerator / denominator`; of two equally near ones the even one. -/
def nearestRank (numerator denominator : Nat) : Nat :=
  let scaled := numerator * twoTo 1074
  let shift := (scaled / denominator).log2 - 52
  let step := denominator * twoTo shift
  let low := scaled / step
  let rest := scaled % step
  let nearest := if step < 2 * rest ∨ (2 * rest = step ∧ low % 2 = 1) then low + 1 else low
  nearest + shift * twoTo 52

/-- The number of a rank, infinity if the rank is too high. -/
def ofRank (negative : Bool) (rank : Nat) : Double :=
  if h : rank < rankCount then .finite negative ⟨rank, h⟩ else .infinity negative

def ofRatio (negative : Bool) (numerator denominator : Nat) : Double :=
  ofRank negative (nearestRank numerator denominator)

def zero (negative : Bool) : Double := .finite negative ⟨0, by decide⟩

/-- The nearest number to a numeral. Magnitudes of at least 10^310 are infinite and magnitudes below
10^-330 are zero without any division. -/
def ofNumeral (n : Numeral) : Double :=
  let magnitude := n.exponent + (decimalText n.coefficient).length
  if n.coefficient = 0 then zero n.negative
  else if 310 < magnitude then .infinity n.negative
  else if magnitude < -330 then zero n.negative
  else if 0 ≤ n.exponent then ofRatio n.negative (n.coefficient * tenTo n.exponent.toNat) 1
  else ofRatio n.negative n.coefficient (tenTo (-n.exponent).toNat)

def ofInt (n : Int) : Double := ofRatio (n < 0) n.natAbs 1

def isFinite : Double → Bool
  | .finite .. => true
  | _ => false

/-- A finite number as a multiple of 2^-1074. -/
def units? : Double → Option Int
  | .finite negative rank => some (if negative then -(unitsOf rank : Int) else unitsOf rank)
  | _ => none

/-- A number and one, rounded; a sum of zero is positive. -/
def increment (d : Double) : Double :=
  match d.units? with
  | some units =>
    let sum := units + twoTo 1074
    ofRatio (sum < 0) sum.natAbs (twoTo 1074)
  | none => d

/-- The number that a text denotes: a numeral, an infinity or the number that is none, with white
space around it and digits of any script. -/
def read? (t : Text) : Option Double :=
  let body := (Text.asciiNumeral t).trim Text.isNumeralSpace
  let (negative, unsigned) := Text.splitSign body
  let lowered := unsigned.map CodePoint.lowerAscii
  if lowered = Text.ofString "inf" ∨ lowered = Text.ofString "infinity" then
    some (.infinity negative)
  else if lowered = Text.ofString "nan" then some (.nan none)
  else (Numeral.readUnsigned? negative unsigned).map ofNumeral

end Double
end LenientJson
