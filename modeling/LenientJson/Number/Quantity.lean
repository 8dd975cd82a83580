import LenientJson.Number.Decimal

/-! Exact values of numbers of every kind. Each value has one form, so that two numbers are equal
when their forms are. The form keeps a power of ten apart, and a huge one is never multiplied
out. -/
namespace LenientJson

/-- How often a factor divides a number, up to a limit, and what is left then. -/
def factorOut (factor : Nat) : (limit n : Nat) → Nat × Nat
  | 0, n => (0, n)
  | limit + 1, n =>
    if n % factor = 0 then
      let (count, left) := factorOut factor limit (n / factor)
      (count + 1, left)
    else (0, n)

/-- The magnitude `numerator / denominator · 10 ^ exponent`. Zero has the exponent zero; of any
other magnitude the numerator is no multiple of ten, the denominator shares no factor with ten, and
the quotient is in lowest terms. -/
structure Magnitude where
  numerator : Nat
  denominator : Nat
  exponent : Int
deriving DecidableEq

namespace Magnitude

def zero : Magnitude := ⟨0, 1, 0⟩

/-- The magnitude `coefficient / denominator · 10 ^ exponent` for a denominator that shares no
factor with the coefficient or with ten. -/
def ofScaled (coefficient denominator : Nat) (exponent : Int) : Magnitude :=
  if coefficient = 0 then zero
  else
    let (zeros, numerator) := factorOut 10 coefficient.log2 coefficient
    ⟨numerator, denominator, exponent + zeros⟩

def ofNat (n : Nat) : Magnitude := ofScaled n 1 0

def ofQuotient (numerator denominator : Nat) : Magnitude :=
  let (twos, odd) := factorOut 2 denominator.log2 denominator
  let (fives, others) := factorOut 5 odd.log2 odd
  let places := max twos fives
  ofScaled (numerator * twoTo (places - twos) * Nat.pow 5 (places - fives)) others (-(places : Int))

/-- Whether a magnitude is less than a number. A power of ten that has more digits than the other
side in base two decides by itself. -/
def isBelow (bound : Nat) (m : Magnitude) : Bool :=
  let scaled := bound * m.denominator
  match m.exponent with
  | .ofNat zeros => zeros ≤ scaled.log2 && m.numerator * tenTo zeros < scaled
  | .negSucc places =>
    0 < scaled && (m.numerator.log2 ≤ places || m.numerator < scaled * tenTo (places + 1))

def whole (m : Magnitude) : Nat :=
  match m.exponent with
  | .ofNat zeros => m.numerator * tenTo zeros / m.denominator
  | .negSucc places =>
    if m.numerator.log2 ≤ places then 0 else m.numerator / (m.denominator * tenTo (places + 1))

end Magnitude

/-- The exact value of a number. Zero has no sign. -/
inductive Quantity
  | finite (negative : Bool) (magnitude : Magnitude)
  | infinity (negative : Bool)
  | nan
  | signaling
deriving DecidableEq

namespace Quantity

def isPositive : Quantity → Bool
  | finite negative magnitude => !negative && magnitude.numerator != 0
  | infinity negative => !negative
  | _ => false

def ofMagnitude (negative : Bool) (m : Magnitude) : Quantity :=
  .finite (negative && m.numerator != 0) m

def ofInt (n : Int) : Quantity := ofMagnitude (n < 0) (.ofNat n.natAbs)

def ofRat (q : Rat) : Quantity := ofMagnitude (q.num < 0) (.ofQuotient q.num.natAbs q.den)

def ofDouble : Double → Quantity
  | .nan _ => nan
  | .infinity negative => infinity negative
  | .finite negative rank =>
    let magnitude := mkRat (Double.unitsOf rank) (twoTo 1074)
    ofMagnitude negative (.ofQuotient magnitude.num.natAbs magnitude.den)

def ofDecimal : Decimal → Quantity
  | .finite numeral =>
    ofMagnitude numeral.negative (.ofScaled numeral.coefficient 1 numeral.exponent)
  | .infinity negative => infinity negative
  | .nan _ isSignaling _ => if isSignaling then signaling else nan

end Quantity
end LenientJson
