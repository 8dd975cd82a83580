import LenientJson.Inference

/-! Leaves read as truth values and numbers. A truth value is no number, and texts must be numerals
without underscores. -/
namespace LenientJson
namespace Scalar

def toBool? : Scalar → Option Bool
  | bool value => some value
  | text t =>
    if t.equalsAnyCase (Text.ofString "false") then some false
    else if t.equalsAnyCase (Text.ofString "true") then some true
    else none
  | _ => none

private def orTooLarge (value : Double) : Except Fault (Option Double) :=
  if value.isFinite then .ok (some value) else .error .tooLarge

/-- The nearest binary64 number. Integers and fractions beyond its range are a fault; a numeral or
decimal beyond it becomes infinite. -/
def toDouble? : Scalar → Except Fault (Option Double)
  | int value => orTooLarge (.ofInt value)
  | fraction value => orTooLarge (.ofRatio (value.num < 0) value.num.natAbs value.den)
  | float value => .ok (some value)
  | decimal value => .ok value.toDouble?
  | text t => .ok (if t.contains Symbol.underscore then none else Double.read? t)
  | foreign value => match value.number with
    | some number => fitting Fault.isRefusal number.double.answer
    | none => .ok none
  | _ => .ok none

/-- An integer or a binary64 number and one; other numbers are not added to. -/
def incremented? : Scalar → Option Scalar
  | int n => some (.int (n + 1))
  | float d => some (.float d.increment)
  | foreign value => match value.kind? with
    | some (.int n) => some (.int (n + 1))
    | some (.float d) => some (.float d.increment)
    | _ => none
  | _ => none

def readPlainInteger? (t : Text) : Option Int :=
  let (negative, digits) := Text.splitSign t
  if digits ≠ [] ∧ digits.all CodePoint.isAsciiDigit ∧ isWithinDigitLimit digits then
    some (if negative then -(digitsValue digits : Int) else digitsValue digits)
  else none

/-- The integer part of a number by its exact value, if it is less than `bound` in magnitude. That of
a decimal is made in any case, so that there must be room for the zeros at its end. -/
def wholePart? (room bound : Nat) (s : Scalar) : Except Fault (Option Int) :=
  match s.quantity? with
  | some (.finite negative magnitude) =>
    if magnitude.isBelow bound then
      .ok (some (if negative then -(magnitude.whole : Int) else magnitude.whole))
    else match s with
      | decimal _ => if room < magnitude.exponent then .error .noRoom else .ok none
      | _ => .ok none
  | _ => .ok none

/-- Faults for which a getter of integers says that there is no integer. -/
def isNoInteger (fault : Fault) : Bool := fault.isRefusal || fault = .tooLarge

/-- The integer part of a number, or the value of an integer's text. Numbers that are no integers
must be less than `bound` in magnitude. Of anything else the literal is made, which can fail. -/
def toInteger? (room bound : Nat) (s : Scalar) : Except Fault (Option Int) :=
  match s with
  | bool _ => .ok none
  | int value => .ok (some value)
  | float _ | decimal _ | fraction _ => s.wholePart? room bound
  | text t => .ok (readPlainInteger? t)
  | foreign value => match value.number with
    | some ⟨.int n, _, _⟩ => .ok (some n)
    | some number => fitting isNoInteger number.whole.answer
    | none => do
      let _ ← fitting isNoInteger s.literal
      return none
  | _ => .ok none

/-- The text of an integer that lies out of range; a user object gives its own. -/
def shownInteger (n : Int) : Scalar → Except Fault Text
  | foreign value => match value.kind? with
    | some (.int _) => value.spoken.answer
    | _ => integerText n
  | _ => integerText n

/-- An integer in a range. Of one that is out of range the text is made, which can fail. -/
def toIntegerWithin? (room : Nat) (low high : Int) (s : Scalar) : Except Fault (Option Int) := do
  match ← s.toInteger? room (low.natAbs + high.natAbs + 1) with
  | none => return none
  | some n =>
    if low ≤ n ∧ n ≤ high then return some n
    else
      let _ ← fitting isNoInteger (s.shownInteger n)
      return none

end Scalar
end LenientJson
