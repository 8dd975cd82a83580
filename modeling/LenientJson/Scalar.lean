import LenientJson.Fault
import LenientJson.Number.Quantity
import LenientJson.Number.Date

/-! The leaves of documents. Besides the leaves of JSON there are ready-made JSON texts, exact
numbers, dates, octets, and objects of the embedding program, of which only the answers that matter
here are kept. -/
namespace LenientJson

/-- The answer of a user object that is asked for a text of its own. -/
inductive Spoken
  | text (t : Text)
  | fails (message : Text)
deriving DecidableEq

/-- The answer of a user object that is asked for its JSON text. `unprintable` means that it answers
with something that has no text itself. -/
inductive Rendering
  | text (t : Text)
  | missing
  | fails (message : Text)
  | unprintable (fault : Fault)
deriving DecidableEq

/-- The answer of a user object that is asked for a number. -/
inductive Conversion (α : Type)
  | gives (value : α)
  | fails (fault : Fault)
deriving DecidableEq

/-- The standard number that a user object is by its class, if it is one. -/
inductive NumberKind
  | int (value : Int)
  | float (value : Double)
  | decimal (value : Decimal)
  | fraction (value : Rat)
  | other
deriving DecidableEq

/-- What makes a user object a number, with its answers when it is asked for a binary64 number and
for its integer part. -/
structure ForeignNumber where
  kind : NumberKind
  double : Conversion Double
  whole : Conversion Int
deriving DecidableEq

/-- A user object as the model sees it: what it gives as its text and as its literal, and what it is
besides. It equals only itself, unless it is a standard number by its class; one that is not
comparable fails at every comparison. Objects that render themselves have a `rendering`. -/
structure Foreign where
  id : Nat
  kind : Text
  spoken : Spoken
  literal : Spoken
  rendering : Option Rendering
  number : Option ForeignNumber
  comparable : Bool
deriving DecidableEq

inductive Scalar
  | null
  | bool (value : Bool)
  | int (value : Int)
  | float (value : Double)
  | text (value : Text)
  | raw (json : Option Text)
  | decimal (value : Decimal)
  | fraction (value : Rat)
  | date (value : Date)
  | bytes (mutable : Bool) (octets : List Nat)
  | foreign (value : Foreign)
deriving DecidableEq

namespace Spoken

def answer : Spoken → Except Fault Text
  | text t => .ok t
  | fails message => .error (.raised message)

end Spoken

namespace Conversion

def answer {α : Type} : Conversion α → Except Fault α
  | gives value => .ok value
  | fails fault => .error fault

end Conversion

namespace NumberKind

def isFinite : NumberKind → Bool
  | float value => value.isFinite
  | decimal value => value.isFinite
  | _ => true

def quantity? : NumberKind → Option Quantity
  | int value => some (.ofInt value)
  | float value => some (.ofDouble value)
  | decimal value => some (.ofDecimal value)
  | fraction value => some (.ofRat value)
  | other => none

end NumberKind

namespace Foreign

def kind? (value : Foreign) : Option NumberKind := value.number.map ForeignNumber.kind

/-- Whether an object is a leaf as it stands: it renders itself, or its class is one of integers or
of binary64 numbers. -/
def isLeaf (value : Foreign) : Bool :=
  match value.kind? with
  | some (.int _) | some (.float _) => true
  | _ => value.rendering.isSome

/-- The JSON text of an object that has given an answer when it was asked for one. -/
def rendered (value : Foreign) : Rendering → Except Fault Text
  | .text t => .ok t
  | .missing => do throw (.badRendering (← value.literal.answer))
  | .fails message => .error (.badRendering message)
  | .unprintable fault => .error fault

end Foreign

/-- The text of an integer; only so many digits are written. -/
def integerText (n : Int) : Except Fault Text :=
  if (decimalText n.natAbs).length ≤ digitLimit then .ok (signedDecimalText n)
  else .error .tooManyDigits

namespace Scalar

private def say (s : String) : Text := Text.ofString s

def isAdmissible : Scalar → Bool
  | float value => value.isFinite
  | decimal value => value.isFinite
  | foreign value => value.kind?.all NumberKind.isFinite
  | _ => true

def requireFinite (s : Scalar) : Except Fault Unit :=
  if s.isAdmissible then .ok () else .error .nonFinite

def fractionText (q : Rat) : Except Fault Text :=
  if q.den = 1 then integerText q.num
  else do return (← integerText q.num) ++ [Symbol.slash] ++ (← integerText q.den)

def boolText (value : Bool) : Text := say (if value then "True" else "False")

def kindName : Scalar → Text
  | null => say "_NullType"
  | bool _ => say "bool"
  | int _ => say "int"
  | float _ => say "float"
  | text _ => say "str"
  | raw _ => say "RawJSON"
  | decimal _ => say "Decimal"
  | fraction _ => say "Fraction"
  | date _ => say "date"
  | bytes mutable _ => say (if mutable then "bytearray" else "bytes")
  | foreign value => value.kind

def fullKindName : Scalar → Text
  | decimal _ => say "decimal.Decimal"
  | date _ => say "datetime.date"
  | other => other.kindName

def literal : Scalar → Except Fault Text
  | null => .ok (say "Null")
  | bool value => .ok (boolText value)
  | int value => integerText value
  | float value => .ok value.text
  | text value => .ok value.literal
  | raw json => .ok (say "RawJSON(text=" ++ (match json with
      | some t => t.literal
      | none => say "None") ++ say ")")
  | decimal value => .ok (say "Decimal('" ++ value.text ++ say "')")
  | fraction value => do
    return say "Fraction(" ++ (← integerText value.num) ++ say ", " ++ (← integerText value.den) ++
      say ")"
  | date value => .ok value.literal
  | bytes mutable octets => .ok (octetLiteral mutable octets)
  | foreign value => value.literal.answer

/-- The plain text of a value. User objects can fail to have one, and so can integers and fractions
with too many digits. -/
def plain : Scalar → Except Fault Text
  | null => .ok (say "null")
  | text value => .ok value
  | raw json => .ok (json.getD [])
  | decimal value => .ok value.text
  | fraction value => fractionText value
  | date value => .ok value.text
  | foreign value => value.spoken.answer
  | other => other.literal

/-- The text of a number without redundant zeros. A truth value is no number here. What is a binary64
number gives its literal, what is an integer its plain text as it is. -/
def canonicalNumber (s : Scalar) : Except Fault Text :=
  match s with
  | bool value => .error (.notNumber (boolText value))
  | int value => integerText value
  | foreign value => do
    s.requireFinite
    match value.kind? with
    | some (.int _) => value.spoken.answer
    | some (.float _) => return shaved (← value.literal.answer)
    | _ => return shaved (← value.spoken.answer)
  | other => do
    other.requireFinite
    return shaved (← other.plain)

/-- The text of a binary64 number in JSON; numbers that JSON lacks become null. -/
def doubleText (d : Double) : Text := if d.isFinite then shaved d.text else say "null"

def isTruthy : Scalar → Bool
  | null => false
  | bool value => value
  | int value => value ≠ 0
  | float (.finite _ rank) => rank.val ≠ 0
  | text value => value ≠ []
  | decimal (.finite numeral) => numeral.coefficient ≠ 0
  | fraction value => value.num ≠ 0
  | bytes _ octets => octets ≠ []
  | foreign value => value.kind?.bind NumberKind.quantity? ≠ some (.finite false .zero)
  | _ => true

def quantity? : Scalar → Option Quantity
  | bool value => some (.ofInt (if value then 1 else 0))
  | int value => some (.ofInt value)
  | float value => some (.ofDouble value)
  | decimal value => some (.ofDecimal value)
  | fraction value => some (.ofRat value)
  | foreign value => value.kind?.bind NumberKind.quantity?
  | _ => none

/-- Whether a value is a decimal that is no number, which cannot be ordered. -/
def isDecimalNaN : Scalar → Bool
  | decimal (.nan ..) => true
  | foreign value => match value.kind? with
    | some (.decimal (.nan ..)) => true
    | _ => false
  | _ => false

def equalQuantities (a b : Quantity) : Except Fault Bool :=
  if a = .signaling ∨ b = .signaling then .error .invalidComparison
  else .ok (a = b && a ≠ .nan)

def isIncomparable : Scalar → Bool
  | foreign value => !value.comparable
  | _ => false

def refusal : Fault := .raised (say "no comparing")

/-- Whether two leaves are the very same object and known to be so. -/
def isSame : (a b : Scalar) → Bool
  | foreign s, foreign t => s.id == t.id
  | float (.nan (some s)), float (.nan (some t)) => s == t
  | _, _ => false

/-- Equality as the embedding program has it: numbers by exact value, texts, ready-made texts, dates
and octets by content, other user objects by identity. Null on the left looks at no answer of its
neighbour. -/
def equals (a b : Scalar) : Except Fault Bool :=
  if a = null then .ok (b = null)
  else if a.isIncomparable || b.isIncomparable then .error refusal
  else match a.quantity?, b.quantity? with
    | some x, some y => equalQuantities x y
    | some _, none | none, some _ => .ok false
    | none, none => match a, b with
      | text s, text t => .ok (s = t)
      | raw s, raw t => .ok (s = t)
      | date s, date t => .ok (s = t)
      | bytes _ s, bytes _ t => .ok (s = t)
      | foreign s, foreign t => .ok (s.id = t.id)
      | _, _ => .ok false

end Scalar
end LenientJson
