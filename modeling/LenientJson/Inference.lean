import LenientJson.Scalar

/-! The meaning of a bare word: a truth value or null in any case, a number, or else its own text.
An integer must be written canonically and fit in 64 bits; a word with a point or an exponent must
read as a finite number. -/
namespace LenientJson

/-- A finite number with a point or an exponent; underscores are not allowed. -/
def inferFloat? (word : Text) : Option Scalar :=
  if word.contains Symbol.underscore then none
  else match Double.read? word with
    | some value => if value.isFinite then some (.float value) else none
    | none => none

/-- A 64-bit integer in its canonical form. -/
def inferInteger? (word : Text) : Option Scalar :=
  match readInteger? word with
  | some n =>
    if signedDecimalText n = word ∧ minInt64 ≤ n ∧ n ≤ maxInt64 then some (.int n) else none
  | none => none

def hasNumberLead : Text → Bool
  | [] => false
  | c :: _ => c.isAsciiDigit || c == Symbol.minus

def inferNumber? (word : Text) : Option Scalar :=
  if !hasNumberLead word then none
  else if word.contains Symbol.dot || word.contains Symbol.letterE || word.contains 0x45 then
    inferFloat? word
  else inferInteger? word

def inferred (word : Text) : Scalar :=
  if word.equalsAnyCase (Text.ofString "true") then .bool true
  else if word.equalsAnyCase (Text.ofString "false") then .bool false
  else if word.equalsAnyCase (Text.ofString "null") then .null
  else (inferNumber? word).getD (.text word)

end LenientJson
