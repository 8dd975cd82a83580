import LenientJson.Text.Blank

/-! Integers as text. Writing is plain decimal. Reading accepts a sign, white space around the
number, the digits of every script, and single underscores between digits. -/
namespace LenientJson

def twoTo (n : Nat) : Nat := Nat.pow 2 n

def tenTo (n : Nat) : Nat := Nat.pow 10 n

def minInt32 : Int := -2147483648
def maxInt32 : Int := 2147483647
def minInt64 : Int := -9223372036854775808
def maxInt64 : Int := 9223372036854775807

def decimalText (n : Nat) : Text := (Nat.toDigits 10 n).map Char.toNat

def signedDecimalText (n : Int) : Text :=
  if n < 0 then Symbol.minus :: decimalText n.natAbs else decimalText n.natAbs

def digitsValue (digits : Text) : Nat := digits.foldl (fun value c => 10 * value + (c - 0x30)) 0

namespace CodePoint

/-- The zeros of all scripts. Each script has its ten digits in a row, so its zero fixes the other
nine. -/
def decimalZeros : List CodePoint := [
  0x30, 0x660, 0x6F0, 0x7C0, 0x966, 0x9E6, 0xA66, 0xAE6, 0xB66, 0xBE6, 0xC66, 0xCE6, 0xD66, 0xDE6,
  0xE50, 0xED0, 0xF20, 0x1040, 0x1090, 0x17E0, 0x1810, 0x1946, 0x19D0, 0x1A80, 0x1A90, 0x1B50,
  0x1BB0, 0x1C40, 0x1C50, 0xA620, 0xA8D0, 0xA900, 0xA9D0, 0xA9F0, 0xAA50, 0xABF0, 0xFF10, 0x104A0,
  0x10D30, 0x11066, 0x110F0, 0x11136, 0x111D0, 0x112F0, 0x11450, 0x114D0, 0x11650, 0x116C0, 0x11730,
  0x118E0, 0x11950, 0x11C50, 0x11D50, 0x11DA0, 0x16A60, 0x16AC0, 0x16B50, 0x1D7CE, 0x1D7D8, 0x1D7E2,
  0x1D7EC, 0x1D7F6, 0x1E140, 0x1E2F0, 0x1E950, 0x1FBF0]

def digitValue? (c : CodePoint) : Option Nat :=
  if isAsciiDigit c then some (c - 0x30)
  else if c < 0x80 then none
  else (decimalZeros.find? fun first => first ≤ c && c < first + 10).map fun first => c - first

end CodePoint

namespace Text

/-- A numeral in ASCII: digits of other scripts become ASCII digits, white space above ASCII becomes
the space, and everything else above ASCII becomes a mark that no numeral contains. -/
def asciiNumeral (t : Text) : Text :=
  t.map fun c =>
    if c < 0x80 then c
    else if c.isSpace then Symbol.space
    else match c.digitValue? with
      | some value => Symbol.zero + value
      | none => Symbol.exclamation

/-- White space around a numeral in ASCII; the information separators are not among it. -/
def isNumeralSpace (c : CodePoint) : Bool := (0x09 ≤ c && c ≤ 0x0D) || c == Symbol.space

def splitSign : Text → Bool × Text
  | [] => (false, [])
  | c :: t =>
    if c = Symbol.minus then (true, t) else if c = Symbol.plus then (false, t) else (false, c :: t)

end Text

def hexValue? (c : CodePoint) : Option Nat :=
  if c.isAsciiDigit then some (c - 0x30)
  else if 0x61 ≤ c ∧ c ≤ 0x66 then some (c - 0x57)
  else if 0x41 ≤ c ∧ c ≤ 0x46 then some (c - 0x37)
  else none

def decimalValue? (c : CodePoint) : Option Nat :=
  if c.isAsciiDigit then some (c - 0x30) else none

/-- Digits with single underscores between them; `afterDigit` tells whether a digit came last, which
is also needed at the end. -/
def readDigits (base : Nat) (value? : CodePoint → Option Nat) :
    (afterDigit : Bool) → (value : Nat) → Text → Option Nat
  | afterDigit, value, [] => if afterDigit then some value else none
  | afterDigit, value, c :: t =>
    if c = Symbol.underscore then
      if afterDigit then readDigits base value? false value t else none
    else match value? c with
      | some digit => readDigits base value? true (base * value + digit) t
      | none => none

/-- Integers with more digits than this are neither read nor written in base ten. -/
def digitLimit : Nat := 4300

/-- Whether a numeral has no more digits than can be read; zeros in front count as well. -/
def isWithinDigitLimit (digits : Text) : Bool := digits.countP (· != Symbol.underscore) ≤ digitLimit

def readInteger? (t : Text) : Option Int :=
  let (negative, digits) := Text.splitSign ((Text.asciiNumeral t).trim Text.isNumeralSpace)
  if isWithinDigitLimit digits then
    (readDigits 10 decimalValue? false 0 digits).map fun n => if negative then -(n : Int) else n
  else none

/-- What stands after an optional `0x`; one underscore may follow that mark. -/
def dropHexMark : Text → Text
  | 0x30 :: c :: t =>
    if c = 0x78 ∨ c = 0x58 then
      match t with
      | 0x5F :: rest => rest
      | _ => t
    else 0x30 :: c :: t
  | t => t

def readHexadecimal? (t : Text) : Option Int :=
  let (negative, digits) := Text.splitSign ((Text.asciiNumeral t).trim Text.isNumeralSpace)
  (readDigits 16 hexValue? false 0 (dropHexMark digits)).map fun n =>
    if negative then -(n : Int) else n

end LenientJson
