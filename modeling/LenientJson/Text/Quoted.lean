import LenientJson.Text.Basic

/-! String tokens of the emitted text. Besides what strict JSON asks for, a slash after `<` is
escaped, so that the text can stand inside a script element, and the control and punctuation blocks
U+0080..U+009F and U+2000..U+20FF are written with four hexadecimal digits. -/
namespace LenientJson

def hexDigit (n : Nat) : CodePoint := if n < 10 then 0x30 + n else 0x57 + n

def hexDigits : (width n : Nat) → Text
  | 0, _ => []
  | width + 1, n => hexDigits width (n / 16) ++ [hexDigit (n % 16)]

namespace Text

/-- Letters that name a control character in an escape of two characters. -/
def shortEscape? (c : CodePoint) : Option CodePoint :=
  if c = 0x08 then some 0x62
  else if c = 0x09 then some 0x74
  else if c = 0x0A then some 0x6E
  else if c = 0x0C then some 0x66
  else if c = 0x0D then some 0x72
  else none

def needsHex (c : CodePoint) : Bool :=
  c < 0x20 || (0x80 ≤ c && c < 0xA0) || (0x2000 ≤ c && c < 0x2100)

/-- What stands for `c` in a string token when `previous` comes before it. -/
def escaped (previous : Option CodePoint) (c : CodePoint) : Text :=
  if c = Symbol.backslash ∨ c = Symbol.doubleQuote then [Symbol.backslash, c]
  else if c = Symbol.slash then
    if previous = some Symbol.less then [Symbol.backslash, c] else [c]
  else match shortEscape? c with
    | some letter => [Symbol.backslash, letter]
    | none => if needsHex c then [Symbol.backslash, Symbol.letterU] ++ hexDigits 4 c else [c]

def quotedBody : (previous : Option CodePoint) → Text → Text
  | _, [] => []
  | previous, c :: t => escaped previous c ++ quotedBody (some c) t

def quoted (t : Text) : Text := Symbol.doubleQuote :: quotedBody none t ++ [Symbol.doubleQuote]

end Text
end LenientJson
