import LenientJson.Text.Printable
import LenientJson.Text.Quoted

/-! Texts and octets as literals of the host notation, used in messages and in descriptions of
containers. Single quotes are preferred; double quotes are used for a text that holds a single quote
and no double one. -/
namespace LenientJson

def literalMark (t : List Nat) : CodePoint :=
  if t.contains Symbol.singleQuote && !t.contains Symbol.doubleQuote then Symbol.doubleQuote
  else Symbol.singleQuote

def literalEscape? (mark c : Nat) : Option Text :=
  if c = mark ∨ c = Symbol.backslash then some [Symbol.backslash, c]
  else if c = Symbol.tab then some [Symbol.backslash, 0x74]
  else if c = Symbol.lineFeed then some [Symbol.backslash, 0x6E]
  else if c = Symbol.carriageReturn then some [Symbol.backslash, 0x72]
  else if c < 0x20 ∨ c = 0x7F then some ([Symbol.backslash, Symbol.letterX] ++ hexDigits 2 c)
  else none

namespace Text

def literalItem (mark c : CodePoint) : Text :=
  match literalEscape? mark c with
  | some escape => escape
  | none =>
    if c.isPrintable then [c]
    else if c < 0x100 then [Symbol.backslash, Symbol.letterX] ++ hexDigits 2 c
    else if c < 0x10000 then [Symbol.backslash, Symbol.letterU] ++ hexDigits 4 c
    else [Symbol.backslash, 0x55] ++ hexDigits 8 c

def literal (t : Text) : Text :=
  let mark := literalMark t
  mark :: t.flatMap (literalItem mark) ++ [mark]

end Text

def octetItem (mark octet : Nat) : Text :=
  match literalEscape? mark octet with
  | some escape => escape
  | none =>
    if octet < 0x7F then [octet] else [Symbol.backslash, Symbol.letterX] ++ hexDigits 2 octet

/-- The literal of a sequence of octets. A mutable one is named, and a single quote in it is escaped
between marks of either kind. -/
def octetLiteral (mutable : Bool) (octets : List Nat) : Text :=
  let mark := literalMark octets
  let item := fun octet =>
    if mutable && octet == Symbol.singleQuote then [Symbol.backslash, octet]
    else octetItem mark octet
  let literal := 0x62 :: mark :: octets.flatMap item ++ [mark]
  if mutable then Text.ofString "bytearray(" ++ literal ++ Text.ofString ")" else literal

end LenientJson
