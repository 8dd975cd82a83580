import LenientJson.Text.Basic

/-! Two kinds of emptiness between characters. Layout blanks, which the grammar skips, are all code
points up to the space. White space, which `strip` removes, is the Unicode property with the four
information separators. -/
namespace LenientJson
namespace CodePoint

def isLayout (c : CodePoint) : Bool := c ≤ 0x20

def isSpace (c : CodePoint) : Bool :=
  (0x09 ≤ c && c ≤ 0x0D) || (0x1C ≤ c && c ≤ 0x20) || c == 0x85 || c == 0xA0 || c == 0x1680 ||
    (0x2000 ≤ c && c ≤ 0x200A) || c == 0x2028 || c == 0x2029 || c == 0x202F || c == 0x205F ||
    c == 0x3000

end CodePoint

namespace Text

def trim (p : CodePoint → Bool) (t : Text) : Text :=
  (((t.dropWhile p).reverse).dropWhile p).reverse

def stripRight (t : Text) : Text := (t.reverse.dropWhile CodePoint.isSpace).reverse

def stripLeft (t : Text) : Text := t.dropWhile CodePoint.isSpace

def strip (t : Text) : Text := stripRight (stripLeft t)

end Text
end LenientJson
