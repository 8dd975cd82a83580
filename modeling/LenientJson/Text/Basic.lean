/-! Texts as lists of code points. A text may hold lone surrogates, so it is not a `String`:
every number below `0x110000` may occur, and length counts code points. -/
namespace LenientJson

abbrev CodePoint := Nat

abbrev Text := List CodePoint

/-! Names for the code points that the grammar and the layout mention. -/
namespace Symbol

abbrev tab : CodePoint := 0x09
abbrev lineFeed : CodePoint := 0x0A
abbrev carriageReturn : CodePoint := 0x0D
abbrev space : CodePoint := 0x20
abbrev exclamation : CodePoint := 0x21
abbrev doubleQuote : CodePoint := 0x22
abbrev hash : CodePoint := 0x23
abbrev singleQuote : CodePoint := 0x27
abbrev leftParen : CodePoint := 0x28
abbrev rightParen : CodePoint := 0x29
abbrev plus : CodePoint := 0x2B
abbrev comma : CodePoint := 0x2C
abbrev minus : CodePoint := 0x2D
abbrev dot : CodePoint := 0x2E
abbrev slash : CodePoint := 0x2F
abbrev zero : CodePoint := 0x30
abbrev colon : CodePoint := 0x3A
abbrev semicolon : CodePoint := 0x3B
abbrev less : CodePoint := 0x3C
abbrev equals : CodePoint := 0x3D
abbrev leftBracket : CodePoint := 0x5B
abbrev backslash : CodePoint := 0x5C
abbrev rightBracket : CodePoint := 0x5D
abbrev underscore : CodePoint := 0x5F
abbrev letterE : CodePoint := 0x65
abbrev letterU : CodePoint := 0x75
abbrev letterX : CodePoint := 0x78
abbrev leftBrace : CodePoint := 0x7B
abbrev rightBrace : CodePoint := 0x7D

end Symbol

namespace CodePoint

/-- High and low halves of surrogate pairs stand for themselves here. -/
def isSurrogate (c : CodePoint) : Bool := 0xD800 ≤ c && c ≤ 0xDFFF

/-- Low halves of surrogate pairs that stand for single octets where a path is no text. -/
def isOctetSurrogate (c : CodePoint) : Bool := 0xDC80 ≤ c && c ≤ 0xDCFF

/-- How many octets a code point takes in a path: those of UTF-8, or the one that it stands for. -/
def octetCount (c : CodePoint) : Nat :=
  if c < 0x80 || c.isOctetSurrogate then 1
  else if c < 0x800 then 2
  else if c < 0x10000 then 3
  else 4

def isAsciiDigit (c : CodePoint) : Bool := 0x30 ≤ c && c ≤ 0x39

/-- ASCII capitals are lowered; every other code point is kept. -/
def lowerAscii (c : CodePoint) : CodePoint := if 0x41 ≤ c && c ≤ 0x5A then c + 32 else c

/-- ASCII small letters are raised; every other code point is kept. -/
def upperAscii (c : CodePoint) : CodePoint := if 0x61 ≤ c && c ≤ 0x7A then c - 32 else c

end CodePoint

namespace Text

def ofString (s : String) : Text := s.toList.map Char.toNat

def after? : (start t : Text) → Option Text
  | [], t => some t
  | _ :: _, [] => none
  | a :: start, c :: t => if a = c then after? start t else none

def startsWith (start t : Text) : Bool := (after? start t).isSome

/-- The pieces between the occurrences of a separator; never empty. -/
def splitOn (separator : CodePoint) : Text → List Text
  | [] => [[]]
  | c :: t =>
    if c = separator then [] :: splitOn separator t
    else match splitOn separator t with
      | [] => [[c]]
      | piece :: pieces => (c :: piece) :: pieces

def joinWith (separator : Text) : List Text → Text
  | [] => []
  | [piece] => piece
  | piece :: pieces => piece ++ separator ++ joinWith separator pieces

/-- The place that a number means in a text. Negative numbers count from the end, and what lies
before the beginning counts as the beginning. -/
def placeOf (t : Text) : Int → Nat
  | .ofNat n => n
  | .negSucc n => t.length - (n + 1)

def between (start stop : Int) (t : Text) : Text := (t.take (t.placeOf stop)).drop (t.placeOf start)

def spaces (n : Nat) : Text := List.replicate n Symbol.space

def padRight (width : Nat) (t : Text) : Text := t ++ spaces (width - t.length)

/-- Order by code points; a proper beginning comes first. -/
def before : (a b : Text) → Bool
  | [], [] => false
  | [], _ :: _ => true
  | _ :: _, [] => false
  | a :: s, b :: t => if a = b then before s t else a < b

def equalsAnyCase (a b : Text) : Bool :=
  a.map CodePoint.lowerAscii == b.map CodePoint.lowerAscii

/-- Between two places of a text there are as many code points as they are apart. -/
theorem between_append (before after : Text) (n : Nat) :
    between before.length (before.length + n : Nat) (before ++ after) = after.take n := by
  change ((before ++ after).take (before.length + n)).drop before.length = after.take n
  rw [List.take_length_add_append, List.drop_left]

theorem splitOn_ne_nil (separator : CodePoint) (t : Text) : splitOn separator t ≠ [] := by
  cases t with
  | nil => simp [splitOn]
  | cons c t =>
    rw [splitOn]
    split
    · simp
    · split <;> simp

end Text
end LenientJson
