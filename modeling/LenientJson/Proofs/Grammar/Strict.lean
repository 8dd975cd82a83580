import LenientJson.Number.Double
import LenientJson.Value

/-! The grammar of strict JSON. Each production relates a whole text to what it stands for. A number
stands for its own token, so that the grammar does not say how precisely numbers are held; what a
token means to a reader with integers of 64 bits and binary64 numbers is said by `numberValue`. -/
namespace LenientJson.Strict

inductive Json
  | null
  | bool (value : Bool)
  | number (token : Text)
  | string (value : Text)
  | array (elements : List Json)
  | object (members : List (Text × Json))

/-- White space: `ws = *( %x20 / %x09 / %x0A / %x0D )` -/
def AreSpaces (t : Text) : Prop :=
  ∀ c ∈ t, c = Symbol.space ∨ c = Symbol.tab ∨ c = Symbol.lineFeed ∨ c = Symbol.carriageReturn

instance (t : Text) : Decidable (AreSpaces t) := inferInstanceAs (Decidable (∀ c ∈ t, _))

/-- The letters that may follow a backslash, each with what it stands for. -/
def escapes : List (CodePoint × CodePoint) :=
  [(Symbol.doubleQuote, Symbol.doubleQuote), (Symbol.backslash, Symbol.backslash), (Symbol.slash, Symbol.slash),
    (0x62, 0x08), (0x66, 0x0C), (0x6E, 0x0A), (0x72, 0x0D), (0x74, 0x09)]

/-- The inside of a string, `*char`, with the text that the characters stand for. Four hexadecimal digits stand for one code
point, be it half of a surrogate pair. -/
inductive IsChars : Text → Text → Prop
  | nil : IsChars [] []
  | unescaped {c t s} (low : Symbol.space ≤ c) (high : c < 0x110000) (quote : c ≠ Symbol.doubleQuote)
      (backslash : c ≠ Symbol.backslash) (others : IsChars t s) : IsChars (c :: t) (c :: s)
  | escape {letter c t s} (named : (letter, c) ∈ escapes) (others : IsChars t s) :
      IsChars (Symbol.backslash :: letter :: t) (c :: s)
  | hex {a b c d x y z w t s} (first : hexValue? a = some x) (second : hexValue? b = some y)
      (third : hexValue? c = some z) (fourth : hexValue? d = some w) (others : IsChars t s) :
      IsChars (Symbol.backslash :: Symbol.letterU :: a :: b :: c :: d :: t) ((((x * 16 + y) * 16 + z) * 16 + w) :: s)

/-- A string token: `string = quotation-mark *char quotation-mark` -/
inductive IsString : Text → Text → Prop
  | mk {t s} (inside : IsChars t s) : IsString (Symbol.doubleQuote :: t ++ [Symbol.doubleQuote]) s

/-- Digits: `1*DIGIT` -/
def AreDigits (t : Text) : Prop := t ≠ [] ∧ ∀ c ∈ t, c.isAsciiDigit = true

/-- The integer part: `int = zero / ( digit1-9 *DIGIT )` -/
inductive IsWhole : Text → Prop
  | zero : IsWhole [Symbol.zero]
  | digits {d : Nat} {ds} (low : 0x31 ≤ d) (high : d ≤ 0x39) (others : ∀ c ∈ ds, CodePoint.isAsciiDigit c = true) :
      IsWhole (d :: ds)

/-- A fraction or nothing: `[ frac ]`, where `frac = decimal-point 1*DIGIT` -/
inductive IsFraction : Text → Prop
  | absent : IsFraction []
  | point {ds} (digits : AreDigits ds) : IsFraction (Symbol.dot :: ds)

/-- An exponent or nothing: `[ exp ]`, where `exp = e [ minus / plus ] 1*DIGIT` -/
inductive IsExponent : Text → Prop
  | absent : IsExponent []
  | mark {e sign ds} (letter : e = Symbol.letterE ∨ e = 0x45)
      (signed : sign = [] ∨ sign = [Symbol.minus] ∨ sign = [Symbol.plus]) (digits : AreDigits ds) :
      IsExponent (e :: sign ++ ds)

/-- A number token: `number = [ minus ] int [ frac ] [ exp ]` -/
inductive IsNumber : Text → Prop
  | mk {sign whole fraction exponent} (signed : sign = [] ∨ sign = [Symbol.minus]) (isWhole : IsWhole whole)
      (isFraction : IsFraction fraction) (isExponent : IsExponent exponent) :
      IsNumber (sign ++ whole ++ fraction ++ exponent)

mutual
inductive IsValue : Text → Json → Prop
  | null : IsValue (Text.ofString "null") .null
  | bool (value : Bool) : IsValue (Text.ofString (if value then "true" else "false")) (.bool value)
  | number {token} (isNumber : IsNumber token) : IsValue token (.number token)
  | string {t s} (isString : IsString t s) : IsValue t (.string s)
  | emptyArray {w} (blank : AreSpaces w) : IsValue (Symbol.leftBracket :: w ++ [Symbol.rightBracket]) (.array [])
  | array {t elements} (inside : IsElements t elements) :
      IsValue (Symbol.leftBracket :: t ++ [Symbol.rightBracket]) (.array elements)
  | emptyObject {w} (blank : AreSpaces w) : IsValue (Symbol.leftBrace :: w ++ [Symbol.rightBrace]) (.object [])
  | object {t members} (inside : IsMembers t members) :
      IsValue (Symbol.leftBrace :: t ++ [Symbol.rightBrace]) (.object members)

/-- A value with spaces around it: `ws value ws`, which is also what a whole JSON text is. -/
inductive IsPadded : Text → Json → Prop
  | mk {before t after value} (blank : AreSpaces before) (isValue : IsValue t value) (blank' : AreSpaces after) :
      IsPadded (before ++ t ++ after) value

/-- Elements: `value *( value-separator value )` -/
inductive IsElements : Text → List Json → Prop
  | last {t element} (isElement : IsPadded t element) : IsElements t [element]
  | more {t u element elements} (isElement : IsPadded t element) (others : IsElements u elements) :
      IsElements (t ++ Symbol.comma :: u) (element :: elements)

/-- A member: `member = string name-separator value`, with spaces around all three -/
inductive IsMember : Text → Text × Json → Prop
  | mk {before name after key t value} (blank : AreSpaces before) (isName : IsString name key)
      (blank' : AreSpaces after) (isValue : IsPadded t value) :
      IsMember (before ++ name ++ after ++ Symbol.colon :: t) (key, value)

/-- Members: `member *( value-separator member )` -/
inductive IsMembers : Text → List (Text × Json) → Prop
  | last {t member} (isMember : IsMember t member) : IsMembers t [member]
  | more {t u member members} (isMember : IsMember t member) (others : IsMembers u members) :
      IsMembers (t ++ Symbol.comma :: u) (member :: members)
end

def isIntegral (token : Text) : Bool :=
  !(token.contains Symbol.dot || token.contains Symbol.letterE || token.contains 0x45)

/-- The number that an optional minus and digits denote. -/
def integerValue (token : Text) : Int :=
  let (negative, digits) := Text.splitSign token
  if negative then -(digitsValue digits : Int) else digitsValue digits

/-- What a number token means: an integer if it has neither a fraction nor an exponent and is not
`-0`, and a binary64 number if it has one of them. A token that is too large for both means its own
text. -/
def numberValue (token : Text) : Scalar :=
  if isIntegral token then
    let n := integerValue token
    if token ≠ [Symbol.minus, Symbol.zero] ∧ minInt64 ≤ n ∧ n ≤ maxInt64 then .int n else .text token
  else match Double.read? token with
    | some d => if d.isFinite then .float d else .text token
    | none => .text token

namespace Json

mutual
def meaning : Json → Tree
  | .null => .scalar .null
  | .bool value => .scalar (.bool value)
  | .number token => .scalar (numberValue token)
  | .string value => .scalar (.text value)
  | .array elements => .array (elementMeanings elements)
  | .object members => .object (memberMeanings members)

def elementMeanings : List Json → List (Option Tree)
  | [] => []
  | element :: rest => some element.meaning :: elementMeanings rest

def memberMeanings : List (Text × Json) → Members Tree
  | [] => []
  | (key, value) :: rest => (key, value.meaning) :: memberMeanings rest
end

mutual
/-- No object has two members with the same decoded key. -/
def KeysDiffer : Json → Prop
  | .array elements => ElementKeysDiffer elements
  | .object members => (members.map Prod.fst).Nodup ∧ MemberKeysDiffer members
  | _ => True

def ElementKeysDiffer : List Json → Prop
  | [] => True
  | element :: rest => element.KeysDiffer ∧ ElementKeysDiffer rest

def MemberKeysDiffer : List (Text × Json) → Prop
  | [] => True
  | (_, value) :: rest => value.KeysDiffer ∧ MemberKeysDiffer rest
end

end Json
end LenientJson.Strict
