import LenientJson.Reader
import LenientJson.Writer

/-! The lenient grammar. On top of strict JSON it takes semicolons between members, a separator
before a closing mark, single quotes, bare words, elements left out (read as null), and any value
as a key. -/
namespace LenientJson

def Value.keyText : Tree → Text
  | .scalar (.bool value) => Text.ofString (if value then "true" else "false")
  | .scalar (.text value) => value
  | .scalar value => (value.plain.toOption).getD []
  | container => container.compact

def Members.addNew {α : Type} (key : Text) (value : α) (m : Members α) :
    Except Fault (Members α) :=
  match m.find? key with
  | some _ => .error (.duplicateKey key)
  | none => .ok (m.insert key value)

namespace Reader

def isQuoteMark (c : CodePoint) : Bool := c == Symbol.doubleQuote || c == Symbol.singleQuote

/-! One step of each reader, which asks the others for what it does not read itself. -/

def valueStep (clean : Reader (Option CodePoint)) (string : (mark : Option CodePoint) → Reader Text)
    (word : (first : Option CodePoint) → Reader Scalar) (object : Reader (Members Tree))
    (array : Reader (List (Option Tree))) : Reader Tree := do
  match ← clean with
  | some c =>
    if isQuoteMark c then return .scalar (.text (← string (some c)))
    else if c = Symbol.leftBrace then
      back
      return .object (← object)
    else if c = Symbol.leftBracket then
      back
      return .array (← array)
    else return .scalar (← word (some c))
  | none => return .scalar (← word none)

/-- What follows an entry: the closing mark, or a separator, behind which the closing mark may stand as well.
Says whether another entry follows. -/
def separation (clean : Reader (Option CodePoint)) (separators : List CodePoint) (closing : CodePoint)
    (reason : SyntaxReason) : Reader Bool := do
  match ← clean with
  | none => fail reason
  | some c =>
    if c ∈ separators then
      if (← clean) = some closing then return false
      else
        back
        return true
    else if c = closing then return false
    else fail reason

def objectStep (clean : Reader (Option CodePoint)) (members : (read : Members Tree) → Reader (Members Tree)) :
    Reader (Members Tree) := do
  if (← clean) = some Symbol.leftBrace then members []
  else fail .objectStart

/-- One round over the members of an object, after those in `read`. Says whether another round follows. -/
def memberRound (clean : Reader (Option CodePoint)) (value : Reader Tree) (read : Members Tree) :
    Reader (Members Tree × Bool) := do
  match ← clean with
  | none => fail .objectEnd
  | some c =>
    if c = Symbol.rightBrace then return (read, false)
    else
      back
      let key := (← value).keyText
      if (← clean) = some Symbol.colon then
        let item ← value
        let read ← lift (read.addNew key item)
        lift item.requireFinite
        return (read, ← separation clean [Symbol.comma, Symbol.semicolon] Symbol.rightBrace .memberSeparator)
      else fail .colon

def membersStep (clean : Reader (Option CodePoint)) (value : Reader Tree)
    (again : (read : Members Tree) → Reader (Members Tree)) (read : Members Tree) : Reader (Members Tree) := do
  let (read, more) ← memberRound clean value read
  if more then again read else return read

def arrayStep (clean : Reader (Option CodePoint))
    (elements : (read : List (Option Tree)) → Reader (List (Option Tree))) : Reader (List (Option Tree)) := do
  if (← clean) = some Symbol.leftBracket then
    if (← clean) = some Symbol.rightBracket then return []
    else
      back
      elements []
  else fail .arrayStart

/-- The element in a slot: nothing before a comma is null. -/
def slotElement (value : Reader Tree) (first : Option CodePoint) : Reader Tree :=
  if first = some Symbol.comma then pure Value.null else value

/-- One round over the slots of an array. Says whether another round follows. -/
def slotRound (clean : Reader (Option CodePoint)) (value : Reader Tree) : Reader (Tree × Bool) := do
  let first ← clean
  back
  let element ← slotElement value first
  lift element.requireFinite
  return (element, ← separation clean [Symbol.comma] Symbol.rightBracket .elementSeparator)

def elementsStep (clean : Reader (Option CodePoint)) (value : Reader Tree)
    (again : (read : List (Option Tree)) → Reader (List (Option Tree))) (read : List (Option Tree)) :
    Reader (List (Option Tree)) := do
  let (element, more) ← slotRound clean value
  if more then again (read ++ [some element]) else return read ++ [some element]

/-! The readers. Every descent takes one from `fuel`. -/

mutual
def value : (fuel : Nat) → Reader Tree
  | 0 => fail .missingValue
  | fuel + 1 => valueStep nextClean nextString bareWord (object fuel) (array fuel)

def object : (fuel : Nat) → Reader (Members Tree)
  | 0 => fail .objectStart
  | fuel + 1 => objectStep nextClean (members fuel)

/-- Members up to and with the closing brace, added to those read before. -/
def members : (fuel : Nat) → (read : Members Tree) → Reader (Members Tree)
  | 0 => fun _ => fail .objectEnd
  | fuel + 1 => membersStep nextClean (value fuel) (members fuel)

def array : (fuel : Nat) → Reader (List (Option Tree))
  | 0 => fail .arrayStart
  | fuel + 1 => arrayStep nextClean (elements fuel)

/-- Elements up to and with the closing bracket, added to those read before. -/
def elements : (fuel : Nat) → (read : List (Option Tree)) → Reader (List (Option Tree))
  | 0 => fun _ => fail .elementSeparator
  | fuel + 1 => elementsStep nextClean (value fuel) (elements fuel)
end

/-- Enough for any text: every three descents read at least one character. -/
def fuelFor (t : Tokener) : Nat := 3 * t.ahead + 3

def nextValue : Reader Tree := look fun t => value (fuelFor t)

def nextObject : Reader (Members Tree) := look fun t => object (fuelFor t)

def nextArray : Reader (List (Option Tree)) := look fun t => array (fuelFor t)

end Reader

/-- The object at the beginning of a text; what follows it is not looked at. -/
def parseObject (t : Text) : Except Fault (Members Tree) :=
  match Reader.nextObject (Tokener.ofText t) with
  | .ok members _ => .ok members
  | .error fault _ => .error fault

end LenientJson
