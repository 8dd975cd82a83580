import LenientJson.Inference
import LenientJson.Tokener

/-! Readers of characters, string literals and bare words. A reader is a course of moves, from which its result is
obtained by making them. A loop or a call is written as one step of it, to which the reader that goes on from there is
given: the readers themselves allow as many steps as the text can ask for. -/
namespace LenientJson

/-- A reading that makes one move after another, until it gives something or fails. It may look at the place, without
which no loop knows how far it can go. -/
inductive Reader (α : Type)
  | gives (a : α)
  | fails (fault : Fault)
  | look (further : Tokener → Reader α)
  | make (move : Tokener.Move) (further : move.Answer → Reader α)

namespace Reader

variable {α β : Type}

protected def bind : Reader α → (α → Reader β) → Reader β
  | gives a, k => k a
  | fails fault, _ => fails fault
  | look further, k => look fun t => (further t).bind k
  | make move further, k => make move fun answer => (further answer).bind k

instance : Monad Reader where
  pure := gives
  bind := Reader.bind

/-- What reading from a place comes to. -/
def run : Reader α → Tokener → Tokener.Result α
  | gives a, t => .ok a t
  | fails fault, t => .error fault t
  | look further, t => (further t).run t
  | make move further, t =>
    match move.act t with
    | .ok answer t' => (further answer).run t'
    | .error fault t' => .error fault t'

instance : CoeFun (Reader α) fun _ => Tokener → Tokener.Result α := ⟨run⟩

def next : Reader (Option CodePoint) := make .next gives

def nextMany (n : Nat) : Reader Text := make (.nextMany n) gives

def back : Reader Unit := make .back gives

def fail (reason : SyntaxReason) : Reader α := look fun t => fails (t.fault reason)

def lift : Except Fault α → Reader α
  | .ok a => gives a
  | .error fault => fails fault

/-! Characters. -/

-- Inlined, so that a bound of many steps is not built up before the first of them is made.
@[macro_inline]
def cleanStep (again : Reader (Option CodePoint)) : Reader (Option CodePoint) := do
  match ← next with
  | some c => if c.isLayout then again else return some c
  | none => return none

/-- The first character that is no layout among the next `limit` ones and the one after them. -/
def cleanWithin : (limit : Nat) → Reader (Option CodePoint)
  | 0 => next
  | limit + 1 => cleanStep (cleanWithin limit)

def nextClean : Reader (Option CodePoint) := look fun t => cleanWithin t.ahead

/-! String literals. -/

def escapeMeaning? (c : CodePoint) : Option CodePoint :=
  if c = 0x62 then some 0x08
  else if c = 0x74 then some 0x09
  else if c = 0x6E then some 0x0A
  else if c = 0x66 then some 0x0C
  else if c = 0x72 then some 0x0D
  else if c = Symbol.doubleQuote ∨ c = Symbol.singleQuote ∨ c = Symbol.backslash ∨ c = Symbol.slash
    then some c
  else none

/-- The code point of four hexadecimal characters; negative numbers have none. -/
def hexMeaning? (digits : Text) : Option CodePoint :=
  match readHexadecimal? digits with
  | some (.ofNat n) => some n
  | _ => none

def escape : Reader (Option CodePoint) := do
  match ← next with
  | none => return none
  | some c =>
    if c = Symbol.letterU then return hexMeaning? (← nextMany 4)
    else return escapeMeaning? c

/-- `read` holds what the literal gave so far, backwards. -/
def stringStep (mark : Option CodePoint) (again : (read : List CodePoint) → Reader Text) (read : List CodePoint) :
    Reader Text := do
  match ← next with
  | none => fail .unterminatedString
  | some c =>
    if c = Symbol.lineFeed ∨ c = Symbol.carriageReturn then fail .unterminatedString
    else if c = Symbol.backslash then
      match ← escape with
      | some meaning => again (meaning :: read)
      | none => fail .illegalEscape
    else if some c = mark then return read.reverse
    else again (c :: read)

/-- The rest of a string literal, up to and with its closing mark, if it has fewer than `limit` characters and
escapes. -/
def stringWithin (mark : Option CodePoint) : (limit : Nat) → (read : List CodePoint) → Reader Text
  | 0 => fun _ => fail .unterminatedString
  | limit + 1 => stringStep mark (stringWithin mark limit)

/-- The rest of a string literal that `mark` opened; without a mark none can close it. -/
def nextString (mark : Option CodePoint) : Reader Text := look fun t => stringWithin mark (t.ahead + 1) []

/-! Bare words. -/

/-- Characters of bare words: neither controls nor characters with a meaning of their own. -/
def isBare (c : CodePoint) : Bool :=
  Symbol.space ≤ c && !(c == Symbol.comma || c == Symbol.colon || c == Symbol.rightBracket ||
    c == Symbol.rightBrace || c == Symbol.slash || c == Symbol.backslash ||
    c == Symbol.doubleQuote || c == Symbol.leftBracket || c == Symbol.leftBrace ||
    c == Symbol.semicolon || c == Symbol.equals || c == Symbol.hash)

/-- The character read last belongs to the word, or it is given back and the word is over. -/
def bareStep (again : (last : Option CodePoint) → (read : List CodePoint) → Reader Text) (last : Option CodePoint)
    (read : List CodePoint) : Reader Text := do
  match last with
  | some c =>
    if isBare c then again (← next) (c :: read)
    else
      back
      return read.reverse
  | none =>
    back
    return read.reverse

/-- The longest run of bare characters from the last one on, if it is shorter than `limit`, after those in `read`,
which are held backwards. -/
def bareWithin : (limit : Nat) → (last : Option CodePoint) → (read : List CodePoint) → Reader Text
  | 0 => fun _ read => return read.reverse
  | limit + 1 => bareStep (bareWithin limit)

def bareRun (first : Option CodePoint) : Reader Text := look fun t => bareWithin (t.ahead + 2) first []

/-- What a bare word stands for, whose characters `run` collects. -/
def wordStep (run : (first : Option CodePoint) → Reader Text) (first : Option CodePoint) : Reader Scalar := do
  let word := (← run first).strip
  if word = [] then fail .missingValue
  else return inferred word

/-- The bare word that begins with the character read last. -/
def bareWord : (first : Option CodePoint) → Reader Scalar := wordStep bareRun

end Reader
end LenientJson
