import LenientJson.Number.Integer
import LenientJson.Text.Literal

/-! What can go wrong, by cause. The wording of every message is in one place, `Fault.message`. -/
namespace LenientJson

inductive SyntaxReason
  | substringBounds
  | secondStepBack
  | unterminatedString
  | illegalEscape
  | missingValue
  | objectStart
  | objectEnd
  | colon
  | memberSeparator
  | arrayStart
  | elementSeparator
  | other (message : Text)
deriving DecidableEq

namespace SyntaxReason

def message : SyntaxReason → Text
  | substringBounds => Text.ofString "Substring bounds error"
  | secondStepBack => Text.ofString "Stepping back two steps is not supported"
  | unterminatedString => Text.ofString "Unterminated string"
  | illegalEscape => Text.ofString "Illegal escape."
  | missingValue => Text.ofString "Missing value"
  | objectStart => Text.ofString "A JSONObject text must begin with '\x7b'"
  | objectEnd => Text.ofString "A JSONObject text must end with '\x7d'"
  | colon => Text.ofString "Expected a ':' after a key"
  | memberSeparator => Text.ofString "Expected a ',' or '\x7d'"
  | arrayStart => Text.ofString "A JSONArray text must start with '['"
  | elementSeparator => Text.ofString "Expected a ',' or ']'"
  | other message => message

end SyntaxReason

inductive Wanted
  | boolean
  | number
  | int
  | long
  | string
  | array
  | object
deriving DecidableEq

namespace Wanted

def complaint : Wanted → Text
  | boolean => Text.ofString " is not a Boolean."
  | number => Text.ofString " is not a number."
  | int => Text.ofString " is not an int."
  | long => Text.ofString " is not a long."
  | string => Text.ofString " not a string."
  | array => Text.ofString " is not a JSONArray."
  | object => Text.ofString " is not a JSONObject."

end Wanted

/-- Keys and indexes come as they are shown in messages. -/
inductive Fault
  | nullKey
  | keyNotText (kind : Text)
  | memberNotFound (key : Text)
  | elementNotFound (index : Text)
  | memberMismatch (key : Text) (wanted : Wanted)
  | elementNotText (index : Text)
  | notIncrementable (key : Text)
  | duplicateKey (key : Text)
  | nonFinite
  | noNumber
  | notNumber (literal : Text)
  | badRendering (detail : Text)
  | malformed (reason : SyntaxReason) (position : Int) (line : Nat) (column : Int)
  | raised (message : Text)
  | bundleMissing (base : Text) (locale : Option Text) (root : Text)
  | wrongKind
  | noSuchMember
  | tooLarge
  | tooManyDigits
  | decimalTooLarge
  | noRoom
  | endless
  | outsideText
  | invalidComparison
  | pathHoldsNull
  | pathTooLong
  | unencodable
deriving DecidableEq

namespace Fault

/-- Faults of the object model itself, as opposed to faults of the values handed to it. -/
def isModelFault : Fault → Bool
  | raised _ | bundleMissing .. | wrongKind | noSuchMember | tooLarge | tooManyDigits | decimalTooLarge
  | noRoom | endless | outsideText | invalidComparison | pathHoldsNull | pathTooLong
  | unencodable => false
  | _ => true

/-- Faults which say that a value is of an unsuitable kind or form. -/
def isRefusal : Fault → Bool
  | wrongKind | tooManyDigits | pathHoldsNull | unencodable => true
  | _ => false

private def say (s : String) : Text := Text.ofString s

def message : Fault → Text
  | nullKey => say "Null key."
  | keyNotText kind => say "Key must be a string, not " ++ kind ++ say "."
  | memberNotFound key => say "JSONObject[" ++ key ++ say "] not found."
  | elementNotFound index => say "JSONArray[" ++ index ++ say "] not found."
  | memberMismatch key wanted => say "JSONObject[" ++ key ++ say "]" ++ wanted.complaint
  | elementNotText index => say "JSONArray[" ++ index ++ say "] not a string."
  | notIncrementable key => say "Unable to increment [" ++ key ++ say "]."
  | duplicateKey key => say "Duplicate key \"" ++ key ++ say "\""
  | nonFinite => say "JSON does not allow non-finite numbers."
  | noNumber => say "Null pointer"
  | notNumber literal => say "Not a number: " ++ literal
  | badRendering detail => say "Bad value from to_json_string: " ++ detail
  | malformed reason position line column =>
    reason.message ++ say " at " ++ signedDecimalText position ++ say " [line " ++
      decimalText line ++ say ", column " ++ signedDecimalText column ++ say "]"
  | raised message => message
  | bundleMissing base locale root =>
    say "No resource bundle for base name " ++ Text.literal base ++ say ", locale " ++
      (match locale with
        | some name => Text.literal name
        | none => say "None") ++ say " in " ++ root
  | wrongKind => say "unsuitable kind of value"
  | noSuchMember => say "no such member"
  | tooLarge => say "number too large"
  | tooManyDigits => say "number with too many digits"
  | decimalTooLarge => say "decimal too large"
  | noRoom => say "not enough room"
  | endless => say "container that holds itself"
  | outsideText => say "no character at this place"
  | invalidComparison => say "comparison with what is no number"
  | pathHoldsNull => say "path with a null character"
  | pathTooLong => say "path too long for a file"
  | unencodable => say "text with half of a surrogate pair"

end Fault

/-- The outcome of an attempt, or none where its fault is among those that count as none; other faults
stay. -/
def fitting {α : Type} (isNone : Fault → Bool) (attempt : Except Fault α) :
    Except Fault (Option α) :=
  match attempt with
  | .ok value => .ok (some value)
  | .error fault => if isNone fault then .ok none else .error fault

/-- The outcome of an attempt, or a fallback where the model itself reports a fault; other faults
stay. -/
def recovered {α : Type} (attempt : Except Fault α) (fallback : α) : Except Fault α :=
  match attempt with
  | .ok value => .ok value
  | .error fault => if fault.isModelFault then .ok fallback else .error fault

end LenientJson
