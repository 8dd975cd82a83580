import LenientJson.Host.Equality
import LenientJson.Text.Quoted

/-! Host values in the place of keys. Only texts can be keys; looking up anything else finds nothing
or, if it cannot be looked up at all, fails. -/
namespace LenientJson
namespace Host

def lookupKey : Host → Except Fault (Option Text)
  | .scalar (.text key) => .ok (some key)
  | other => if other.isHashable then .ok none else .error .wrongKind

def requireKey : Host → Except Fault Text
  | .absent => .error .nullKey
  | .scalar (.text key) => .ok key
  | other => .error (.keyNotText other.kindName)

/-- The pieces of which a key that is no text is shown in messages. -/
def keyPieces? (view : Link → Sight) : Host → Option (List Host)
  | .sequence _ elements => some elements
  | .mapping entries => some (entries.map Prod.fst)
  | .link target => some (view target).pieces
  | _ => none

/-- What stands for a piece in the shown key. A piece of one code point is written as in a string
token; a longer one stands as it is, unless it begins like a code point that needs digits. -/
def shownPiece (previous : Option Text) (piece : Text) : Except Fault Text :=
  match piece with
  | [] => .error .wrongKind
  | [c] =>
    let before := if previous = some [Symbol.less] then some Symbol.less else none
    .ok (Text.escaped before c)
  | first :: _ => if Text.needsHex first then .error .wrongKind else .ok piece

private def shownPieces : (previous : Option Text) → List Host → Except Fault Text
  | _, [] => .ok []
  | previous, .scalar (.text piece) :: rest => do
    return (← shownPiece previous piece) ++ (← shownPieces (some piece) rest)
  | _, piece :: _ => .error (if piece.isIncomparable then Scalar.refusal else .wrongKind)

/-- A key as messages show it: as a string token, and an empty one for whatever counts as false. -/
def shownKey (view : Link → Sight) (key : Host) : Except Fault Text :=
  match key with
  | .scalar (.text t) => .ok t.quoted
  | other =>
    if !other.isTruthy view then .ok (Text.quoted [])
    else match other.keyPieces? view with
      | some pieces => do
        return Symbol.doubleQuote :: (← shownPieces none pieces) ++ [Symbol.doubleQuote]
      | none => .error .wrongKind

end Host
end LenientJson
