import LenientJson.Emission

/-! Where a session writes its answers, line by line: to a buffer in memory, or to a file or another
stream that is encoded in UTF-8. The first line that cannot be written ends the writing; the lines
before it stay. -/
namespace LenientJson

inductive Destination
  | buffer
  | encoded
deriving DecidableEq

namespace Destination

/-- Whether a text can be written there. Half of a surrogate pair cannot be encoded. -/
def takes (d : Destination) (t : Text) : Bool :=
  match d with
  | buffer => true
  | encoded => !t.any CodePoint.isSurrogate

def writeLine (d : Destination) : Except Fault Text → Emission
  | .ok t =>
    if d.takes t then .ofText (t ++ [Symbol.lineFeed]) else .ofExcept (.error .unencodable)
  | .error fault => .ofExcept (.error fault)

/-- Lines in order, up to the first that cannot be written. -/
def writeLines (d : Destination) : List (Except Fault Text) → Emission
  | [] => .ofText []
  | line :: rest => d.writeLine line ++ d.writeLines rest

end Destination
end LenientJson
