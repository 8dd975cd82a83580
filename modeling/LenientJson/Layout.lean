import LenientJson.Emission

/-! How the lines of a document are indented: by a margin, and by a step for each open container of
several entries. A step that is not positive keeps the document on one line. -/
namespace LenientJson

/-- Fails if more is asked for at once than can be counted, or than there is room for. -/
def requireRoom (room : Nat) (count : Int) : Except Fault Unit :=
  if count < minInt64 ∨ maxInt64 < count then .error .tooLarge
  else if room < count then .error .noRoom
  else .ok ()

/-- The blanks before a line of a given indentation; `room` is the widest that finds room. -/
def indentation (room : Nat) (width : Int) : Except Fault Text := do
  requireRoom room width
  return Text.spaces width.toNat

/-- A step, a margin, and the widest indentation that finds room. -/
structure Layout where
  step : Int
  margin : Int
  room : Nat
deriving DecidableEq

namespace Layout

/-- Everything on one line, for which no room is needed. -/
def flat : Layout := ⟨0, 0, 0⟩

def hasLines (l : Layout) : Bool := 0 < l.step

def colon (l : Layout) : Text :=
  if l.hasLines then [Symbol.colon, Symbol.space] else [Symbol.colon]

/-- What comes before an entry or a closing mark that stands on a line of its own, within `depth`
containers of several entries. -/
def lineStart (l : Layout) (depth : Nat) : Emission :=
  if l.hasLines then
    .ofText [Symbol.lineFeed] ++ .ofExcept (indentation l.room (l.margin + l.step * depth))
  else .ofText []

end Layout
end LenientJson
