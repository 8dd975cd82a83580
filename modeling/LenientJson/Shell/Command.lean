import LenientJson.Text.Blank

/-! The lines that a session understands. -/
namespace LenientJson

inductive Command
  | blank
  | quit
  | keys
  | showAll
  | reset
  | inspect (path : Text)
  | query (path : Text)
  | batch (file : Text)
  | eval (text : Text)
deriving DecidableEq

namespace Command

/-- What stands between an opening at the beginning and a parenthesis at the end. -/
def argument? (opening : String) (line : Text) : Option Text :=
  match Text.after? (Text.ofString opening) line with
  | some rest =>
    if rest.getLast? = some Symbol.rightParen then some (Text.strip rest.dropLast) else none
  | none => none

def operand? (opening : String) (line : Text) : Option Text :=
  (Text.after? (Text.ofString opening) line).map Text.strip

def ofStripped (line : Text) : Command :=
  if line = [] then blank
  else if line = Text.ofString ":q" ∨ line = Text.ofString ":quit" then quit
  else if line = Text.ofString ":keys" then keys
  else if line = Text.ofString ":show" then showAll
  else if line = Text.ofString ":reset" then reset
  else match argument? "inspect(" line, argument? "i(" line with
    | some path, _ | none, some path => inspect path
    | none, none => match operand? "? " line, operand? "?<< " line with
      | some path, _ => query path
      | none, some file => batch file
      | none, none => eval line

def ofLine (line : Text) : Command := ofStripped line.strip

end Command
end LenientJson
