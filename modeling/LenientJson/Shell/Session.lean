import LenientJson.Parser
import LenientJson.Settings

/-! A session with one working object, into which parsed objects are merged, and which can be looked
into by dotted paths. What it shows is indented as far as there is room. -/
namespace LenientJson

structure Session where
  settings : Settings
  room : Nat
  document : Members Tree

namespace Session

def start (settings : Settings) (room : Nat) : Session := ⟨settings, room, []⟩

/-- The layout of what is shown. -/
def layout (s : Session) : Layout := ⟨s.settings.indentFactor, 0, s.room⟩

/-- Stores a node under a key of the working object, if an object may hold it. -/
def put (key : Text) (node : Tree) : EStateM Fault Session Unit := fun s =>
  match node.requireFinite with
  | .ok () => .ok () { s with document := s.document.insert key node }
  | .error fault => .error fault s

/-- Stores members one by one; those stored before one that must not be held stay. -/
def putAll : Members Tree → EStateM Fault Session Unit
  | [] => pure ()
  | (key, node) :: rest => do
    put key node
    putAll rest

/-- Parses a text and puts its members into the working object; gives the members. -/
def eval (text : Text) : EStateM Fault Session (Members Tree) := do
  match parseObject text with
  | .ok members =>
    putAll members
    return members
  | .error fault => throw fault

def reset (s : Session) : Session := { s with document := [] }

/-- The node that the segments of a path lead to: keys of objects and indexes of arrays. -/
def follow : Tree → (path : List Text) → Option Tree
  | node, [] => some node
  | .object members, segment :: path =>
    (Members.find? segment members).bind fun node => follow node path
  | .array elements, segment :: path =>
    match readInteger? segment with
    | some (.ofNat i) => ((elements[i]?).join).bind fun node => follow node path
    | _ => none
  | _, _ :: _ => none

def lookup (s : Session) (path : Text) : Option Tree :=
  follow (.object s.document) (Text.splitOn Symbol.dot path)

private def countText (kind : String) (count : Nat) (unit : String) : Text :=
  Text.ofString kind ++ Text.ofString " (" ++ decimalText count ++ Text.ofString unit ++
    Text.ofString ")\n"

/-- A node with its kind: containers with their size and their indented text. -/
def inspection (l : Layout) : Option Tree → Except Fault Text
  | none => .ok (Text.ofString "(not found)")
  | some (.scalar .null) => .ok (Text.ofString "Null")
  | some (.object members) => do
    return countText "JSONObject" members.length " keys" ++ (← Value.render l (.object members))
  | some (.array elements) => do
    return countText "JSONArray" elements.length " items" ++ (← Value.render l (.array elements))
  | some (.scalar leaf) => do
    return leaf.kindName ++ Text.ofString ": " ++ (← Value.render .flat (.scalar leaf))

/-- The keys in a column, each on a line with the compact text of its value. -/
def keyLines (s : Session) : List (Except Fault Text) :=
  match s.document with
  | [] => [.ok (Text.ofString "  (no keys defined)")]
  | members =>
    let width := members.foldl (fun width member => max width member.1.length) 0
    members.map fun (key, value) => do
      return Text.ofString "  " ++ Text.padRight width key ++ Text.ofString " : " ++
        (← value.render .flat)

def shown (s : Session) : Except Fault Text :=
  Value.render s.layout (.object s.document)

end Session
end LenientJson
