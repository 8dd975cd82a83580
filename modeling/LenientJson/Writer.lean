import LenientJson.Layout
import LenientJson.Value
import LenientJson.Text.Quoted

/-! Strict JSON text of documents. Containers with at most one entry stay on one line; others have
one line for each entry when the indentation step is positive. Lines are indented by the step for
each open container of several entries, beyond the indentation of the whole. -/
namespace LenientJson

/-- The JSON text of a leaf. Numbers stand as they are, whatever text they have; ready-made texts are
written as they are, and anything else as a string. -/
def Scalar.json (s : Scalar) : Except Fault Text :=
  match s with
  | .null => .ok (Text.ofString "null")
  | .bool value => .ok (Text.ofString (if value then "true" else "false"))
  | .int _ | .float _ | .decimal _ | .fraction _ => s.canonicalNumber
  | .raw (some t) => .ok t
  | .raw none => do throw (.badRendering (← s.literal))
  | .foreign value => match value.number, value.rendering with
    | some _, _ => s.canonicalNumber
    | none, some rendering => value.rendered rendering
    | none, none => value.spoken.answer.map Text.quoted
  | other => other.plain.map Text.quoted

namespace Value

mutual
/-- The text of a document within `depth` containers of several entries. -/
def write (l : Layout) (depth : Nat) : Tree → Emission
  | .scalar value => .ofExcept value.json
  | .object [] => .ofText [Symbol.leftBrace, Symbol.rightBrace]
  | .object [(key, value)] =>
    .ofText (Symbol.leftBrace :: Text.quoted key ++ l.colon) ++ write l depth value ++
      .ofText [Symbol.rightBrace]
  | .object (first :: second :: rest) =>
    .ofText [Symbol.leftBrace] ++ writeMember l (depth + 1) first ++
      writeMembers l (depth + 1) (second :: rest) ++ l.lineStart depth ++
      .ofText [Symbol.rightBrace]
  | .array [] => .ofText [Symbol.leftBracket, Symbol.rightBracket]
  | .array [element] =>
    .ofText [Symbol.leftBracket] ++ writeElement l depth element ++ .ofText [Symbol.rightBracket]
  | .array (first :: second :: rest) =>
    .ofText [Symbol.leftBracket] ++ l.lineStart (depth + 1) ++ writeElement l (depth + 1) first ++
      writeElements l (depth + 1) (second :: rest) ++ l.lineStart depth ++
      .ofText [Symbol.rightBracket]

def writeMember (l : Layout) (depth : Nat) : Text × Tree → Emission
  | (key, value) =>
    l.lineStart depth ++ .ofText (Text.quoted key ++ l.colon) ++ write l depth value

def writeMembers (l : Layout) (depth : Nat) : List (Text × Tree) → Emission
  | [] => .ofText []
  | entry :: rest =>
    .ofText [Symbol.comma] ++ writeMember l depth entry ++ writeMembers l depth rest

def writeElement (l : Layout) (depth : Nat) : Option Tree → Emission
  | none => .ofString "null"
  | some value => write l depth value

def writeElements (l : Layout) (depth : Nat) : List (Option Tree) → Emission
  | [] => .ofText []
  | element :: rest =>
    .ofText [Symbol.comma] ++ l.lineStart depth ++ writeElement l depth element ++
      writeElements l depth rest
end

/-- Whether a document stays on one line for every indentation step: no container in it has several
entries. -/
def isInline : Tree → Bool
  | .scalar _ | .object [] | .array [] | .array [none] => true
  | .object [(_, value)] => isInline value
  | .array [some value] => isInline value
  | .object _ | .array _ => false

def render (l : Layout) (v : Tree) : Except Fault Text := (write l 0 v).complete

def compact? (v : Tree) : Option Text := (render .flat v).toOption

def compact (v : Tree) : Text := v.compact?.getD []

end Value
end LenientJson
