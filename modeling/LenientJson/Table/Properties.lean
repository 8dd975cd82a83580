import LenientJson.Text.Blank
import LenientJson.Value

/-! Lines of keys and values, as in `key = value` or `key: value`. Blank lines and lines that begin
with a hash or an exclamation mark say nothing; a line without a separator maps its text to nothing.
A key that comes again keeps its place and takes the last value. Dotted keys stand for nested objects,
in which an entry replaces whatever an earlier entry left in its way. -/
namespace LenientJson

abbrev Table := Members Text

namespace Table

/-- A separator at the beginning of a text, with the white space around it; gives what follows. -/
def afterSeparator? (t : Text) : Option Text :=
  match t.dropWhile CodePoint.isSpace with
  | [] => none
  | c :: rest =>
    if c = Symbol.equals ∨ c = Symbol.colon then some (rest.dropWhile CodePoint.isSpace) else none

def splitAtSeparator? : Text → Option (Text × Text)
  | [] => none
  | c :: rest => match afterSeparator? (c :: rest) with
    | some value => some ([], value)
    | none => (splitAtSeparator? rest).map fun (key, value) => (c :: key, value)

def entryOf? (line : Text) : Option (Text × Text) :=
  match line.strip with
  | [] => none
  | c :: rest =>
    if c = Symbol.hash ∨ c = Symbol.exclamation then none
    else some ((splitAtSeparator? (c :: rest)).getD (c :: rest, []))

def ofLines (lines : List Text) : Table :=
  lines.foldl (fun table line => match entryOf? line with
    | some (key, value) => table.insert key value
    | none => table) []

/-- Puts a value at the end of a path; what is missing on the way, or is no object, is made anew. -/
def place (value : Tree) : (path : List Text) → Members Tree → Members Tree
  | [], m => m
  | [key], m => m.insert key value
  | segment :: next :: path, m =>
    let inner := match m.find? segment with
      | some (.object inner) => inner
      | _ => []
    m.insert segment (.object (place value (next :: path) inner))

def expand (table : Table) : Members Tree :=
  table.foldl (fun m entry =>
    place (.scalar (.text entry.2)) (Text.splitOn Symbol.dot entry.1) m) []

end Table
end LenientJson
