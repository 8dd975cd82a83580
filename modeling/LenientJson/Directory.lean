import LenientJson.Fault
import LenientJson.Members
import LenientJson.Path

/-! A directory with files below it, named by their paths. Directories exist as far as files need
them. -/
namespace LenientJson

inductive FileFault
  | missing
  | notDirectory
  | isDirectory
  | tooManyOpen
  | nameTooLong
  | other (number : Nat) (message : Text)
deriving DecidableEq

namespace FileFault

private def coded (number : Nat) (message : Text) (path : Text) : Text :=
  Text.ofString "[Errno " ++ decimalText number ++ Text.ofString "] " ++ message ++
    Text.ofString ": " ++ path.literal

def message (path : Text) : FileFault → Text
  | missing => coded 2 (Text.ofString "No such file or directory") path
  | notDirectory => coded 20 (Text.ofString "Not a directory") path
  | isDirectory => coded 21 (Text.ofString "Is a directory") path
  | tooManyOpen => coded 24 (Text.ofString "Too many open files") path
  | nameTooLong => coded 36 (Text.ofString "File name too long") path
  | other number message => coded number message path

end FileFault

/-- Files by the parts of their paths, with their texts. -/
structure Directory where
  files : List (List Text × Text)

namespace Directory

/-- What a path leads to. A vacant place is a free name in a directory; a file or a free name with
nothing but slashes after it is slashed. -/
inductive Place
  | file (path : List Text)
  | directory
  | vacant (path : List Text)
  | slashed (isFile : Bool)
  | nowhere
  | throughFile
  | tooLong

def ofFiles (files : Members Text) : Directory :=
  ⟨files.map fun (path, text) => (Path.parts path, text)⟩

private def find? (d : Directory) (path : List Text) : Option Text :=
  (d.files.find? fun file => file.1 == path).map Prod.snd

private def isDirectory (d : Directory) (path : List Text) : Bool :=
  path.isEmpty || d.files.any fun file =>
    path.length < file.1.length && file.1.take path.length == path

private def isStay (part : Text) : Bool := part == [] || part == [Symbol.dot]

private def isUp (part : Text) : Bool := part == [Symbol.dot, Symbol.dot]

private def octets (t : Text) : Nat := t.foldl (fun count c => count + c.octetCount) 0

/-- The most octets that Linux takes in one part of a path. -/
def nameLimit : Nat := 255

/-- The most octets that Linux takes in a path, without the null character at its end. -/
def pathLimit : Nat := 4095

private def isTooLong (part : Text) : Bool := nameLimit < octets part

private def isTooLongPath (path : Text) : Bool := pathLimit < octets path

private def leadsUp (parts : List Text) : Bool := parts.all fun part => isStay part || isUp part

def follow (d : Directory) (here : List Text) : List Text → Place
  | [] => .directory
  | part :: rest =>
    if isStay part then follow d here rest
    else if isUp part then
      match here with
      | [] => if leadsUp rest then .directory else .nowhere
      | _ :: _ => follow d here.dropLast rest
    else if isTooLong part then .tooLong
    else
      let path := here ++ [part]
      let isFile := (d.find? path).isSome
      if !isFile && d.isDirectory path then follow d path rest
      else if rest.isEmpty then if isFile then .file path else .vacant path
      else if rest.all List.isEmpty then .slashed isFile
      else if isFile then .throughFile
      else .nowhere

/-- What a path leads to; nothing above the directory is known but that it exists. -/
def locate (d : Directory) (path : Text) : Place :=
  if path = [] then .nowhere
  else if isTooLongPath path then .tooLong
  else if Path.isAbsolute path then
    match Path.parts path with
    | [] => .directory
    | _ => .nowhere
  else d.follow [] (Text.splitOn Symbol.slash path)

def read (d : Directory) (path : Text) : Except FileFault Text :=
  match d.locate path with
  | .file parts => match d.find? parts with
    | some text => .ok text
    | none => .error .missing
  | .directory => .error .isDirectory
  | .vacant _ | .slashed false | .nowhere => .error .missing
  | .slashed true | .throughFile => .error .notDirectory
  | .tooLong => .error .nameTooLong

/-- The text of a file, if the path leads to one. Whether it does cannot be told of a path that is
too long. -/
def contents (d : Directory) (path : Text) : Except Fault (Option Text) :=
  match Path.flaw? path, d.read path with
  | none, .ok text => .ok (some text)
  | none, .error .nameTooLong => .error .pathTooLong
  | _, _ => .ok none

private def store (d : Directory) (path : List Text) (text : Text) : Directory :=
  match d.find? path with
  | some _ => ⟨d.files.map fun file => if file.1 = path then (path, text) else file⟩
  | none => ⟨d.files ++ [(path, text)]⟩

/-- The directory with a text in the place of a path, which must be a file or free. -/
def write (d : Directory) (path text : Text) : Except FileFault Directory :=
  match d.locate path with
  | .file parts | .vacant parts => .ok (d.store parts text)
  | .directory | .slashed _ => .error .isDirectory
  | .nowhere => .error .missing
  | .throughFile => .error .notDirectory
  | .tooLong => .error .nameTooLong

def listing (d : Directory) : Members Text :=
  (d.files.map fun (parts, text) => (Text.joinWith [Symbol.slash] parts, text)).mergeSort
    fun a b => !Text.before b.1 a.1

end Directory
end LenientJson
