import LenientJson.Fault

/-! Paths of files as texts, and the line ends of files. -/
namespace LenientJson
namespace Path

def parts (path : Text) : List Text :=
  (Text.splitOn Symbol.slash path).filter fun part => part != [] && part != [Symbol.dot]

/-- What is wrong with a path that cannot be the name of any file. -/
def flaw? (path : Text) : Option Fault :=
  if path.any fun c => c.isSurrogate && !c.isOctetSurrogate then some .unencodable
  else if path.contains 0 then some .pathHoldsNull
  else none

def isAbsolute (path : Text) : Bool := Text.startsWith [Symbol.slash] path

/-- A path without empty parts and parts that stay in place; a dot for the place itself. -/
def normal (path : Text) : Text :=
  let relative := Text.joinWith [Symbol.slash] (parts path)
  if isAbsolute path then Symbol.slash :: relative
  else if relative = [] then [Symbol.dot] else relative

/-- A path seen from another one; an absolute path stays what it is. -/
def join (root path : Text) : Text :=
  if isAbsolute path then normal path else normal (root ++ [Symbol.slash] ++ path)

def plainLines : Text → Text
  | [] => []
  | 0x0D :: 0x0A :: rest => Symbol.lineFeed :: plainLines rest
  | c :: rest =>
    (if c = Symbol.carriageReturn then Symbol.lineFeed else c) :: plainLines rest

end Path
end LenientJson
