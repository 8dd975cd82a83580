import LenientJson.Shell.Console

/-! The command line: a session on the standard streams, with the files and the environment of the
process. Everything that a line means is decided by `Console`. -/
namespace LenientJson
namespace Terminal

/-- A text for a stream; a code point that no stream can carry becomes U+FFFD. -/
def streamText (t : Text) : String :=
  String.ofList (t.map fun c => if c.isSurrogate then '\uFFFD' else Char.ofNat c)

/-- The number of an error, which may come with its sign turned. -/
def errorNumber (code : UInt32) : Nat := min code.toNat (4294967296 - code.toNat)

/-- Why the system could not open a file. -/
def faultOf : IO.Error → FileFault
  | .noFileOrDirectory .. => .missing
  | .inappropriateType _ code _ => if errorNumber code = 20 then .notDirectory else .isDirectory
  | .resourceExhausted .. => .tooManyOpen
  | .invalidArgument _ code details =>
    if errorNumber code = 36 then .nameTooLong
    else .other (errorNumber code) (Text.ofString details)
  | .permissionDenied .. => .other 13 (Text.ofString "Permission denied")
  | fault => .other 5 (Text.ofString fault.toString)

/-- The widest indentation that is tried; whether memory suffices for it is up to the system. -/
def room : Nat := maxInt64.toNat

private def attempted {α : Type} (action : IO α) : IO (Except FileFault α) := do
  match ← action.toBaseIO with
  | .ok value => return .ok value
  | .error fault => return .error (faultOf fault)

def files : FileAccess IO where
  read path := return (← attempted (IO.FS.readFile (streamText path))).map Text.ofString
  create path := attempted (IO.FS.writeFile (streamText path) "")
  save path text := do
    let _ ← attempted (IO.FS.writeFile (streamText path) (streamText text))

def environment : IO (Members Text) := do
  let mut found : Members Text := []
  for name in [Settings.indentName, Settings.levelName, Settings.promptName] do
    if let some value ← IO.getEnv (streamText name) then
      found := found.insert name (Text.ofString value)
  return found

def emit (output : Output) : IO Unit := do
  let stdout ← IO.getStdout
  stdout.putStr (streamText output.out)
  stdout.flush
  (← IO.getStderr).putStr (streamText output.err)

/-- Lines until one of them, or the end of the input, ends the session. -/
partial def converse (c : Console) : IO Unit := do
  emit (.ofOut c.session.settings.prompt)
  let line ← (← IO.getStdin).getLine
  let event := if line = "" then .endOfInput else .line (Text.ofString line)
  let (c, reply) ← c.respond files event
  emit reply.output
  match reply.standing with
  | .running => converse c
  | .ended =>
    let _ ← c.restore files
  | .broken fault =>
    let _ ← c.restore files
    throw (IO.userError (streamText fault.message))

end Terminal
end LenientJson

def main : IO Unit := do
  let (console, output) := LenientJson.Console.opening (← LenientJson.Terminal.environment)
    LenientJson.Terminal.room .encoded
  LenientJson.Terminal.emit output
  LenientJson.Terminal.converse console
