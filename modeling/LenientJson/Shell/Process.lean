import LenientJson.Directory
import LenientJson.Shell.Command
import LenientJson.Shell.Destination
import LenientJson.Shell.Session

/-! What a session does with a line. Batch files are read through a given function, and may hold
further batch lines up to a depth. -/
namespace LenientJson

structure Output where
  out : Text
  err : Text

namespace Output

def nothing : Output := ⟨[], []⟩

def ofOut (t : Text) : Output := ⟨t, []⟩

def complaint (t : Text) : Output := ⟨[], t ++ [Symbol.lineFeed]⟩

def append (a b : Output) : Output := ⟨a.out ++ b.out, a.err ++ b.err⟩

instance : Append Output := ⟨append⟩

end Output

/-- How a session stands after a line. A fault for which a line has no answer breaks it off. -/
inductive Standing
  | running
  | ended
  | broken (fault : Fault)
deriving DecidableEq

structure Response where
  session : Session
  output : Output
  standing : Standing

namespace Session

def answered (s : Session) (d : Destination) (lines : List (Except Fault Text)) :
    Response :=
  let written := d.writeLines lines
  match written.fault with
  | none => ⟨s, .ofOut written.text, .running⟩
  | some fault => ⟨s, .ofOut written.text, .broken fault⟩

def obey (s : Session) (d : Destination) : Command → Response
  | .quit => ⟨s, .nothing, .ended⟩
  | .keys => s.answered d s.keyLines
  | .showAll => s.answered d [s.shown]
  | .reset => ⟨s.reset, .nothing, .running⟩
  | .inspect path => s.answered d [inspection s.layout (s.lookup path)]
  | .query path => s.answered d ((s.lookup path).toList.map fun node => node.render .flat)
  | .eval text => match eval text s with
    | .ok _ s => ⟨s, .nothing, .running⟩
    | .error fault s => ⟨s, .complaint (Text.ofString "Error: " ++ fault.message), .running⟩
  | .blank | .batch _ => ⟨s, .nothing, .running⟩

def batchDepth : Nat := 1000

private def batchComplaint (file : Text) (fault : FileFault) : Output :=
  .complaint (Text.ofString "Error reading '" ++ file ++ Text.ofString "': " ++ fault.message file)

/-- Lines one after the other; that one of them would end the session is of no account. -/
def processAll {m : Type → Type} [Monad m] (step : Session → Text → m Response) :
    Session → List Text → m Response
  | s, [] => return ⟨s, .nothing, .running⟩
  | s, first :: rest => do
    let response ← step s first
    match response.standing with
    | .broken _ => return response
    | _ =>
      let last ← processAll step response.session rest
      return { last with output := response.output ++ last.output }

/-- What a line does, with batch files nested up to `depth`. -/
def processWithin {m : Type → Type} [Monad m] (read : Text → m (Except FileFault Text))
    (d : Destination) : (depth : Nat) → Session → Text → m Response
  | 0, s, input => match Command.ofLine input with
    | .batch file => return ⟨s, batchComplaint file .tooManyOpen, .running⟩
    | command => return s.obey d command
  | depth + 1, s, input => match Command.ofLine input with
    | .batch file => do
      if let some fault := Path.flaw? file then return ⟨s, .nothing, .broken fault⟩
      match ← read file with
      | .error fault => return ⟨s, batchComplaint file fault, .running⟩
      | .ok text =>
        let lines := Text.splitOn Symbol.lineFeed (Path.plainLines text)
        processAll (processWithin read d depth) s lines
    | command => return s.obey d command

def process {m : Type → Type} [Monad m] (read : Text → m (Except FileFault Text))
    (d : Destination) (s : Session) (input : Text) : m Response :=
  processWithin read d batchDepth s input

end Session
end LenientJson
