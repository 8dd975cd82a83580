import LenientJson.Shell.Process

/-! A session at a terminal. What it writes goes to the standard output, or to a file that a line
chooses; such a file is cut to nothing when it is chosen and holds what was written once another
destination is chosen or the session ends. -/
namespace LenientJson

structure FileAccess (m : Type → Type) where
  read : Text → m (Except FileFault Text)
  create : Text → m (Except FileFault Unit)
  save : Text → Text → m Unit

inductive Event
  | line (text : Text)
  | interrupt
  | endOfInput
deriving DecidableEq

structure Redirection where
  file : Text
  written : Text

structure Console where
  session : Session
  stdout : Destination
  redirection : Option Redirection

/-- What is written in answer to an event, and how the session stands then. -/
structure Reply where
  output : Output
  standing : Standing

def Reply.after (reply : Reply) (earlier : Output) : Reply :=
  { reply with output := earlier ++ reply.output }

namespace Console

def banner : Text :=
  Text.ofString "JSON REPL  (:q to quit  |  :keys  :show  :reset  |  ? <path>  inspect(<path>))\n"

def start (settings : Settings) (room : Nat) (stdout : Destination) : Console :=
  ⟨.start settings room, stdout, none⟩

variable {m : Type → Type} [Monad m]

/-- Writes out what was meant for the chosen file, and chooses the standard output again. -/
def restore (files : FileAccess m) (c : Console) : m Console := do
  match c.redirection with
  | some r =>
    files.save r.file r.written
    return { c with redirection := none }
  | none => return c

/-- Chooses a file; the standard output stays chosen if that cannot be done. -/
def redirect (files : FileAccess m) (c : Console) (file : Text) : m (Console × Reply) := do
  let c ← c.restore files
  if let some fault := Path.flaw? file then return (c, ⟨.nothing, .broken fault⟩)
  match ← files.create file with
  | .ok () => return ({ c with redirection := some ⟨file, []⟩ }, ⟨.nothing, .running⟩)
  | .error fault =>
    return (c, ⟨.complaint (Text.ofString "Error opening '" ++ file ++ Text.ofString "': " ++
      fault.message file), .running⟩)

def destination (c : Console) : Destination :=
  if c.redirection.isSome then .encoded else c.stdout

private def deliver (c : Console) (reply : Reply) : Console × Reply :=
  match c.redirection with
  | some r =>
    let written := r.written ++ reply.output.out
    ({ c with redirection := some { r with written } },
      { reply with output := { reply.output with out := [] } })
  | none => (c, reply)

private def enter (files : FileAccess m) (c : Console) (line : Text) : m (Console × Reply) := do
  if line = Text.ofString "?>>" then
    return (← c.restore files, ⟨.nothing, .running⟩)
  else match Text.after? (Text.ofString "?>> ") line with
    | some file => c.redirect files (Text.strip file)
    | none =>
      let response ← c.session.process files.read c.destination line
      return { c with session := response.session }.deliver ⟨response.output, response.standing⟩

/-- What an event does. An interrupt only ends the line. -/
def respond (files : FileAccess m) (c : Console) : Event → m (Console × Reply)
  | .line text => c.enter files (Text.strip text)
  | .interrupt => return (c, ⟨.ofOut [Symbol.lineFeed], .running⟩)
  | .endOfInput => return (c, ⟨.ofOut [Symbol.lineFeed], .ended⟩)

/-- All that a session writes in answer to events, with the prompt before each of them; the end of
input follows the last one. -/
def converse (files : FileAccess m) (c : Console) : List Event → m Reply
  | [] => do
    let prompt := c.session.settings.prompt
    let (c, reply) ← c.respond files .endOfInput
    let _ ← c.restore files
    return reply.after (.ofOut prompt)
  | event :: rest => do
    let prompt := c.session.settings.prompt
    let (c, reply) ← c.respond files event
    if reply.standing = .running then
      return (← converse files c rest).after (.ofOut prompt ++ reply.output)
    else
      let _ ← c.restore files
      return reply.after (.ofOut prompt)

/-- A console in a given environment, and what is written before the first prompt. -/
def opening (environment : Members Text) (room : Nat) (stdout : Destination) : Console × Output :=
  let (settings, warnings) := Settings.load environment
  let reports := warnings.map fun warning => Output.complaint warning.message
  (.start settings room stdout, reports.foldl (· ++ ·) .nothing ++ .ofOut banner)

def run (files : FileAccess m) (environment : Members Text) (room : Nat) (stdout : Destination)
    (events : List Event) : m Reply := do
  let (c, output) := opening environment room stdout
  return (← c.converse files events).after output

/-- The events of a text whose lines are typed in turn; a line of one end-of-text control stands for
the interrupt key. -/
def eventsOf (input : Text) : List Event :=
  let lines := Text.splitOn Symbol.lineFeed input
  let typed := if lines.getLast? = some [] then lines.dropLast else lines
  typed.map fun line => if line = [0x03] then .interrupt else .line line

end Console

def Directory.access : FileAccess (StateM Directory) where
  read path := return (← get).read path
  create path := do
    match (← get).write path [] with
    | .ok d =>
      set d
      return .ok ()
    | .error fault => return .error fault
  save path text := modify fun d => match d.write path text with
    | .ok d => d
    | .error _ => d

end LenientJson
