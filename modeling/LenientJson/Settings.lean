import LenientJson.Members
import LenientJson.Number.Integer
import LenientJson.Text.Literal

/-! Settings of the shell, taken from named texts of its environment. Unsuitable texts are reported
and replaced by the defaults. -/
namespace LenientJson

structure Settings where
  indentFactor : Int
  logLevel : Text
  prompt : Text
deriving DecidableEq

inductive SettingsWarning
  | notInteger (text : Text)
  | negative (text : Text)
  | unknownLevel (text : Text)
deriving DecidableEq

namespace Settings

def indentName : Text := Text.ofString "JSONMODEL_INDENT"

def levelName : Text := Text.ofString "JSONMODEL_LOG_LEVEL"

def promptName : Text := Text.ofString "JSONMODEL_PROMPT"

def standard : Settings := ⟨2, Text.ofString "WARNING", Text.ofString "JSON> "⟩

def levels : List Text :=
  ["CRITICAL", "FATAL", "ERROR", "WARN", "WARNING", "INFO", "DEBUG", "NOTSET"].map Text.ofString

/-- The text of a name without white space around it; `default` for a name that is missing. -/
def environmentText (environment : Members Text) (name default : Text) : Text :=
  Text.strip ((environment.find? name).getD default)

def capitalOf (c : CodePoint) : CodePoint :=
  if c = 0x131 then 0x49 else if c = 0x17F then 0x53 else c.upperAscii

def readIndent (text : Text) : Except SettingsWarning Int :=
  if text = [] then .ok standard.indentFactor
  else match readInteger? text with
    | some n => if n < 0 then .error (.negative text) else .ok n
    | none => .error (.notInteger text)

def readLevel (text : Text) : Except SettingsWarning Text :=
  if text = [] then .ok standard.logLevel
  else
    let level := text.map capitalOf
    if levels.contains level then .ok level else .error (.unknownLevel text)

private def orDefault {α : Type} (default : α) : Except SettingsWarning α → α × List SettingsWarning
  | .ok value => (value, [])
  | .error warning => (default, [warning])

def load (environment : Members Text) : Settings × List SettingsWarning :=
  let (indentFactor, first) :=
    orDefault standard.indentFactor (readIndent (environmentText environment indentName []))
  let (logLevel, second) :=
    orDefault standard.logLevel (readLevel (environmentText environment levelName []))
  let prompt := match environment.find? promptName with
    | none | some [] => standard.prompt
    | some prompt => prompt
  (⟨indentFactor, logLevel, prompt⟩, first ++ second)

end Settings

namespace SettingsWarning

private def about (name text : Text) (complaint : String) : Text :=
  Text.ofString "Ignoring " ++ name ++ [Symbol.equals] ++ text.literal ++ Text.ofString complaint

def message : SettingsWarning → Text
  | notInteger text => about Settings.indentName text ": not an integer"
  | negative text => about Settings.indentName text ": must not be negative"
  | unknownLevel text => about Settings.levelName text ": unknown log level"

end SettingsWarning
end LenientJson
