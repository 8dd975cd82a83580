import LenientJson.Fault
import LenientJson.Path
import LenientJson.Table.Properties

/-! Bundles of tables, one for all languages and others for a language and a region. More specific
tables override more general ones. -/
namespace LenientJson
namespace Bundle

private def suffix : Text := Text.ofString ".properties"

/-- The language and the region that a locale names, with underscores between its parts. -/
def localeForms (locale : Text) : List Text :=
  let whole := locale.map fun c => if c = Symbol.minus then Symbol.underscore else c
  let language := (Text.splitOn Symbol.underscore whole).headD []
  if language ≠ [] ∧ language ≠ whole then [language, whole] else [whole]

/-- The names of the files of a bundle, from the most general to the most specific. -/
def candidates (base : Text) (locale : Option Text) : List Text :=
  let specific := match locale with
    | none | some [] => []
    | some locale => localeForms locale
  (base ++ suffix) :: specific.map fun form => base ++ [Symbol.underscore] ++ form ++ suffix

/-- The tables of the candidates that exist, put into one another; `contents` gives the text of a
file, if there is one at a path. -/
def load (contents : Text → Except Fault (Option Text)) (base : Text) (locale : Option Text)
    (root : Text) : Except Fault Table := do
  let found ← (candidates base locale).mapM fun name => contents (Path.join root name)
  match found.filterMap id with
  | [] => .error (.bundleMissing base locale (Path.normal root))
  | texts => .ok (texts.foldl (fun table text =>
      table.merge (Table.ofLines (Text.splitOn Symbol.lineFeed (Path.plainLines text)))) [])

def loadObject (contents : Text → Except Fault (Option Text)) (base : Text) (locale : Option Text)
    (root : Text) : Except Fault (Members Tree) :=
  (load contents base locale root).map Table.expand

end Bundle
end LenientJson
