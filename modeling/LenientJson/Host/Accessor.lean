import LenientJson.Text.Letter

/-! Names of accessors and the keys that they stand for: `getName` and `get_name` give `name`,
`isActive` gives `active`, and a leading acronym keeps its capitals, as in `getURL`. -/
namespace LenientJson

/-- Accessors that say something about the class and not about the object. -/
def excludedAccessors : List Text := [Text.ofString "getClass", Text.ofString "get_class"]

def accessorStem? (name : Text) : Option Text :=
  match Text.after? (Text.ofString "get") name with
  | some stem => some stem
  | none => Text.after? (Text.ofString "is") name

/-- The word that a stem names: after an underscore it begins with a letter, otherwise with a
capital. -/
def accessorWord? : (stem : Text) → Option Text
  | [] => none
  | c :: rest =>
    if c = Symbol.underscore then
      match rest with
      | [] => none
      | first :: _ => if first.isLetter then some rest else none
    else if c.isCapital then some (c :: rest)
    else none

/-- A word with a small first letter, unless it begins with two capitals. -/
def uncapitalised : Text → Text
  | [] => []
  | [c] => c.lower
  | first :: second :: rest =>
    if second.isCapital then first :: second :: rest else first.lower ++ second :: rest

def accessorKey? (name : Text) : Option Text :=
  if excludedAccessors.contains name then none
  else ((accessorStem? name).bind accessorWord?).map uncapitalised

end LenientJson
