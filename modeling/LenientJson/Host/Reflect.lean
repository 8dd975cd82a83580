import LenientJson.Host.Wrap

/-! Objects made of the public accessors or of named fields of any host value. Values of the
standard kinds have a few of both. -/
namespace LenientJson
namespace Scalar

private def named (name : String) (leaf : Scalar) : Text × Draft :=
  (Text.ofString name, .scalar leaf)

def accessorMembers : Scalar → Members Draft
  | float value =>
    let whole := match value.units? with
      | some units => units % twoTo 1074 = 0
      | none => false
    [named "integer" (.bool whole)]
  | decimal value =>
    let (isNan, isSignaling) : Bool × Bool := match value with
      | .nan _ signaling _ => (true, signaling)
      | _ => (false, false)
    let (isSigned, isZero) : Bool × Bool := match value with
      | .finite numeral => (numeral.negative, numeral.coefficient = 0)
      | .infinity negative => (negative, false)
      | .nan negative _ _ => (negative, false)
    [named "canonical" (.bool true), named "finite" (.bool value.isFinite),
      named "infinite" (.bool (!value.isFinite && !isNan)), named "nan" (.bool isNan),
      named "qnan" (.bool (isNan && !isSignaling)), named "signed" (.bool isSigned),
      named "snan" (.bool isSignaling), named "zero" (.bool isZero)]
  | raw (some json) => [named "text" (.text json)]
  | _ => []

/-- A fraction is read as its text, if it has one, and so is the real part of it. -/
private def realPart (value : Rat) : Members Draft :=
  match fractionText value with
  | .ok t => [named "real" (.text t)]
  | .error _ => []

def standardFields : Scalar → Members Draft
  | bool value =>
    let n : Int := if value then 1 else 0
    [named "real" (.int n), named "imag" (.int 0), named "numerator" (.int n),
      named "denominator" (.int 1)]
  | int value =>
    [named "real" (.int value), named "imag" (.int 0), named "numerator" (.int value),
      named "denominator" (.int 1)]
  | float value => [named "real" (.float value), named "imag" (.float (.zero false))]
  | decimal value => [named "real" (.text value.text), named "imag" (.text [Symbol.zero])]
  | fraction value =>
    [named "numerator" (.int value.num), named "denominator" (.int value.den)] ++ realPart value ++
      [named "imag" (.int 0)]
  | date value =>
    [named "year" (.int value.year), named "month" (.int value.month),
      named "day" (.int value.day), named "min" (.text (Text.ofString "0001-01-01")),
      named "max" (.text (Text.ofString "9999-12-31")),
      named "resolution" (.text (Text.ofString "1 day, 0:00:00"))]
  | raw (some json) => [named "text" (.text json)]
  | _ => []

end Scalar

namespace Host

def userDigest (view : Link → Sight) (u : UserObject Host) : UserObject Digest :=
  ⟨u.face, converterDigest view u.converter, memberDigests view u.members,
    fieldDigests view u.fields, namedDigests view u.attributes⟩

def renderingName : Text := Text.ofString "to_json_string"

/-- What comes of asking a user object for its JSON text, if it has a member of that name at all. -/
def askedRendering? (view : Link → Sight) (u : UserObject Host) : Option Rendering :=
  match u.attribute? renderingName with
  | some (.callable _ (.gives value)) =>
    if value.isAbsent then some .missing
    else match value.plain view with
      | .ok t => some (.text t)
      | .error fault => some (.unprintable fault)
  | some (.callable _ (.raises message)) | some (.fails message) => some (.fails message)
  | some (.value value) => some (.fails (notCallable value.fullKindName))
  | none => none
where
  notCallable (kind : Text) : Text :=
    [Symbol.singleQuote] ++ kind ++ Text.ofString "' object is not callable"

def selfRendering (view : Link → Sight) (u : UserObject Host) : Option Rendering :=
  if u.offers Host.isAbsent renderingName then askedRendering? view u else none

/-- The members of the object made of a value by its converter, list, fields or accessors. -/
def reflected (view : Link → Sight) : Host → Except Fault (Members Draft)
  | .user u => (userDigest view u).reflected
  | .scalar leaf => .ok leaf.accessorMembers
  | _ => .ok []

def fieldDocument? (view : Link → Sight) (h : Host) (name : Text) : Option Draft :=
  if Text.startsWith [Symbol.underscore] name then none
  else match h with
    | .user u => match (userDigest view u).attribute? name with
      | some (.value digest) => if digest.isAbsent then none else digest.document?
      | _ => none
    | .scalar leaf => Members.find? name leaf.standardFields
    | _ => none

/-- The members of the object made of named fields. Names that are no texts are passed over, as are
fields that cannot be read or held. -/
def fieldsOf (view : Link → Sight) (h : Host) (names : List Host) : Members Draft :=
  names.foldl (fun m name => match name with
    | .scalar (.text name) => m.putIfAny name (fieldDocument? view h name)
    | _ => m) []

def fieldNames? : Host → Option (List Text)
  | .user u => match u.fieldNames with
    | [] => none
    | names => some names
  | .scalar (.raw _) => some [Text.ofString "text"]
  | _ => none

/-- The document that writing a value writes: mappings and sequences are turned into containers
first. -/
def written (view : Link → Sight) : Host → Except Fault Tree
  | .absent => .ok Value.null
  | .mapping entries => do resolved (.object (← Entry.putAll (entryDigests view entries) []))
  | .sequence _ elements => resolved (.array (documents view elements))
  | .link target => resolved (.link target)
  | .scalar leaf => .ok (.scalar leaf)
  | .user u => .ok (.scalar (.foreign u.face))
where
  resolved (document : Draft) : Except Fault Tree :=
    match document.resolve? fun target => (view target).tree? with
    | some tree => .ok tree
    | none => .error .endless

/-- The JSON text that a value makes of itself when it is asked, whether or not it offers to. -/
def rawText (view : Link → Sight) (h : Host) : Except Fault Text :=
  let rendering := match h with
    | .user u => askedRendering? view u
    | .scalar (.foreign face) => face.rendering
    | _ => none
  match h.leaf?, rendering with
  | some (.raw json), _ => (Scalar.raw json).json
  | some (.foreign face), some rendering => face.rendered rendering
  | _, _ => .error (.badRendering ([Symbol.singleQuote] ++ h.fullKindName ++
      Text.ofString "' object has no attribute '" ++ renderingName ++ [Symbol.singleQuote]))

/-- The text of a number without redundant zeros; nothing at all is no number. -/
def canonicalNumber (view : Link → Sight) (h : Host) : Except Fault Text :=
  match h with
  | .absent => .error .noNumber
  | .scalar leaf => leaf.canonicalNumber
  | .user u => (Scalar.foreign u.face).canonicalNumber
  | other => return shaved (← other.plain view)

end Host
end LenientJson
