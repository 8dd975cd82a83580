import LenientJson.Host.Key
import LenientJson.Host.Number
import LenientJson.Store.Basic
import LenientJson.Store.Conversion

/-! Questions to an object of the store. Keys may be any host values; only texts are ever found.
Strict questions fail when a key is missing or holds something else, the others give a fallback. -/
namespace LenientJson
namespace Store

def opt (st : Store) (o : Nat) : (key : Host) → Except Fault (Option Slot)
  | .absent => .ok none
  | key => do return (← key.lookupKey).bind fun key => (st.membersOf o).find? key

def get (st : Store) (o : Nat) : (key : Host) → Except Fault Slot
  | .absent => .error .nullKey
  | key => do
    match ← st.opt o key with
    | some slot => return slot
    | none => throw (.memberNotFound (← key.shownKey st.view))

private def mismatch {α : Type} (st : Store) (key : Host) (wanted : Wanted) : Except Fault α := do
  throw (.memberMismatch (← key.shownKey st.view) wanted)

def getBool (st : Store) (o : Nat) (key : Host) : Except Fault Bool := do
  match ← st.get o key with
  | .leaf leaf => match leaf.toBool? with
    | some value => return value
    | none => st.mismatch key .boolean
  | .link _ => st.mismatch key .boolean

def getFloat (st : Store) (o : Nat) (key : Host) : Except Fault Double := do
  match ← st.get o key with
  | .leaf leaf => match ← leaf.toDouble? with
    | some value => return value
    | none => st.mismatch key .number
  | .link _ => st.mismatch key .number

private def getInteger (st : Store) (low high : Int) (wanted : Wanted) (o : Nat) (key : Host) :
    Except Fault Int := do
  match ← st.get o key with
  | .leaf leaf => match ← leaf.toIntegerWithin? st.room.zeros low high with
    | some value => return value
    | none => st.mismatch key wanted
  | .link target =>
    let _ ← fitting Scalar.isNoInteger (st.literal target)
    st.mismatch key wanted

def getInt (st : Store) (o : Nat) (key : Host) : Except Fault Int :=
  st.getInteger minInt32 maxInt32 .int o key

def getLong (st : Store) (o : Nat) (key : Host) : Except Fault Int :=
  st.getInteger minInt64 maxInt64 .long o key

def getString (st : Store) (o : Nat) (key : Host) : Except Fault Text := do
  match ← st.get o key with
  | .leaf (.text t) => return t
  | _ => st.mismatch key .string

def getArray (st : Store) (o : Nat) (key : Host) : Except Fault Nat := do
  match ← st.get o key with
  | .link (.array a) => return a
  | _ => st.mismatch key .array

def getObject (st : Store) (o : Nat) (key : Host) : Except Fault Nat := do
  match ← st.get o key with
  | .link (.object inner) => return inner
  | _ => st.mismatch key .object

def optBool (st : Store) (o : Nat) (key : Host) (fallback : Option Host) : Except Fault Host :=
  recovered ((st.getBool o key).map .ofBool) (fallback.getD (.ofBool false))

/-- The value that is no number and serves as a fallback; its tag is reserved for it. -/
def noNumber : Host := .scalar (.float (.nan (some 0)))

def optFloat (st : Store) (o : Nat) (key : Host) (fallback : Option Host) : Except Fault Host :=
  recovered ((st.getFloat o key).map fun value => .scalar (.float value)) (fallback.getD noNumber)

def optInt (st : Store) (o : Nat) (key : Host) (fallback : Option Host) : Except Fault Host :=
  recovered ((st.getInt o key).map .ofInt) (fallback.getD (.ofInt 0))

def optLong (st : Store) (o : Nat) (key : Host) (fallback : Option Host) : Except Fault Host :=
  recovered ((st.getLong o key).map .ofInt) (fallback.getD (.ofInt 0))

/-- The plain text of whatever a key holds; a fallback, empty unless another is given, for a missing
key and for null. -/
def optString (st : Store) (o : Nat) (key : Host) (fallback : Option Host) :
    Except Fault Host := do
  match ← st.opt o key with
  | none | some (.leaf .null) => return fallback.getD (.ofText [])
  | some (.leaf (.bool value)) => return .ofText (Text.ofString (if value then "true" else "false"))
  | some (.leaf leaf) => return .ofText (← leaf.plain)
  | some (.link target) => return .ofText (st.view target).compact

def optArray (st : Store) (o : Nat) (key : Host) : Except Fault (Option Nat) := do
  match ← st.opt o key with
  | some (.link (.array a)) => return some a
  | _ => return none

def optObject (st : Store) (o : Nat) (key : Host) : Except Fault (Option Nat) := do
  match ← st.opt o key with
  | some (.link (.object inner)) => return some inner
  | _ => return none

def has (st : Store) (o : Nat) (key : Host) : Except Fault Bool := do
  return ((← key.lookupKey).bind fun key => (st.membersOf o).find? key).isSome

def isNull (st : Store) (o : Nat) (key : Host) : Except Fault Bool := do
  return (← st.opt o key) = some (.leaf .null)

def length (st : Store) (o : Nat) : Nat := (st.membersOf o).length

def keys (st : Store) (o : Nat) : List Text := (st.membersOf o).keys

def similar (st : Store) (target : Link) (other : Host) : Except Fault Bool :=
  (Host.link target).similar st.view other

def compact? (st : Store) (target : Link) : Option Text :=
  (st.view target).tree?.bind Value.compact?

def render (st : Store) (step : Int) (target : Link) : Except Fault Text :=
  match (st.view target).tree? with
  | some tree => tree.render ⟨step, 0, st.room.blanks⟩
  | none => .error .endless

/-- The text of a container with an indentation step that may be any host value. A positive number
that is no integer will do as long as no line has to be indented by it. -/
def renderBy (st : Store) (step : Host) (target : Link) : Except Fault Text := do
  match step.integer? with
  | some n => st.render n target
  | none =>
    if !(← step.ordered).isPositive then st.render 0 target
    else if (st.view target).tree?.all Value.isInline then st.render 1 target
    else throw .wrongKind

end Store
end LenientJson
