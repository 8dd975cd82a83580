import LenientJson.Host.Reflect
import LenientJson.Parser
import LenientJson.Store.Update

/-! New containers of the store, made of host values, of parts of other containers, of tables with
dotted keys, and of texts. -/
namespace LenientJson
namespace Action

def objectOfMapping (mapping : Host) : Action Nat := do
  newObject (← query fun st => mapping.objectOf st.view)

def arrayOfValues : (values : Host) → Action Nat
  | .absent => newArray []
  | values => do
    let values ← query fun st => st.iterate values
    newArray (← query fun st => .ok (Host.documents st.view values))

def wrapped (value : Host) : Action (Option Slot) := do
  match ← query fun st => .ok (value.wrap st.view) with
  | some document => return some (← intern document)
  | none => return none

/-- What a host value holds under a name; an array is asked for an index. -/
private def offered (source name : Host) : Action (Option Slot) :=
  match source with
  | .link (.object o) => query fun st => st.opt o name
  | .link (.array a) => query fun st => st.optAt a name
  | _ => fail .noSuchMember

/-- Copies named members one by one. Names without a value, names taken already and names that are
no texts are passed over. -/
private def copyNamed (target : Nat) (source : Host) : List Host → Action Unit
  | [] => pure ()
  | name :: rest => do
    match name, ← offered source name with
    | .scalar (.text key), some slot =>
      let members := (← get).membersOf target
      if (members.find? key).isNone then
        modify fun st => st.setMembers target (members.insert key slot)
    | _, _ => pure ()
    copyNamed target source rest

def objectOfSubset (source names : Host) : Action Nat := do
  let target ← newObject []
  let names ← query fun st => st.iterate names
  copyNamed target source names
  return target

/-- The object that a path leads to; what is missing on the way, or is no object, is made anew. -/
def descend (o : Nat) : List Text → Action Nat
  | [] => return o
  | segment :: path => do
    match ← query fun st => st.optObject o (.ofText segment) with
    | some inner => descend inner path
    | none =>
      let inner ← newObject []
      put o (.ofText segment) (.link (.object inner))
      descend inner path

def pathOf : Host → Except Fault (List Text)
  | .scalar (.text key) => .ok (Text.splitOn Symbol.dot key)
  | .scalar (.bytes ..) => .error .wrongKind
  | _ => .error .noSuchMember

def putEntries (o : Nat) : List (Host × Host) → Action Unit
  | [] => pure ()
  | (.absent, _) :: rest => putEntries o rest
  | (key, value) :: rest => do
    let path ← query fun _ => pathOf key
    let target ← descend o path.dropLast
    put target (.ofText (path.getLast?.getD [])) value
    putEntries o rest

def objectOfTable : (table : Host) → Action Nat
  | .mapping entries => do
    let o ← newObject []
    putEntries o entries
    return o
  | _ => fail .noSuchMember

def objectOfText : (text : Host) → Action Nat
  | .scalar (.text t) => do
    let members ← query fun _ => parseObject t
    newObject (Value.ofTreeMembers members)
  | _ => fail .noSuchMember

def objectOfReflection (value : Host) : Action Nat := do
  newObject (← query fun st => value.reflected st.view)

def objectOfFields (value names : Host) : Action Nat := do
  let names ← query fun st => st.iterate names
  newObject (← query fun st => .ok (value.fieldsOf st.view names))

end Action
end LenientJson
