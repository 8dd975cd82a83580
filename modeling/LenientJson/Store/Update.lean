import LenientJson.Store.Array

/-! Changes of an object of the store. An absent value never stays in an object: putting it removes
the key. -/
namespace LenientJson
namespace Action

/-- Removes a key and gives what it held. In an empty object nothing is looked up, so that no value
is unfit to be removed from it. -/
def remove (o : Nat) (key : Host) : Action (Option Slot) := do
  match (← get).membersOf o with
  | [] => return none
  | members =>
    match ← query fun _ => key.lookupKey with
    | some key =>
      modify fun st => st.setMembers o (members.erase key)
      return members.find? key
    | none => return none

/-- Puts a document under a key; an absent one removes the key. -/
def place (o : Nat) (key : Text) : Option Draft → Action Unit
  | none => modify fun st => st.setMembers o ((st.membersOf o).erase key)
  | some document => do
    let slot ← intern document
    modify fun st => st.setMembers o ((st.membersOf o).insert key slot)

/-- Stores a value under a key; an absent value removes the key. -/
def put (o : Nat) (key value : Host) : Action Unit := do
  let key ← query fun _ => key.requireKey
  place o key (← query fun st => value.stored st.view)

def putOpt (o : Nat) (key value : Host) : Action Unit :=
  if key.isAbsent || value.isAbsent then pure () else put o key value

def putOnce (o : Nat) (key value : Host) : Action Unit :=
  if key.isAbsent || value.isAbsent then pure ()
  else do
    match ← query fun st => st.opt o key with
    | some _ => fail (.duplicateKey (← query fun st => key.plain st.view))
    | none => put o key value

/-- Lists, tuples and arrays, which do not stand alone when values are collected. -/
def isArrayShaped : Host → Bool
  | .sequence .list _ | .sequence .tuple _ | .link (.array _) => true
  | _ => false

def draftOf : Slot → Draft
  | .leaf leaf => .scalar leaf
  | .link target => .link target

def placeArray (o : Nat) (key : Host) (elements : List (Option Draft)) : Action Unit := do
  let key ← query fun _ => key.requireKey
  place o key (some (.array elements))

/-- Collects values under a key: the first one alone, unless it has the shape of an array, and from
the second on all of them in an array. -/
def accumulate (o : Nat) (key value : Host) : Action Unit := do
  query fun _ => value.requireFinite
  match ← query fun st => st.opt o key with
  | none =>
    if isArrayShaped value then
      placeArray o key [← query fun st => value.stored st.view]
    else put o key value
  | some (.link (.array a)) => pushTo a value
  | some current => do
    let added ← query fun st => value.stored st.view
    placeArray o key [some (draftOf current), added]

def append (o : Nat) (key value : Host) : Action Unit := do
  query fun _ => value.requireFinite
  match ← query fun st => st.opt o key with
  | none => placeArray o key [← query fun st => value.stored st.view]
  | some (.link (.array a)) => pushTo a value
  | some _ => fail (.memberMismatch (← query fun st => key.shownKey st.view) .array)

/-- Adds one to the number under a key; a missing key becomes one. -/
def increment (o : Nat) (key : Host) : Action Unit := do
  match ← query fun st => st.opt o key with
  | none => put o key (.ofInt 1)
  | some (.leaf leaf) => match leaf.incremented? with
    | some sum => put o key (.scalar sum)
    | none => fail (.notIncrementable (← query fun st => key.shownKey st.view))
  | some (.link _) => fail (.notIncrementable (← query fun st => key.shownKey st.view))

def delete (o : Nat) (key : Host) : Action Unit := do
  match ← remove o key with
  | some _ => pure ()
  | none => fail (.memberNotFound (← query fun st => key.shownKey st.view))

def names (o : Nat) : Action (Option Nat) := do
  match (← get).keys o with
  | [] => return none
  | keys => return some (← newArray (keys.map fun key => some (.scalar (.text key))))

/-- The values of the named keys in order, with missing ones absent; none for no names. -/
def project (o : Nat) (names : Host) : Action (Option Nat) := do
  match names with
  | .absent => return none
  | names =>
    match ← query fun st => st.iterate names with
    | [] => return none
    | names =>
      let slots ← query fun st => names.mapM (st.opt o)
      return some (← newArray (slots.map fun slot => slot.map draftOf))

end Action
end LenientJson
