import LenientJson.Host.Wrap

/-! A store of containers that can be changed and shared. Every entry of a container is a leaf or a
link to a container of the same store. The store also knows the user objects that it was given, so
that a leaf can be looked at again as the object that it stands for, and how much room it has. -/
namespace LenientJson

inductive Slot
  | leaf (value : Scalar)
  | link (target : Link)
deriving DecidableEq

/-- How much finds room at once: blanks before a line, elements that fill up an array, and zeros at
the end of an integer. -/
structure Room where
  blanks : Nat
  elements : Nat
  zeros : Nat
deriving DecidableEq

structure Store where
  objects : List (Members Slot)
  arrays : List (List (Option Slot))
  guests : List (UserObject Host)
  room : Room

/-- Steps that may change a store; a fault leaves the store as it is then. -/
abbrev Action := EStateM Fault Store

namespace Store

def empty (room : Room) : Store := ⟨[], [], [], room⟩

def membersOf (st : Store) (o : Nat) : Members Slot := (st.objects[o]?).getD []

def elementsOf (st : Store) (a : Nat) : List (Option Slot) := (st.arrays[a]?).getD []

def setMembers (st : Store) (o : Nat) (members : Members Slot) : Store :=
  { st with objects := st.objects.set o members }

def setElements (st : Store) (a : Nat) (elements : List (Option Slot)) : Store :=
  { st with arrays := st.arrays.set a elements }

def addObject (st : Store) (members : Members Slot) : Nat × Store :=
  (st.objects.length, { st with objects := st.objects ++ [members] })

def addArray (st : Store) (elements : List (Option Slot)) : Nat × Store :=
  (st.arrays.length, { st with arrays := st.arrays ++ [elements] })

mutual
/-- Gives every container of a document a place in the store; links stay as they are. -/
def intern (st : Store) : Draft → Slot × Store
  | .scalar leaf => (.leaf leaf, st)
  | .link target => (.link target, st)
  | .object members =>
    let (slots, st) := internMembers st members
    let (o, st) := st.addObject slots
    (.link (.object o), st)
  | .array elements =>
    let (slots, st) := internElements st elements
    let (a, st) := st.addArray slots
    (.link (.array a), st)

def internMembers (st : Store) : List (Text × Draft) → Members Slot × Store
  | [] => ([], st)
  | (key, value) :: rest =>
    let (slot, st) := intern st value
    let (slots, st) := internMembers st rest
    ((key, slot) :: slots, st)

def internElements (st : Store) : List (Option Draft) → List (Option Slot) × Store
  | [] => ([], st)
  | none :: rest =>
    let (slots, st) := internElements st rest
    (none :: slots, st)
  | some value :: rest =>
    let (slot, st) := intern st value
    let (slots, st) := internElements st rest
    (some slot :: slots, st)
end

/-- The document behind an entry, if its containers are nested no deeper than `depth`. -/
def treeWithin (st : Store) : (depth : Nat) → Slot → Option Tree
  | _, .leaf leaf => some (.scalar leaf)
  | 0, .link _ => none
  | depth + 1, .link (.object o) =>
    ((st.membersOf o).mapM fun member =>
      (treeWithin st depth member.2).map fun tree => (member.1, tree)).map .object
  | depth + 1, .link (.array a) =>
    ((st.elementsOf a).mapM fun element => match element with
      | some slot => (treeWithin st depth slot).map some
      | none => some none).map .array

/-- The document behind an entry. Without cycles no nesting is deeper than there are containers. -/
def tree? (st : Store) (slot : Slot) : Option Tree :=
  st.treeWithin (st.objects.length + st.arrays.length) slot

def hostOf (st : Store) : Slot → Host
  | .link target => .link target
  | .leaf (.foreign face) =>
    match st.guests.find? fun guest => guest.face = face with
    | some guest => .user guest
    | none => .scalar (.foreign face)
  | .leaf leaf => .scalar leaf

def hostOfElement (st : Store) : Option Slot → Host
  | some slot => st.hostOf slot
  | none => .absent

/-- What a container gives one after the other: an object its keys, an array its elements. -/
def piecesOf (st : Store) : Link → List Host
  | .object o => (st.membersOf o).map fun member => .ofText member.1
  | .array a => (st.elementsOf a).map st.hostOfElement

/-- The literal of an entry. A container that comes again within itself, among those in `around`, is
cut short. -/
def literalWithin (st : Store) : (depth : Nat) → (around : List Link) → Slot → Except Fault Text
  | _, _, .leaf leaf => leaf.literal
  | 0, _, .link target => .ok (target.literal (Text.ofString "..."))
  | depth + 1, around, .link target =>
    if around.contains target then .ok (target.literal (Text.ofString "..."))
    else match target with
      | .object o => do
        let entries ← (st.membersOf o).mapM fun member => do
          return Text.literal member.1 ++ Text.ofString ": " ++
            (← literalWithin st depth (target :: around) member.2)
        return target.literal (Text.joinWith (Text.ofString ", ") entries)
      | .array a => do
        let elements ← (st.elementsOf a).mapM fun element => match element with
          | some slot => literalWithin st depth (target :: around) slot
          | none => .ok (Text.ofString "None")
        return target.literal (Text.joinWith (Text.ofString ", ") elements)

/-- The literal of a container. No more containers are within each other than there are. -/
def literal (st : Store) (target : Link) : Except Fault Text :=
  st.literalWithin (st.objects.length + st.arrays.length + 1) [] (.link target)

def view (st : Store) (target : Link) : Sight :=
  ⟨st.tree? (.link target), st.literal target, st.piecesOf target⟩

def iterate (st : Store) : Host → Except Fault (List Host)
  | .scalar (.text t) => .ok (t.map fun c => .ofText [c])
  | .scalar (.bytes _ octets) => .ok (octets.map fun octet : Nat => .ofInt octet)
  | .link target => .ok (st.piecesOf target)
  | .sequence _ elements => .ok elements
  | .mapping entries => .ok (entries.map Prod.fst)
  | .absent | .scalar _ | .user _ => .error .wrongKind

end Store

namespace Action

def query {α : Type} (f : Store → Except Fault α) : Action α := fun st =>
  match f st with
  | .ok value => .ok value st
  | .error fault => .error fault st

def fail {α : Type} (fault : Fault) : Action α := fun st => .error fault st

def intern (document : Draft) : Action Slot := fun st =>
  let (slot, st) := st.intern document
  .ok slot st

def newObject (members : Members Draft) : Action Nat := fun st =>
  let (slots, st) := st.internMembers members
  let (o, st) := st.addObject slots
  .ok o st

def newArray (elements : List (Option Draft)) : Action Nat := fun st =>
  let (slots, st) := st.internElements elements
  let (a, st) := st.addArray slots
  .ok a st

def welcome (guest : UserObject Host) : Action Unit := fun st =>
  .ok () { st with guests := guest :: st.guests }

end Action
end LenientJson
