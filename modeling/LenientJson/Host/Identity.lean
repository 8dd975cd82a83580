import LenientJson.Host.Basic

/-! When two host values are the same: as objects, and as keys of a mapping or members of a set.
Keys are looked up by their hashes, so that values which fail at every comparison can be keys as
well. -/
namespace LenientJson

/-- Whether two leaves are the same key: the very same object, or equal. -/
def Scalar.isSameKey (a b : Scalar) : Bool :=
  a.isSame b || match a.equals b with
    | .ok answer => answer
    | .error _ => false

namespace Host

/-- Whether two values are the very same object and known to be so. -/
def isSame (a b : Host) : Bool :=
  match a.leaf?, b.leaf? with
  | some a, some b => a.isSame b
  | _, _ => false

/-- Nothing at all and null are the same key. -/
def isNothing : Host → Bool
  | absent => true
  | scalar leaf => leaf = .null
  | _ => false

mutual
def isSameKey : (a b : Host) → Bool
  | .absent, b => b.isNothing
  | .scalar a, b => match b.leaf? with
    | some leaf => a.isSameKey leaf
    | none => a = .null && b.isAbsent
  | .user a, b => match b.leaf? with
    | some leaf => (Scalar.foreign a.face).isSameKey leaf
    | none => false
  | .link a, .link b => a = b
  | .sequence .tuple as, .sequence .tuple bs => areSameKeys as bs
  | .sequence .frozenSet as, .sequence .frozenSet bs =>
    as.length = bs.length && areMembersOf bs as
  | _, _ => false

def areSameKeys : (as bs : List Host) → Bool
  | [], [] => true
  | a :: as, b :: bs => isSameKey a b && areSameKeys as bs
  | _, _ => false

def areMembersOf (set : List Host) : (as : List Host) → Bool
  | [] => true
  | a :: as => set.any (isSameKey a) && areMembersOf set as
end

def entry? (key : Host) : (entries : List (Host × Host)) → Option Host
  | [] => none
  | (k, value) :: rest => if key.isSameKey k then some value else entry? key rest

/-- Entries with one more. A key that is there already keeps its place and takes the new value. -/
def insertEntry (key value : Host) : (entries : List (Host × Host)) → List (Host × Host)
  | [] => [(key, value)]
  | (k, old) :: rest =>
    if key.isSameKey k then (k, value) :: rest else (k, old) :: insertEntry key value rest

def ofEntries (entries : List (Host × Host)) : Except Fault Host :=
  if entries.all fun entry => entry.1.isHashable then
    .ok (.mapping (entries.foldl (fun m entry => insertEntry entry.1 entry.2 m) []))
  else .error .wrongKind

/-- The set of some values: of values that are the same key it holds the first. -/
def ofMembers (kind : SequenceKind) (members : List Host) : Except Fault Host :=
  if members.all isHashable then
    .ok (.sequence kind (members.foldl (fun set h =>
      if set.any h.isSameKey then set else set ++ [h]) []))
  else .error .wrongKind

end Host
end LenientJson
