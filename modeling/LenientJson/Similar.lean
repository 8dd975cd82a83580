import LenientJson.Value

/-! Likeness of documents: members in any order, elements in their order, and leaves by equality,
where truth values are like truth values only. A comparison that fails makes two objects unlike, but
two arrays that meet it fail too. -/
namespace LenientJson

def Scalar.like (a b : Scalar) : Except Fault Bool :=
  match a, b with
  | .bool x, .bool y => .ok (x = y)
  | .bool _, _ | _, .bool _ => .ok false
  | a, b => a.equals b

def Members.sameKeys {α β : Type} (a : Members α) (b : Members β) : Bool :=
  a.length == b.length && a.keys.all fun key => (b.find? key).isSome

namespace Value

/-- A leaf next to something that is no leaf: unlike, unless comparing the leaf fails. -/
def likeOther (leaf : Scalar) : Except Fault Bool :=
  if leaf.isIncomparable then .error Scalar.refusal else .ok false

mutual
def similar : (mine theirs : Tree) → Except Fault Bool
  | .scalar a, .scalar b => a.like b
  | .scalar a, _ => likeOther a
  | .object mine, .object theirs =>
    if Members.sameKeys mine theirs then
      match similarMembers mine theirs with
      | .ok answer => .ok answer
      | .error _ => .ok false
    else .ok false
  | .array mine, .array theirs =>
    if mine.length = theirs.length then similarElements mine theirs else .ok false
  | _, _ => .ok false

def similarMembers : (mine theirs : List (Text × Tree)) → Except Fault Bool
  | [], _ => .ok true
  | (key, value) :: rest, theirs =>
    match Members.find? key theirs with
    | none => .ok false
    | some other => do
      if ← similar value other then similarMembers rest theirs else return false

/-- Whether the elements are alike in order. An absent element is like nothing. -/
def similarElements : (mine theirs : List (Option Tree)) → Except Fault Bool
  | [], [] => .ok true
  | some a :: mine, some b :: theirs => do
    if ← similar a b then similarElements mine theirs else return false
  | _, _ => .ok false
end

end Value
end LenientJson
