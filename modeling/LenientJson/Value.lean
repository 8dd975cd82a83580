import LenientJson.Members
import LenientJson.Scalar

/-! Documents. An object has members in order, an array has elements, some of which may be absent.
A `Value` may stop at links to containers that live elsewhere; a `Tree` has none. -/
namespace LenientJson

inductive Value (κ : Type)
  | scalar (value : Scalar)
  | object (members : List (Text × Value κ))
  | array (elements : List (Option (Value κ)))
  | link (target : κ)

abbrev Tree := Value Empty

namespace Value

variable {κ : Type}

def null : Value κ := .scalar .null

instance : Inhabited (Value κ) := ⟨null⟩

def isContainer : Value κ → Bool
  | scalar _ => false
  | _ => true

/-- A document that a container may hold: a leaf must not be infinite or no number. -/
def requireFinite : Value κ → Except Fault Unit
  | scalar leaf => leaf.requireFinite
  | _ => .ok ()

/-! Replacing links by what they lead to. -/
mutual
def substitute {μ : Type} (f : κ → Value μ) : Value κ → Value μ
  | .scalar value => .scalar value
  | .object members => .object (substituteMembers f members)
  | .array elements => .array (substituteElements f elements)
  | .link target => f target

def substituteMembers {μ : Type} (f : κ → Value μ) :
    List (Text × Value κ) → List (Text × Value μ)
  | [] => []
  | (key, value) :: rest => (key, substitute f value) :: substituteMembers f rest

def substituteElements {μ : Type} (f : κ → Value μ) :
    List (Option (Value κ)) → List (Option (Value μ))
  | [] => []
  | none :: rest => none :: substituteElements f rest
  | some value :: rest => some (substitute f value) :: substituteElements f rest
end

/-- A tree is also a document with links, of which it has none. -/
def ofTree : Tree → Value κ := substitute fun target => nomatch target

def ofTreeMembers : List (Text × Tree) → List (Text × Value κ) :=
  substituteMembers fun target => nomatch target

/-! Replacing links by what they lead to, if every one of them leads to a document. -/
mutual
def resolve? {μ : Type} (f : κ → Option (Value μ)) : Value κ → Option (Value μ)
  | .scalar value => some (.scalar value)
  | .object members => (resolveMembers? f members).map .object
  | .array elements => (resolveElements? f elements).map .array
  | .link target => f target

def resolveMembers? {μ : Type} (f : κ → Option (Value μ)) :
    List (Text × Value κ) → Option (List (Text × Value μ))
  | [] => some []
  | (key, value) :: rest => do return (key, ← resolve? f value) :: (← resolveMembers? f rest)

def resolveElements? {μ : Type} (f : κ → Option (Value μ)) :
    List (Option (Value κ)) → Option (List (Option (Value μ)))
  | [] => some []
  | none :: rest => do return none :: (← resolveElements? f rest)
  | some value :: rest => do return some (← resolve? f value) :: (← resolveElements? f rest)
end

end Value
end LenientJson
