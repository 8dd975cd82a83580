import LenientJson.Store.Object

/-! Questions to an array of the store, and its changes. Indexes may be any host values. -/
namespace LenientJson

namespace Store

/-- The element of an index; absent elements and those out of bounds are none. -/
def optAt (st : Store) (a : Nat) (index : Host) : Except Fault (Option Slot) := do
  match ← index.indexWithin? (st.elementsOf a).length with
  | some i => return ((st.elementsOf a)[i]?).join
  | none => return none

/-- How messages name an index. An integer is named whatever the number of its digits. -/
def indexText (st : Store) : (index : Host) → Except Fault Text
  | .scalar (.int n) => .ok (signedDecimalText n)
  | index => index.plain st.view

private def indexFault (st : Store) (fault : Text → Fault) {α : Type} (index : Host) :
    Except Fault α := do
  throw (fault (← st.indexText index))

def getAt (st : Store) (a : Nat) (index : Host) : Except Fault Slot := do
  match ← st.optAt a index with
  | some slot => return slot
  | none => st.indexFault .elementNotFound index

def getStringAt (st : Store) (a : Nat) (index : Host) : Except Fault Text := do
  match ← st.getAt a index with
  | .leaf (.text t) => return t
  | _ => st.indexFault .elementNotText index

/-- Whether an array has an element that is a value or equals it; the first failure counts. -/
def holds (st : Store) (a : Nat) (value : Host) : Except Fault Bool :=
  go (st.elementsOf a)
where
  go : List (Option Slot) → Except Fault Bool
    | [] => .ok false
    | element :: rest => do
      let element := st.hostOfElement element
      if element.isSame value then return true
      else if ← element.equals value then return true
      else go rest

end Store

namespace Action

def pushTo (a : Nat) (value : Host) : Action Unit := do
  match ← query fun st => value.stored st.view with
  | none => modify fun st => st.setElements a (st.elementsOf a ++ [none])
  | some document =>
    let slot ← intern document
    modify fun st => st.setElements a (st.elementsOf a ++ [some slot])

/-- The elements with one of them replaced; nulls fill the places up to one beyond the end. -/
def withElement (elements : List (Option Slot)) (i : Nat) (element : Option Slot) :
    List (Option Slot) :=
  if i < elements.length then elements.set i element
  else elements ++ List.replicate (i - elements.length) (some (.leaf .null)) ++ [element]

/-- The largest exponent of the leading digit of a decimal that arithmetic gives. -/
def maxDecimalExponent : Int := 999999

/-- What is wrong with an index that is neither an integer nor negative. The distance of a decimal
from the end of the array may be too large to be computed. -/
private def nonIntegerFault : (index : Host) → Fault
  | .scalar (.decimal (.finite numeral)) =>
    if numeral.coefficient ≠ 0 ∧ maxDecimalExponent < numeral.leadingExponent then .decimalTooLarge
    else .wrongKind
  | _ => .wrongKind

def placeAt (a i : Nat) : Option Draft → Action Unit
  | none => modify fun st => st.setElements a (withElement (st.elementsOf a) i none)
  | some document => do
    let slot ← intern document
    modify fun st => st.setElements a (withElement (st.elementsOf a) i (some slot))

def putAt (a : Nat) (index value : Host) : Action Unit := do
  match ← query fun _ => index.ordered with
  | .finite true _ | .infinity true =>
    fail (.elementNotFound (← query fun st => st.indexText index))
  | _ =>
    let document ← query fun st => value.stored st.view
    match index.integer? with
    | some i =>
      query fun st => requireRoom st.room.elements (i.toNat - (st.elementsOf a).length)
      placeAt a i.toNat document
    | none => fail (nonIntegerFault index)

end Action
end LenientJson
