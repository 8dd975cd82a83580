import LenientJson.Host.Basic

/-! Host values in places that ask for a number: indexes and indentation steps. -/
namespace LenientJson
namespace Host

/-- A number that is compared with integers in order. A decimal that is no number cannot be. -/
def ordered (h : Host) : Except Fault Quantity :=
  match h.leaf? with
  | some leaf =>
    if leaf.isDecimalNaN then .error .invalidComparison
    else match leaf.quantity? with
      | some q => .ok q
      | none => .error .wrongKind
  | none => .error .wrongKind

/-- An integer; truth values count as integers. -/
def integer? (h : Host) : Option Int :=
  match h.leaf? with
  | some (.int n) => some n
  | some (.bool value) => some (if value then 1 else 0)
  | some (.foreign face) => match face.kind? with
    | some (.int n) => some n
    | _ => none
  | _ => none

/-- The place that an index means in a sequence of a given length. Numbers that are no integers are
within the bounds or beyond them like others, but reach no element. -/
def indexWithin? (index : Host) (length : Nat) : Except Fault (Option Nat) := do
  match ← index.ordered with
  | .finite false magnitude =>
    if magnitude.isBelow length then
      match index.integer? with
      | some i => return some i.toNat
      | none => throw .wrongKind
    else return none
  | _ => return none

end Host
end LenientJson
