import LenientJson.Host.Identity
import LenientJson.Similar

/-! Equality of host values. Sequences are equal element by element, sets and mappings regardless of
order, and containers of documents only if they are the same container. -/
namespace LenientJson
namespace Host

def isIncomparable (h : Host) : Bool :=
  match h.leaf? with
  | some leaf => leaf.isIncomparable
  | none => false

private def unlike (a b : Host) : Except Fault Bool :=
  if a.isIncomparable || b.isIncomparable then .error Scalar.refusal else .ok false

mutual
def equals : (a b : Host) → Except Fault Bool
  | .absent, .absent => .ok true
  | .absent, b => match b.leaf? with
    | some leaf => if leaf = .null then .ok true else unlike .absent b
    | none => .ok false
  | .scalar a, b => match b with
    | .absent => if a = .null then .ok true else unlike (.scalar a) .absent
    | b => match b.leaf? with
      | some leaf => a.equals leaf
      | none => unlike (.scalar a) b
  | .user a, b => match b.leaf? with
    | some leaf => (Scalar.foreign a.face).equals leaf
    | none => unlike (.user a) b
  | .link a, .link b => .ok (a = b)
  | .sequence .list as, .sequence .list bs =>
    if as.length = bs.length then equalInOrder as bs else .ok false
  | .sequence .tuple as, .sequence .tuple bs => equalInOrder as bs
  | .sequence .set as, .sequence .set bs | .sequence .set as, .sequence .frozenSet bs
  | .sequence .frozenSet as, .sequence .set bs
  | .sequence .frozenSet as, .sequence .frozenSet bs =>
    .ok (as.length = bs.length && areMembersOf bs as)
  | .mapping as, .mapping bs => if as.length = bs.length then allEntriesIn bs as else .ok false
  | a, b => unlike a b

/-- Values in order are compared up to the first difference; then one list must not be longer than
the other. -/
def equalInOrder : (as bs : List Host) → Except Fault Bool
  | [], [] => .ok true
  | a :: as, b :: bs =>
    if a.isSame b then equalInOrder as bs
    else do if ← equals a b then equalInOrder as bs else return false
  | _, _ => .ok false

def allEntriesIn (others : List (Host × Host)) : (entries : List (Host × Host)) → Except Fault Bool
  | [] => .ok true
  | (key, value) :: entries =>
    match entry? key others with
    | none => .ok false
    | some other =>
      if value.isSame other then allEntriesIn others entries
      else do if ← equals value other then allEntriesIn others entries else return false
end

/-- Likeness of two values: documents by their content, truth values only to truth values, anything
else by equality. A container without a document holds, at some depth, one that holds itself, so that
it is like no other. An object says so; what two arrays come to is not followed, and counts as going
round without end. -/
def similar (view : Link → Sight) (mine theirs : Host) : Except Fault Bool :=
  match mine, theirs with
  | .link a, .link b => match (view a).tree?, (view b).tree?, a, b with
    | some x, some y, _, _ => x.similar y
    | _, _, .array _, .array _ => .error .endless
    | _, _, _, _ => .ok false
  | .link _, _ => .ok false
  | .scalar (.bool x), .scalar (.bool y) => .ok (x = y)
  | .scalar (.bool _), _ | _, .scalar (.bool _) => .ok false
  | mine, theirs => mine.equals theirs

end Host
end LenientJson
