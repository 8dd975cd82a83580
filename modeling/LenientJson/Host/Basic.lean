import LenientJson.Writer

/-! Values of the embedding program, as they are handed to documents: nothing at all, leaves,
containers of documents, sequences and mappings, and user objects with members of their own. -/
namespace LenientJson

inductive Link
  | object (index : Nat)
  | array (index : Nat)
deriving DecidableEq

abbrev Draft := Value Link

inductive Outcome (α : Type)
  | gives (value : α)
  | raises (message : Text)

/-- What a method asks for; the parameters of some cannot be known. -/
inductive Parameters
  | none
  | optional
  | required
  | hidden
deriving DecidableEq

inductive Member (α : Type)
  | method (parameters : Parameters) (outcome : Outcome α)
  | property (outcome : Outcome α)
  | constant (value : α)

/-- A user object. Its class members have distinct names, inherited ones included; `fields` are the
declared fields of a record class, and `attributes` are set on the object itself. -/
structure UserObject (α : Type) where
  face : Foreign
  converter : Option (Outcome α)
  members : List (Text × Member α)
  fields : Option (List (Text × α))
  attributes : List (Text × α)

/-- The members that a class has with its bases, the nearest class first: of members of one name the
nearest counts. -/
def Member.inherited {α : Type} (classes : List (Members (Member α))) : Members (Member α) :=
  classes.foldr (fun near far => far.merge near) []

inductive SequenceKind
  | list
  | tuple
  | set
  | frozenSet
deriving DecidableEq

inductive Host
  | absent
  | scalar (value : Scalar)
  | link (target : Link)
  | sequence (kind : SequenceKind) (elements : List Host)
  | mapping (entries : List (Host × Host))
  | user (object : UserObject Host)

instance : Inhabited Host := ⟨.absent⟩

/-- What is seen of a container: its document, unless it holds itself, its literal, and the values
that it gives one after the other. -/
structure Sight where
  tree? : Option Tree
  literal : Except Fault Text
  pieces : List Host

/-- The compact text of the document, and an empty one if that cannot be written. -/
def Sight.compact (sight : Sight) : Text := (sight.tree?.bind Value.compact?).getD []

namespace SequenceKind

def name : SequenceKind → Text
  | list => Text.ofString "list"
  | tuple => Text.ofString "tuple"
  | set => Text.ofString "set"
  | frozenSet => Text.ofString "frozenset"

def literal (kind : SequenceKind) (elements : List Text) : Text :=
  let inside := Text.joinWith (Text.ofString ", ") elements
  match kind, elements with
  | list, _ => [Symbol.leftBracket] ++ inside ++ [Symbol.rightBracket]
  | tuple, [_] => [Symbol.leftParen] ++ inside ++ [Symbol.comma, Symbol.rightParen]
  | tuple, _ => [Symbol.leftParen] ++ inside ++ [Symbol.rightParen]
  | set, [] => Text.ofString "set()"
  | set, _ => [Symbol.leftBrace] ++ inside ++ [Symbol.rightBrace]
  | frozenSet, [] => Text.ofString "frozenset()"
  | frozenSet, _ => Text.ofString "frozenset(\x7b" ++ inside ++ Text.ofString "\x7d)"

end SequenceKind

namespace Link

def kindName : Link → Text
  | object _ => Text.ofString "JSONObject"
  | array _ => Text.ofString "JSONArray"

/-- The literal of a container with what stands between its brackets. -/
def literal (inside : Text) : Link → Text
  | object _ => Text.ofString "JSONObject(\x7b" ++ inside ++ Text.ofString "\x7d)"
  | array _ => Text.ofString "JSONArray([" ++ inside ++ Text.ofString "])"

end Link

namespace Host

def ofText (t : Text) : Host := .scalar (.text t)

def ofInt (n : Int) : Host := .scalar (.int n)

def ofBool (b : Bool) : Host := .scalar (.bool b)

def isAbsent : Host → Bool
  | absent => true
  | _ => false

/-- The leaf that a value is, if it is one; user objects count by their face. -/
def leaf? : Host → Option Scalar
  | scalar value => some value
  | user object => some (.foreign object.face)
  | _ => none

def kindName : Host → Text
  | absent => Text.ofString "NoneType"
  | scalar value => value.kindName
  | link target => target.kindName
  | sequence kind _ => kind.name
  | mapping _ => Text.ofString "dict"
  | user object => object.face.kind

def fullKindName : Host → Text
  | scalar value => value.fullKindName
  | other => other.kindName

def isTruthy (view : Link → Sight) : Host → Bool
  | absent => false
  | scalar value => value.isTruthy
  | link target => !(view target).pieces.isEmpty
  | sequence _ elements => !elements.isEmpty
  | mapping entries => !entries.isEmpty
  | user object => (Scalar.foreign object.face).isTruthy

mutual
def isHashable : Host → Bool
  | absent => true
  | scalar (.bytes mutable _) => !mutable
  | scalar leaf => leaf.quantity? ≠ some .signaling
  | link _ => true
  | sequence .tuple elements => areHashable elements
  | sequence .frozenSet _ => true
  | sequence _ _ => false
  | mapping _ => false
  | user object => object.fields.isNone && (Scalar.foreign object.face).quantity? ≠ some .signaling

def areHashable : List Host → Bool
  | [] => true
  | h :: rest => isHashable h && areHashable rest
end

mutual
def literal (view : Link → Sight) : Host → Except Fault Text
  | absent => .ok (Text.ofString "None")
  | scalar value => value.literal
  | link target => (view target).literal
  | sequence kind elements => do return kind.literal (← literals view elements)
  | mapping entries => do
    return [Symbol.leftBrace] ++
      Text.joinWith (Text.ofString ", ") (← entryLiterals view entries) ++ [Symbol.rightBrace]
  | user object => object.face.literal.answer

def literals (view : Link → Sight) : List Host → Except Fault (List Text)
  | [] => .ok []
  | h :: rest => do return (← literal view h) :: (← literals view rest)

def entryLiterals (view : Link → Sight) : List (Host × Host) → Except Fault (List Text)
  | [] => .ok []
  | (key, value) :: rest => do
    return ((← literal view key) ++ Text.ofString ": " ++ (← literal view value)) ::
      (← entryLiterals view rest)
end

/-- The plain text of a value; containers give their compact JSON text. -/
def plain (view : Link → Sight) : Host → Except Fault Text
  | scalar value => value.plain
  | link target => .ok (view target).compact
  | user object => object.face.spoken.answer
  | other => other.literal view

end Host
end LenientJson
