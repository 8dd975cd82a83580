import LenientJson.Host.Accessor
import LenientJson.Host.Basic

/-! Host values as documents. Mappings become objects, other collections arrays, values of the
standard kinds that JSON lacks become texts, and user objects, unless they are leaves as they stand,
become objects made of what their converter, their own list of members, their declared fields or
their accessors give. A value that cannot be turned into a document has no document. -/
namespace LenientJson

/-- An entry of a mapping: its key as a text, whether its value is absent, and the document of the
value. -/
structure Entry where
  key : Except Fault Text
  isAbsent : Bool
  document? : Option Draft

/-- All that the making of documents asks of a host value. Only mappings have entries. -/
structure Digest where
  isAbsent : Bool
  document? : Option Draft
  entries? : Option (List Entry)

inductive Attribute (α : Type)
  | value (a : α)
  | callable (parameters : Parameters) (outcome : Outcome α)
  | fails (message : Text)

namespace Entry

/-- Puts entries into an object. Absent values are passed over, a value without a document removes
its key, and a value that must not be held ends everything. -/
def putAll : List Entry → Members Draft → Except Fault (Members Draft)
  | [], m => .ok m
  | entry :: rest, m =>
    if entry.isAbsent then putAll rest m
    else do
      let key ← entry.key
      match entry.document? with
      | none => putAll rest (m.erase key)
      | some document =>
        document.requireFinite
        putAll rest (m.insert key document)

end Entry

def Members.putIfAny (key : Text) (document? : Option Draft) (m : Members Draft) : Members Draft :=
  match document? with
  | some document =>
    match document.requireFinite with
    | .ok () => m.insert key document
    | .error _ => m
  | none => m

namespace Entry

def putPossible : List Entry → Members Draft → Except Fault (Members Draft)
  | [], m => .ok m
  | entry :: rest, m =>
    if entry.isAbsent then putPossible rest m
    else do putPossible rest (m.putIfAny (← entry.key) entry.document?)

end Entry

namespace UserObject

variable {α : Type}

/-- What a name means: a property comes first, then what is set on the object itself, then the other
members of the class. -/
def attribute? (u : UserObject α) (name : Text) : Option (Attribute α) :=
  let own := match Members.find? name u.attributes with
    | some a => some a
    | none => (u.fields.bind (Members.find? name))
  match Members.find? name u.members, own with
  | some (.property (.gives a)), _ => some (.value a)
  | some (.property (.raises message)), _ => some (.fails message)
  | _, some a => some (.value a)
  | some (.method parameters outcome), none => some (.callable parameters outcome)
  | some (.constant a), none => some (.value a)
  | none, none => none

private def hasMark (name : Text) : Bool := Text.startsWith [Symbol.underscore] name

def publicNames (u : UserObject α) : List Text :=
  let names := u.members.map Prod.fst ++ (u.fields.getD []).map Prod.fst ++
    u.attributes.map Prod.fst
  ((names.filter fun name => !hasMark name).eraseDups).mergeSort fun a b => !Text.before b a

/-- The public names among the declared fields, or without such fields among what is set on the
object. -/
def fieldNames (u : UserObject α) : List Text :=
  ((u.fields.getD u.attributes).map Prod.fst).filter fun name => !hasMark name

/-- Whether the class offers a member of this name, or else the object itself does; a member that
is absent counts as none. -/
def offers (isAbsent : α → Bool) (u : UserObject α) (name : Text) : Bool :=
  let present := match u.attribute? name with
    | some (.value a) => !isAbsent a
    | some _ => true
    | none => false
  match Members.find? name u.members with
  | some (.constant a) => !isAbsent a || present
  | some _ => true
  | none => present

def call (u : UserObject α) (name : Text) : Except Fault α :=
  match u.attribute? name with
  | some (.callable .required _) => .error .wrongKind
  | some (.callable _ (.gives a)) => .ok a
  | some (.callable _ (.raises message)) | some (.fails message) => .error (.raised message)
  | some (.value _) => .error .wrongKind
  | none => .error .noSuchMember

/-- The public accessors without parameters that give something, with what they give, in the order
of their names. -/
def accessors (u : UserObject α) : List (Text × α) :=
  u.publicNames.filterMap fun name =>
    match accessorKey? name, u.attribute? name with
    | some key, some (.callable .none (.gives a)) => some (key, a)
    | _, _ => none

def fieldEntries (u : UserObject Digest) (names : List Text) : List Entry :=
  names.filterMap fun name =>
    match u.attribute? name with
    | some (.value digest) => some ⟨.ok name, digest.isAbsent, digest.document?⟩
    | _ => none

/-- The object made of what the accessors give; accessors that fail or give nothing that can be held
are passed over. -/
def ofAccessors (u : UserObject Digest) : Members Draft :=
  u.accessors.foldl (fun m accessor =>
    if accessor.2.isAbsent then m else m.putIfAny accessor.1 accessor.2.document?) []

/-- The object made of a mapping; nothing else has entries. -/
def ofEntries (digest : Digest) : Except Fault (Members Draft) :=
  match digest.entries? with
  | some entries => Entry.putPossible entries []
  | none => .error .noSuchMember

/-- The members that an object lists itself, before its fields and accessors are asked. -/
def ofListing (u : UserObject Digest) : Except Fault (Members Draft) :=
  if u.offers Digest.isAbsent (Text.ofString "json_fields") then do
    let listing ← u.call (Text.ofString "json_fields")
    if listing.isAbsent then return u.ofAccessors else ofEntries listing
  else if u.fields.isSome then Entry.putPossible (u.fieldEntries u.fieldNames) []
  else return u.ofAccessors

def reflected (u : UserObject Digest) : Except Fault (Members Draft) :=
  match u.converter with
  | some (.raises message) => .error (.raised message)
  | some (.gives listing) => if listing.isAbsent then u.ofListing else ofEntries listing
  | none => u.ofListing

end UserObject

namespace Digest

def ofDocument (document : Draft) : Digest := ⟨false, some document, none⟩

def ofScalar : Scalar → Digest
  | .bytes _ octets =>
    ofDocument (.array (octets.map fun octet : Nat => some (.scalar (.int octet))))
  | .decimal value => ofDocument (.scalar (.text value.text))
  | .fraction value =>
    ⟨false, (Scalar.fractionText value).toOption.map fun t => .scalar (.text t), none⟩
  | .date value => ofDocument (.scalar (.text value.text))
  | .foreign face => ofDocument (if face.isLeaf then .scalar (.foreign face) else .object [])
  | leaf => ofDocument (.scalar leaf)

def ofUser (u : UserObject Digest) : Digest :=
  if u.face.isLeaf then ofDocument (.scalar (.foreign u.face))
  else ⟨false, (u.reflected.toOption).map .object, none⟩

end Digest

namespace Host

mutual
def digest (view : Link → Sight) : Host → Digest
  | .absent => ⟨true, some Value.null, none⟩
  | .scalar leaf => .ofScalar leaf
  | .link target => .ofDocument (.link target)
  | .sequence _ elements => .ofDocument (.array (documents view elements))
  | .mapping entries =>
    let entries := entryDigests view entries
    ⟨false, ((Entry.putAll entries []).toOption).map .object, some entries⟩
  | .user ⟨face, converter, members, fields, attributes⟩ =>
    .ofUser ⟨face, converterDigest view converter, memberDigests view members,
      fieldDigests view fields, namedDigests view attributes⟩

def documents (view : Link → Sight) : List Host → List (Option Draft)
  | [] => []
  | h :: rest => (digest view h).document? :: documents view rest

def entryDigests (view : Link → Sight) : List (Host × Host) → List Entry
  | [] => []
  | (key, value) :: rest =>
    let value := digest view value
    ⟨key.plain view, value.isAbsent, value.document?⟩ :: entryDigests view rest

def outcomeDigest (view : Link → Sight) : Outcome Host → Outcome Digest
  | .gives value => .gives (digest view value)
  | .raises message => .raises message

def converterDigest (view : Link → Sight) : Option (Outcome Host) → Option (Outcome Digest)
  | none => none
  | some outcome => some (outcomeDigest view outcome)

def memberDigest (view : Link → Sight) : Member Host → Member Digest
  | .method parameters outcome => .method parameters (outcomeDigest view outcome)
  | .property outcome => .property (outcomeDigest view outcome)
  | .constant value => .constant (digest view value)

def memberDigests (view : Link → Sight) : List (Text × Member Host) → List (Text × Member Digest)
  | [] => []
  | (name, member) :: rest => (name, memberDigest view member) :: memberDigests view rest

def fieldDigests (view : Link → Sight) :
    Option (List (Text × Host)) → Option (List (Text × Digest))
  | none => none
  | some fields => some (namedDigests view fields)

def namedDigests (view : Link → Sight) : List (Text × Host) → List (Text × Digest)
  | [] => []
  | (name, value) :: rest => (name, digest view value) :: namedDigests view rest
end

def wrap (view : Link → Sight) (h : Host) : Option Draft := (h.digest view).document?

/-- The members of a mapping as an object; nothing at all counts as an empty mapping. -/
def objectOf (view : Link → Sight) : Host → Except Fault (Members Draft)
  | .absent => .ok []
  | h => match (h.digest view).entries? with
    | some entries => Entry.putAll entries []
    | none => .error .noSuchMember

/-- The form in which a container holds a value: mappings and sequences become containers, and other
values stay as they are if they may be held. -/
def stored (view : Link → Sight) : Host → Except Fault (Option Draft)
  | .absent => .ok none
  | .mapping entries => do
    return some (.object (← Entry.putAll (entryDigests view entries) []))
  | .sequence _ elements => .ok (some (.array (documents view elements)))
  | .link target => .ok (some (.link target))
  | .scalar leaf => do
    leaf.requireFinite
    return some (.scalar leaf)
  | .user object => do
    (Scalar.foreign object.face).requireFinite
    return some (.scalar (.foreign object.face))

def requireFinite (h : Host) : Except Fault Unit :=
  match h.leaf? with
  | some leaf => leaf.requireFinite
  | none => .ok ()

end Host
end LenientJson
