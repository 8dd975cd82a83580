import LenientJson.Value

/-! Properties of documents that hold at every level: of leaves and keys, of the keys within one object,
and of arrays without gaps. -/
namespace LenientJson

/-- Only numbers below `0x110000` are code points. -/
def Text.IsValid (t : Text) : Prop := ∀ c ∈ t, c < 0x110000

instance (t : Text) : Decidable t.IsValid := inferInstanceAs (Decidable (∀ c ∈ t, _))

namespace Value

mutual
/-- Every leaf satisfies `p`, and every key is a text of code points. -/
def Every (p : Scalar → Prop) : Tree → Prop
  | .scalar leaf => p leaf
  | .object members => EveryMember p members
  | .array elements => EveryElement p elements

def EveryMember (p : Scalar → Prop) : List (Text × Tree) → Prop
  | [] => True
  | (key, value) :: rest => key.IsValid ∧ Every p value ∧ EveryMember p rest

def EveryElement (p : Scalar → Prop) : List (Option Tree) → Prop
  | [] => True
  | none :: rest => EveryElement p rest
  | some value :: rest => Every p value ∧ EveryElement p rest
end

mutual
theorem Every.imp {p q : Scalar → Prop} (weaker : ∀ leaf, p leaf → q leaf) : ∀ v : Tree, v.Every p → v.Every q
  | .scalar leaf => weaker leaf
  | .object members => EveryMember.imp weaker members
  | .array elements => EveryElement.imp weaker elements

theorem EveryMember.imp {p q : Scalar → Prop} (weaker : ∀ leaf, p leaf → q leaf) :
    ∀ members : List (Text × Tree), EveryMember p members → EveryMember q members
  | [] => id
  | (_, value) :: rest => fun ⟨valid, first, others⟩ =>
    ⟨valid, Every.imp weaker value first, EveryMember.imp weaker rest others⟩

theorem EveryElement.imp {p q : Scalar → Prop} (weaker : ∀ leaf, p leaf → q leaf) :
    ∀ elements : List (Option Tree), EveryElement p elements → EveryElement q elements
  | [] => id
  | none :: rest => EveryElement.imp weaker rest
  | some value :: rest => fun ⟨first, others⟩ => ⟨Every.imp weaker value first, EveryElement.imp weaker rest others⟩
end

mutual
/-- Every leaf satisfies `p`; keys may be any lists of numbers. -/
def EveryLeaf (p : Scalar → Prop) : Tree → Prop
  | .scalar leaf => p leaf
  | .object members => EveryMemberLeaf p members
  | .array elements => EveryElementLeaf p elements

def EveryMemberLeaf (p : Scalar → Prop) : List (Text × Tree) → Prop
  | [] => True
  | (_, value) :: rest => EveryLeaf p value ∧ EveryMemberLeaf p rest

def EveryElementLeaf (p : Scalar → Prop) : List (Option Tree) → Prop
  | [] => True
  | none :: rest => EveryElementLeaf p rest
  | some value :: rest => EveryLeaf p value ∧ EveryElementLeaf p rest
end

theorem everyMemberLeaf_iff {p : Scalar → Prop} {members : Members Tree} :
    EveryMemberLeaf p members ↔ ∀ member ∈ members, member.2.EveryLeaf p := by
  induction members with
  | nil => exact iff_of_true trivial (List.forall_mem_nil _)
  | cons member rest ih => rw [EveryMemberLeaf, ih, List.forall_mem_cons]

theorem EveryElementLeaf.of_mem {p : Scalar → Prop} {elements : List (Option Tree)} (every : EveryElementLeaf p elements)
    {v : Tree} (inside : some v ∈ elements) : v.EveryLeaf p := by
  induction elements with
  | nil => cases inside
  | cons element rest ih =>
    cases element with
    | none => exact ih every ((List.mem_cons.mp inside).resolve_left nofun)
    | some value =>
      rcases List.mem_cons.mp inside with same | inside
      · exact Option.some.inj same ▸ every.1
      · exact ih every.2 inside

mutual
theorem Every.leaves {p : Scalar → Prop} : ∀ v : Tree, v.Every p → v.EveryLeaf p
  | .scalar _ => id
  | .object members => EveryMember.leaves members
  | .array elements => EveryElement.leaves elements

theorem EveryMember.leaves {p : Scalar → Prop} :
    ∀ members : List (Text × Tree), EveryMember p members → EveryMemberLeaf p members
  | [] => id
  | (_, value) :: rest => fun ⟨_, first, others⟩ => ⟨Every.leaves value first, EveryMember.leaves rest others⟩

theorem EveryElement.leaves {p : Scalar → Prop} :
    ∀ elements : List (Option Tree), EveryElement p elements → EveryElementLeaf p elements
  | [] => id
  | none :: rest => EveryElement.leaves rest
  | some value :: rest => fun ⟨first, others⟩ => ⟨Every.leaves value first, EveryElement.leaves rest others⟩
end

mutual
theorem EveryLeaf.imp {p q : Scalar → Prop} (weaker : ∀ leaf, p leaf → q leaf) :
    ∀ v : Tree, v.EveryLeaf p → v.EveryLeaf q
  | .scalar leaf => weaker leaf
  | .object members => EveryMemberLeaf.imp weaker members
  | .array elements => EveryElementLeaf.imp weaker elements

theorem EveryMemberLeaf.imp {p q : Scalar → Prop} (weaker : ∀ leaf, p leaf → q leaf) :
    ∀ members : List (Text × Tree), EveryMemberLeaf p members → EveryMemberLeaf q members
  | [] => id
  | (_, value) :: rest => fun ⟨first, others⟩ =>
    ⟨EveryLeaf.imp weaker value first, EveryMemberLeaf.imp weaker rest others⟩

theorem EveryElementLeaf.imp {p q : Scalar → Prop} (weaker : ∀ leaf, p leaf → q leaf) :
    ∀ elements : List (Option Tree), EveryElementLeaf p elements → EveryElementLeaf q elements
  | [] => id
  | none :: rest => EveryElementLeaf.imp weaker rest
  | some value :: rest => fun ⟨first, others⟩ =>
    ⟨EveryLeaf.imp weaker value first, EveryElementLeaf.imp weaker rest others⟩
end

mutual
theorem everyLeaf_and {p q : Scalar → Prop} :
    ∀ v : Tree, v.EveryLeaf (fun leaf => p leaf ∧ q leaf) ↔ v.EveryLeaf p ∧ v.EveryLeaf q
  | .scalar _ => .rfl
  | .object members => everyMemberLeaf_and members
  | .array elements => everyElementLeaf_and elements

theorem everyMemberLeaf_and {p q : Scalar → Prop} : ∀ members : List (Text × Tree),
    EveryMemberLeaf (fun leaf => p leaf ∧ q leaf) members ↔ EveryMemberLeaf p members ∧ EveryMemberLeaf q members
  | [] => (and_self_iff).symm
  | (_, value) :: rest => (and_congr (everyLeaf_and value) (everyMemberLeaf_and rest)).trans and_and_and_comm

theorem everyElementLeaf_and {p q : Scalar → Prop} : ∀ elements : List (Option Tree),
    EveryElementLeaf (fun leaf => p leaf ∧ q leaf) elements ↔ EveryElementLeaf p elements ∧ EveryElementLeaf q elements
  | [] => (and_self_iff).symm
  | none :: rest => everyElementLeaf_and rest
  | some value :: rest => (and_congr (everyLeaf_and value) (everyElementLeaf_and rest)).trans and_and_and_comm
end

/-- Two properties that agree on the leaves of a document hold of all its leaves or not together. -/
theorem EveryLeaf.congr {p q r : Scalar → Prop} (same : ∀ leaf, r leaf → (p leaf ↔ q leaf)) {v : Tree}
    (every : v.EveryLeaf r) : v.EveryLeaf p ↔ v.EveryLeaf q := by
  constructor <;> intro holds
  · exact EveryLeaf.imp (fun leaf both => (same leaf both.1).mp both.2) v ((everyLeaf_and v).mpr ⟨every, holds⟩)
  · exact EveryLeaf.imp (fun leaf both => (same leaf both.1).mpr both.2) v ((everyLeaf_and v).mpr ⟨every, holds⟩)

mutual
/-- No object has two members with the same key. -/
def KeysDiffer : Tree → Prop
  | .scalar _ => True
  | .object members => (Members.keys members).Nodup ∧ MemberKeysDiffer members
  | .array elements => ElementKeysDiffer elements

def MemberKeysDiffer : List (Text × Tree) → Prop
  | [] => True
  | (_, value) :: rest => KeysDiffer value ∧ MemberKeysDiffer rest

def ElementKeysDiffer : List (Option Tree) → Prop
  | [] => True
  | none :: rest => ElementKeysDiffer rest
  | some value :: rest => KeysDiffer value ∧ ElementKeysDiffer rest
end

mutual
def IsFull : Tree → Prop
  | .scalar _ => True
  | .object members => MembersFull members
  | .array elements => ElementsFull elements

def MembersFull : List (Text × Tree) → Prop
  | [] => True
  | (_, value) :: rest => IsFull value ∧ MembersFull rest

def ElementsFull : List (Option Tree) → Prop
  | [] => True
  | none :: _ => False
  | some value :: rest => IsFull value ∧ ElementsFull rest
end

mutual
/-- A document without its leaves: two documents have the same skeleton if they have the same keys in the
same order, and as many elements, at every level. -/
def skeleton : Tree → Tree
  | .scalar _ => .scalar .null
  | .object members => .object (memberSkeletons members)
  | .array elements => .array (elementSkeletons elements)

def memberSkeletons : List (Text × Tree) → List (Text × Tree)
  | [] => []
  | (key, value) :: rest => (key, skeleton value) :: memberSkeletons rest

def elementSkeletons : List (Option Tree) → List (Option Tree)
  | [] => []
  | none :: rest => none :: elementSkeletons rest
  | some value :: rest => some (skeleton value) :: elementSkeletons rest
end

end Value
end LenientJson
