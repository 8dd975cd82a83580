import LenientJson.Host.Reflect
import LenientJson.Proofs.Members

/-! The values inside a host value that a document made of it can come from, and the leaves that stand in
lists, tuples and sets anywhere inside it. -/
namespace LenientJson

variable {α : Type}

def Outcome.values : Outcome α → List α
  | .gives value => [value]
  | .raises _ => []

def Member.values : Member α → List α
  | .method _ outcome | .property outcome => outcome.values
  | .constant value => [value]

def Attribute.values : Attribute α → List α
  | .value a => [a]
  | .callable _ outcome => outcome.values
  | .fails _ => []

theorem Outcome.sizeOf_lt_of_mem_values [SizeOf α] {outcome : Outcome α} {a : α} (gives : a ∈ outcome.values) :
    sizeOf a < sizeOf outcome := by
  cases outcome with
  | gives value =>
    rw [List.mem_singleton.mp gives, Outcome.gives.sizeOf_spec]
    omega
  | raises message => cases gives

theorem Member.sizeOf_lt_of_mem_values [SizeOf α] {member : Member α} {a : α} (gives : a ∈ member.values) :
    sizeOf a < sizeOf member := by
  cases member with
  | method parameters outcome =>
    have := Outcome.sizeOf_lt_of_mem_values gives
    rw [Member.method.sizeOf_spec]
    omega
  | property outcome =>
    have := Outcome.sizeOf_lt_of_mem_values gives
    rw [Member.property.sizeOf_spec]
    omega
  | constant value =>
    rw [List.mem_singleton.mp gives, Member.constant.sizeOf_spec]
    omega

namespace UserObject

/-- What a user object has of its own, besides its class. -/
def own (u : UserObject α) : List (Text × α) := u.fields.getD [] ++ u.attributes

/-- All that a user object can give. -/
def values (u : UserObject α) : List α :=
  u.converter.toList.flatMap Outcome.values ++ u.members.flatMap (fun member => member.2.values) ++
    u.own.map Prod.snd

variable {u : UserObject α}

theorem mem_values {a : α} : a ∈ u.values ↔ (∃ outcome, u.converter = some outcome ∧ a ∈ outcome.values) ∨
    (∃ member ∈ u.members, a ∈ member.2.values) ∨ ∃ entry ∈ u.own, entry.2 = a := by
  simp only [values, List.mem_append, List.mem_flatMap, List.mem_map, Option.mem_toList, or_assoc]

theorem mem_values_of_attribute? {name : Text} {meaning : Attribute α} (means : u.attribute? name = some meaning)
    {a : α} (gives : a ∈ meaning.values) : a ∈ u.values := by
  have ofClass {member : Member α} (found : Members.find? name u.members = some member) (gives : a ∈ member.values) :
      a ∈ u.values := mem_values.mpr (.inr (.inl ⟨_, Members.mem_of_find?_eq_some found, gives⟩))
  simp only [attribute?] at means
  split at means <;> cases means
  case h_1 found => exact ofClass found gives
  case h_2 => cases gives
  case h_3 own _ _ =>
    rw [List.mem_singleton.mp gives]
    refine mem_values.mpr (.inr (.inr ⟨(name, _), List.mem_append.mpr ?_, rfl⟩))
    split at own
    · next here => exact .inr (Members.mem_of_find?_eq_some (here.trans own))
    · obtain ⟨fields, has, found⟩ := Option.bind_eq_some_iff.mp own
      exact .inl (has ▸ Members.mem_of_find?_eq_some found)
  case h_4 found _ => exact ofClass found gives
  case h_5 found _ => exact ofClass found gives

theorem sizeOf_lt_of_mem_values [SizeOf α] {a : α} (gives : a ∈ u.values) : sizeOf a < sizeOf u := by
  obtain ⟨face, converter, members, fields, attributes⟩ := u
  rw [UserObject.mk.sizeOf_spec]
  rcases mem_values.mp gives with ⟨outcome, rfl, given⟩ | ⟨⟨name, member⟩, has, given⟩ | ⟨⟨name, value⟩, has, rfl⟩
  · have := Outcome.sizeOf_lt_of_mem_values given
    simp only [Option.some.sizeOf_spec]
    omega
  · have := Member.sizeOf_lt_of_mem_values given
    have := List.sizeOf_lt_of_mem has
    simp only [Prod.mk.sizeOf_spec] at *
    omega
  · rcases List.mem_append.mp has with has | has
    · cases fields with
      | none => cases has
      | some fields =>
        have has : (name, value) ∈ fields := has
        have := List.sizeOf_lt_of_mem has
        simp only [Prod.mk.sizeOf_spec, Option.some.sizeOf_spec] at *
        omega
    · have := List.sizeOf_lt_of_mem has
      simp only [Prod.mk.sizeOf_spec] at *
      omega

end UserObject

namespace Host

/-- The values next inside. The keys of a mapping are not among them: they only give their texts. -/
def parts : Host → List Host
  | .sequence _ elements => elements
  | .mapping entries => entries.map Prod.snd
  | .user u => u.values
  | .absent | .scalar _ | .link _ => []

theorem sizeOf_lt_of_mem_parts {h part : Host} (inside : part ∈ h.parts) : sizeOf part < sizeOf h := by
  cases h with
  | absent | scalar _ | link _ => cases inside
  | sequence kind elements =>
    have inside : part ∈ elements := inside
    have := List.sizeOf_lt_of_mem inside
    rw [sequence.sizeOf_spec]
    omega
  | mapping entries =>
    obtain ⟨⟨key, value⟩, entry, rfl⟩ := List.mem_map.mp inside
    have := List.sizeOf_lt_of_mem entry
    simp only [mapping.sizeOf_spec, Prod.mk.sizeOf_spec] at this ⊢
    omega
  | user u =>
    have := UserObject.sizeOf_lt_of_mem_values inside
    rw [user.sizeOf_spec]
    omega

/-- Somewhere inside, a list, tuple or set has this leaf as an element. -/
inductive Lists (leaf : Scalar) : Host → Prop
  | element {kind : SequenceKind} {elements : List Host} {h : Host} (here : h ∈ elements) (is : h.leaf? = some leaf) :
    Lists leaf (.sequence kind elements)
  | inside {h part : Host} (inside : part ∈ h.parts) (lists : Lists leaf part) : Lists leaf h

variable {source : Scalar → Prop}

/-- The leaves in lists, tuples and sets are all of the source. -/
def Draws (source : Scalar → Prop) (h : Host) : Prop := ∀ leaf, h.Lists leaf → source leaf

/-- What a new array iterates over: the keys of a mapping. -/
def asList : Host → Host
  | .mapping entries => .sequence .list (entries.map Prod.fst)
  | h => h

theorem Draws.part {h part : Host} (draws : h.Draws source) (inside : part ∈ h.parts) : part.Draws source := by
  intro leaf lists
  exact draws leaf (.inside inside lists)

theorem draws_of_bare {h : Host} (bare : h.parts = []) (other : ∀ kind elements, h ≠ .sequence kind elements) :
    h.Draws source := by
  intro leaf lists
  cases lists with
  | element here => exact (other _ _ rfl).elim
  | inside inside _ =>
    rw [bare] at inside
    cases inside

theorem draws_scalar (leaf : Scalar) : (Host.scalar leaf).Draws source := draws_of_bare rfl nofun

/-! What is made of a value is made of its parts. -/

variable (view : Link → Sight)

theorem documents_eq_map (elements : List Host) : documents view elements = elements.map (wrap view) := by
  induction elements with
  | nil => rfl
  | cons h rest ih => rw [documents, ih, List.map_cons, wrap]

theorem entryDigests_eq_map (entries : List (Host × Host)) : entryDigests view entries = entries.map fun entry =>
    ⟨entry.1.plain view, (digest view entry.2).isAbsent, wrap view entry.2⟩ := by
  induction entries with
  | nil => rfl
  | cons entry rest ih => rw [entryDigests, ih, List.map_cons, wrap]

theorem namedDigests_eq_map (named : List (Text × Host)) :
    namedDigests view named = named.map fun entry => (entry.1, digest view entry.2) := by
  induction named with
  | nil => rfl
  | cons entry rest ih => rw [namedDigests, ih, List.map_cons]

theorem memberDigests_eq_map (members : List (Text × Member Host)) :
    memberDigests view members = members.map fun entry => (entry.1, memberDigest view entry.2) := by
  induction members with
  | nil => rfl
  | cons entry rest ih => rw [memberDigests, ih, List.map_cons]

theorem values_outcomeDigest (outcome : Outcome Host) :
    (outcomeDigest view outcome).values = outcome.values.map (digest view) := by
  cases outcome <;> rfl

theorem values_memberDigest (member : Member Host) :
    (memberDigest view member).values = member.values.map (digest view) := by
  cases member with
  | method _ outcome | property outcome => exact values_outcomeDigest view outcome
  | constant value => rfl

theorem values_userDigest (u : UserObject Host) : (userDigest view u).values = u.values.map (digest view) := by
  obtain ⟨face, converter, members, fields, attributes⟩ := u
  have ofConverter : (converterDigest view converter).toList.flatMap Outcome.values =
      (converter.toList.flatMap Outcome.values).map (digest view) := by
    cases converter with
    | none => rfl
    | some outcome =>
      simp only [converterDigest, Option.toList_some, List.flatMap_singleton, values_outcomeDigest]
  have ofFields : (fieldDigests view fields).getD [] = namedDigests view (fields.getD []) := by
    cases fields <;> rfl
  simp only [UserObject.values, UserObject.own, userDigest, ofConverter, ofFields, memberDigests_eq_map,
    namedDigests_eq_map, List.flatMap_map, values_memberDigest, List.map_append, List.map_flatMap, List.map_map,
    Function.comp_def]

end Host
end LenientJson
