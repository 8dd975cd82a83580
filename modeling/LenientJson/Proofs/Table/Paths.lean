import LenientJson.Proofs.Similar

/-! Documents seen through the paths of keys that lead into them. A nest consists of texts and of objects
that are not empty; it is known by its leaves, up to the order of members. -/
namespace LenientJson

namespace Value

/-- What a path of keys leads to. -/
def walk : (path : List Text) → Tree → Option Tree
  | [], v => some v
  | key :: path, .object members => (Members.find? key members).bind (walk path)
  | _ :: _, _ => none

mutual
/-- Whatever is no object, with the keys that lead to it. -/
def leaves : Tree → List (List Text × Tree)
  | .object members => memberLeaves members
  | leaf => [([], leaf)]

def memberLeaves : List (Text × Tree) → List (List Text × Tree)
  | [] => []
  | (key, value) :: rest => (leaves value).map (fun leaf => (key :: leaf.1, leaf.2)) ++ memberLeaves rest
end

/-- Texts, and objects of such that have members and no key twice. -/
inductive IsNest : Tree → Prop
  | text (t : Text) : IsNest (.scalar (.text t))
  | object {members : Members Tree} (some : members ≠ []) (distinct : members.keys.Nodup)
      (each : ∀ entry ∈ members, IsNest entry.2) : IsNest (.object members)

/-- A path leads to a text. -/
def Shows (v : Tree) (path : List Text) (t : Text) : Prop := v.walk path = some (.scalar (.text t))

variable {members : Members Tree} {path : List Text} {t : Text}

@[simp] theorem walk_nil (v : Tree) : walk [] v = some v := by simp [walk]

@[simp] theorem walk_cons_object (key : Text) (path : List Text) (members : Members Tree) :
    walk (key :: path) (.object members) = (members.find? key).bind (walk path) := by rw [walk]

@[simp] theorem walk_cons_scalar (key : Text) (path : List Text) (leaf : Scalar) :
    walk (key :: path) (.scalar leaf) = none := by simp [walk]

theorem shows_object : Shows (.object members) path t ↔
    ∃ key value inner, members.find? key = some value ∧ path = key :: inner ∧ value.Shows inner t := by
  cases path with
  | nil => simp [Shows]
  | cons key inner =>
    simp only [Shows, walk_cons_object, Option.bind_eq_some_iff, List.cons.injEq]
    constructor
    · rintro ⟨value, found, shows⟩
      exact ⟨key, value, inner, found, ⟨rfl, rfl⟩, shows⟩
    · rintro ⟨_, value, _, found, ⟨rfl, rfl⟩, shows⟩
      exact ⟨value, found, shows⟩

/-! Leaves are the texts that paths lead to. -/

theorem mem_memberLeaves {members : List (Text × Tree)} {leaf : Tree} : (path, leaf) ∈ memberLeaves members ↔
    ∃ key value inner, (key, value) ∈ members ∧ path = key :: inner ∧ (inner, leaf) ∈ leaves value := by
  induction members with
  | nil => simp [memberLeaves]
  | cons entry rest ih =>
    obtain ⟨k, v⟩ := entry
    rw [memberLeaves, List.mem_append, ih, List.mem_map]
    constructor
    · rintro (⟨⟨inner, leaf⟩, inside, same⟩ | ⟨key, value, inner, member, rfl, inside⟩)
      · cases same
        exact ⟨k, v, inner, List.mem_cons_self, rfl, inside⟩
      · exact ⟨key, value, inner, List.mem_cons_of_mem _ member, rfl, inside⟩
    · rintro ⟨key, value, inner, member, rfl, inside⟩
      rcases List.mem_cons.mp member with same | member
      · cases same
        exact .inl ⟨_, inside, rfl⟩
      · exact .inr ⟨key, value, inner, member, rfl, inside⟩

/-- The leaves of a document are texts, and all that its paths lead to. -/
def IsLaidOut (v : Tree) : Prop :=
  ∀ path leaf, (path, leaf) ∈ v.leaves ↔ ∃ t, leaf = .scalar (.text t) ∧ v.Shows path t

theorem isLaidOut_object (distinct : members.keys.Nodup) (each : ∀ entry ∈ members, entry.2.IsLaidOut) :
    IsLaidOut (.object members) := by
  intro path leaf
  rw [leaves, mem_memberLeaves]
  simp only [shows_object, Members.find?_eq_some_iff distinct]
  constructor
  · rintro ⟨key, value, inner, member, rfl, inside⟩
    obtain ⟨t, rfl, shows⟩ := (each _ member inner leaf).mp inside
    exact ⟨t, rfl, key, value, inner, member, rfl, shows⟩
  · rintro ⟨t, rfl, key, value, inner, member, rfl, shows⟩
    exact ⟨key, value, inner, member, rfl, (each _ member inner _).mpr ⟨t, rfl, shows⟩⟩

theorem IsNest.isLaidOut {v : Tree} (nest : v.IsNest) : v.IsLaidOut := by
  induction nest with
  | text t =>
    intro path leaf
    cases path with
    | nil => simp [leaves, Shows]
    | cons key path => simp [leaves, Shows]
  | object _ distinct _ ih => exact isLaidOut_object distinct ih

/-! Two nests that show the same texts are similar. -/

theorem IsNest.exists_shows {v : Tree} (nest : v.IsNest) : ∃ path t, v.Shows path t := by
  induction nest with
  | text t => exact ⟨[], t, by simp [Shows]⟩
  | @object members some distinct _ ih =>
    obtain ⟨⟨key, value⟩, rest, rfl⟩ := List.exists_cons_of_ne_nil some
    obtain ⟨path, t, shows⟩ := ih _ List.mem_cons_self
    exact ⟨key :: path, t, shows_object.mpr ⟨key, value, path, by simp [Members.find?], rfl, shows⟩⟩

def ShowSame (v w : Tree) : Prop := ∀ path t, v.Shows path t ↔ w.Shows path t

theorem ShowSame.symm {v w : Tree} (same : ShowSame v w) : ShowSame w v := fun path t => (same path t).symm

/-- Members of the same key show the same, and a key that is there on one side is there on the other. -/
theorem ShowSame.find? {theirs : Members Tree} (same : ShowSame (.object members) (.object theirs)) {key : Text}
    {value : Tree} (nest : value.IsNest) (found : members.find? key = some value) :
    ∃ other, theirs.find? key = some other ∧ ShowSame value other := by
  have shows (inner : List Text) (t : Text) :
      value.Shows inner t ↔ (Value.object theirs).Shows (key :: inner) t := by
    rw [← same]
    simp [Shows, found]
  obtain ⟨inner, t, shown⟩ := nest.exists_shows
  obtain ⟨_, other, _, found', parts, -⟩ := shows_object.mp ((shows inner t).mp shown)
  cases parts
  refine ⟨other, found', fun inner t => (shows inner t).trans ?_⟩
  simp [Shows, found']

theorem similar_object_of_showSame {theirs : Members Tree} (map : members.IsMapTo IsNest)
    (map' : theirs.IsMapTo IsNest) (same : ShowSame (.object members) (.object theirs))
    (inner : ∀ entry ∈ members, ∀ other : Tree, other.IsNest → ShowSame entry.2 other →
      entry.2.similar other = .ok true) :
    similar (.object members) (.object theirs) = .ok true := by
  have there {mine theirs : Members Tree} (map : mine.IsMapTo IsNest)
      (same : ShowSame (.object mine) (.object theirs)) {key : Text} (member : key ∈ mine.keys) :
      key ∈ theirs.keys := by
    obtain ⟨⟨key, value⟩, inside, rfl⟩ := List.mem_map.mp member
    have found := (Members.find?_eq_some_iff map.distinct).mpr inside
    obtain ⟨other, found, -⟩ := same.find? (map.each _ inside) found
    exact List.mem_map.mpr ⟨_, Members.mem_of_find?_eq_some found, rfl⟩
  have keys := (Members.sameKeys_iff map.distinct map'.distinct).mpr fun key => ⟨there map same, there map' same.symm⟩
  have members : similarMembers members theirs = .ok true := by
    refine similarMembers_iff.mpr fun entry member => ?_
    obtain ⟨other, found, alike⟩ :=
      same.find? (map.each _ member) ((Members.find?_eq_some_iff map.distinct).mpr member)
    exact ⟨other, found, inner _ member other (map'.each _ (Members.mem_of_find?_eq_some found)) alike⟩
  rw [similar, if_pos keys, members]

theorem IsNest.similar_of_showSame {v w : Tree} (nest : v.IsNest) (nest' : w.IsNest) (same : ShowSame v w) :
    v.similar w = .ok true := by
  induction nest generalizing w with
  | text t =>
    have shows : w.Shows [] t := (same [] t).mp (by simp [Shows])
    simp only [Shows, walk_nil, Option.some.injEq] at shows
    rw [shows]
    exact congrArg Except.ok (decide_eq_true rfl)
  | @object members some distinct each ih =>
    cases nest' with
    | text t =>
      have shows : (Value.object members).Shows [] t := (same [] t).mpr (by simp [Shows])
      simp [Shows] at shows
    | object some' distinct' each' =>
      exact similar_object_of_showSame ⟨distinct, each⟩ ⟨distinct', each'⟩ same
        fun entry member _ => ih entry member

end Value
end LenientJson
