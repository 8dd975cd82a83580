import LenientJson.Proofs.Host.Digest
import LenientJson.Proofs.Store.Intern
import LenientJson.Store.Construct
import Mathlib.Logic.Relation
import Mathlib.Tactic.Choose

/-! The normal form that a host value is turned into. Whatever a value without containers of a store is made of, all that
is left of it are canonical leaves in new containers, and these are their own normal forms. -/
namespace LenientJson

/-- A leaf that stays as it is: null, a truth value, a number of JSON's own kinds, a text, what writes its own JSON text,
or a user object that is such a number by its class. -/
def Scalar.IsCanonical : Scalar → Prop
  | .null | .bool _ | .int _ | .float _ | .text _ | .raw _ => True
  | .foreign face => face.isLeaf = true
  | .decimal _ | .fraction _ | .date _ | .bytes .. => False

namespace Host

/-- The values that an array is made of. -/
def elements? : Host → Option (List Host)
  | .sequence _ elements => some elements
  | .scalar (.bytes _ octets) => some (octets.map fun octet : Nat => .ofInt octet)
  | _ => none

/-- The one value is the other, or it is somewhere inside. -/
def IsWithin : Host → Host → Prop := Relation.ReflTransGen fun part h => part ∈ h.parts

/-- Neither the value itself nor any value inside is a container of a store. -/
def IsDetached (h : Host) : Prop := ∀ target, ¬ IsWithin (.link target) h

/-- What documents are made of values. A leaf is canonical, an array has the documents of the elements, each at its place,
and a member is the document of some value inside. There are no links. -/
inductive Becomes (view : Link → Sight) : Host → Draft → Prop
  | leaf {h : Host} {leaf : Scalar} (canonical : leaf.IsCanonical) : Becomes view h (.scalar leaf)
  | array {h : Host} {sources : List Host} (elements : h.elements? = some sources)
    (each : ∀ source ∈ sources, ∀ v, source.wrap view = some v → Becomes view source v) :
    Becomes view h (.array (sources.map (wrap view)))
  | object {h : Host} {members : Members Draft} (distinct : members.keys.Nodup) (origin : Text × Draft → Host)
    (inside : ∀ member ∈ members, ∃ part ∈ h.parts, (origin member).IsWithin part)
    (made : ∀ member ∈ members, (origin member).wrap view = some member.2)
    (each : ∀ member ∈ members, Becomes view (origin member) member.2) : Becomes view h (.object members)

/-- The document is that of a value inside. -/
def Yields (view : Link → Sight) (h : Host) (v : Draft) : Prop :=
  ∃ source : Host, (∃ part ∈ h.parts, source.IsWithin part) ∧ source.wrap view = some v ∧ source.Becomes view v

variable {view : Link → Sight} {h : Host}

theorem isDetached_of_parts (unlinked : ∀ target, h ≠ .link target) (parts : ∀ part ∈ h.parts, part.IsDetached) :
    h.IsDetached := by
  intro target within
  obtain same | ⟨part, within, inside⟩ := Relation.ReflTransGen.cases_tail within
  · exact unlinked target same
  · exact parts part inside target within

theorem IsDetached.part {part : Host} (detached : h.IsDetached) (inside : part ∈ h.parts) : part.IsDetached :=
  fun target within => detached target (within.tail inside)

theorem Becomes.ofMembers {members : Members Draft} (map : members.IsMapTo (Value.IsMemberWith (h.Yields view))) :
    h.Becomes view (.object members) := by
  have each : ∀ member ∈ members, h.Yields view member.2 := fun member inside => (map.each member inside).2
  choose! origin inside made becomes using each
  exact .object map.distinct origin inside made becomes

theorem Becomes.ofAttempt {attempt : Except Fault (Members Draft)}
    (map : ∀ m, attempt = .ok m → m.IsMapTo (Value.IsMemberWith (h.Yields view))) {v : Draft}
    (has : attempt.toOption.map .object = some v) : h.Becomes view v := by
  obtain ⟨m, ok, rfl⟩ := Option.map_eq_some_iff.mp has
  cases attempt with
  | ok m' => exact .ofMembers (map m (Option.some.inj ok ▸ rfl))
  | error fault => cases ok

/-! The normal form, kind by kind. -/

theorem Becomes.of_scalar {leaf : Scalar} {v : Draft} (wrapped : (Host.scalar leaf).wrap view = some v) :
    (Host.scalar leaf).Becomes view v := by
  rw [wrap, digest, Digest.ofScalar.eq_def] at wrapped
  split at wrapped
  case h_1 mutable octets =>
    cases wrapped
    have made : octets.map (fun octet : Nat => some (Value.scalar (.int octet))) =
        (octets.map fun octet : Nat => ofInt octet).map (wrap view) := by
      rw [List.map_map]
      rfl
    rw [made]
    refine .array rfl fun source inside v wrapped => ?_
    obtain ⟨octet, -, rfl⟩ := List.mem_map.mp inside
    cases wrapped
    exact .leaf trivial
  case h_5 face =>
    split at wrapped
    · next stays =>
      cases wrapped
      exact .leaf stays
    · cases wrapped
      exact .ofMembers Members.isMapTo_nil
  case h_3 value =>
    obtain ⟨t, -, rfl⟩ := Option.map_eq_some_iff.mp wrapped
    exact .leaf trivial
  case h_6 noBytes noDecimal noFraction noDate noForeign =>
    cases wrapped
    cases leaf with
    | bytes mutable octets => exact (noBytes _ _ rfl).elim
    | decimal value => exact (noDecimal _ rfl).elim
    | fraction value => exact (noFraction _ rfl).elim
    | date value => exact (noDate _ rfl).elim
    | foreign face => exact (noForeign _ rfl).elim
    | _ => exact .leaf trivial
  all_goals
    cases wrapped
    exact .leaf trivial

theorem Becomes.of_sequence {kind : SequenceKind} {elements : List Host}
    (becomes : ∀ part ∈ elements, ∀ v, part.wrap view = some v → part.Becomes view v) {v : Draft}
    (wrapped : (sequence kind elements).wrap view = some v) : (sequence kind elements).Becomes view v := by
  rw [wrap, digest, documents_eq_map] at wrapped
  cases wrapped
  exact .array rfl becomes

theorem yields_part {part : Host} (inside : part ∈ h.parts)
    (becomes : ∀ v, part.wrap view = some v → part.Becomes view v) {v : Draft} (wrapped : part.wrap view = some v) :
    h.Yields view v :=
  ⟨part, ⟨part, inside, .refl⟩, wrapped, becomes v wrapped⟩

theorem Becomes.of_mapping {entries : List (Host × Host)}
    (becomes : ∀ part ∈ (mapping entries).parts, ∀ v, part.wrap view = some v → part.Becomes view v) {v : Draft}
    (wrapped : (mapping entries).wrap view = some v) : (mapping entries).Becomes view v := by
  rw [wrap, digest] at wrapped
  have give : Entry.Give ((mapping entries).Yields view) (entryDigests view entries) :=
    give_entryDigests fun entry member v wrapped =>
      have inside : entry.2 ∈ (mapping entries).parts := List.mem_map_of_mem member
      yields_part inside (becomes entry.2 inside) wrapped
  exact .ofAttempt (fun m ok => Entry.isMapTo_of_putAll give Members.isMapTo_nil ok) wrapped

/-- Only mappings have entries. -/
theorem eq_mapping_of_entries? {entries : List Entry} (has : (digest view h).entries? = some entries) :
    ∃ hosts, h = .mapping hosts ∧ entries = entryDigests view hosts := by
  cases h with
  | absent | link _ | sequence _ _ => cases has
  | scalar leaf =>
    rw [digest, Digest.ofScalar.eq_def] at has
    split at has
    case h_5 => split at has <;> cases has
    all_goals cases has
  | user u =>
    rw [digest, Digest.ofUser] at has
    split at has <;> cases has
  | mapping hosts => exact ⟨hosts, rfl, (Option.some.inj has).symm⟩

/-- What a user object gives may itself be made an element of the object, or list all the members. -/
theorem gives_part {part : Host} (inside : part ∈ h.parts)
    (becomes : ∀ v, part.wrap view = some v → part.Becomes view v)
    (deeper : ∀ inner ∈ part.parts, ∀ v, inner.wrap view = some v → inner.Becomes view v) :
    (digest view part).Gives (h.Yields view) where
  document _ wrapped := yields_part inside becomes wrapped
  entries entries has := by
    obtain ⟨hosts, rfl, rfl⟩ := eq_mapping_of_entries? has
    refine give_entryDigests fun entry member v wrapped => ?_
    have within : entry.2 ∈ (mapping hosts).parts := List.mem_map_of_mem member
    exact ⟨entry.2, ⟨_, inside, .single within⟩, wrapped, deeper entry.2 within v wrapped⟩

theorem Becomes.of_user {u : UserObject Host}
    (give : ∀ part ∈ u.values, (digest view part).Gives ((user u).Yields view)) {v : Draft}
    (wrapped : (user u).wrap view = some v) : (user u).Becomes view v := by
  change (Digest.ofUser (userDigest view u)).document? = some v at wrapped
  rw [Digest.ofUser] at wrapped
  split at wrapped
  · next stays =>
    cases wrapped
    exact .leaf stays
  · have give : ∀ digest ∈ (userDigest view u).values, digest.Gives ((user u).Yields view) := by
      rw [values_userDigest]
      exact List.forall_mem_map.mpr give
    exact .ofAttempt (fun m ok => UserObject.isMapTo_of_reflected give ok) wrapped

theorem becomes_wrap (h : Host) (detached : h.IsDetached) : ∀ v, h.wrap view = some v → h.Becomes view v := by
  have parts (part : Host) (inside : part ∈ h.parts) : ∀ v, part.wrap view = some v → part.Becomes view v := by
    have smaller := sizeOf_lt_of_mem_parts inside
    exact becomes_wrap part (detached.part inside)
  match h with
  | .absent =>
    intro v wrapped
    cases wrapped
    exact .leaf trivial
  | .scalar leaf => exact fun v => .of_scalar
  | .link target => exact absurd .refl (detached target)
  | .sequence kind elements => exact fun v => .of_sequence parts
  | .mapping entries => exact fun v => .of_mapping parts
  | .user u =>
    refine fun v => .of_user fun part inside => gives_part inside (parts part inside) fun inner deep => ?_
    have smaller := sizeOf_lt_of_mem_parts (show part ∈ (user u).parts from inside)
    have smaller' := sizeOf_lt_of_mem_parts deep
    exact becomes_wrap inner ((detached.part inside).part deep)
termination_by sizeOf h
decreasing_by
  · exact smaller
  · exact Nat.lt_trans smaller' smaller

theorem wrap_canonical {leaf : Scalar} (canonical : leaf.IsCanonical) (is : h.leaf? = some leaf) :
    h.wrap view = some (.scalar leaf) := by
  cases h with
  | absent | link _ | sequence _ _ | mapping _ => cases is
  | scalar leaf =>
    cases is
    cases leaf with
    | foreign face =>
      have stays : face.isLeaf = true := canonical
      rw [wrap, digest, Digest.ofScalar, if_pos stays]
      rfl
    | decimal _ | fraction _ | date _ | bytes _ _ => cases canonical
    | _ => rfl
  | user u =>
    cases is
    have stays : u.face.isLeaf = true := canonical
    rw [wrap, digest, Digest.ofUser, if_pos stays]
    rfl

theorem wrap_of_elements? {sources : List Host} (elements : h.elements? = some sources) :
    h.wrap view = some (.array (sources.map (wrap view))) := by
  rw [elements?.eq_def] at elements
  split at elements <;> cases elements
  · rw [wrap, digest, documents_eq_map]
    rfl
  · rw [List.map_map]
    rfl

/-- The host values that an entry of a store may be taken for. -/
def StandsFor (h : Host) : Slot → Prop
  | .leaf leaf => h.leaf? = some leaf
  | .link target => h = .link target

/-- Making a value a document does not fail. -/
theorem wrapped_eq (h : Host) (st : Store) : Action.wrapped h st = match h.wrap st.view with
    | none => .ok none st
    | some v => .ok (some (st.intern v).1) (st.intern v).2 := by
  cases made : h.wrap st.view with
  | none =>
    simp only [Action.wrapped, Action.query, Bind.bind, EStateM.bind, made]
    rfl
  | some v =>
    simp only [Action.wrapped, Action.query, Bind.bind, EStateM.bind, made]
    rfl

/-- There are no links in the document of a value. -/
theorem Becomes.exists_ofTree {v : Draft} (becomes : h.Becomes view v) : ∃ tree : Tree, v = Value.ofTree tree := by
  induction becomes with
  | @leaf _ leaf _ => exact ⟨.scalar leaf, rfl⟩
  | array _ _ ih =>
    obtain ⟨trees, same⟩ := Value.exists_ofTreeElements fun v inside => by
      obtain ⟨source, member, wrapped⟩ := List.mem_map.mp inside
      exact ih source member v wrapped
    exact ⟨.array trees, congrArg Value.array same⟩
  | object _ _ _ _ _ ih =>
    obtain ⟨trees, same⟩ := Value.exists_ofTreeMembers ih
    exact ⟨.object trees, congrArg Value.object same⟩

/-- What making a value a document gives is in normal form and its own normal form. -/
structure IsNormalised (st : Store) (h : Host) : Prop where
  becomes : ∀ v, h.wrap st.view = some v → h.Becomes st.view v
  tree : ∀ v, h.wrap st.view = some v → ∃ tree : Tree, v = Value.ofTree tree ∧
    (st.intern v).2.tree? (st.intern v).1 = some tree
  elements : ∀ sources, h.elements? = some sources → h.wrap st.view = some (.array (sources.map (wrap st.view)))
  again : ∀ slot st', Action.wrapped h st = .ok (some slot) st' → ∀ same : Host, same.StandsFor slot →
    Action.wrapped same st' = .ok (some slot) st'

theorem wrapped_of_link {st : Store} {target : Link} (same : h.StandsFor (.link target)) :
    Action.wrapped h st = .ok (some (.link target)) st := by
  obtain rfl : h = .link target := same
  rfl

theorem wrapped_of_leaf {st : Store} {leaf : Scalar} (canonical : leaf.IsCanonical) (same : h.StandsFor (.leaf leaf)) :
    Action.wrapped h st = .ok (some (.leaf leaf)) st := by
  rw [wrapped_eq, wrap_canonical canonical same]
  rfl

theorem isNormalised (detached : h.IsDetached) (st : Store) : h.IsNormalised st where
  becomes := becomes_wrap h detached
  tree v made := by
    obtain ⟨tree, rfl⟩ := (becomes_wrap h detached v made).exists_ofTree
    exact ⟨tree, rfl, Store.tree?_intern tree st⟩
  elements _ := wrap_of_elements?
  again slot st' wrapped same stands := by
    rw [wrapped_eq] at wrapped
    split at wrapped
    · cases wrapped
    · next v made =>
      cases wrapped
      cases becomes_wrap h detached v made with
      | leaf canonical => exact wrapped_of_leaf canonical stands
      | array _ _ | object _ _ _ _ _ => exact wrapped_of_link stands

/-- A record with an accessor, in a list with octets and nothing at all, in a mapping. -/
theorem isNormalised_nested :
    let record : Host := .user ⟨⟨0, Text.ofString "Point", .text [], .text [], none, none, true⟩, none,
      [(Text.ofString "getX", .method .none (.gives (.ofInt 1)))], none, []⟩
    let h : Host := .mapping [(.ofText (Text.ofString "a"), .sequence .list [record, .scalar (.bytes false [7]), .absent])]
    h.IsDetached ∧ h.IsNormalised (.empty ⟨80, 80, 80⟩) := by
  intro record h
  have leaf (leaf : Scalar) : (Host.scalar leaf).IsDetached := isDetached_of_parts nofun (List.forall_mem_nil _)
  have absent : Host.absent.IsDetached := isDetached_of_parts nofun (List.forall_mem_nil _)
  have detached : record.IsDetached := isDetached_of_parts nofun (List.forall_mem_singleton.mpr (leaf _))
  have detached : (Host.sequence .list [record, .scalar (.bytes false [7]), .absent]).IsDetached := by
    refine isDetached_of_parts nofun ?_
    exact List.forall_mem_cons.mpr ⟨detached, List.forall_mem_cons.mpr ⟨leaf _, List.forall_mem_singleton.mpr absent⟩⟩
  have detached : h.IsDetached := isDetached_of_parts nofun (List.forall_mem_singleton.mpr detached)
  exact ⟨detached, isNormalised detached (.empty ⟨80, 80, 80⟩)⟩

end Host
end LenientJson
