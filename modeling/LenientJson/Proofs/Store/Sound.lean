import LenientJson.Proofs.Host.Document
import LenientJson.Store.Update

/-! The invariant of a store: in every object the keys differ and the members are fit to be members, and in
every array the elements are fit to be elements. What is put into a container is checked before, so that the
invariant speaks of single entries only. -/
namespace LenientJson

variable {source : Scalar → Prop}

def Slot.IsMember (slot : Slot) : Prop := (Action.draftOf slot).IsMember

def Slot.IsElement (source : Scalar → Prop) (slot : Slot) : Prop := (Action.draftOf slot).IsElement source

namespace Store

structure IsSound (source : Scalar → Prop) (st : Store) : Prop where
  objects : ∀ members ∈ st.objects, members.IsMapTo Slot.IsMember
  arrays : ∀ elements ∈ st.arrays, ∀ slot, some slot ∈ elements → slot.IsElement source
  guests : ∀ guest ∈ st.guests, (Host.user guest).Draws source

variable {st : Store}

theorem isSound_empty (room : Room) : (empty room).IsSound source :=
  ⟨List.forall_mem_nil _, List.forall_mem_nil _, List.forall_mem_nil _⟩

theorem IsSound.membersOf (sound : st.IsSound source) (o : Nat) : (st.membersOf o).IsMapTo Slot.IsMember := by
  rw [Store.membersOf]
  cases here : st.objects[o]? with
  | none => exact Members.isMapTo_nil
  | some members => exact sound.objects members (List.mem_of_getElem? here)

theorem IsSound.elementsOf (sound : st.IsSound source) (a : Nat) :
    ∀ slot, some slot ∈ st.elementsOf a → slot.IsElement source := by
  rw [Store.elementsOf]
  cases here : st.arrays[a]? with
  | none => exact fun _ none => nomatch none
  | some elements => exact sound.arrays elements (List.mem_of_getElem? here)

theorem setMembers_membersOf (st : Store) (o : Nat) : st.setMembers o (st.membersOf o) = st := by
  rw [Store.setMembers, Store.membersOf]
  cases here : st.objects[o]? with
  | none => rw [List.set_eq_of_length_le (List.getElem?_eq_none_iff.mp here)]
  | some members =>
    obtain ⟨inside, rfl⟩ := List.getElem?_eq_some_iff.mp here
    rw [Option.getD_some, List.set_getElem_self]

theorem IsSound.setMembers (sound : st.IsSound source) (o : Nat) {members : Members Slot}
    (map : members.IsMapTo Slot.IsMember) : (st.setMembers o members).IsSound source where
  objects other inside := by
    rcases List.mem_or_eq_of_mem_set inside with inside | rfl
    · exact sound.objects other inside
    · exact map
  arrays := sound.arrays
  guests := sound.guests

theorem IsSound.setElements (sound : st.IsSound source) (a : Nat) {elements : List (Option Slot)}
    (fit : ∀ slot, some slot ∈ elements → slot.IsElement source) : (st.setElements a elements).IsSound source where
  objects := sound.objects
  arrays other inside := by
    rcases List.mem_or_eq_of_mem_set inside with inside | rfl
    · exact sound.arrays other inside
    · exact fit
  guests := sound.guests

theorem IsSound.addObject (sound : st.IsSound source) {members : Members Slot}
    (map : members.IsMapTo Slot.IsMember) : (st.addObject members).2.IsSound source where
  objects := List.forall_mem_append.mpr ⟨sound.objects, List.forall_mem_singleton.mpr map⟩
  arrays := sound.arrays
  guests := sound.guests

theorem IsSound.addArray (sound : st.IsSound source) {elements : List (Option Slot)}
    (fit : ∀ slot, some slot ∈ elements → slot.IsElement source) : (st.addArray elements).2.IsSound source where
  objects := sound.objects
  arrays := List.forall_mem_append.mpr ⟨sound.arrays, List.forall_mem_singleton.mpr fit⟩
  guests := sound.guests

/-! Documents that are given places: a leaf or a link is held as it is, a container becomes a link. -/

theorem isMember_intern (st : Store) {v : Draft} (fit : v.IsMember) : (st.intern v).1.IsMember := by
  cases v with
  | scalar leaf | link target => exact fit
  | object members | array elements => rfl

theorem isElement_intern (st : Store) {v : Draft} (fit : v.IsElement source) : (st.intern v).1.IsElement source := by
  cases v with
  | scalar leaf | link target => exact fit
  | object members | array elements => trivial

theorem keys_internMembers (st : Store) (members : Members Draft) :
    (st.internMembers members).1.keys = members.keys := by
  induction members generalizing st with
  | nil => rfl
  | cons entry rest ih => exact congrArg (entry.1 :: ·) (ih _)

theorem isMember_internMembers (st : Store) {members : Members Draft} (fit : ∀ member ∈ members, member.2.IsMember) :
    ∀ member ∈ (st.internMembers members).1, member.2.IsMember := by
  induction members generalizing st with
  | nil => exact List.forall_mem_nil _
  | cons entry rest ih =>
    obtain ⟨first, others⟩ := List.forall_mem_cons.mp fit
    exact List.forall_mem_cons.mpr ⟨isMember_intern st first, ih _ others⟩

theorem isElement_internElements (st : Store) {elements : List (Option Draft)}
    (fit : ∀ v, some v ∈ elements → v.IsElement source) :
    ∀ slot, some slot ∈ (st.internElements elements).1 → slot.IsElement source := by
  induction elements generalizing st with
  | nil => exact fun _ none => nomatch none
  | cons element rest ih =>
    have others := fun v inside => fit v (List.mem_cons_of_mem _ inside)
    intro slot inside
    cases element with
    | none =>
      exact ih st others slot ((List.mem_cons.mp inside).resolve_left (fun none => nomatch none))
    | some v =>
      rcases List.mem_cons.mp inside with same | inside
      · exact Option.some.inj same ▸ isElement_intern st (fit v List.mem_cons_self)
      · exact ih _ others slot inside

-- The invariant goes through the places one by one, in the order in which they are given.
mutual
theorem IsSound.intern : ∀ {v : Draft} {st : Store}, st.IsSound source → v.IsSound source →
    (st.intern v).2.IsSound source
  | .scalar _, _, sound, _ => sound
  | .link _, _, sound, _ => sound
  | .object members, st, sound, held => by
    cases held with
    | object distinct fit inner =>
      have map : (st.internMembers members).1.IsMapTo Slot.IsMember :=
        ⟨keys_internMembers st members ▸ distinct, isMember_internMembers st fit⟩
      exact (sound.internMembers inner).addObject map
  | .array elements, st, sound, held => by
    cases held with
    | array fit inner => exact (sound.internElements inner).addArray (isElement_internElements st fit)

theorem IsSound.internMembers : ∀ {members : List (Text × Draft)} {st : Store}, st.IsSound source →
    (∀ member ∈ members, member.2.IsSound source) → (st.internMembers members).2.IsSound source
  | [], _, sound, _ => sound
  | _ :: _, _, sound, held =>
    have ⟨first, others⟩ := List.forall_mem_cons.mp held
    (sound.intern first).internMembers others

theorem IsSound.internElements : ∀ {elements : List (Option Draft)} {st : Store}, st.IsSound source →
    (∀ v, some v ∈ elements → v.IsSound source) → (st.internElements elements).2.IsSound source
  | [], _, sound, _ => sound
  | none :: rest, st, sound, held => by
    have others : ∀ v, some v ∈ rest → v.IsSound source := fun v inside => held v (List.mem_cons_of_mem _ inside)
    change (st.internElements rest).2.IsSound source
    exact sound.internElements others
  | some _ :: rest, _, sound, held =>
    have others : ∀ v, some v ∈ rest → v.IsSound source := fun v inside => held v (List.mem_cons_of_mem _ inside)
    (sound.intern (held _ List.mem_cons_self)).internElements others
end

end Store
end LenientJson
