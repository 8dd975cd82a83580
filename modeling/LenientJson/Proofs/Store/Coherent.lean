import LenientJson.Proofs.Store.Call
import Mathlib.Tactic.TFAE

/-! What every run of calls keeps true of an object: its keys differ, what it holds is fit to be held, and all
ways to ask for a key or for the keys agree. -/
namespace LenientJson

/-- What an object may hold: neither nothing at all, nor a collection outside the store, nor a number that JSON
lacks. -/
def Host.IsMember : Host → Prop
  | absent | sequence .. | mapping _ => False
  | scalar leaf => leaf.isAdmissible = true
  | link _ => True
  | user u => (Scalar.foreign u.face).isAdmissible = true

namespace Store

variable {st : Store} {o : Nat} {key : Text}

theorem opt_ofText (st : Store) (o : Nat) (key : Text) :
    st.opt o (.ofText key) = .ok ((st.membersOf o).find? key) := rfl

theorem has_iff : st.has o (.ofText key) = .ok true ↔ key ∈ st.keys o := by
  change (.ok ((st.membersOf o).find? key).isSome : Except Fault Bool) = .ok true ↔ _
  rw [Except.ok.injEq, Members.isSome_find?_iff]
  rfl

theorem opt_iff : (∃ slot, st.opt o (.ofText key) = .ok (some slot)) ↔ key ∈ st.keys o := by
  simp only [opt_ofText, Except.ok.injEq, ← Option.isSome_iff_exists]
  exact Members.isSome_find?_iff

theorem get_iff : (∃ slot, st.get o (.ofText key) = .ok slot) ↔ key ∈ st.keys o := by
  rw [← opt_iff]
  constructor
  · rintro ⟨slot, ok⟩
    obtain ⟨found, asked, ok⟩ := Fault.bind_eq_ok.mp ok
    cases found with
    | some slot => exact ⟨slot, asked⟩
    | none =>
      obtain ⟨_, -, failed⟩ := Fault.bind_eq_ok.mp ok
      cases failed
  · rintro ⟨slot, asked⟩
    exact ⟨slot, Fault.bind_eq_ok.mpr ⟨_, asked, rfl⟩⟩

theorem remove_ofText (st : Store) (o : Nat) (key : Text) : Action.remove o (.ofText key) st =
    .ok ((st.membersOf o).find? key) (st.setMembers o ((st.membersOf o).erase key)) := by
  have same := setMembers_membersOf st o
  rw [Action.remove, Action.get_bind]
  generalize st.membersOf o = members at same ⊢
  cases members with
  | nil => exact congrArg (EStateM.Result.ok _) same.symm
  | cons member rest => rfl

theorem delete_iff : (∃ st', Action.delete o (.ofText key) st = .ok () st') ↔ key ∈ st.keys o := by
  simp only [Action.delete, Bind.bind, EStateM.bind, remove_ofText]
  rw [← opt_iff, opt_ofText]
  cases (st.membersOf o).find? key with
  | some slot => exact iff_of_true ⟨_, rfl⟩ ⟨slot, rfl⟩
  | none => exact iff_of_false (fun ⟨_, failed⟩ => nomatch failed) (fun ⟨_, failed⟩ => nomatch failed)

theorem iterate_object (st : Store) (o : Nat) :
    st.iterate (.link (.object o)) = .ok ((st.keys o).map Host.ofText) := by
  rw [iterate, keys, Members.keys, List.map_map]
  rfl

theorem internElements_texts (st : Store) (texts : List Text) :
    st.internElements (texts.map fun t => some (.scalar (.text t))) = (texts.map fun t => some (.leaf (.text t)), st) := by
  induction texts with
  | nil => rfl
  | cons t rest ih => simp only [List.map_cons, internElements, intern, ih]

/-- The keys in an array of their own. -/
theorem names_eq (st : Store) (o : Nat) : Action.names o st = match st.keys o with
    | [] => .ok none st
    | keys => .ok (some st.arrays.length) (st.addArray (keys.map fun key => some (.leaf (.text key)))).2 := by
  rw [Action.names, Action.get_bind]
  generalize st.keys o = keys
  cases keys with
  | nil => rfl
  | cons key rest =>
    change (Action.newArray _ >>= fun a => pure (some a) : Action (Option Nat)) st = _
    simp only [Bind.bind, EStateM.bind, Action.newArray, internElements_texts]
    rfl

theorem isMember_hostOf {slot : Slot} (fit : slot.IsMember) : (st.hostOf slot).IsMember := by
  rw [hostOf.eq_def]
  split
  · trivial
  · next face =>
    have admissible := Value.isMember_scalar.mp fit
    split
    · next guest found =>
      have same : guest.face = face := decide_eq_true_eq.mp (List.find?_some found :)
      change (Scalar.foreign guest.face).isAdmissible = true
      exact same ▸ admissible
    · exact admissible
  · exact Value.isMember_scalar.mp fit

/-- The object is what it should be, and all questions to it agree. -/
structure IsCoherent (st : Store) (o : Nat) : Prop where
  distinct : (st.keys o).Nodup
  held : ∀ member ∈ st.membersOf o, (st.hostOf member.2).IsMember
  found : ∀ key, List.TFAE [
    st.has o (.ofText key) = .ok true,
    ∃ slot, st.opt o (.ofText key) = .ok (some slot),
    ∃ slot, st.get o (.ofText key) = .ok slot,
    key ∈ st.keys o,
    ∃ st', Action.delete o (.ofText key) st = .ok () st']
  null : ∀ key, st.isNull o (.ofText key) = .ok true → st.has o (.ofText key) = .ok true
  length : st.length o = (st.keys o).length
  iterated : st.iterate (.link (.object o)) = .ok ((st.keys o).map .ofText)
  unnamed : st.keys o = [] → Action.names o st = .ok none st
  named : st.keys o ≠ [] → ∃ a st', Action.names o st = .ok (some a) st' ∧
    st'.elementsOf a = (st.keys o).map fun key => some (.leaf (.text key))

/-- Every object is coherent after every run of calls, with whatever keys and values, of which any may have
failed. -/
theorem isCoherent_run (room : Room) (calls : List Call) (o : Nat) : ((empty room).run calls).IsCoherent o := by
  have sound : ((empty room).run calls).IsSound fun _ => True := (isSound_empty room).run calls fun _ _ _ _ => trivial
  generalize (empty room).run calls = st at sound ⊢
  have map := sound.membersOf o
  constructor
  case distinct => exact map.distinct
  case held => exact fun member inside => isMember_hostOf (map.each member inside)
  case found =>
    intro key
    tfae_have 1 ↔ 4 := has_iff
    tfae_have 2 ↔ 4 := opt_iff
    tfae_have 3 ↔ 4 := get_iff
    tfae_have 5 ↔ 4 := delete_iff
    tfae_finish
  case null =>
    intro key null
    obtain ⟨found, asked, null⟩ := Fault.bind_eq_ok.mp null
    rw [has_iff, ← opt_iff]
    exact ⟨_, asked.trans (congrArg Except.ok (of_decide_eq_true (Except.ok.inj null)))⟩
  case length => exact (List.length_map _).symm
  case iterated => exact iterate_object st o
  case unnamed =>
    intro bare
    rw [names_eq, bare]
  case named =>
    intro keyed
    refine ⟨st.arrays.length, (st.addArray ((st.keys o).map fun key => some (.leaf (.text key)))).2, ?_, ?_⟩
    · rw [names_eq]
      split
      · contradiction
      · rfl
    · exact congrArg (Option.getD · []) List.getElem?_concat_length

end Store
end LenientJson
