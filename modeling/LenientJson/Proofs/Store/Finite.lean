import LenientJson.Proofs.Store.Call

/-! Numbers that JSON lacks. A container refuses them one by one, yet they can be held: the elements of a list,
tuple or set that becomes an array are not checked. There is no other way for them into a container. -/
namespace LenientJson.Store

/-- At some depth the container holds this leaf. -/
inductive Holds (st : Store) (leaf : Scalar) : Link → Prop
  | member {o : Nat} {key : Text} (here : (key, .leaf leaf) ∈ st.membersOf o) : Holds st leaf (.object o)
  | element {a : Nat} (here : some (.leaf leaf) ∈ st.elementsOf a) : Holds st leaf (.array a)
  | withinMember {o : Nat} {key : Text} {target : Link} (here : (key, .link target) ∈ st.membersOf o)
    (within : Holds st leaf target) : Holds st leaf (.object o)
  | withinElement {a : Nat} {target : Link} (here : some (.link target) ∈ st.elementsOf a)
    (within : Holds st leaf target) : Holds st leaf (.array a)

theorem IsSound.isListed {source : Scalar → Prop} {st : Store} (sound : st.IsSound source) {leaf : Scalar}
    {target : Link} (held : st.Holds leaf target) : leaf.IsListed source := by
  induction held with
  | member here => exact .inl (Value.isMember_scalar.mp ((sound.membersOf _).each _ here))
  | element here => exact sound.elementsOf _ _ here
  | withinMember _ _ ih | withinElement _ _ ih => exact ih

/-- Whatever the calls of a run, each leaf that a container holds at any depth is fit for JSON, or it is a binary64
number, or a user object that stays as it is, and an element of a list, tuple or set in what one of the calls has handed
over. -/
theorem listed_of_holds (room : Room) (calls : List Call) {leaf : Scalar} {target : Link}
    (held : ((empty room).run calls).Holds leaf target) :
    leaf.isAdmissible = true ∨ leaf.isUnchecked = true ∧ ∃ call ∈ calls, call.Lists leaf := by
  have sound : ((empty room).run calls).IsSound fun leaf => ∃ call ∈ calls, call.Lists leaf :=
    (isSound_empty room).run calls fun call made leaf lists => ⟨call, made, lists⟩
  exact sound.isListed held

/-- An array made of a list with what is no number. -/
theorem listed_of_holds_noNumber : ((empty ⟨80, 80, 80⟩).run [.array (.sequence .list [noNumber])]).Holds
    (.float (.nan (some 0))) (.array 0) ∧ ((Scalar.float (.nan (some 0))).isAdmissible = true ∨
      (Scalar.float (.nan (some 0))).isUnchecked = true ∧
        ∃ call ∈ [Call.array (.sequence .list [noNumber])], call.Lists (.float (.nan (some 0)))) :=
  have held : ((empty ⟨80, 80, 80⟩).run [.array (.sequence .list [noNumber])]).Holds
      (.float (.nan (some 0))) (.array 0) := .element (by decide)
  ⟨held, listed_of_holds _ _ held⟩

/-- Infinity put in a list stays in the object. -/
theorem holds_nonFinite : ¬ ∀ (room : Room) (calls : List Call) (leaf : Scalar) (target : Link),
    ((empty room).run calls).Holds leaf target → leaf.isAdmissible = true := by
  intro finite
  have held : ((empty ⟨80, 80, 80⟩).run [.object .absent, .put 0 (.ofText (Text.ofString "a"))
      (.sequence .list [.scalar (.float (.infinity false))])]).Holds (.float (.infinity false)) (.object 0) :=
    .withinMember (by decide : (Text.ofString "a", Slot.link (.array 0)) ∈ _) (.element (by decide))
  exact absurd (finite _ _ _ _ held) (by decide)

end LenientJson.Store
