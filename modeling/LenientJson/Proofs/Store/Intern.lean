import LenientJson.Store.Basic

/-! Documents that are given places in a store. New containers come after those that are there, which stay as they are,
and a document looked at in the store is the one that was given. -/
namespace LenientJson

namespace Store

variable {st st' st'' : Store}

/-- Containers have been added to a store. -/
structure Grows (st st' : Store) : Prop where
  objects : st.objects <+: st'.objects
  arrays : st.arrays <+: st'.arrays

theorem Grows.refl (st : Store) : st.Grows st := ⟨List.prefix_rfl, List.prefix_rfl⟩

theorem Grows.trans (first : st.Grows st') (second : st'.Grows st'') : st.Grows st'' :=
  ⟨first.objects.trans second.objects, first.arrays.trans second.arrays⟩

theorem grows_addObject (st : Store) (members : Members Slot) : st.Grows (st.addObject members).2 :=
  ⟨List.prefix_append _ _, List.prefix_rfl⟩

theorem grows_addArray (st : Store) (elements : List (Option Slot)) : st.Grows (st.addArray elements).2 :=
  ⟨List.prefix_rfl, List.prefix_append _ _⟩

mutual
theorem grows_intern (st : Store) : ∀ v : Draft, st.Grows (st.intern v).2
  | .scalar _ | .link _ => .refl st
  | .object members => (grows_internMembers st members).trans (grows_addObject _ _)
  | .array elements => (grows_internElements st elements).trans (grows_addArray _ _)

theorem grows_internMembers (st : Store) : ∀ members : List (Text × Draft), st.Grows (st.internMembers members).2
  | [] => .refl st
  | (_, value) :: rest => (grows_intern st value).trans (grows_internMembers (st.intern value).2 rest)

theorem grows_internElements (st : Store) : ∀ elements : List (Option Draft), st.Grows (st.internElements elements).2
  | [] => .refl st
  | none :: rest => grows_internElements st rest
  | some value :: rest => (grows_intern st value).trans (grows_internElements (st.intern value).2 rest)
end

theorem membersOf_of_grown (grown : st.objects <+: st'.objects) {o : Nat} (there : o < st.objects.length) :
    st'.membersOf o = st.membersOf o := by
  obtain ⟨added, same⟩ := grown
  rw [membersOf, membersOf, ← same, List.getElem?_append_left there]

theorem elementsOf_of_grown (grown : st.arrays <+: st'.arrays) {a : Nat} (there : a < st.arrays.length) :
    st'.elementsOf a = st.elementsOf a := by
  obtain ⟨added, same⟩ := grown
  rw [elementsOf, elementsOf, ← same, List.getElem?_append_left there]

theorem Grows.newMembers {members : Members Slot} (grows : (st.addObject members).2.Grows st') :
    st'.membersOf st.objects.length = members := by
  have there : st.objects.length < (st.addObject members).2.objects.length := by simp [addObject]
  rw [membersOf_of_grown grows.objects there]
  simp [membersOf, addObject]

theorem Grows.newElements {elements : List (Option Slot)} (grows : (st.addArray elements).2.Grows st') :
    st'.elementsOf st.arrays.length = elements := by
  have there : st.arrays.length < (st.addArray elements).2.arrays.length := by simp [addArray]
  rw [elementsOf_of_grown grows.arrays there]
  simp [elementsOf, addArray]

/-- How many containers there are. -/
def size (st : Store) : Nat := st.objects.length + st.arrays.length

theorem Grows.size_le (grows : st.Grows st') : st.size ≤ st'.size :=
  Nat.add_le_add grows.objects.length_le grows.arrays.length_le

theorem size_addObject (st : Store) (members : Members Slot) : (st.addObject members).2.size = st.size + 1 := by
  simp only [size, addObject, List.length_append, List.length_singleton]
  omega

theorem size_addArray (st : Store) (elements : List (Option Slot)) : (st.addArray elements).2.size = st.size + 1 := by
  simp only [size, addArray, List.length_append, List.length_singleton]
  omega

end Store

namespace Value

/-- The elements of a tree as elements of a document with links. -/
def ofTreeElements {κ : Type} : List (Option Tree) → List (Option (Value κ)) :=
  substituteElements fun target => nomatch target

section
variable {κ : Type} (key : Text) (value : Tree)

theorem ofTree_object (members : List (Text × Tree)) : (ofTree (.object members) : Value κ) = .object (ofTreeMembers members) := rfl

theorem ofTree_array (elements : List (Option Tree)) : (ofTree (.array elements) : Value κ) = .array (ofTreeElements elements) := rfl

theorem ofTreeMembers_cons (rest : List (Text × Tree)) :
    (ofTreeMembers ((key, value) :: rest) : List (Text × Value κ)) = (key, ofTree value) :: ofTreeMembers rest := rfl

theorem ofTreeElements_none (rest : List (Option Tree)) :
    (ofTreeElements (none :: rest) : List (Option (Value κ))) = none :: ofTreeElements rest := rfl

theorem ofTreeElements_some (rest : List (Option Tree)) :
    (ofTreeElements (some value :: rest) : List (Option (Value κ))) = some (ofTree value) :: ofTreeElements rest := rfl

end

theorem exists_ofTreeMembers {κ : Type} {members : List (Text × Value κ)}
    (each : ∀ member ∈ members, ∃ v : Tree, member.2 = ofTree v) : ∃ trees, members = ofTreeMembers trees := by
  induction members with
  | nil => exact ⟨[], rfl⟩
  | cons member rest ih =>
    obtain ⟨⟨v, same⟩, others⟩ := List.forall_mem_cons.mp each
    obtain ⟨trees, rfl⟩ := ih others
    exact ⟨(member.1, v) :: trees, congrArg (· :: ofTreeMembers trees) (Prod.ext rfl same)⟩

theorem exists_ofTreeElements {κ : Type} {elements : List (Option (Value κ))}
    (each : ∀ v, some v ∈ elements → ∃ tree : Tree, v = ofTree tree) : ∃ trees, elements = ofTreeElements trees := by
  induction elements with
  | nil => exact ⟨[], rfl⟩
  | cons element rest ih =>
    obtain ⟨trees, rfl⟩ := ih fun v inside => each v (List.mem_cons_of_mem _ inside)
    cases element with
    | none => exact ⟨none :: trees, rfl⟩
    | some v =>
      obtain ⟨tree, rfl⟩ := each v List.mem_cons_self
      exact ⟨some tree :: trees, rfl⟩

end Value

namespace Store

open Value

section
variable (st : Store) (key : Text) (value : Draft)

theorem intern_object (members : List (Text × Draft)) : st.intern (.object members) =
    (.link (.object (st.internMembers members).2.objects.length),
      ((st.internMembers members).2.addObject (st.internMembers members).1).2) := rfl

theorem intern_array (elements : List (Option Draft)) : st.intern (.array elements) =
    (.link (.array (st.internElements elements).2.arrays.length),
      ((st.internElements elements).2.addArray (st.internElements elements).1).2) := rfl

theorem internMembers_cons (rest : List (Text × Draft)) : st.internMembers ((key, value) :: rest) =
    ((key, (st.intern value).1) :: ((st.intern value).2.internMembers rest).1, ((st.intern value).2.internMembers rest).2) := rfl

theorem internElements_none (rest : List (Option Draft)) :
    st.internElements (none :: rest) = (none :: (st.internElements rest).1, (st.internElements rest).2) := rfl

theorem internElements_some (rest : List (Option Draft)) : st.internElements (some value :: rest) =
    (some (st.intern value).1 :: ((st.intern value).2.internElements rest).1, ((st.intern value).2.internElements rest).2) := rfl

end

theorem treeWithin_object (st : Store) (depth o : Nat) : st.treeWithin (depth + 1) (.link (.object o)) =
    ((st.membersOf o).mapM fun member =>
      (st.treeWithin depth member.2).map fun tree => (member.1, tree)).map .object := rfl

/-- What an element of an array stands for. -/
def elementWithin (st : Store) (depth : Nat) : Option Slot → Option (Option Tree)
  | none => some none
  | some slot => (st.treeWithin depth slot).map some

theorem treeWithin_array (st : Store) (depth a : Nat) : st.treeWithin (depth + 1) (.link (.array a)) =
    ((st.elementsOf a).mapM (st.elementWithin depth)).map .array := by
  rw [treeWithin]
  congr 2
  funext element
  cases element <;> rfl

-- Every container adds one to the nesting at most, so that those that a document brings bound how deep it goes. The
-- stores are those before and after a document, and the induction goes through its parts in their order.
mutual
theorem treeWithin_intern : ∀ (v : Tree) (st : Store) {st' : Store} (depth : Nat), (st.intern (ofTree v)).2.Grows st' →
    (st.intern (ofTree v)).2.size ≤ st.size + depth → st'.treeWithin depth (st.intern (ofTree v)).1 = some v
  | .scalar _, _, _, depth, _, _ => by cases depth <;> rfl
  | .object members, st, st', depth, grows, enough => by
    rw [ofTree_object, intern_object] at grows enough ⊢
    rw [size_addObject] at enough
    have low := (grows_internMembers st (ofTreeMembers members)).size_le
    obtain ⟨depth, rfl⟩ : ∃ n, depth = n + 1 := Nat.exists_eq_succ_of_ne_zero (by omega)
    have inside := mapM_internMembers members st depth ((grows_addObject _ _).trans grows) (Nat.le_of_succ_le_succ enough)
    rw [treeWithin_object, grows.newMembers, inside]
    rfl
  | .array elements, st, st', depth, grows, enough => by
    rw [ofTree_array, intern_array] at grows enough ⊢
    rw [size_addArray] at enough
    have low := (grows_internElements st (ofTreeElements elements)).size_le
    obtain ⟨depth, rfl⟩ : ∃ n, depth = n + 1 := Nat.exists_eq_succ_of_ne_zero (by omega)
    have inside := mapM_internElements elements st depth ((grows_addArray _ _).trans grows) (Nat.le_of_succ_le_succ enough)
    rw [treeWithin_array, grows.newElements, inside]
    rfl

theorem mapM_internMembers : ∀ (members : List (Text × Tree)) (st : Store) {st' : Store} (depth : Nat),
    (st.internMembers (ofTreeMembers members)).2.Grows st' →
    (st.internMembers (ofTreeMembers members)).2.size ≤ st.size + depth →
    ((st.internMembers (ofTreeMembers members)).1.mapM fun member =>
      (st'.treeWithin depth member.2).map fun tree => (member.1, tree)) = some members
  | [], _, _, _, _, _ => rfl
  | (key, value) :: rest, st, st', depth, grows, enough => by
    rw [ofTreeMembers_cons, internMembers_cons] at grows enough ⊢
    have later := grows_internMembers (st.intern (ofTree value)).2 (ofTreeMembers rest)
    have low := (grows_intern st (ofTree value)).size_le
    have first := treeWithin_intern value st depth (later.trans grows) (Nat.le_trans later.size_le enough)
    have others := mapM_internMembers rest (st.intern (ofTree value)).2 depth grows (Nat.le_trans enough (by omega))
    simp [first, others]

theorem mapM_internElements : ∀ (elements : List (Option Tree)) (st : Store) {st' : Store} (depth : Nat),
    (st.internElements (ofTreeElements elements)).2.Grows st' →
    (st.internElements (ofTreeElements elements)).2.size ≤ st.size + depth →
    (st.internElements (ofTreeElements elements)).1.mapM (st'.elementWithin depth) = some elements
  | [], _, _, _, _, _ => rfl
  | none :: rest, st, st', depth, grows, enough => by
    rw [ofTreeElements_none, internElements_none] at grows enough ⊢
    have others := mapM_internElements rest st depth grows enough
    simp [elementWithin, others]
  | some value :: rest, st, st', depth, grows, enough => by
    rw [ofTreeElements_some, internElements_some] at grows enough ⊢
    have later := grows_internElements (st.intern (ofTree value)).2 (ofTreeElements rest)
    have low := (grows_intern st (ofTree value)).size_le
    have first := treeWithin_intern value st depth (later.trans grows) (Nat.le_trans later.size_le enough)
    have others := mapM_internElements rest (st.intern (ofTree value)).2 depth grows (Nat.le_trans enough (by omega))
    simp [elementWithin, first, others]
end

theorem tree?_intern (v : Tree) (st : Store) : (st.intern (ofTree v)).2.tree? (st.intern (ofTree v)).1 = some v :=
  treeWithin_intern v st _ (.refl _) (Nat.le_add_left _ _)

end Store
end LenientJson
