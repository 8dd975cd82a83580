import LenientJson.Proofs.Store.Frame

/-! Documents shown by a store. A slot shows a document that has been given a place: the same leaf, the same link, or
a container whose entries show those of the document. This stays so while none of these containers changes. -/
namespace LenientJson.Store

def Has (st : Store) : Link → Prop
  | .object p => p < st.objects.length
  | .array q => q < st.arrays.length

mutual
/-- A slot shows a document, through containers that are there and are none of those in `apart`. -/
inductive Shows (st : Store) (apart : List Link) : Slot → Draft → Prop
  | leaf (leaf) : Shows st apart (.leaf leaf) (.scalar leaf)
  | link (target) : Shows st apart (.link target) (.link target)
  | object {p members} (there : st.Has (.object p)) (other : .object p ∉ apart)
      (inside : MembersShow st apart (st.membersOf p) members) : Shows st apart (.link (.object p)) (.object members)
  | array {q elements} (there : st.Has (.array q)) (other : .array q ∉ apart)
      (inside : ElementsShow st apart (st.elementsOf q) elements) : Shows st apart (.link (.array q)) (.array elements)

inductive MembersShow (st : Store) (apart : List Link) : Members Slot → List (Text × Draft) → Prop
  | nil : MembersShow st apart [] []
  | cons {key slot v slots members} (first : Shows st apart slot v) (rest : MembersShow st apart slots members) :
      MembersShow st apart ((key, slot) :: slots) ((key, v) :: members)

/-- Elements show the elements of a document, one by one. -/
inductive ElementsShow (st : Store) (apart : List Link) : List (Option Slot) → List (Option Draft) → Prop
  | nil : ElementsShow st apart [] []
  | absent {slots elements} (rest : ElementsShow st apart slots elements) :
      ElementsShow st apart (none :: slots) (none :: elements)
  | cons {slot v slots elements} (first : Shows st apart slot v) (rest : ElementsShow st apart slots elements) :
      ElementsShow st apart (some slot :: slots) (some v :: elements)
end

variable {st st' st'' : Store} {apart apart' : List Link}

/-- Containers that are there stay there, and only those in `apart` may change. -/
structure Frame (apart : List Link) (st st' : Store) : Prop where
  has : ∀ target, st.Has target → st'.Has target
  objects : ∀ p, st.Has (.object p) → .object p ∉ apart → st'.membersOf p = st.membersOf p
  arrays : ∀ q, st.Has (.array q) → .array q ∉ apart → st'.elementsOf q = st.elementsOf q

theorem Frame.refl (apart : List Link) (st : Store) : Frame apart st st := ⟨fun _ => id, fun _ _ _ => rfl, fun _ _ _ => rfl⟩

theorem Frame.trans (first : Frame apart st st') (second : Frame apart st' st'') : Frame apart st st'' where
  has target there := second.has target (first.has target there)
  objects p there other := (second.objects p (first.has _ there) other).trans (first.objects p there other)
  arrays q there other := (second.arrays q (first.has _ there) other).trans (first.arrays q there other)

theorem Frame.mono (frame : Frame apart st st') (more : apart ⊆ apart') : Frame apart' st st' where
  has := frame.has
  objects p there other := frame.objects p there fun member => other (more member)
  arrays q there other := frame.arrays q there fun member => other (more member)

theorem Grows.has (grows : st.Grows st') : ∀ target, st.Has target → st'.Has target
  | .object _, there => Nat.lt_of_lt_of_le there grows.objects.length_le
  | .array _, there => Nat.lt_of_lt_of_le there grows.arrays.length_le

theorem has_addObject (st : Store) (members : Members Slot) : (st.addObject members).2.Has (.object st.objects.length) := by
  simp [Has, addObject]

theorem has_addArray (st : Store) (elements : List (Option Slot)) :
    (st.addArray elements).2.Has (.array st.arrays.length) := by
  simp [Has, addArray]

theorem Grows.frame (grows : st.Grows st') : Frame apart st st' where
  has := grows.has
  objects _ there _ := membersOf_of_grown grows.objects there
  arrays _ there _ := elementsOf_of_grown grows.arrays there

theorem frame_setMembers {o : Nat} (among : .object o ∈ apart) (members : Members Slot) :
    Frame apart st (st.setMembers o members) where
  has
    | .object _, there => by simpa [Has, setMembers] using there
    | .array _, there => there
  objects p _ other := by
    have different : p ≠ o := by
      rintro rfl
      exact other among
    exact membersOf_setMembers_of_ne different members
  arrays _ _ _ := rfl

theorem elementsOf_setElements {a : Nat} (there : st.Has (.array a)) (elements : List (Option Slot)) :
    (st.setElements a elements).elementsOf a = elements := by
  rw [elementsOf, setElements, List.getElem?_set_self there, Option.getD_some]

theorem frame_setElements {a : Nat} (among : .array a ∈ apart) (elements : List (Option Slot)) :
    Frame apart st (st.setElements a elements) where
  has
    | .object _, there => there
    | .array _, there => by simpa [Has, setElements] using there
  objects _ _ _ := rfl
  arrays q _ other := by
    have different : a ≠ q := by
      rintro rfl
      exact other among
    rw [elementsOf, setElements, List.getElem?_set_ne different, elementsOf]

mutual
/-- What is shown stays shown while only containers in `apart` change, and more of them may be set apart if none of those
that show it is among them. -/
theorem Shows.frame {slot : Slot} {v : Draft} (shows : st.Shows apart slot v) (frame : Frame apart st st')
    (unused : ∀ target, st.Has target → target ∉ apart → target ∉ apart') : st'.Shows apart' slot v := by
  match shows with
  | .leaf leaf => exact .leaf leaf
  | .link target => exact .link target
  | .object there other inside =>
    have inner := inside.frame frame unused
    rw [← frame.objects _ there other] at inner
    exact .object (frame.has _ there) (unused _ there other) inner
  | .array there other inside =>
    have inner := inside.frame frame unused
    rw [← frame.arrays _ there other] at inner
    exact .array (frame.has _ there) (unused _ there other) inner

theorem MembersShow.frame {slots : Members Slot} {members : List (Text × Draft)} (shown : st.MembersShow apart slots members)
    (frame : Frame apart st st') (unused : ∀ target, st.Has target → target ∉ apart → target ∉ apart') :
    st'.MembersShow apart' slots members := by
  match shown with
  | .nil => exact .nil
  | .cons first rest => exact .cons (first.frame frame unused) (rest.frame frame unused)

theorem ElementsShow.frame {slots : List (Option Slot)} {elements : List (Option Draft)}
    (shown : st.ElementsShow apart slots elements) (frame : Frame apart st st')
    (unused : ∀ target, st.Has target → target ∉ apart → target ∉ apart') : st'.ElementsShow apart' slots elements := by
  match shown with
  | .nil => exact .nil
  | .absent rest => exact .absent (rest.frame frame unused)
  | .cons first rest => exact .cons (first.frame frame unused) (rest.frame frame unused)
end

/-- A container that was not there shows nothing yet, so it may be set apart. -/
theorem unused_of_new {new : Link} (unknown : ¬ st.Has new) (target : Link) (there : st.Has target) (other : target ∉ apart) :
    target ∉ apart ++ [new] := by
  intro member
  rcases List.mem_append.mp member with old | same
  · exact other old
  · cases List.mem_singleton.mp same
    exact unknown there

theorem ElementsShow.append {slots slots' : List (Option Slot)} {elements elements' : List (Option Draft)}
    (first : st.ElementsShow apart slots elements) (second : st.ElementsShow apart slots' elements') :
    st.ElementsShow apart (slots ++ slots') (elements ++ elements') := by
  match first with
  | .nil => exact second
  | .absent rest => exact .absent (rest.append second)
  | .cons one rest => exact .cons one (rest.append second)

-- The containers of a document come after those of the store that it is put in, so that none of the latter shows it.
mutual
theorem shows_intern : ∀ (v : Draft) (st : Store) {st' : Store}, (∀ target ∈ apart, st.Has target) →
    (st.intern v).2.Grows st' → st'.Shows apart (st.intern v).1 v
  | .scalar leaf, _, _, _, _ => .leaf leaf
  | .link target, _, _, _, _ => .link target
  | .object members, st, st', old, grows => by
    rw [intern_object] at grows ⊢
    have later := (grows_addObject (st.internMembers members).2 (st.internMembers members).1).trans grows
    have inside := membersShow_intern members st old later
    have between := (grows_internMembers st members).objects.length_le
    refine .object (grows.has _ (has_addObject _ _)) (fun member => Nat.not_lt.mpr between (old _ member)) ?_
    rwa [grows.newMembers]
  | .array elements, st, st', old, grows => by
    rw [intern_array] at grows ⊢
    have later := (grows_addArray (st.internElements elements).2 (st.internElements elements).1).trans grows
    have inside := elementsShow_intern elements st old later
    have between := (grows_internElements st elements).arrays.length_le
    refine .array (grows.has _ (has_addArray _ _)) (fun member => Nat.not_lt.mpr between (old _ member)) ?_
    rwa [grows.newElements]

theorem membersShow_intern : ∀ (members : List (Text × Draft)) (st : Store) {st' : Store},
    (∀ target ∈ apart, st.Has target) → (st.internMembers members).2.Grows st' →
    st'.MembersShow apart (st.internMembers members).1 members
  | [], _, _, _, _ => .nil
  | (key, value) :: rest, st, st', old, grows => by
    rw [internMembers_cons] at grows ⊢
    have later := grows_internMembers (st.intern value).2 rest
    have still := fun target member => (grows_intern st value).has target (old target member)
    exact .cons (shows_intern value st old (later.trans grows)) (membersShow_intern rest _ still grows)

theorem elementsShow_intern : ∀ (elements : List (Option Draft)) (st : Store) {st' : Store},
    (∀ target ∈ apart, st.Has target) → (st.internElements elements).2.Grows st' →
    st'.ElementsShow apart (st.internElements elements).1 elements
  | [], _, _, _, _ => .nil
  | none :: rest, st, st', old, grows => by
    rw [internElements_none] at grows ⊢
    exact .absent (elementsShow_intern rest st old grows)
  | some value :: rest, st, st', old, grows => by
    rw [internElements_some] at grows ⊢
    have later := grows_internElements (st.intern value).2 rest
    have still := fun target member => (grows_intern st value).has target (old target member)
    exact .cons (shows_intern value st old (later.trans grows)) (elementsShow_intern rest _ still grows)
end

end LenientJson.Store
