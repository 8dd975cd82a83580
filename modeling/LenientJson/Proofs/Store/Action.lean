import LenientJson.Proofs.Store.Sound
import LenientJson.Store.Construct

/-! What each action does to a store: one that fails leaves the store as it was, and one that succeeds keeps the
invariant. Everything is asked and checked before anything is changed. -/
namespace LenientJson

variable {source : Scalar → Prop}

namespace Action

variable {α β : Type} {act : Action α} {P : α → Store → Prop} {st : Store}

/-- From `st` the action succeeds with a result and a store that satisfy `P`, or it fails and the store is
still `st`. -/
def Ends (act : Action α) (P : α → Store → Prop) (st : Store) : Prop :=
  match act st with
  | .ok a st' => P a st'
  | .error _ st' => st' = st

theorem Ends.of_error (ends : act.Ends P st) {fault : Fault} {st' : Store} (failed : act st = .error fault st') :
    st' = st := by
  rw [Ends, failed] at ends
  exact ends

theorem Ends.of_ok (ends : act.Ends P st) {a : α} {st' : Store} (ok : act st = .ok a st') : P a st' := by
  rw [Ends, ok] at ends
  exact ends

theorem Ends.imp {Q : α → Store → Prop} (ends : act.Ends P st) (weaker : ∀ a st', P a st' → Q a st') :
    act.Ends Q st := by
  rw [Ends] at ends ⊢
  split
  · next ok =>
    rw [ok] at ends
    exact weaker _ _ ends
  · next failed =>
    rw [failed] at ends
    exact ends

theorem ends_fail (fault : Fault) : (fail fault).Ends P st := rfl

/-- What follows a step that has changed the store must not fail. -/
theorem Ends.bind {Q : β → Store → Prop} {first : Action β} {k : β → Action α} (ends : first.Ends Q st)
    (after : ∀ b st', Q b st' → (st' = st ∧ (k b).Ends P st) ∨ ∃ a st'', k b st' = .ok a st'' ∧ P a st'') :
    (first >>= k).Ends P st := by
  cases run : first st with
  | error fault st' =>
    have failed : (first >>= k) st = .error fault st' := by simp only [Bind.bind, EStateM.bind, run]
    rw [Ends, failed]
    exact ends.of_error run
  | ok b st' =>
    have onward : (first >>= k) st = k b st' := by simp only [Bind.bind, EStateM.bind, run]
    rw [Ends, onward]
    rcases after b st' (ends.of_ok run) with ⟨rfl, ends⟩ | ⟨a, st'', ok, holds⟩
    · exact ends
    · rw [ok]
      exact holds

theorem ends_query {f : Store → Except Fault α} (answer : ∀ a, f st = .ok a → P a st) : (query f).Ends P st := by
  simp only [Ends, query]
  cases result : f st with
  | ok a => exact answer a result
  | error fault => rfl

theorem ends_query_bind {f : Store → Except Fault β} {k : β → Action α}
    (after : ∀ b, f st = .ok b → (k b).Ends P st) : (query f >>= k).Ends P st := by
  have answered : (query f).Ends (fun b st' => st' = st ∧ f st = .ok b) st := ends_query fun _ answer => ⟨rfl, answer⟩
  exact answered.bind fun b _ ⟨same, answer⟩ => .inl ⟨same, after b answer⟩

theorem query_bind {f : Store → Except Fault β} {k : β → Action α} {value : β} (answer : f st = .ok value) :
    (query f >>= k) st = k value st := by
  simp only [Bind.bind, EStateM.bind, query, answer]

theorem get_bind {k : Store → Action α} (st : Store) : (get >>= k) st = k st st := rfl

theorem ends_get_bind {k : Store → Action α} (after : (k st).Ends P st) : (get >>= k).Ends P st := after

/-- The action fails and leaves the store as it is, or it succeeds and, if `fit`, keeps the invariant. -/
def Keeps (source : Scalar → Prop) (fit : Prop) (act : Action α) (st : Store) : Prop :=
  act.Ends (fun _ st' => fit → st.IsSound source → st'.IsSound source) st

theorem Keeps.imp {fit fit' : Prop} (keeps : act.Keeps source fit st) (weaker : fit' → st.IsSound source → fit) :
    act.Keeps source fit' st :=
  Ends.imp keeps fun _ _ kept holds sound => kept (weaker holds sound) sound

/-! What each change keeps. -/

theorem keeps_place (o : Nat) (key : Text) (document : Option Draft) (st : Store) :
    (place o key document).Keeps source (∀ v, document = some v → v.IsHeld source) st := by
  cases document with
  | none => exact fun _ sound => sound.setMembers o ((sound.membersOf o).erase key)
  | some v =>
    intro held sound
    obtain ⟨fit, inner⟩ := held v rfl
    have sound := sound.intern inner
    exact sound.setMembers o ((sound.membersOf o).insert key (Store.isMember_intern st fit))

theorem keeps_put (o : Nat) (key value : Host) (st : Store) :
    (put o key value).Keeps source (value.Draws source) st := by
  apply ends_query_bind
  intro key _
  apply ends_query_bind
  intro document stored
  exact (keeps_place o key document st).imp fun draws _ => Host.isHeld_of_stored draws stored

theorem keeps_putOpt (o : Nat) (key value : Host) (st : Store) :
    (putOpt o key value).Keeps source (value.Draws source) st := by
  rw [putOpt]
  split
  · exact fun _ sound => sound
  · exact keeps_put o key value st

theorem keeps_putOnce (o : Nat) (key value : Host) (st : Store) :
    (putOnce o key value).Keeps source (value.Draws source) st := by
  rw [putOnce]
  split
  · exact fun _ sound => sound
  apply ends_query_bind
  intro found _
  cases found with
  | some slot => exact ends_query_bind fun _ _ => ends_fail _
  | none => exact keeps_put o key value st

theorem keeps_placeArray (o : Nat) (key : Host) (elements : List (Option Draft)) (st : Store) :
    (placeArray o key elements).Keeps source (Value.IsSound source (.array elements)) st := by
  apply ends_query_bind
  intro key _
  exact (keeps_place o key _ st).imp fun inner _ v same => Option.some.inj same ▸ ⟨rfl, inner⟩

/-- Pushing is replacing one beyond the end. -/
theorem withElement_length (elements : List (Option Slot)) (element : Option Slot) :
    withElement elements elements.length element = elements ++ [element] := by
  rw [withElement, if_neg (Nat.lt_irrefl _), Nat.sub_self, List.replicate_zero, List.append_nil]

theorem isSound_withElement (sound : st.IsSound source) (a i : Nat) {element : Option Slot}
    (fit : ∀ slot, element = some slot → slot.IsElement source) :
    (st.setElements a (withElement (st.elementsOf a) i element)).IsSound source := by
  apply sound.setElements a
  intro slot inside
  rw [withElement] at inside
  split at inside
  · rcases List.mem_or_eq_of_mem_set inside with inside | same
    · exact sound.elementsOf a slot inside
    · exact fit slot same.symm
  · rcases List.mem_append.mp inside with inside | last
    · rcases List.mem_append.mp inside with inside | filled
      · exact sound.elementsOf a slot inside
      · cases List.eq_of_mem_replicate filled
        exact .inl rfl
    · exact fit slot (List.mem_singleton.mp last).symm

theorem isSound_withDocument (sound : st.IsSound source) (a i : Nat) {v : Draft} (held : v.IsHeld source) :
    ((st.intern v).2.setElements a (withElement ((st.intern v).2.elementsOf a) i (some (st.intern v).1))).IsSound
      source := by
  apply isSound_withElement (sound.intern held.2)
  intro slot same
  exact Option.some.inj same ▸ Store.isElement_intern st held.1.isElement

theorem keeps_placeAt (a i : Nat) (document : Option Draft) (st : Store) :
    (placeAt a i document).Keeps source (∀ v, document = some v → v.IsHeld source) st := by
  cases document with
  | none => exact fun _ sound => isSound_withElement sound a i fun _ none => nomatch none
  | some v => exact fun held sound => isSound_withDocument sound a i (held v rfl)

theorem keeps_pushTo (a : Nat) (value : Host) (st : Store) :
    (pushTo a value).Keeps source (value.Draws source) st := by
  apply ends_query_bind
  intro document stored
  cases document with
  | none =>
    intro _ sound
    change (st.setElements a (st.elementsOf a ++ [none])).IsSound source
    rw [← withElement_length]
    exact isSound_withElement sound a _ fun _ none => nomatch none
  | some v =>
    intro draws sound
    change ((st.intern v).2.setElements a ((st.intern v).2.elementsOf a ++ [some (st.intern v).1])).IsSound source
    rw [← withElement_length]
    exact isSound_withDocument sound a _ (Host.isHeld_of_stored draws stored v rfl)

theorem keeps_putAt (a : Nat) (index value : Host) (st : Store) :
    (putAt a index value).Keeps source (value.Draws source) st := by
  apply ends_query_bind
  intro place _
  split
  · exact ends_query_bind fun _ _ => ends_fail _
  · exact ends_query_bind fun _ _ => ends_fail _
  · apply ends_query_bind
    intro document stored
    split
    · next i _ =>
      apply ends_query_bind
      intro _ _
      exact (keeps_placeAt a _ document st).imp fun draws _ => Host.isHeld_of_stored draws stored
    · exact ends_fail _

/-- What an object holds is held as a document as well. -/
theorem isHeld_draftOf (sound : st.IsSound source) {o : Nat} {key : Host} {slot : Slot}
    (found : st.opt o key = .ok (some slot)) : (draftOf slot).IsHeld source := by
  constructor
  · rw [Store.opt.eq_def] at found
    split at found
    · cases found
    obtain ⟨key, -, found⟩ := Fault.bind_eq_ok.mp found
    obtain ⟨key, -, found⟩ := Option.bind_eq_some_iff.mp (Except.ok.inj found)
    exact (sound.membersOf o).each _ (Members.mem_of_find?_eq_some found)
  · cases slot with
    | leaf leaf => exact .scalar leaf
    | link target => exact .link target

/-- The first of values that are collected in an array. -/
theorem keeps_placeFirst (o : Nat) (key value : Host) (st : Store) :
    (do placeArray o key [← query fun st => value.stored st.view]).Keeps source (value.Draws source) st := by
  apply ends_query_bind
  intro document stored
  refine (keeps_placeArray o key _ st).imp fun draws _ => .ofElements fun v inside => ?_
  exact Host.isHeld_of_stored draws stored v (List.mem_singleton.mp inside).symm

theorem keeps_accumulate (o : Nat) (key value : Host) (st : Store) :
    (accumulate o key value).Keeps source (value.Draws source) st := by
  apply ends_query_bind
  intro _ _
  apply ends_query_bind
  intro found there
  split
  · split
    · exact keeps_placeFirst o key value st
    · exact keeps_put o key value st
  · exact keeps_pushTo _ value st
  · next current _ =>
    apply ends_query_bind
    intro added stored
    refine (keeps_placeArray o key _ st).imp fun draws sound => .ofElements fun v inside => ?_
    rcases List.mem_cons.mp inside with same | inside
    · exact Option.some.inj same ▸ isHeld_draftOf sound there
    · exact Host.isHeld_of_stored draws stored v (List.mem_singleton.mp inside).symm

theorem keeps_append (o : Nat) (key value : Host) (st : Store) :
    (append o key value).Keeps source (value.Draws source) st := by
  apply ends_query_bind
  intro _ _
  apply ends_query_bind
  intro found _
  split
  · exact keeps_placeFirst o key value st
  · exact keeps_pushTo _ value st
  · exact ends_query_bind fun _ _ => ends_fail _

theorem keeps_increment (o : Nat) (key : Host) (st : Store) : (increment o key).Keeps source True st := by
  have put (leaf : Scalar) : (put o key (.scalar leaf)).Keeps source True st :=
    (keeps_put o key _ st).imp fun _ _ => Host.draws_scalar leaf
  apply ends_query_bind
  intro found _
  split
  · exact put _
  · split
    · exact put _
    · exact ends_query_bind fun _ _ => ends_fail _
  · exact ends_query_bind fun _ _ => ends_fail _

theorem ends_remove (o : Nat) (key : Host) (st : Store) :
    (remove o key).Ends (fun removed st' => (removed = none ∧ st' = st) ∨ ∃ k slot, key.lookupKey = .ok (some k) ∧
      removed = some slot ∧ st' = st.setMembers o ((st.membersOf o).erase k)) st := by
  apply ends_get_bind
  split
  · exact .inl ⟨rfl, rfl⟩
  · apply ends_query_bind
    intro key lookup
    cases key with
    | none => exact .inl ⟨rfl, rfl⟩
    | some k =>
      change ((st.membersOf o).find? k = none ∧ st.setMembers o ((st.membersOf o).erase k) = st) ∨ _
      cases found : (st.membersOf o).find? k with
      | none =>
        rw [Members.erase_of_find?_eq_none found, Store.setMembers_membersOf]
        exact .inl ⟨rfl, rfl⟩
      | some slot => exact .inr ⟨k, slot, lookup, rfl, rfl⟩

theorem keeps_remove (o : Nat) (key : Host) (st : Store) : (remove o key).Keeps source True st := by
  refine (ends_remove o key st).imp fun _ st' removal _ sound => ?_
  obtain ⟨-, rfl⟩ | ⟨k, -, -, -, rfl⟩ := removal
  · exact sound
  · exact sound.setMembers o ((sound.membersOf o).erase k)

theorem keeps_delete (o : Nat) (key : Host) (st : Store) : (delete o key).Keeps source True st := by
  refine (ends_remove o key st).bind fun removed st' removal => ?_
  -- Only a removal that has changed nothing is followed by a fault.
  obtain ⟨rfl, rfl⟩ | ⟨k, slot, -, rfl, rfl⟩ := removal
  · exact .inl ⟨rfl, ends_query_bind fun _ _ => ends_fail _⟩
  · exact .inr ⟨(), _, rfl, fun _ sound => sound.setMembers o ((sound.membersOf o).erase k)⟩

/-! Calls that make containers. -/

theorem keeps_objectOfMapping (mapping : Host) (st : Store) :
    (objectOfMapping mapping).Keeps source (mapping.Draws source) st := by
  apply ends_query_bind
  intro members ok draws sound
  exact sound.intern (.ofMembers (Host.isMapTo_of_objectOf draws ok))

theorem isElementary_absent : Host.absent.IsElementary source where
  draws := Host.draws_of_bare rfl nofun
  listed leaf none := by cases none

theorem isElementary_hostOf (sound : st.IsSound source) {slot : Slot} (fit : slot.IsElement source) :
    (st.hostOf slot).IsElementary source := by
  rw [Store.hostOf.eq_def]
  split
  · exact ⟨Host.draws_of_bare rfl nofun, fun leaf none => by cases none⟩
  · next face =>
    split
    · next guest found =>
      have same : guest.face = face := decide_eq_true_eq.mp (List.find?_some found :)
      refine ⟨sound.guests guest (List.mem_of_find?_eq_some found), fun leaf is _ => ?_⟩
      cases is
      exact same ▸ fit
    · exact Host.isElementary_scalar fit
  · exact Host.isElementary_scalar fit

theorem isElementary_elementsOf (sound : st.IsSound source) (a : Nat) :
    ∀ h ∈ (st.elementsOf a).map st.hostOfElement, h.IsElementary source := by
  refine List.forall_mem_map.mpr fun element inside => ?_
  cases element with
  | none => exact isElementary_absent
  | some slot => exact isElementary_hostOf sound (sound.elementsOf a slot inside)

theorem isElementary_of_iterate (sound : st.IsSound source) {values : Host} (draws : values.asList.Draws source)
    {hosts : List Host} (ok : st.iterate values = .ok hosts) : ∀ h ∈ hosts, h.IsElementary source := by
  have plain (leaf : Scalar) (admissible : leaf.isAdmissible = true) : (Host.scalar leaf).IsElementary source :=
    Host.isElementary_scalar (.inl admissible)
  rw [Store.iterate.eq_def] at ok
  split at ok <;> cases ok
  case h_1 t => exact List.forall_mem_map.mpr fun _ _ => plain _ rfl
  case h_2 octets => exact List.forall_mem_map.mpr fun _ _ => plain _ rfl
  case h_3 target =>
    cases target with
    | object o => exact List.forall_mem_map.mpr fun _ _ => plain _ rfl
    | array a => exact isElementary_elementsOf sound a
  case h_4 kind => exact draws.isElementary
  case h_5 entries => exact draws.isElementary

theorem keeps_arrayOfValues (values : Host) (st : Store) :
    (arrayOfValues values).Keeps source (values.asList.Draws source) st := by
  rw [arrayOfValues.eq_def]
  split
  · have empty : Value.IsSound source (.array []) := .ofElements fun _ none => nomatch none
    exact fun _ sound => sound.intern empty
  · apply ends_query_bind
    intro hosts ok
    apply ends_query_bind
    intro elements made
    cases made
    intro draws sound
    have elementary := isElementary_of_iterate sound draws ok
    exact sound.intern (Host.isSound_documents elementary fun h inside => Host.gives_digest h (elementary h inside).draws)

end Action
end LenientJson
