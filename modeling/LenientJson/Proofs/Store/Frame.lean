import LenientJson.Proofs.Store.Call
import LenientJson.Proofs.Store.Intern

/-! What an action can change in the objects that are there: the entry of one key in one of them, and nothing in the
others. New containers come after those that are there. -/
namespace LenientJson

/-- The entry of a key changes, and nothing else does. -/
inductive Members.Changes {α : Type} (m : Members α) : Option Text → Members α → Prop
  | nothing (key : Option Text) : Changes m key m
  | inserted (key : Text) (value : α) : Changes m (some key) (m.insert key value)
  | erased (key : Text) : Changes m (some key) (m.erase key)

namespace Host

/-- The text that a host value is as a key. -/
def text? : Host → Option Text
  | .scalar (.text t) => some t
  | _ => none

theorem text?_of_requireKey {key : Host} {k : Text} (ok : key.requireKey = .ok k) : key.text? = some k := by
  rw [requireKey.eq_def] at ok
  split at ok <;> cases ok
  rfl

theorem text?_of_lookupKey {key : Host} {k : Text} (ok : key.lookupKey = .ok (some k)) : key.text? = some k := by
  rw [lookupKey.eq_def] at ok
  split at ok
  · cases ok
    rfl
  · split at ok <;> cases ok

end Host

namespace Store

variable {st st' : Store} {keyIn : Nat → Option Text}

/-- The key of an object, and none of any other. -/
def entry (o : Nat) (key : Host) (other : Nat) : Option Text := if other = o then key.text? else none

/-- Every object that is there stays, and in each the entry of at most one key changes. -/
structure Evolves (keyIn : Nat → Option Text) (st st' : Store) : Prop where
  grown : st.objects.length ≤ st'.objects.length
  changes : ∀ o < st.objects.length, (st.membersOf o).Changes (keyIn o) (st'.membersOf o)

theorem evolves_of_grown (grown : st.objects <+: st'.objects) : st.Evolves keyIn st' where
  grown := grown.length_le
  changes o there := by
    rw [membersOf_of_grown grown there]
    exact .nothing _

theorem Evolves.refl (st : Store) : st.Evolves keyIn st := evolves_of_grown List.prefix_rfl

theorem membersOf_setMembers_of_ne {o other : Nat} (different : other ≠ o) (members : Members Slot) :
    (st.setMembers o members).membersOf other = st.membersOf other := by
  rw [membersOf, setMembers, List.getElem?_set_ne (Ne.symm different), membersOf]

theorem membersOf_setMembers {o : Nat} (there : o < st.objects.length) (members : Members Slot) :
    (st.setMembers o members).membersOf o = members := by
  rw [membersOf, setMembers, List.getElem?_set_self there, Option.getD_some]

/-- Containers are added, and then the members of one object are set. -/
theorem evolves_setMembers (grown : st.objects <+: st'.objects) (o : Nat) {key : Host} {members : Members Slot}
    (changes : o < st.objects.length → (st.membersOf o).Changes key.text? members) :
    st.Evolves (entry o key) (st'.setMembers o members) where
  grown := by
    rw [setMembers, List.length_set]
    exact grown.length_le
  changes other there := by
    by_cases same : other = o
    · subst same
      rw [membersOf_setMembers (Nat.lt_of_lt_of_le there grown.length_le), entry, if_pos rfl]
      exact changes there
    · rw [membersOf_setMembers_of_ne same, membersOf_of_grown grown there, entry, if_neg same]
      exact .nothing _

end Store

namespace Action

variable {α : Type} {act : Action α} {keyIn : Nat → Option Text}

/-- The action fails and leaves the store as it is, or it succeeds and changes the entries of these keys at most. -/
def Touches (keyIn : Nat → Option Text) (act : Action α) (st : Store) : Prop :=
  act.Ends (fun _ st' => st.Evolves keyIn st') st

theorem touches_place (o : Nat) {key : Host} {k : Text} (same : key.text? = some k) (document : Option Draft)
    (st : Store) : (place o k document).Touches (Store.entry o key) st := by
  cases document with
  | none => exact Store.evolves_setMembers List.prefix_rfl o fun _ => same ▸ .erased k
  | some v =>
    have grown := (st.grows_intern v).objects
    refine Store.evolves_setMembers grown o fun there => ?_
    rw [Store.membersOf_of_grown grown there, same]
    exact .inserted k _

theorem touches_put (o : Nat) (key value : Host) (st : Store) : (put o key value).Touches (Store.entry o key) st := by
  apply ends_query_bind
  intro k required
  apply ends_query_bind
  intro document _
  exact touches_place o (Host.text?_of_requireKey required) document st

theorem touches_putOpt (o : Nat) (key value : Host) (st : Store) :
    (putOpt o key value).Touches (Store.entry o key) st := by
  rw [putOpt]
  split
  · exact .refl st
  · exact touches_put o key value st

theorem touches_putOnce (o : Nat) (key value : Host) (st : Store) :
    (putOnce o key value).Touches (Store.entry o key) st := by
  rw [putOnce]
  split
  · exact .refl st
  apply ends_query_bind
  intro found _
  cases found with
  | some slot => exact ends_query_bind fun _ _ => ends_fail _
  | none => exact touches_put o key value st

theorem touches_placeArray (o : Nat) (key : Host) (elements : List (Option Draft)) (st : Store) :
    (placeArray o key elements).Touches (Store.entry o key) st := by
  apply ends_query_bind
  intro k required
  exact touches_place o (Host.text?_of_requireKey required) _ st

theorem touches_placeAt (a i : Nat) (document : Option Draft) (st : Store) :
    (placeAt a i document).Touches keyIn st := by
  cases document with
  | none => exact Store.evolves_of_grown List.prefix_rfl
  | some v => exact Store.evolves_of_grown (st.grows_intern v).objects

theorem touches_pushTo (a : Nat) (value : Host) (st : Store) : (pushTo a value).Touches keyIn st := by
  apply ends_query_bind
  intro document _
  cases document with
  | none => exact Store.evolves_of_grown List.prefix_rfl
  | some v => exact Store.evolves_of_grown (st.grows_intern v).objects

theorem touches_putAt (a : Nat) (index value : Host) (st : Store) : (putAt a index value).Touches keyIn st := by
  apply ends_query_bind
  intro place _
  split
  · exact ends_query_bind fun _ _ => ends_fail _
  · exact ends_query_bind fun _ _ => ends_fail _
  · apply ends_query_bind
    intro document _
    split
    · apply ends_query_bind
      intro _ _
      exact touches_placeAt a _ document st
    · exact ends_fail _

theorem touches_accumulate (o : Nat) (key value : Host) (st : Store) :
    (accumulate o key value).Touches (Store.entry o key) st := by
  apply ends_query_bind
  intro _ _
  apply ends_query_bind
  intro found _
  split
  · split
    · exact ends_query_bind fun _ _ => touches_placeArray o key _ st
    · exact touches_put o key value st
  · exact touches_pushTo _ value st
  · exact ends_query_bind fun _ _ => touches_placeArray o key _ st

theorem touches_append (o : Nat) (key value : Host) (st : Store) :
    (append o key value).Touches (Store.entry o key) st := by
  apply ends_query_bind
  intro _ _
  apply ends_query_bind
  intro found _
  split
  · exact ends_query_bind fun _ _ => touches_placeArray o key _ st
  · exact touches_pushTo _ value st
  · exact ends_query_bind fun _ _ => ends_fail _

theorem touches_increment (o : Nat) (key : Host) (st : Store) :
    (increment o key).Touches (Store.entry o key) st := by
  apply ends_query_bind
  intro found _
  split
  · exact touches_put o key _ st
  · split
    · exact touches_put o key _ st
    · exact ends_query_bind fun _ _ => ends_fail _
  · exact ends_query_bind fun _ _ => ends_fail _

theorem evolves_of_removal {o : Nat} {key : Host} {k : Text} {st : Store} (lookup : key.lookupKey = .ok (some k)) :
    st.Evolves (Store.entry o key) (st.setMembers o ((st.membersOf o).erase k)) :=
  Store.evolves_setMembers List.prefix_rfl o fun _ => Host.text?_of_lookupKey lookup ▸ .erased k

theorem touches_remove (o : Nat) (key : Host) (st : Store) : (remove o key).Touches (Store.entry o key) st := by
  refine (ends_remove o key st).imp fun removed st' removal => ?_
  obtain ⟨-, rfl⟩ | ⟨k, -, lookup, -, rfl⟩ := removal
  · exact .refl _
  · exact evolves_of_removal lookup

theorem touches_delete (o : Nat) (key : Host) (st : Store) : (delete o key).Touches (Store.entry o key) st := by
  refine (ends_remove o key st).bind fun removed st' removal => ?_
  obtain ⟨rfl, rfl⟩ | ⟨k, slot, lookup, rfl, rfl⟩ := removal
  · exact .inl ⟨rfl, ends_query_bind fun _ _ => ends_fail _⟩
  · exact .inr ⟨(), _, rfl, evolves_of_removal lookup⟩

theorem touches_newObject (members : Members Draft) (st : Store) : (newObject members).Touches keyIn st :=
  Store.evolves_of_grown (st.grows_intern (.object members)).objects

theorem touches_newArray (elements : List (Option Draft)) (st : Store) : (newArray elements).Touches keyIn st :=
  Store.evolves_of_grown (st.grows_intern (.array elements)).objects

theorem touches_arrayOfValues (values : Host) (st : Store) : (arrayOfValues values).Touches keyIn st := by
  rw [arrayOfValues.eq_def]
  split
  · exact touches_newArray [] st
  · apply ends_query_bind
    intro hosts _
    exact ends_query_bind fun elements _ => touches_newArray elements st

end Action

namespace Call

/-- The key whose entry in an object a call may change. -/
def keyIn : Call → Nat → Option Text
  | put o key _ | putOnce o key _ | putOpt o key _ | accumulate o key _ | append o key _ | increment o key
  | remove o key | delete o key => Store.entry o key
  | object _ | array _ | push .. | putAt .. | welcome _ => fun _ => none

theorem touches_act (call : Call) (st : Store) : call.act.Touches call.keyIn st := by
  cases call with
  | object mapping => exact ends_discard (Action.ends_query_bind fun members _ => Action.touches_newObject members st)
  | array values => exact ends_discard (Action.touches_arrayOfValues values st)
  | put o key value => exact Action.touches_put o key value st
  | putOnce o key value => exact Action.touches_putOnce o key value st
  | putOpt o key value => exact Action.touches_putOpt o key value st
  | accumulate o key value => exact Action.touches_accumulate o key value st
  | append o key value => exact Action.touches_append o key value st
  | increment o key => exact Action.touches_increment o key st
  | remove o key => exact ends_discard (Action.touches_remove o key st)
  | delete o key => exact Action.touches_delete o key st
  | push a value => exact Action.touches_pushTo a value st
  | putAt a index value => exact Action.touches_putAt a index value st
  | welcome guest => exact Store.evolves_of_grown List.prefix_rfl

/-- A call that fails changes nothing at all. -/
theorem evolves_after (call : Call) (st : Store) : st.Evolves call.keyIn (call.after st) := by
  have touches : call.act.Ends _ st := touches_act call st
  rw [after]
  split
  · next ok => exact touches.of_ok ok
  · next failed => exact touches.of_error failed ▸ .refl _

end Call
end LenientJson
