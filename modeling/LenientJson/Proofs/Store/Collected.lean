import LenientJson.Proofs.Host.Storable
import LenientJson.Proofs.Store.Coherent
import LenientJson.Proofs.Store.Shown

/-! Values collected under a key. The key goes from nothing to a value that stands alone and to an array, or to an array
at once. Each action is first given by what the key holds, then followed through one value, and then through many. -/
namespace LenientJson

/-! Collections as first values. -/

namespace Host

variable {view : Link → Sight} {h : Host}

/-- Arrays, lists, tuples and sets. -/
def isCollection : Host → Bool
  | .link (.array _) | .sequence _ _ => true
  | _ => false

def isSet : Host → Bool
  | .sequence .set _ | .sequence .frozenSet _ => true
  | _ => false

theorem isArrayShaped_eq (h : Host) : Action.isArrayShaped h = (h.isCollection && !h.isSet) := by
  rcases h with _ | _ | (_ | _) | ⟨_ | _ | _ | _, _⟩ | _ | _ <;> rfl

theorem single_of_stored {v : Draft} {st : Store} (single : h.isCollection = false) (stored : h.stored view = .ok (some v)) :
    ∀ a, (st.intern v).1 ≠ .link (.array a) := by
  cases h with
  | absent => cases stored
  | scalar leaf =>
    obtain ⟨_, -, same⟩ := Fault.bind_eq_ok.mp stored
    cases same
    exact nofun
  | link target =>
    cases stored
    cases target with
    | object => exact nofun
    | array => cases single
  | sequence => cases single
  | mapping | user =>
    obtain ⟨_, -, same⟩ := Fault.bind_eq_ok.mp stored
    cases same
    exact nofun

theorem isSet_of_single (single : h.isCollection = false) : h.isSet = false := by
  cases h with
  | sequence => cases single
  | _ => rfl

theorem array_of_isSet {v : Draft} (set : h.isSet = true) (stored : h.stored view = .ok (some v)) :
    ∃ front, v = .array front := by
  cases h with
  | sequence kind elements =>
    cases stored
    exact ⟨_, rfl⟩
  | _ => cases set

end Host

/-! What a key holds. -/

namespace Store

variable {st st' : Store} {o a : Nat} {key : Text}

/-- The key holds a slot that is no array and shows a document. -/
structure Lone (st : Store) (o : Nat) (key : Text) (slot : Slot) (v : Draft) : Prop where
  there : st.Has (.object o)
  held : (st.membersOf o).find? key = some slot
  single : ∀ a, slot ≠ .link (.array a)
  shows : st.Shows [.object o] slot v

/-- The key holds an array whose elements show these documents, one by one. -/
structure Collects (st : Store) (o : Nat) (key : Text) (a : Nat) (elements : List (Option Draft)) : Prop where
  there : st.Has (.object o)
  held : (st.membersOf o).find? key = some (.link (.array a))
  array : st.Has (.array a)
  shows : st.ElementsShow [.object o, .array a] (st.elementsOf a) elements

end Store

namespace Action
open Store

variable {st st' : Store} {o a : Nat} {key : Text} {h : Host} {v : Draft} {elements : List (Option Draft)}

/-! Putting a document under a key. -/

theorem exists_place (there : st.Has (.object o)) (key : Text) (v : Draft) : ∃ st', place o key (some v) st = .ok () st' ∧
    Frame [.object o] (st.intern v).2 st' ∧ (st'.membersOf o).find? key = some (st.intern v).1 := by
  have still := (st.grows_intern v).has _ there
  refine ⟨_, rfl, frame_setMembers List.mem_cons_self _, ?_⟩
  rw [membersOf_setMembers still, Members.find?_insert_self]

theorem lone_place (there : st.Has (.object o)) (key : Text) (single : ∀ a, (st.intern v).1 ≠ .link (.array a)) :
    ∃ st' slot, place o key (some v) st = .ok () st' ∧ st'.Lone o key slot v := by
  obtain ⟨st', placed, frame, held⟩ := exists_place there key v
  have shows := shows_intern v st (List.forall_mem_singleton.mpr there) (.refl _)
  exact ⟨st', _, placed, frame.has _ ((st.grows_intern v).has _ there), held, single, shows.frame frame fun _ _ => id⟩

theorem collects_place (there : st.Has (.object o)) (key : Text) (elements : List (Option Draft)) :
    ∃ st' a, place o key (some (.array elements)) st = .ok () st' ∧ st'.Collects o key a elements ∧
      Frame [.object o] st st' ∧ ¬ st.Has (.array a) ∧ st'.elementsOf a = (st.internElements elements).1 := by
  obtain ⟨st', placed, frame, held⟩ := exists_place there key (.array elements)
  rw [intern_array] at frame held
  -- the elements are given their places first, and the array is the last container that comes
  have grown := st.grows_internElements elements
  have further := grows_addArray (st.internElements elements).2 (st.internElements elements).1
  have added := has_addArray (st.internElements elements).2 (st.internElements elements).1
  have inside : st'.elementsOf (st.internElements elements).2.arrays.length = (st.internElements elements).1 := by
    rw [frame.arrays _ added (by simp)]
    exact (Grows.refl _).newElements
  have shows := elementsShow_intern elements st (List.forall_mem_singleton.mpr there) (.refl _)
  refine ⟨st', _, placed, ⟨frame.has _ ((grown.trans further).has _ there), held, frame.has _ added, ?_⟩,
    (grown.trans further).frame.trans frame, Nat.not_lt.mpr grown.arrays.length_le, inside⟩
  rw [inside]
  exact shows.frame (further.frame.trans frame) (unused_of_new (Nat.lt_irrefl _))

theorem stored_bind {β : Type} {k : Option Draft → Action β} (stored : h.stored st.view = .ok (some v)) :
    (query (fun st => h.stored st.view) >>= k) st = k (some v) st :=
  query_bind (f := fun st => h.stored st.view) stored

theorem exists_pushTo (there : st.Has (.array a)) (stored : h.stored st.view = .ok (some v)) :
    ∃ st', pushTo a h st = .ok () st' ∧ Frame [.array a] (st.intern v).2 st' ∧
      st'.elementsOf a = st.elementsOf a ++ [some (st.intern v).1] := by
  refine ⟨_, stored_bind stored, frame_setElements List.mem_cons_self _, ?_⟩
  rw [elementsOf_setElements ((st.grows_intern v).has _ there), elementsOf_of_grown (st.grows_intern v).arrays there]

/-! What is done with a value depends on what the key holds. -/

theorem accumulate_absent (absent : (st.membersOf o).find? key = none) (stored : h.stored st.view = .ok (some v)) :
    accumulate o (.ofText key) h st = place o key (some (if isArrayShaped h then .array [some v] else v)) st := by
  rw [accumulate, query_bind (Host.requireFinite_of_stored stored), query_bind (opt_ofText st o key), absent]
  dsimp only
  split
  · exact stored_bind stored
  · exact stored_bind (k := place o key) stored

theorem accumulate_lone {slot : Slot} (held : (st.membersOf o).find? key = some slot)
    (single : ∀ a, slot ≠ .link (.array a)) (stored : h.stored st.view = .ok (some v)) :
    accumulate o (.ofText key) h st = place o key (some (.array [some (draftOf slot), some v])) st := by
  rw [accumulate, query_bind (Host.requireFinite_of_stored stored), query_bind (opt_ofText st o key), held]
  rcases slot with leaf | o' | a
  · exact stored_bind stored
  · exact stored_bind stored
  · exact absurd rfl (single a)

theorem accumulate_collected (held : (st.membersOf o).find? key = some (.link (.array a)))
    (stored : h.stored st.view = .ok (some v)) : accumulate o (.ofText key) h st = pushTo a h st := by
  rw [accumulate, query_bind (Host.requireFinite_of_stored stored), query_bind (opt_ofText st o key), held]

theorem append_lone {slot : Slot} (held : (st.membersOf o).find? key = some slot)
    (single : ∀ a, slot ≠ .link (.array a)) (stored : h.stored st.view = .ok (some v)) :
    append o (.ofText key) h st = .error (.memberMismatch key.quoted .array) st := by
  rw [append, query_bind (Host.requireFinite_of_stored stored), query_bind (opt_ofText st o key), held]
  rcases slot with leaf | o' | a
  · rfl
  · rfl
  · exact absurd rfl (single a)

theorem append_collected (held : (st.membersOf o).find? key = some (.link (.array a)))
    (stored : h.stored st.view = .ok (some v)) : append o (.ofText key) h st = pushTo a h st := by
  rw [append, query_bind (Host.requireFinite_of_stored stored), query_bind (opt_ofText st o key), held]

/-! What one value does. -/

/-- The first value stands alone, unless it is a collection. One that is no set becomes the only element of a new array,
while a set becomes an array of its elements. -/
theorem accumulate_first (there : st.Has (.object o)) (absent : (st.membersOf o).find? key = none)
    (stored : h.stored st.view = .ok (some v)) : ∃ st', accumulate o (.ofText key) h st = .ok () st' ∧
      ((h.isCollection = false ∧ ∃ slot, st'.Lone o key slot v) ∨
        h.isCollection = true ∧ ∃ a front, (if h.isSet then v = .array front else front = [some v]) ∧
          st'.Collects o key a front) := by
  rw [accumulate_absent absent stored, h.isArrayShaped_eq]
  cases collection : h.isCollection with
  | false =>
    obtain ⟨st', slot, placed, lone⟩ := lone_place there key (Host.single_of_stored collection stored)
    exact ⟨st', placed, .inl ⟨rfl, slot, lone⟩⟩
  | true =>
    cases set : h.isSet with
    | false =>
      obtain ⟨st', a, placed, collects, -⟩ := collects_place there key [some v]
      exact ⟨st', placed, .inr ⟨rfl, a, _, rfl, collects⟩⟩
    | true =>
      obtain ⟨front, rfl⟩ := Host.array_of_isSet set stored
      obtain ⟨st', a, placed, collects, -⟩ := collects_place there key front
      exact ⟨st', placed, .inr ⟨rfl, a, front, rfl, collects⟩⟩

theorem intern_draftOf (st : Store) (slot : Slot) : st.intern (draftOf slot) = (slot, st) := by
  cases slot <;> rfl

theorem accumulate_second {slot : Slot} (lone : st.Lone o key slot v) {w : Draft}
    (stored : h.stored st.view = .ok (some w)) :
    ∃ st' a, accumulate o (.ofText key) h st = .ok () st' ∧ st'.Collects o key a [some v, some w] := by
  obtain ⟨st', a, placed, collects, frame, new, inside⟩ := collects_place lone.there key [some (draftOf slot), some w]
  refine ⟨st', a, (accumulate_lone lone.held lone.single stored).trans placed, { collects with shows := ?_ }⟩
  -- the first element is the slot that stood alone, and what it shows is older than the array
  have shows := collects.shows
  rw [internElements_some, intern_draftOf] at inside
  rw [inside] at shows ⊢
  cases shows with
  | cons _ rest => exact .cons (lone.shows.frame frame (unused_of_new new)) rest

theorem pushTo_collected (collects : st.Collects o key a elements) (stored : h.stored st.view = .ok (some v)) :
    ∃ st', pushTo a h st = .ok () st' ∧ st'.Collects o key a (elements ++ [some v]) ∧
      st.elementsOf a <+: st'.elementsOf a := by
  obtain ⟨st', pushed, frame, inside⟩ := exists_pushTo collects.array stored
  have grows := st.grows_intern v
  have whole := grows.frame.trans frame
  refine ⟨st', pushed, ⟨whole.has _ collects.there, ?_, whole.has _ collects.array, ?_⟩, inside ▸ List.prefix_append _ _⟩
  · rw [whole.objects o collects.there (by simp), collects.held]
  -- what is added is shown by containers of its own, and the other elements by those that have not changed
  · have old : ∀ target ∈ [.object o, .array a], st.Has target := by
      simpa using ⟨collects.there, collects.array⟩
    have frame := frame.mono (List.subset_cons_self (.object o) _)
    have added := (shows_intern v st old (.refl _)).frame frame fun _ _ => id
    rw [inside]
    exact (collects.shows.frame (grows.frame.trans frame) fun _ _ => id).append (.cons added .nil)

/-! What many values do. -/

/-- An action takes values one after another, when these are their stored forms. -/
inductive Hands (act : Host → Action Unit) : Store → List Host → List Draft → Store → Prop
  | nil (start : Store) : Hands act start [] [] start
  | cons {start next last : Store} {value : Host} {rest : List Host} {first : Draft} {others : List Draft}
      (stored : value.stored start.view = .ok (some first)) (done : act value start = .ok () next)
      (further : Hands act next rest others last) : Hands act start (value :: rest) (first :: others) last

theorem hands_collected {act : Host → Action Unit} {hs : List Host}
    (pushes : ∀ {st h v}, (st.membersOf o).find? key = some (.link (.array a)) → h.stored st.view = .ok (some v) →
      act h st = pushTo a h st)
    (storable : ∀ h ∈ hs, h.IsStorable) (collects : st.Collects o key a elements) :
    ∃ vs st', Hands act st hs vs st' ∧ st'.Collects o key a (elements ++ vs.map some) ∧
      st.elementsOf a <+: st'.elementsOf a := by
  -- every value finds the key as the one before it has left it
  induction hs generalizing st elements with
  | nil => exact ⟨[], st, .nil st, by rwa [List.map_nil, List.append_nil], List.prefix_rfl⟩
  | cons h rest ih =>
    obtain ⟨first, others⟩ := List.forall_mem_cons.mp storable
    obtain ⟨v, stored⟩ := first st.view
    obtain ⟨st', pushed, collects', grown⟩ := pushTo_collected collects stored
    obtain ⟨vs, st'', hands, collects'', grown'⟩ := ih others collects'
    refine ⟨v :: vs, st'', .cons stored ((pushes collects.held stored).trans pushed) hands, ?_, grown.trans grown'⟩
    rwa [List.append_assoc] at collects''

theorem further_collected {hs ws : List Host} (begun : ∀ h ∈ hs, h.IsStorable) (appended : ∀ w ∈ ws, w.IsStorable)
    (collects : st.Collects o key a elements) :
    ∃ vs st', Hands (accumulate o (.ofText key)) st hs vs st' ∧ st'.Collects o key a (elements ++ vs.map some) ∧
      ∃ us st'', Hands (append o (.ofText key)) st' ws us st'' ∧
        st''.Collects o key a (elements ++ vs.map some ++ us.map some) ∧ st'.elementsOf a <+: st''.elementsOf a := by
  obtain ⟨vs, st', hands, collects, -⟩ := hands_collected accumulate_collected begun collects
  exact ⟨vs, st', hands, collects, hands_collected append_collected appended collects⟩

/-- Values accumulated under a new key. A single one that is no collection stands alone, and nothing is appended to it.
Otherwise an array holds their stored forms in their order, and values appended later come after them. Of a first value
that is a set this array holds the elements. -/
theorem accumulate_collects {hs ws : List Host} (there : o < st.objects.length)
    (absent : (st.membersOf o).find? key = none)
    (storable : ∀ value ∈ h :: (hs ++ ws), value.IsStorable) :
    ∃ v vs st', Hands (accumulate o (.ofText key)) st (h :: hs) (v :: vs) st' ∧
      ((hs = [] ∧ h.isCollection = false ∧ (∃ slot, st'.Lone o key slot v) ∧
          ∀ w ∈ ws, append o (.ofText key) w st' = .error (.memberMismatch key.quoted .array) st') ∨
        ((hs ≠ [] ∨ h.isCollection = true) ∧ ∃ a front, (if h.isSet then v = .array front else front = [some v]) ∧
          st'.Collects o key a (front ++ vs.map some) ∧
          ∃ us st'', Hands (append o (.ofText key)) st' ws us st'' ∧
            st''.Collects o key a (front ++ vs.map some ++ us.map some) ∧ st'.elementsOf a <+: st''.elementsOf a)) := by
  obtain ⟨first, others⟩ := List.forall_mem_cons.mp storable
  obtain ⟨begun, appended⟩ := List.forall_mem_append.mp others
  obtain ⟨v, stored⟩ := first st.view
  obtain ⟨st₁, done, ⟨single, slot, lone⟩ | ⟨collection, a, front, shape, collects⟩⟩ := accumulate_first there absent stored
  · cases hs with
    | nil =>
      refine ⟨v, [], st₁, .cons stored done (.nil st₁), .inl ⟨rfl, single, ⟨slot, lone⟩, fun w member => ?_⟩⟩
      obtain ⟨u, stored⟩ := appended w member st₁.view
      exact append_lone lone.held lone.single stored
    | cons h₂ hs =>
      obtain ⟨second, begun⟩ := List.forall_mem_cons.mp begun
      obtain ⟨w, stored₂⟩ := second st₁.view
      obtain ⟨st₂, a, done₂, collects⟩ := accumulate_second lone stored₂
      obtain ⟨vs, st', hands, further⟩ := further_collected begun appended collects
      have shape : if h.isSet then v = .array [some v] else [some v] = [some v] := by
        rw [Host.isSet_of_single single]
        rfl
      exact ⟨v, w :: vs, st', .cons stored done (.cons stored₂ done₂ hands), .inr ⟨.inl nofun, a, [some v], shape, further⟩⟩
  · obtain ⟨vs, st', hands, further⟩ := further_collected begun appended collects
    exact ⟨v, vs, st', .cons stored done hands, .inr ⟨.inr collection, a, front, shape, further⟩⟩

theorem accumulate_collects_tuple : ∃ v vs st',
    Hands (accumulate 0 (.ofText [107])) ⟨[[]], [], [], ⟨80, 80, 80⟩⟩ [.sequence .tuple [.ofInt 1], .ofInt 2] (v :: vs) st' ∧
      ∃ a us st'', st'.Collects 0 [107] a (some v :: vs.map some) ∧
        Hands (append 0 (.ofText [107])) st' [.link (.object 0)] us st'' ∧
        st''.Collects 0 [107] a (some v :: vs.map some ++ us.map some) := by
  have storable : ∀ value ∈ Host.sequence .tuple [.ofInt 1] :: ([.ofInt 2] ++ [.link (.object 0)]),
      value.IsStorable := by
    simp only [List.cons_append, List.nil_append, List.forall_mem_cons]
    exact ⟨fun _ => ⟨_, rfl⟩, fun _ => ⟨_, rfl⟩, fun _ => ⟨_, rfl⟩, List.forall_mem_nil _⟩
  have absent : (membersOf ⟨[[]], [], [], ⟨80, 80, 80⟩⟩ 0).find? [107] = none := rfl
  obtain ⟨v, vs, st', hands, ⟨none, -⟩ | ⟨-, a, front, rfl, collects, us, st'', hands', collects', -⟩⟩ :=
    accumulate_collects Nat.one_pos absent storable
  · cases none
  · exact ⟨v, vs, st', hands, a, us, st'', collects, hands', collects'⟩

/-- A set is stored as an array, which then takes the second value, so that its own elements are among those collected. -/
theorem accumulate_set : ∃ st', Hands (accumulate 0 (.ofText [107])) ⟨[[]], [], [], ⟨80, 80, 80⟩⟩
    [.sequence .set [.ofInt 1], .ofInt 2] [.array [some (.scalar (.int 1))], .scalar (.int 2)] st' ∧
      (st'.membersOf 0).find? [107] = some (.link (.array 0)) ∧
      st'.elementsOf 0 = [some (.leaf (.int 1)), some (.leaf (.int 2))] ∧
      ∀ a, ¬ st'.Collects 0 [107] a [some (.array [some (.scalar (.int 1))]), some (.scalar (.int 2))] := by
  refine ⟨_, .cons rfl rfl (.cons rfl rfl (.nil _)), rfl, rfl, fun a collects => ?_⟩
  cases collects.held
  cases collects.shows with
  | cons first _ => cases first

end Action

end LenientJson
