import LenientJson.Proofs.Table.Dotted
import LenientJson.Store.Construct

/-! The object that a table becomes in a store. A document stands in a store through a container of its own
for each of its objects, an outer one before the inner ones; so a step on the way to the end of a path
changes containers of the document only, and adds others behind them. -/
namespace LenientJson

namespace Store
open List (Disjoint)

mutual
/-- A slot stands for a document of leaves and objects, which has the containers `owned` to itself. -/
inductive Stands (st : Store) : Slot → Tree → List Nat → Prop
  | leaf (leaf : Scalar) : Stands st (.leaf leaf) (.scalar leaf) []
  | object {o slots members owned} (here : st.objects[o]? = some slots) (inside : MembersStand st slots members owned)
      (behind : ∀ i ∈ owned, o < i) : Stands st (.link (.object o)) (.object members) (o :: owned)

inductive MembersStand (st : Store) : Members Slot → Members Tree → List Nat → Prop
  | nil : MembersStand st [] [] []
  | cons {key slot v slots members owned others} (first : Stands st slot v owned)
      (rest : MembersStand st slots members others) (apart : Disjoint owned others) :
      MembersStand st ((key, slot) :: slots) ((key, v) :: members) (owned ++ others)
end

variable {st st' : Store}

/-- Induction on the members alone. -/
theorem MembersStand.induct {motive : ∀ slots members owned, MembersStand st slots members owned → Prop}
    (nil : motive [] [] [] .nil)
    (cons : ∀ {key slot v slots members owned others} (first : Stands st slot v owned)
      (rest : MembersStand st slots members others) (apart : Disjoint owned others),
      motive slots members others rest →
        motive ((key, slot) :: slots) ((key, v) :: members) (owned ++ others) (.cons first rest apart))
    {slots : Members Slot} {members : Members Tree} {owned : List Nat}
    (stand : MembersStand st slots members owned) : motive slots members owned stand := by
  match stand with
  | .nil => exact nil
  | .cons first rest apart => exact cons first rest apart (rest.induct nil cons)

mutual
theorem Stands.frame {slot : Slot} {v : Tree} {owned : List Nat} (stands : st.Stands slot v owned)
    (same : ∀ i ∈ owned, st'.objects[i]? = st.objects[i]?) : st'.Stands slot v owned := by
  match stands with
  | .leaf leaf => exact .leaf leaf
  | .object here inside behind =>
    have inner := inside.frame fun i member => same i (List.mem_cons_of_mem _ member)
    exact .object ((same _ List.mem_cons_self).trans here) inner behind

theorem MembersStand.frame {slots : Members Slot} {members : Members Tree} {owned : List Nat}
    (stand : st.MembersStand slots members owned) (same : ∀ i ∈ owned, st'.objects[i]? = st.objects[i]?) :
    st'.MembersStand slots members owned := by
  match stand with
  | .nil => exact .nil
  | .cons first rest apart =>
    have one := first.frame fun i member => same i (List.mem_append_left _ member)
    have others := rest.frame fun i member => same i (List.mem_append_right _ member)
    exact .cons one others apart
end

mutual
theorem Stands.lt_length {slot : Slot} {v : Tree} {owned : List Nat} (stands : st.Stands slot v owned) :
    ∀ i ∈ owned, i < st.objects.length := by
  match stands with
  | .leaf leaf => simp
  | .object here inside behind =>
    intro i member
    rcases List.mem_cons.mp member with rfl | member
    · exact (List.getElem?_eq_some_iff.mp here).1
    · exact inside.lt_length i member

theorem MembersStand.lt_length {slots : Members Slot} {members : Members Tree} {owned : List Nat}
    (stand : st.MembersStand slots members owned) : ∀ i ∈ owned, i < st.objects.length := by
  match stand with
  | .nil => simp
  | .cons first rest apart =>
    intro i member
    exact (List.mem_append.mp member).elim (first.lt_length i) (rest.lt_length i)
end

mutual
/-- Inner containers come later, so that the containers from the outermost one on bound the nesting. -/
theorem Stands.treeWithin {slot : Slot} {v : Tree} {owned : List Nat} (stands : st.Stands slot v owned)
    {start depth : Nat} (behind : ∀ i ∈ owned, start ≤ i) (enough : st.objects.length ≤ start + depth) :
    st.treeWithin depth slot = some v := by
  match stands with
  | .leaf leaf => exact (by cases depth <;> rfl)
  | @Stands.object _ o slots members owned here inside inner =>
    have low := behind o List.mem_cons_self
    have high := (List.getElem?_eq_some_iff.mp here).1
    obtain ⟨depth, rfl⟩ : ∃ n, depth = n + 1 := Nat.exists_eq_succ_of_ne_zero (by omega)
    have further : ∀ i ∈ owned, start + 1 ≤ i := fun i member => Nat.lt_of_le_of_lt low (inner i member)
    have remaining : st.objects.length ≤ start + 1 + depth := by omega
    have whole := inside.mapM further remaining
    simp only [Store.treeWithin, membersOf, here, Option.getD_some, whole, Option.map_some]

theorem MembersStand.mapM {slots : Members Slot} {members : Members Tree} {owned : List Nat}
    (stand : st.MembersStand slots members owned) {start depth : Nat} (behind : ∀ i ∈ owned, start ≤ i)
    (enough : st.objects.length ≤ start + depth) :
    (slots.mapM fun member => (st.treeWithin depth member.2).map fun tree => (member.1, tree)) = some members := by
  match stand with
  | .nil => rfl
  | .cons first rest apart =>
    have one := first.treeWithin (fun i member => behind i (List.mem_append_left _ member)) enough
    have others := rest.mapM (fun i member => behind i (List.mem_append_right _ member)) enough
    simp [one, others]
end

theorem Stands.tree? {slot : Slot} {v : Tree} {owned : List Nat} (stands : st.Stands slot v owned) :
    st.tree? slot = some v := by
  have enough : st.objects.length ≤ 0 + (st.objects.length + st.arrays.length) := by omega
  exact stands.treeWithin (fun i _ => Nat.zero_le i) enough

/-- Of the containers that were there, only those of a document have changed. -/
structure Confined (st st' : Store) (owned owned' : List Nat) : Prop where
  new : ∀ i ∈ owned', i ∈ owned ∨ st.objects.length ≤ i
  frame : ∀ i < st.objects.length, i ∉ owned → st'.objects[i]? = st.objects[i]?

/-- A member that is put in stands as well, if it shares no container with the others. -/
theorem MembersStand.insert {slots : Members Slot} {members : Members Tree} {owned new : List Nat} {slot : Slot}
    {v : Tree} (stand : st.MembersStand slots members owned) (stands : st.Stands slot v new)
    (apart : Disjoint new owned) (key : Text) :
    ∃ owned', st.MembersStand (slots.insert key slot) (members.insert key v) owned' ∧
      ∀ i ∈ owned', i ∈ owned ∨ i ∈ new := by
  induction stand using MembersStand.induct with
  | nil =>
    refine ⟨_, .cons stands .nil (List.disjoint_nil_right new), fun i member => .inr ?_⟩
    rwa [List.append_nil] at member
  | @cons k slot' v' slots members first others one rest between ih =>
    rw [List.disjoint_append_right] at apart
    by_cases same : k = key
    · rw [Members.insert, Members.insert, if_pos same, if_pos same]
      refine ⟨_, .cons stands rest apart.2, fun i member => ?_⟩
      rcases List.mem_append.mp member with added | kept
      · exact .inr added
      · exact .inl (List.mem_append_right first kept)
    · obtain ⟨owned', stand', only⟩ := ih apart.2
      have between' : Disjoint first owned' := fun i member member' =>
        (only i member').elim (between member) fun new => apart.1 new member
      rw [Members.insert, Members.insert, if_neg same, if_neg same]
      refine ⟨_, .cons one stand' between', fun i member => ?_⟩
      rcases List.mem_append.mp member with kept | changed
      · exact .inl (List.mem_append_left _ kept)
      · exact (only i changed).imp (List.mem_append_right first) id

/-- What a key leads to can be changed in its containers; the others are not concerned. -/
def Replaceable (st : Store) (slots : Members Slot) (members : Members Tree) (key : Text) (slot : Slot)
    (owned inner : List Nat) : Prop :=
  ∀ st' v inner', Stands st' slot v inner' → Confined st st' inner inner' →
    ∃ owned', MembersStand st' slots (members.insert key v) owned' ∧ ∀ i ∈ owned', i ∈ owned ∨ i ∈ inner'

theorem Replaceable.here {key : Text} {slot : Slot} {v : Tree} {slots : Members Slot} {members : Members Tree}
    {first others : List Nat} (rest : st.MembersStand slots members others) (between : Disjoint first others) :
    st.Replaceable ((key, slot) :: slots) ((key, v) :: members) key slot (first ++ others) first := by
  intro st' w inner' stands confined
  have old := rest.lt_length
  have others' := rest.frame fun i member => confined.frame i (old i member) fun inside => between inside member
  have apart : Disjoint inner' others := by
    intro i member member'
    rcases confined.new i member with inside | new
    · exact between inside member'
    · exact absurd (old i member') (Nat.not_lt.mpr new)
  refine ⟨inner' ++ others, ?_, fun i member => ?_⟩
  · rw [Members.insert, if_pos rfl]
    exact .cons stands others' apart
  · rcases List.mem_append.mp member with changed | kept
    · exact .inr changed
    · exact .inl (List.mem_append_right first kept)

theorem Replaceable.later {key k : Text} {slot slot' : Slot} {v : Tree} {slots : Members Slot} {members : Members Tree}
    {first others inner : List Nat} (other : k ≠ key) (one : st.Stands slot' v first) (between : Disjoint first others)
    (within : ∀ i ∈ inner, i ∈ others) (replaceable : st.Replaceable slots members key slot others inner) :
    st.Replaceable ((k, slot') :: slots) ((k, v) :: members) key slot (first ++ others) inner := by
  intro st' w inner' stands confined
  obtain ⟨owned', stand, only⟩ := replaceable st' w inner' stands confined
  have old := one.lt_length
  have outside {i : Nat} (member : i ∈ first) : i ∉ inner := fun inside => between member (within i inside)
  have one' := one.frame fun i member => confined.frame i (old i member) (outside member)
  have apart : Disjoint first owned' := by
    intro i member member'
    rcases only i member' with inside | changed
    · exact between member inside
    rcases confined.new i changed with inside | new
    · exact outside member inside
    · exact absurd (old i member) (Nat.not_lt.mpr new)
  refine ⟨first ++ owned', ?_, fun i member => ?_⟩
  · rw [Members.insert, if_neg other]
    exact .cons one' stand apart
  · rcases List.mem_append.mp member with kept | changed
    · exact .inl (List.mem_append_left _ kept)
    · exact (only i changed).imp (List.mem_append_right first) id

/-- Looking a key up finds the same on both sides. -/
theorem MembersStand.find? {slots : Members Slot} {members : Members Tree} {owned : List Nat}
    (stand : st.MembersStand slots members owned) (key : Text) :
    slots.find? key = none ∧ members.find? key = none ∨ ∃ slot v inner, slots.find? key = some slot ∧
      members.find? key = some v ∧ st.Stands slot v inner ∧ (∀ i ∈ inner, i ∈ owned) ∧
      st.Replaceable slots members key slot owned inner := by
  induction stand using MembersStand.induct with
  | nil => exact .inl ⟨rfl, rfl⟩
  | @cons k slot' v' slots members first others one rest between ih =>
    by_cases same : k = key
    · subst same
      rw [Members.find?, Members.find?, if_pos rfl, if_pos rfl]
      exact .inr ⟨slot', v', first, rfl, rfl, one, fun _ => List.mem_append_left others, .here rest between⟩
    · rw [Members.find?, Members.find?, if_neg same, if_neg same]
      rcases ih with absent | ⟨slot, v, inner, found, found', stands, within, replaceable⟩
      · exact .inl absent
      · have inside : ∀ i ∈ inner, i ∈ first ++ others := fun i member => List.mem_append_right first (within i member)
        exact .inr ⟨slot, v, inner, found, found', stands, inside, .later same one between within replaceable⟩

end Store

namespace Action
open Store
open List (Disjoint)
open Table (innerOf place_cons)

/-- Puts a value at the end of a path. -/
def putAlong (o : Nat) (path : List Text) (value : Host) : Action Unit := do
  let target ← descend o path.dropLast
  put target (.ofText (path.getLast?.getD [])) value

theorem putEntries_cons (o : Nat) (key : Text) (value : Host) (rest : List (Host × Host)) (st : Store) :
    putEntries o ((.ofText key, value) :: rest) st =
      (putAlong o (Text.splitOn Symbol.dot key) value >>= fun _ => putEntries o rest) st := by
  simp only [putAlong, bind_assoc]
  rfl

theorem put_ofText (o : Nat) (key t : Text) (st : Store) : put o (.ofText key) (.ofText t) st =
    .ok () (st.setMembers o ((st.membersOf o).insert key (.leaf (.text t)))) := rfl

/-- The store with one more object, which is empty and linked to from another one. -/
def linked (st : Store) (o : Nat) (key : Text) : Store :=
  let st' := (st.addObject []).2
  st'.setMembers o ((st'.membersOf o).insert key (.link (.object st.objects.length)))

theorem optObject_ofText (st : Store) (o : Nat) (key : Text) : st.optObject o (.ofText key) =
    match (st.membersOf o).find? key with
    | some (.link (.object inner)) => .ok (some inner)
    | _ => .ok none := rfl

theorem putAlong_inner {o inner : Nat} {segment : Text} {st : Store}
    (found : (st.membersOf o).find? segment = some (.link (.object inner))) (next : Text) (path : List Text)
    (value : Host) : putAlong o (segment :: next :: path) value st = putAlong inner (next :: path) value st := by
  have asked : st.optObject o (.ofText segment) = .ok (some inner) := by rw [optObject_ofText, found]
  simp only [putAlong, List.dropLast_cons_cons, descend, query, asked, bind, EStateM.bind]
  rfl

theorem putAlong_new {o : Nat} {segment : Text} {st : Store}
    (other : ∀ inner, (st.membersOf o).find? segment ≠ some (.link (.object inner))) (next : Text) (path : List Text)
    (value : Host) : putAlong o (segment :: next :: path) value st =
      putAlong st.objects.length (next :: path) value (linked st o segment) := by
  have asked : st.optObject o (.ofText segment) = .ok none := by
    rw [optObject_ofText]
    split
    · next inner found => exact absurd found (other inner)
    · rfl
  simp only [putAlong, List.dropLast_cons_cons, descend, query, asked, bind, EStateM.bind]
  rfl

theorem membersOf_eq {st : Store} {o : Nat} {slots : Members Slot} (here : st.objects[o]? = some slots) :
    st.membersOf o = slots := by rw [membersOf, here, Option.getD_some]

theorem linked_objects {st : Store} {o : Nat} {slots : Members Slot} (here : st.objects[o]? = some slots) (key : Text) :
    (linked st o key).objects =
      (st.objects ++ [[]]).set o (slots.insert key (.link (.object st.objects.length))) := by
  have low := (List.getElem?_eq_some_iff.mp here).1
  have same : (st.addObject []).2.objects[o]? = some slots := (List.getElem?_append_left low).trans here
  simp only [linked, membersOf_eq same]
  rfl

section
variable {st st' : Store} {o : Nat} {slots slots' : Members Slot} {m m' : Members Tree} {owned owned' : List Nat}

/-- An object whose own entries have changed, or whose members have, still stands for its members. -/
theorem Stands.of_change (behind : ∀ i ∈ owned, o < i) (low : o < st.objects.length)
    (here : st'.objects[o]? = some slots') (inside : st'.MembersStand slots' m' owned')
    (only : ∀ i ∈ owned', i ∈ owned ∨ st.objects.length ≤ i)
    (frame : ∀ i < st.objects.length, i ≠ o → i ∉ owned → st'.objects[i]? = st.objects[i]?) :
    st'.Stands (.link (.object o)) (.object m') (o :: owned') ∧ Confined st st' (o :: owned) (o :: owned') := by
  refine ⟨.object here inside fun i member => ?_, ⟨fun i member => ?_, fun i old other => ?_⟩⟩
  · rcases only i member with inside | new
    · exact behind i inside
    · exact Nat.lt_of_lt_of_le low new
  · rcases List.mem_cons.mp member with rfl | member
    · exact .inl List.mem_cons_self
    · exact (only i member).imp (List.mem_cons_of_mem o) id
  · rw [List.mem_cons, not_or] at other
    exact frame i old other.1 other.2

variable (here : st.objects[o]? = some slots) (inside : st.MembersStand slots m owned) (behind : ∀ i ∈ owned, o < i)
include here inside behind

/-- The last step puts a text into the object itself. -/
theorem exists_put (key t : Text) : ∃ st' owned', put o (.ofText key) (.ofText t) st = .ok () st' ∧
    st'.Stands (.link (.object o)) (.object (m.insert key (.scalar (.text t)))) owned' ∧
    Confined st st' (o :: owned) owned' := by
  have low := (List.getElem?_eq_some_iff.mp here).1
  have objects : (st.setMembers o (slots.insert key (.leaf (.text t)))).objects =
      st.objects.set o (slots.insert key (.leaf (.text t))) := rfl
  have inside' : (st.setMembers o (slots.insert key (.leaf (.text t)))).MembersStand slots m owned :=
    inside.frame fun i member => by rw [objects, List.getElem?_set_ne (Nat.ne_of_lt (behind i member))]
  obtain ⟨owned', stand, only⟩ := inside'.insert (.leaf (.text t)) (List.disjoint_nil_left owned) key
  refine ⟨_, o :: owned', (put_ofText o key t st).trans (by rw [membersOf_eq here]), ?_⟩
  refine Stands.of_change behind low ?_ stand (fun i member => .inl ((only i member).elim id (by simp)))
    fun i _ other _ => ?_
  · rw [objects, List.getElem?_set_self low]
  · rw [objects, List.getElem?_set_ne (Ne.symm other)]

variable {segment next : Text} {path : List Text} {value : Host} {v : Members Tree → Members Tree}

/-- A step into an object that is there, if what follows does its part. -/
theorem exists_inner {inner : Nat} (found : slots.find? segment = some (.link (.object inner)))
    (further : ∀ (m : Members Tree) (owned : List Nat), st.Stands (.link (.object inner)) (.object m) owned →
      ∃ st' owned', putAlong inner (next :: path) value st = .ok () st' ∧
        st'.Stands (.link (.object inner)) (.object (v m)) owned' ∧ Confined st st' owned owned') :
    ∃ st' owned', putAlong o (segment :: next :: path) value st = .ok () st' ∧
      st'.Stands (.link (.object o)) (.object (m.insert segment (.object (v (innerOf segment m))))) owned' ∧
      Confined st st' (o :: owned) owned' := by
  have low := (List.getElem?_eq_some_iff.mp here).1
  rcases inside.find? segment with ⟨absent, -⟩ | ⟨slot, tree, own, found', there, stands, within, replaceable⟩
  · rw [absent] at found
    cases found
  rw [found] at found'
  cases found'
  cases tree with
  | object members =>
    obtain ⟨st', own', ok, stands', confined⟩ := further members own stands
    obtain ⟨owned', stand, only⟩ := replaceable st' _ own' stands' confined
    have out : o ∉ own := fun member => Nat.lt_irrefl o (behind o (within o member))
    have same : innerOf segment m = members := by rw [innerOf, there]
    refine ⟨st', o :: owned', ?_, ?_⟩
    · rw [putAlong_inner (by rw [membersOf_eq here, found]), ok]
    rw [same]
    refine Stands.of_change behind low ((confined.frame o low out).trans here) stand (fun i member => ?_)
      fun i old _ other => confined.frame i old fun member => other (within i member)
    rcases only i member with inside | changed
    · exact .inl inside
    · exact (confined.new i changed).imp (within i) id
  | _ => cases stands

/-- A step into an object that is made anew, if what follows does its part. -/
theorem exists_new (other : ∀ inner, slots.find? segment ≠ some (.link (.object inner)))
    (further : (linked st o segment).Stands (.link (.object st.objects.length)) (.object []) [st.objects.length] →
      ∃ st' owned', putAlong st.objects.length (next :: path) value (linked st o segment) = .ok () st' ∧
        st'.Stands (.link (.object st.objects.length)) (.object (v [])) owned' ∧
        Confined (linked st o segment) st' [st.objects.length] owned') :
    ∃ st' owned', putAlong o (segment :: next :: path) value st = .ok () st' ∧
      st'.Stands (.link (.object o)) (.object (m.insert segment (.object (v (innerOf segment m))))) owned' ∧
      Confined st st' (o :: owned) owned' := by
  have low := (List.getElem?_eq_some_iff.mp here).1
  have objects := linked_objects here segment
  have length : (linked st o segment).objects.length = st.objects.length + 1 := by simp [objects]
  have empty : (linked st o segment).objects[st.objects.length]? = some [] := by
    rw [objects, List.getElem?_set_ne (Nat.ne_of_lt low)]
    simp
  obtain ⟨st', own', ok, stands, confined⟩ := further (.object empty .nil (by simp))
  have kept {i : Nat} (old : i < st.objects.length) : st'.objects[i]? = (linked st o segment).objects[i]? :=
    confined.frame i (by omega) (by simp; omega)
  have frame (i : Nat) (old : i < st.objects.length) (different : i ≠ o) : st'.objects[i]? = st.objects[i]? := by
    rw [kept old, objects, List.getElem?_set_ne (Ne.symm different), List.getElem?_append_left old]
  have inside' := inside.frame fun i member =>
    frame i (inside.lt_length i member) (Nat.ne_of_gt (behind i member))
  have new : ∀ i ∈ own', st.objects.length ≤ i := by
    intro i member
    rcases confined.new i member with same | beyond
    · exact Nat.le_of_eq (List.mem_singleton.mp same).symm
    · omega
  have apart : Disjoint own' owned := fun i member member' =>
    absurd (inside.lt_length i member') (Nat.not_lt.mpr (new i member))
  obtain ⟨owned', stand, only⟩ := inside'.insert stands apart segment
  have same : innerOf segment m = [] := by
    rcases inside.find? segment with ⟨-, absent⟩ | ⟨slot, tree, _, found, there, stands, -⟩
    · rw [innerOf, absent]
    · rw [innerOf, there]
      cases stands with
      | leaf leaf => rfl
      | object => exact absurd found (other _)
  refine ⟨st', o :: owned', ?_, ?_⟩
  · rw [putAlong_new (by rwa [membersOf_eq here]), ok]
  rw [same]
  refine Stands.of_change behind low ?_ stand (fun i member => (only i member).imp id (new i))
    fun i old different _ => frame i old different
  rw [kept low, objects, List.getElem?_set_self (by simp; omega)]

end

/-- A text that is put at the end of a path changes the document as it does in a tree. -/
theorem exists_putAlong {path : List Text} (some : path ≠ []) (t : Text) {st : Store} {o : Nat} {m : Members Tree}
    {owned : List Nat} (stands : st.Stands (.link (.object o)) (.object m) owned) :
    ∃ st' owned', putAlong o path (.ofText t) st = .ok () st' ∧
      st'.Stands (.link (.object o)) (.object (Table.place (.scalar (.text t)) path m)) owned' ∧
      Confined st st' owned owned' := by
  induction path generalizing st o m owned with
  | nil => exact absurd rfl some
  | cons segment path ih =>
    cases stands with
    | @object _ slots _ owned here inside behind =>
    cases path with
    | nil => exact exists_put here inside behind segment t
    | cons next path =>
      rw [place_cons]
      by_cases there : ∃ inner, slots.find? segment = Option.some (Slot.link (Link.object inner))
      · obtain ⟨inner, found⟩ := there
        exact exists_inner here inside behind found fun m owned stands => ih (by simp) stands
      · exact exists_new here inside behind (not_exists.mp there) fun stands => ih (by simp) stands

end Action

namespace Table
open LenientJson.Action Store

/-- A table as it is handed over. -/
def host (table : Table) : List (Host × Host) := table.map fun entry => (.ofText entry.1, .ofText entry.2)

theorem exists_putEntries (table : Table) {st : Store} {o : Nat} {m : Members Tree} {owned : List Nat}
    (stands : st.Stands (.link (.object o)) (.object m) owned) :
    ∃ st' owned', putEntries o table.host st = .ok () st' ∧
      st'.Stands (.link (.object o)) (.object (table.foldl (fun m entry =>
        Table.place (.scalar (.text entry.2)) (Text.splitOn Symbol.dot entry.1) m) m)) owned' := by
  induction table generalizing st m owned with
  | nil => exact ⟨st, owned, rfl, stands⟩
  | cons entry rest ih =>
    obtain ⟨st', owned', ok, stands', -⟩ := exists_putAlong (Text.splitOn_ne_nil Symbol.dot entry.1) entry.2 stands
    obtain ⟨st'', owned'', ok', stands''⟩ := ih stands'
    refine ⟨st'', owned'', ?_, stands''⟩
    rw [host, List.map_cons, putEntries_cons]
    simp only [bind, EStateM.bind, ok]
    exact ok'

/-- A table of texts becomes an object of the store that stands for the expanded table. -/
theorem exists_objectOfTable (table : Table) (st : Store) :
    ∃ o st', objectOfTable (.mapping table.host) st = .ok o st' ∧
      st'.tree? (.link (.object o)) = some (.object (Table.expand table)) := by
  have here : (st.addObject []).2.objects[st.objects.length]? = some [] := List.getElem?_concat_length
  have empty : (st.addObject []).2.Stands (.link (.object st.objects.length)) (.object []) [st.objects.length] :=
    .object here .nil (by simp)
  obtain ⟨st', owned, ok, stands⟩ := exists_putEntries table empty
  refine ⟨st.objects.length, st', ?_, stands.tree?⟩
  have made : newObject [] st = .ok st.objects.length (st.addObject []).2 := rfl
  simp only [objectOfTable, bind, EStateM.bind, made, ok]
  rfl

/-- The object made of a table holds exactly the entries that collide with no later one, each at the end of its
path, and no object in it is empty. If no path begins with another one, the table in any other order gives
a similar object, which holds all entries. -/
theorem leaves_objectOfTable (table : Table) (distinct : table.keys.Nodup) (st : Store) :
    ∃ o st', ∃ members : Members Tree,
      objectOfTable (.mapping table.host) st = .ok o st' ∧ st'.tree? (.link (.object o)) = some (.object members) ∧
      (∀ leaf, leaf ∈ Value.leaves (.object members) ↔ leaf ∈ (survivors table).map leafOf) ∧
      members.IsMapTo Value.IsNest ∧
      (table.IsPrefixFree → ∀ other : Table, other.Perm table → ∀ st₁ : Store, ∃ p st₂, ∃ others : Members Tree,
        objectOfTable (.mapping other.host) st₁ = .ok p st₂ ∧ st₂.tree? (.link (.object p)) = some (.object others) ∧
          Value.similar (.object members) (.object others) = .ok true ∧
          ∀ leaf, leaf ∈ Value.leaves (.object others) ↔ leaf ∈ table.map leafOf) := by
  obtain ⟨o, st', ok, tree⟩ := exists_objectOfTable table st
  refine ⟨o, st', expand table, ok, tree, mem_leaves_expand distinct, isMapTo_expand table, ?_⟩
  intro free other perm st₁
  obtain ⟨p, st₂, ok', tree'⟩ := exists_objectOfTable other st₁
  obtain ⟨similar, all⟩ := expand_of_perm distinct free perm
  exact ⟨p, st₂, expand other, ok', tree', similar, all⟩

/-- Empty segments, and two paths that part in the middle; first in one order, then in the other. -/
theorem leaves_objectOfTable_reversed : ∃ table other : Table, table = [([0x2E], [0x78]), ([0x61, 0x2E, 0x62], []),
    ([0x61, 0x2E, 0x63], [0x79])] ∧ other = table.reverse ∧
    ∃ o st p st', ∃ members others : Members Tree,
      objectOfTable (.mapping table.host) (empty ⟨80, 80, 80⟩) = .ok o st ∧
      st.tree? (.link (.object o)) = some (.object members) ∧
      objectOfTable (.mapping other.host) st = .ok p st' ∧ st'.tree? (.link (.object p)) = some (.object others) ∧
      (∀ leaf, leaf ∈ Value.leaves (.object members) ↔ leaf ∈ [([[], []], .scalar (.text [0x78])),
        ([[0x61], [0x62]], .scalar (.text [])), ([[0x61], [0x63]], .scalar (.text [0x79]))]) ∧
      Value.similar (.object members) (.object others) = .ok true := by
  refine ⟨_, _, rfl, rfl, ?_⟩
  obtain ⟨o, st, members, ok, tree, leaves, -, perm⟩ := leaves_objectOfTable [([0x2E], [0x78]), ([0x61, 0x2E, 0x62], []),
    ([0x61, 0x2E, 0x63], [0x79])] (by decide) (empty ⟨80, 80, 80⟩)
  have free : IsPrefixFree [([0x2E], [0x78]), ([0x61, 0x2E, 0x62], []), ([0x61, 0x2E, 0x63], [0x79])] := by
    unfold IsPrefixFree
    decide
  obtain ⟨p, st', others, ok', tree', similar, -⟩ := perm free _ (List.reverse_perm _) st
  exact ⟨o, st, p, st', members, others, ok, tree, ok', tree', leaves, similar⟩

end Table
end LenientJson
