import LenientJson.Proofs.Number.Quantity
import LenientJson.Proofs.Store.Collected

/-! Arrays that are filled at their end and at any index. An array is as long as the places that were written need it to
be, and at each of its places it holds what was written there last, or a null where nothing was. -/
namespace LenientJson

namespace Host

/-! Integers as indexes. -/

theorem ordered_ofInt (i : Int) : (ofInt i).ordered = .ok (Quantity.ofInt i) := rfl

/-- An integer is compared as what it is, on either side of zero. -/
theorem quantity_ofInt (i : Int) :
    (0 ≤ i ∧ ∃ m, Quantity.ofInt i = .finite false m ∧ ∀ length : Nat, m.isBelow length = true ↔ i < length) ∨
      (i < 0 ∧ ∃ m, Quantity.ofInt i = .finite true m) := by
  have denotes := Quantity.denotes_ofInt i
  generalize Quantity.ofInt i = q at denotes ⊢
  generalize value : (i : Rat) = x at denotes
  cases denotes with
  | @plus m normal =>
    have nonnegative : 0 ≤ m.toRat := by unfold Magnitude.toRat; positivity
    rw [← value] at nonnegative
    refine .inl ⟨Int.cast_nonneg_iff.mp nonnegative, m, rfl, fun length => ?_⟩
    rw [Magnitude.isBelow_iff normal, ← value]
    exact_mod_cast Iff.rfl
  | @minus m normal nonzero =>
    have positive := Magnitude.toRat_pos normal nonzero
    rw [← neg_eq_iff_eq_neg] at value
    rw [← value] at positive
    exact .inr ⟨Int.cast_lt_zero.mp (neg_pos.mp positive), m, rfl⟩

theorem indexWithin?_ofInt (i : Int) (length : Nat) :
    (ofInt i).indexWithin? length = .ok (if 0 ≤ i ∧ i < length then some i.toNat else none) := by
  rw [indexWithin?, ordered_ofInt]
  obtain ⟨nonnegative, m, same, below⟩ | ⟨negative, m, same⟩ := quantity_ofInt i
  · simp only [same, bind, Except.bind, below, nonnegative, true_and]
    split <;> rfl
  · rw [same, if_neg fun inside => absurd inside.1 (Int.not_le.mpr negative)]
    rfl

end Host

/-- A value that is put into an array, at its end or at an index. -/
inductive Filling
  | put (value : Host)
  | putAt (index : Int) (value : Host)

namespace Filling

def call (a : Nat) : Filling → Call
  | put value => .push a value
  | putAt index value => .putAt a (.ofInt index) value

def value : Filling → Host
  | put value | putAt _ value => value

/-- The place that is meant, in an array of some length. -/
def place (length : Nat) : Filling → Int
  | put _ => length
  | putAt index _ => index

end Filling

/-- A value that has been written: where, and in which form. -/
structure Write where
  place : Int
  form : Option Draft

namespace Write

/-- What was written last at a place, and a null if nothing was. -/
def lastAt (writes : List Write) (j : Int) : Option Draft :=
  ((writes.reverse.find? fun write => write.place = j).map form).getD (some (.scalar .null))

variable {writes : List Write} {j : Int}

theorem lastAt_concat (writes : List Write) (write : Write) (j : Int) :
    lastAt (writes ++ [write]) j = if write.place = j then write.form else lastAt writes j := by
  rw [lastAt, List.reverse_concat, List.find?_cons]
  by_cases same : write.place = j
  · simp [same]
  · simp [same, lastAt]

theorem lastAt_of_unwritten (unwritten : ∀ write ∈ writes, write.place ≠ j) : lastAt writes j = some (.scalar .null) := by
  have nothing : writes.reverse.find? (fun write => write.place = j) = none := by simpa using unwritten
  rw [lastAt, nothing]
  rfl

end Write

namespace Filling

/-- What a call writes, unless it fails. -/
def write? (a : Nat) (st : Store) (fill : Filling) : Option Write :=
  match (fill.call a).act st, fill.value.stored st.view with
  | .ok _ _, .ok form => some ⟨fill.place (st.elementsOf a).length, form⟩
  | _, _ => none

/-- What a run of calls writes, in the order of the calls. -/
def writes (a : Nat) : Store → List Filling → List Write
  | _, [] => []
  | st, fill :: rest => (fill.write? a st).toList ++ writes a ((fill.call a).after st) rest

end Filling

namespace Action

/-! One place of a list of elements. -/

section
variable (elements : List (Option Slot)) (i : Nat) (element : Option Slot)

theorem length_withElement : (withElement elements i element).length = max elements.length (i + 1) := by
  rw [withElement]
  split
  · rw [List.length_set]
    omega
  · simp only [List.length_append, List.length_replicate, List.length_singleton]
    omega

theorem getElem?_withElement_self : (withElement elements i element)[i]? = some element := by
  rw [withElement]
  split
  · next inside => exact List.getElem?_set_self inside
  · next outside =>
    have length : (elements ++ List.replicate (i - elements.length) (some (Slot.leaf .null))).length = i := by
      rw [List.length_append, List.length_replicate]
      omega
    rw [List.getElem?_append_right (Nat.le_of_eq length), length, Nat.sub_self]
    rfl

theorem getElem?_withElement_of_lt {j : Nat} (inside : j < elements.length) (other : j ≠ i) :
    (withElement elements i element)[j]? = elements[j]? := by
  rw [withElement]
  split
  · rw [List.getElem?_set_ne (Ne.symm other)]
  · rw [List.append_assoc, List.getElem?_append_left inside]

theorem getElem?_withElement_of_le {j : Nat} (outside : elements.length ≤ j) (before : j < i) :
    (withElement elements i element)[j]? = some (some (.leaf .null)) := by
  rw [withElement, if_neg (by omega), List.append_assoc, List.getElem?_append_right outside, List.getElem?_append_left]
  · rw [List.getElem?_replicate, if_pos (by omega)]
  · rw [List.length_replicate]
    omega

end

/-- What stands at a place is what has been put there, or has stood there before, or fills a gap. -/
theorem getElem?_withElement_cases {elements : List (Option Slot)} {i j : Nat} {element found : Option Slot}
    (at_j : (withElement elements i element)[j]? = some found) :
    (j = i ∧ found = element) ∨ (j ≠ i ∧ elements[j]? = some found) ∨
      (j ≠ i ∧ elements.length ≤ j ∧ found = some (.leaf .null)) := by
  by_cases same : j = i
  · rw [same, getElem?_withElement_self] at at_j
    exact .inl ⟨same, (Option.some.inj at_j).symm⟩
  rcases Nat.lt_or_ge j elements.length with inside | outside
  · rw [getElem?_withElement_of_lt _ _ _ inside same] at at_j
    exact .inr (.inl ⟨same, at_j⟩)
  · have bound := (List.getElem?_eq_some_iff.mp at_j).1
    rw [length_withElement] at bound
    rw [getElem?_withElement_of_le _ _ _ outside (by omega)] at at_j
    exact .inr (.inr ⟨same, outside, (Option.some.inj at_j).symm⟩)

end Action

namespace Store

variable {st st' : Store} {a i : Nat} {form : Option Draft} {writes : List Write}

/-- A form has been written at a place of an array, and nothing else has changed. -/
structure Wrote (st st' : Store) (a i : Nat) (form : Option Draft) : Prop where
  frame : Frame [.array a] st st'
  element : ∃ element, st'.elementsOf a = Action.withElement (st.elementsOf a) i element ∧
    Option.Rel (st'.Shows [.array a]) element form

theorem shows_element_frame {element : Option Slot} (shows : Option.Rel (st.Shows [.array a]) element form)
    (frame : Frame [.array a] st st') : Option.Rel (st'.Shows [.array a]) element form := by
  cases shows with
  | none => exact .none
  | some shows => exact .some (shows.frame frame fun _ _ => id)

theorem wrote_setElements (there : st.Has (.array a)) (grows : st.Grows st') (i : Nat) {element : Option Slot}
    (shows : Option.Rel (st'.Shows [.array a]) element form) :
    st.Wrote (st'.setElements a (Action.withElement (st'.elementsOf a) i element)) a i form := by
  have frame : Frame [.array a] st' (st'.setElements a (Action.withElement (st'.elementsOf a) i element)) :=
    frame_setElements List.mem_cons_self _
  refine ⟨grows.frame.trans frame, element, ?_, shows_element_frame shows frame⟩
  rw [elementsOf_setElements (grows.has _ there), elementsOf_of_grown grows.arrays there]

theorem shows_interned (there : st.Has (.array a)) (v : Draft) :
    Option.Rel ((st.intern v).2.Shows [.array a]) (some (st.intern v).1) (some v) :=
  .some (shows_intern v st (List.forall_mem_singleton.mpr there) (.refl _))

/-- The array is there, as long as the writes need it to be, and with what they have left at each place. -/
structure FilledBy (st : Store) (a : Nat) (writes : List Write) : Prop where
  there : st.Has (.array a)
  within : ∀ write ∈ writes, 0 ≤ write.place ∧ write.place < (st.elementsOf a).length
  reached : (writes = [] ∧ (st.elementsOf a).length = 0) ∨ ∃ write ∈ writes, (st.elementsOf a).length = write.place + 1
  held : ∀ (j : Nat) (element : Option Slot), (st.elementsOf a)[j]? = some element →
    Option.Rel (st.Shows [.array a]) element (Write.lastAt writes j)

theorem FilledBy.wrote (filled : st.FilledBy a writes) (wrote : st.Wrote st' a i form) :
    st'.FilledBy a (writes ++ [⟨i, form⟩]) := by
  obtain ⟨element, elements, shows⟩ := wrote.element
  have length : (st'.elementsOf a).length = max (st.elementsOf a).length (i + 1) := by
    rw [elements, Action.length_withElement]
  refine ⟨wrote.frame.has _ filled.there, ?within, ?reached, ?held⟩
  case within =>
    intro write member
    rcases List.mem_append.mp member with old | new
    · obtain ⟨nonnegative, inside⟩ := filled.within write old
      omega
    · rw [List.mem_singleton.mp new]
      dsimp only
      omega
  case reached =>
    refine .inr ?_
    by_cases longer : (st.elementsOf a).length ≤ i
    · exact ⟨_, List.mem_append_right _ List.mem_cons_self, by dsimp only; omega⟩
    · obtain ⟨-, empty⟩ | ⟨write, old, reached⟩ := filled.reached
      · omega
      · exact ⟨write, List.mem_append_left _ old, by omega⟩
  case held =>
    intro j found at_j
    rw [elements] at at_j
    rw [Write.lastAt_concat]
    obtain ⟨rfl, rfl⟩ | ⟨other, old⟩ | ⟨other, beyond, rfl⟩ := Action.getElem?_withElement_cases at_j
    · rwa [if_pos rfl]
    · rw [if_neg fun same => other (Int.ofNat_inj.mp same).symm]
      exact shows_element_frame (filled.held j found old) wrote.frame
    · have unwritten : ∀ write ∈ writes, write.place ≠ j := by
        intro write old
        have := filled.within write old
        omega
      rw [if_neg fun same => other (Int.ofNat_inj.mp same).symm, Write.lastAt_of_unwritten unwritten]
      exact .some (.leaf .null)

end Store

namespace Action
open Store

variable {st : Store} {a : Nat}

/-! What a call does to an array. -/

theorem ends_pushTo (there : st.Has (.array a)) (value : Host) :
    (pushTo a value).Ends (fun _ st' => ∃ form, value.stored st.view = .ok form ∧
      st.Wrote st' a (st.elementsOf a).length form) st := by
  apply ends_query_bind
  intro form stored
  cases form with
  | none =>
    have wrote := wrote_setElements there (.refl st) (st.elementsOf a).length .none
    rw [withElement_length] at wrote
    exact ⟨none, stored, wrote⟩
  | some v =>
    -- the elements are the same ones after the value has been given its places
    have grows := st.grows_intern v
    have wrote := wrote_setElements there grows ((st.intern v).2.elementsOf a).length (shows_interned there v)
    have length := congrArg List.length (elementsOf_of_grown grows.arrays there)
    rw [withElement_length, length] at wrote
    exact ⟨some v, stored, wrote⟩

theorem wrote_placeAt (there : st.Has (.array a)) (i : Nat) (form : Option Draft) :
    (placeAt a i form).Ends (fun _ st' => st.Wrote st' a i form) st := by
  cases form with
  | none => exact wrote_setElements there (.refl st) i .none
  | some v => exact wrote_setElements there (st.grows_intern v) i (shows_interned there v)

theorem ends_putAt (there : st.Has (.array a)) (index : Int) (value : Host) :
    (putAt a (.ofInt index) value).Ends (fun _ st' => ∃ (i : Nat) (form : Option Draft), index = i ∧
      value.stored st.view = .ok form ∧ st.Wrote st' a i form) st := by
  apply ends_query_bind
  intro q ordered
  rw [Host.ordered_ofInt] at ordered
  cases ordered
  obtain ⟨nonnegative, m, same, -⟩ | ⟨-, m, same⟩ := Host.quantity_ofInt index
  · rw [same]
    apply ends_query_bind
    intro form stored
    apply ends_query_bind
    intro _ _
    exact (wrote_placeAt there index.toNat form).imp fun _ _ wrote =>
      ⟨index.toNat, form, (Int.toNat_of_nonneg nonnegative).symm, stored, wrote⟩
  · rw [same]
    exact ends_query_bind fun _ _ => ends_fail _

end Action

namespace Filling
open Store

variable {st : Store} {a : Nat}

theorem ends_act (there : st.Has (.array a)) (fill : Filling) :
    (fill.call a).act.Ends (fun _ st' => ∃ (i : Nat) (form : Option Draft), fill.place (st.elementsOf a).length = i ∧
      fill.value.stored st.view = .ok form ∧ st.Wrote st' a i form) st := by
  cases fill with
  | put value => exact (Action.ends_pushTo there value).imp fun _ _ ⟨form, stored, wrote⟩ => ⟨_, form, rfl, stored, wrote⟩
  | putAt index value => exact Action.ends_putAt there index value

/-- A call that fails writes nothing and changes nothing. -/
theorem write?_cases (there : st.Has (.array a)) (fill : Filling) :
    (fill.write? a st = none ∧ (fill.call a).after st = st) ∨
      ∃ (i : Nat) (form : Option Draft), fill.write? a st = some ⟨i, form⟩ ∧
        st.Wrote ((fill.call a).after st) a i form := by
  have ends := fill.ends_act there
  rw [write?, Call.after]
  cases run : (fill.call a).act st with
  | error fault st' => exact .inl ⟨rfl, Call.of_error run⟩
  | ok _ st' =>
    obtain ⟨i, form, place, stored, wrote⟩ := ends.of_ok run
    rw [stored, place]
    exact .inr ⟨i, form, rfl, wrote⟩

theorem filledBy_run {before : List Write} (filled : st.FilledBy a before) (fills : List Filling) :
    (st.run (fills.map (call a))).FilledBy a (before ++ writes a st fills) := by
  induction fills generalizing st before with
  | nil => rwa [writes, List.append_nil]
  | cons fill rest ih =>
    have step : ((fill.call a).after st).FilledBy a (before ++ (fill.write? a st).toList) := by
      obtain ⟨nothing, same⟩ | ⟨i, form, write, wrote⟩ := fill.write?_cases filled.there
      · rwa [nothing, same, Option.toList_none, List.append_nil]
      · rw [write, Option.toList_some]
        exact filled.wrote wrote
    have run := ih step
    rwa [List.append_assoc] at run

end Filling

namespace Store

variable {st : Store} {a : Nat} {writes : List Write}

theorem optAt_ofInt (st : Store) (a : Nat) (j : Int) : st.optAt a (.ofInt j) =
    .ok (if 0 ≤ j ∧ j < (st.elementsOf a).length then ((st.elementsOf a)[j.toNat]?).join else none) := by
  rw [optAt, Host.indexWithin?_ofInt]
  split <;> rfl

/-- The answers of an array tell of the writes alone. -/
structure AnswersLast (st : Store) (a : Nat) (writes : List Write) : Prop where
  within : ∀ write ∈ writes, 0 ≤ write.place ∧ write.place < (st.elementsOf a).length
  reached : (writes = [] ∧ (st.elementsOf a).length = 0) ∨ ∃ write ∈ writes, (st.elementsOf a).length = write.place + 1
  inside : ∀ j : Int, 0 ≤ j → j < (st.elementsOf a).length → ∃ element, st.optAt a (.ofInt j) = .ok element ∧
    Option.Rel (st.Shows [.array a]) element (Write.lastAt writes j)
  outside : ∀ j : Int, j < 0 ∨ (st.elementsOf a).length ≤ j → st.optAt a (.ofInt j) = .ok none
  get : ∀ (j : Int) (element : Option Slot), st.optAt a (.ofInt j) = .ok element → st.getAt a (.ofInt j) =
    match element with
    | some slot => .ok slot
    | none => .error (.elementNotFound (signedDecimalText j))

theorem FilledBy.answersLast (filled : st.FilledBy a writes) : st.AnswersLast a writes where
  within := filled.within
  reached := filled.reached
  inside j nonnegative bound := by
    obtain ⟨j, rfl⟩ := Int.eq_ofNat_of_zero_le nonnegative
    have inside : j < (st.elementsOf a).length := by omega
    have found := List.getElem?_eq_getElem inside
    refine ⟨(st.elementsOf a)[j], ?_, filled.held j _ found⟩
    rw [optAt_ofInt, if_pos ⟨nonnegative, bound⟩, Int.toNat_natCast, found]
    rfl
  outside j beyond := by
    rw [optAt_ofInt, if_neg (by omega)]
  get j element answer := by
    rw [getAt, answer]
    cases element <;> rfl

end Store
end LenientJson
