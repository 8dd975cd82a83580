import LenientJson.Writer
import LenientJson.Proofs.Document
import LenientJson.Proofs.Grammar.Strict
import Mathlib.Tactic.Tauto

/-! When a document is written to its end. The only thing that can go wrong besides a leaf is a line
that cannot be indented, because its indentation cannot be counted or finds no room. The lines of a
document stand at every depth from the outermost container of several entries to the innermost one,
so it is enough that there is room at these depths. -/
namespace LenientJson

namespace Emission

def Emits (e : Emission) (t : Text) : Prop := e = ofText t

theorem emits_ofText {s t : Text} : (ofText s).Emits t ↔ s = t := by
  simp only [Emits, ofText, Emission.mk.injEq, and_true]

theorem fault_append {a b : Emission} : (a ++ b).fault = none ↔ a.fault = none ∧ b.fault = none := by
  obtain ⟨s, f⟩ := a
  cases f <;> simp [append_eq, append]

theorem emits_append {a b : Emission} {t : Text} : (a ++ b).Emits t ↔ ∃ s u, a.Emits s ∧ b.Emits u ∧ s ++ u = t := by
  obtain ⟨s, f⟩ := a
  obtain ⟨u, g⟩ := b
  cases f <;> cases g <;> simp [append_eq, append, Emits, ofText]

theorem emits_ofExcept {attempt : Except Fault Text} {t : Text} : (Emission.ofExcept attempt).Emits t ↔ attempt = .ok t := by
  cases attempt <;> simp [Emission.ofExcept, Emits, ofText]

theorem emits_of_fault {e : Emission} (whole : e.fault = none) : e.Emits e.text := by
  obtain ⟨t, f⟩ := e
  cases whole
  rfl

theorem Emits.append {a b : Emission} {s t : Text} (first : a.Emits s) (second : b.Emits t) : (a ++ b).Emits (s ++ t) :=
  emits_append.mpr ⟨s, t, first, second, rfl⟩

end Emission

namespace Layout
open Emission

variable {l : Layout} {depth m n : Nat}

theorem requireRoom_eq_ok_iff {room : Nat} {count : Int} :
    requireRoom room count = .ok () ↔ minInt64 ≤ count ∧ count ≤ maxInt64 ∧ count ≤ room := by
  unfold requireRoom
  split
  · simp only [reduceCtorEq, false_iff]
    omega
  split
  · simp only [reduceCtorEq, false_iff]
    omega
  · simp only [true_iff]
    omega

/-- A line on its own finds room if its indentation does. -/
theorem lineStart_fault_iff : (l.lineStart depth).fault = none ↔
    l.hasLines = false ∨ minInt64 ≤ l.margin + l.step * depth ∧ l.margin + l.step * depth ≤ maxInt64 ∧
      l.margin + l.step * depth ≤ l.room := by
  unfold lineStart
  cases lines : l.hasLines with
  | false => exact iff_of_true rfl (.inl rfl)
  | true =>
    simp only [if_true, fault_append, Bool.true_eq_false, false_or]
    rw [← requireRoom_eq_ok_iff]
    unfold indentation
    cases requireRoom l.room (l.margin + l.step * depth) with
    | ok => exact iff_of_true ⟨rfl, rfl⟩ rfl
    | error fault => exact iff_of_false (fun both => nomatch both.2) (fun same => nomatch same)

theorem indentation_eq {room : Nat} {width : Int} {t : Text} (ok : indentation room width = .ok t) :
    t = Text.spaces width.toNat := by
  unfold indentation at ok
  cases enough : requireRoom room width with
  | ok =>
    rw [enough] at ok
    cases ok
    rfl
  | error fault =>
    rw [enough] at ok
    cases ok

theorem areSpaces_of_lineStart {t : Text} (emits : (l.lineStart depth).Emits t) : Strict.AreSpaces t := by
  have spaces (n : Nat) : Strict.AreSpaces (Text.spaces n) := fun c member => .inl (List.eq_of_mem_replicate member)
  unfold lineStart at emits
  split at emits
  · obtain ⟨s, u, first, second, rfl⟩ := emits_append.mp emits
    obtain rfl := emits_ofText.mp first
    refine List.forall_mem_append.mpr ⟨by decide, ?_⟩
    rw [indentation_eq (emits_ofExcept.mp second)]
    exact spaces _
  · obtain rfl := emits_ofText.mp emits
    exact List.forall_mem_nil _

/-- There is room for the lines at `n` depths below `depth` and, if there are any, at `depth` itself. -/
def Spans (l : Layout) (depth n : Nat) : Prop := n ≠ 0 → ∀ d, depth ≤ d → d ≤ depth + n → (l.lineStart d).fault = none

theorem spans_zero : l.Spans depth 0 := fun some => absurd rfl some

theorem spans_max : l.Spans depth (max m n) ↔ l.Spans depth m ∧ l.Spans depth n := by
  constructor
  · intro spans
    exact ⟨fun some d low high => spans (by omega) d low (by omega), fun some d low high => spans (by omega) d low (by omega)⟩
  · rintro ⟨first, second⟩ some d low high
    rcases Nat.le_total m n with le | le
    · rw [Nat.max_eq_right le] at some high
      exact second some d low high
    · rw [Nat.max_eq_left le] at some high
      exact first some d low high

theorem spans_succ : l.Spans depth (n + 1) ↔
    (l.lineStart depth).fault = none ∧ (l.lineStart (depth + 1)).fault = none ∧ l.Spans (depth + 1) n := by
  constructor
  · intro spans
    have room := spans (Nat.succ_ne_zero n)
    exact ⟨room depth (by omega) (by omega), room (depth + 1) (by omega) (by omega),
      fun _ d low high => room d (by omega) (by omega)⟩
  · rintro ⟨outer, inner, below⟩ - d low high
    by_cases first : d = depth
    · rwa [first]
    · by_cases second : d = depth + 1
      · rwa [second]
      · exact below (by omega) d (by omega) (by omega)

end Layout

namespace Value
open Emission Layout

mutual
/-- How deep the lines of a document reach: the containers of several entries around the innermost one. -/
def lineDepth : Tree → Nat
  | .scalar _ => 0
  | .object members => if members.length ≤ 1 then memberDepth members else memberDepth members + 1
  | .array elements => if elements.length ≤ 1 then elementDepth elements else elementDepth elements + 1

def memberDepth : List (Text × Tree) → Nat
  | [] => 0
  | (_, value) :: rest => max (lineDepth value) (memberDepth rest)

def elementDepth : List (Option Tree) → Nat
  | [] => 0
  | none :: rest => elementDepth rest
  | some value :: rest => max (lineDepth value) (elementDepth rest)
end

end Value

/-- Whether every line of a document can be indented: the margin can be counted, and the widest indentation can and finds
room. -/
def Layout.Fits (l : Layout) (v : Tree) : Prop :=
  l.hasLines = false ∨ v.lineDepth = 0 ∨
    minInt64 ≤ l.margin ∧ l.margin + l.step * v.lineDepth ≤ maxInt64 ∧ l.margin + l.step * v.lineDepth ≤ l.room

instance (l : Layout) (v : Tree) : Decidable (l.Fits v) := inferInstanceAs (Decidable (_ ∨ _))

namespace Layout

/-- The innermost line is the widest, and the outermost one the narrowest. -/
theorem fits_iff_spans {l : Layout} {v : Tree} : l.Fits v ↔ l.Spans 0 v.lineDepth := by
  unfold Fits Spans
  simp only [lineStart_fault_iff, Nat.zero_add, Nat.zero_le, true_implies]
  generalize v.lineDepth = n
  cases lines : l.hasLines with
  | false => simp only [true_or, implies_true]
  | true =>
    have positive : 0 < l.step := of_decide_eq_true lines
    simp only [Bool.true_eq_false, false_or]
    by_cases none : n = 0
    · simp only [none, true_or, ne_eq, not_true, false_implies]
    · simp only [none, false_or, ne_eq, not_false_eq_true, true_implies]
      constructor
      · rintro ⟨low, high, room⟩ d within
        have deeper : l.step * d ≤ l.step * n := Int.mul_le_mul_of_nonneg_left (by omega) (Int.le_of_lt positive)
        have nonnegative : 0 ≤ l.step * d := Int.mul_nonneg (Int.le_of_lt positive) (by omega)
        omega
      · intro all
        have outer := (all 0 (Nat.zero_le n)).1
        have inner := (all n (Nat.le_refl n)).2
        simp only [Int.natCast_zero, Int.mul_zero, Int.add_zero] at outer
        exact ⟨outer, inner⟩

end Layout

namespace Value
open Emission Layout

def HasText (leaf : Scalar) : Prop := ∃ t, leaf.json = .ok t

theorem lineDepth_single (key : Text) (value : Tree) : lineDepth (.object [(key, value)]) = value.lineDepth :=
  Nat.max_zero _

theorem lineDepth_object (first second : Text × Tree) (rest : List (Text × Tree)) :
    lineDepth (.object (first :: second :: rest)) = memberDepth (first :: second :: rest) + 1 := by
  have several : ¬ (first :: second :: rest).length ≤ 1 := by
    simp only [List.length_cons]
    omega
  rw [lineDepth, if_neg several]

theorem lineDepth_array (first second : Option Tree) (rest : List (Option Tree)) :
    lineDepth (.array (first :: second :: rest)) = elementDepth (first :: second :: rest) + 1 := by
  have several : ¬ (first :: second :: rest).length ≤ 1 := by
    simp only [List.length_cons]
    omega
  rw [lineDepth, if_neg several]

variable {l : Layout}

theorem ofText_fault (t : Text) : (ofText t).fault = none := rfl

theorem ofExcept_fault_iff {leaf : Scalar} : (ofExcept leaf.json).fault = none ↔ HasText leaf := by
  unfold HasText
  cases leaf.json with
  | ok t => exact iff_of_true rfl ⟨t, rfl⟩
  | error fault => exact iff_of_false nofun nofun

mutual
/-- A document is written to its end just when all its leaves have texts and its lines find room. -/
theorem write_fault_iff : ∀ (v : Tree) (depth : Nat),
    (write l depth v).fault = none ↔ v.EveryLeaf HasText ∧ l.Spans depth v.lineDepth
  | .scalar leaf, depth => by
    rw [write, ofExcept_fault_iff]
    exact (and_iff_left spans_zero).symm
  | .object [], depth => iff_of_true rfl ⟨trivial, spans_zero⟩
  | .object [(key, value)], depth => by
    simp only [write, fault_append, ofText_fault, true_and, and_true, lineDepth_single, EveryLeaf, EveryMemberLeaf]
    exact write_fault_iff value depth
  | .object (first :: second :: rest), depth => by
    have one := write_fault_iff first.2 (depth + 1)
    have others := writeMembers_fault_iff (second :: rest) (depth + 1)
    have depths : memberDepth (first :: second :: rest) = max first.2.lineDepth (memberDepth (second :: rest)) := rfl
    have leaves : EveryLeaf HasText (.object (first :: second :: rest)) ↔
        first.2.EveryLeaf HasText ∧ EveryMemberLeaf HasText (second :: rest) := .rfl
    simp only [write, writeMember, fault_append, ofText_fault, true_and, and_true, one, others, lineDepth_object,
      spans_succ, depths, spans_max, leaves]
    tauto
  | .array [], depth => iff_of_true rfl ⟨trivial, spans_zero⟩
  | .array [none], depth => iff_of_true rfl ⟨trivial, spans_zero⟩
  | .array [some value], depth => by
    have depths : lineDepth (.array [some value]) = value.lineDepth := Nat.max_zero _
    simp only [write, writeElement, fault_append, ofText_fault, true_and, and_true, depths, EveryLeaf, EveryElementLeaf]
    exact write_fault_iff value depth
  | .array (none :: second :: rest), depth => by
    have others := writeElements_fault_iff (second :: rest) (depth + 1)
    have depths : elementDepth (none :: second :: rest) = elementDepth (second :: rest) := rfl
    have leaves : EveryLeaf HasText (.array (none :: second :: rest)) ↔ EveryElementLeaf HasText (second :: rest) := .rfl
    simp only [write, writeElement, fault_append, ofString, ofText_fault, true_and, and_true, others, lineDepth_array,
      spans_succ, depths, leaves]
    tauto
  | .array (some value :: second :: rest), depth => by
    have one := write_fault_iff value (depth + 1)
    have others := writeElements_fault_iff (second :: rest) (depth + 1)
    have depths : elementDepth (some value :: second :: rest) = max value.lineDepth (elementDepth (second :: rest)) := rfl
    have leaves : EveryLeaf HasText (.array (some value :: second :: rest)) ↔
        value.EveryLeaf HasText ∧ EveryElementLeaf HasText (second :: rest) := .rfl
    simp only [write, writeElement, fault_append, ofText_fault, true_and, and_true, one, others, lineDepth_array,
      spans_succ, depths, spans_max, leaves]
    tauto

theorem writeMembers_fault_iff : ∀ (members : List (Text × Tree)) (depth : Nat),
    (writeMembers l depth members).fault = none ↔ EveryMemberLeaf HasText members ∧
      (members ≠ [] → (l.lineStart depth).fault = none) ∧ l.Spans depth (memberDepth members)
  | [], depth => iff_of_true rfl ⟨trivial, fun some => absurd rfl some, spans_zero⟩
  | (key, value) :: rest, depth => by
    have one := write_fault_iff value depth
    have others := writeMembers_fault_iff rest depth
    simp only [writeMembers, writeMember, fault_append, ofText_fault, true_and, one, others, memberDepth, spans_max,
      EveryMemberLeaf, ne_eq, reduceCtorEq, not_false_eq_true, true_implies]
    tauto

theorem writeElements_fault_iff : ∀ (elements : List (Option Tree)) (depth : Nat),
    (writeElements l depth elements).fault = none ↔ EveryElementLeaf HasText elements ∧
      (elements ≠ [] → (l.lineStart depth).fault = none) ∧ l.Spans depth (elementDepth elements)
  | [], depth => iff_of_true rfl ⟨trivial, fun some => absurd rfl some, spans_zero⟩
  | none :: rest, depth => by
    have others := writeElements_fault_iff rest depth
    simp only [writeElements, writeElement, ofString, fault_append, ofText_fault, true_and, others, elementDepth,
      EveryElementLeaf, ne_eq, reduceCtorEq, not_false_eq_true, true_implies]
    tauto
  | some value :: rest, depth => by
    have one := write_fault_iff value depth
    have others := writeElements_fault_iff rest depth
    simp only [writeElements, writeElement, fault_append, ofText_fault, true_and, one, others, elementDepth, spans_max,
      EveryElementLeaf, ne_eq, reduceCtorEq, not_false_eq_true, true_implies]
    tauto
end

theorem write_fault_eq_none_iff {v : Tree} : (write l 0 v).fault = none ↔ v.EveryLeaf HasText ∧ l.Fits v := by
  rw [Layout.fits_iff_spans]
  exact write_fault_iff v 0

end Value
end LenientJson
