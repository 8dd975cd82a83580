import LenientJson.Proofs.Rounds
import Mathlib.Logic.Function.Iterate

/-! The readers come to an end. Without a bound, the steps of their loops and of their calls of one another are an
unrolling, in which other readers may stand in for the calls. Unrolled often enough, the readers no longer depend on
what stands in: no reading gets that far, and the bounds of the readers are never met. -/
namespace LenientJson.Reader
open Tokener

/-- The readers that call themselves or one another. -/
structure Loops where
  clean : Reader (Option CodePoint)
  string : (mark : Option CodePoint) → (read : List CodePoint) → Reader Text
  bare : (last : Option CodePoint) → (read : List CodePoint) → Reader Text
  value : Reader Tree
  object : Reader (Members Tree)
  members : (read : Members Tree) → Reader (Members Tree)
  array : Reader (List (Option Tree))
  elements : (read : List (Option Tree)) → Reader (List (Option Tree))

namespace Loops

/-- A bare word, whose characters `bare` collects. -/
def word (r : Loops) : (first : Option CodePoint) → Reader Scalar := wordStep fun first => r.bare first []

/-- What each reader does when every call is answered by the readers of `r`. -/
def unrolled (r : Loops) : Loops where
  clean := cleanStep r.clean
  string mark := stringStep mark (r.string mark)
  bare := bareStep r.bare
  value := valueStep r.clean (fun mark => r.string mark []) r.word r.object r.array
  object := objectStep r.clean r.members
  members := membersStep r.clean r.value r.members
  array := arrayStep r.clean r.elements
  elements := elementsStep r.clean r.value r.elements

/-- Characters of which some may be looked at: the last one read and those ahead. -/
def reach (last : Option CodePoint) (s : Tokener) : Nat := last.toList.length + s.rest.length

/-- The readers of `r` do as the bounded ones where the characters ahead and the fuel allow it within `n`
unrollings. -/
structure Settled (n : Nat) (r : Loops) : Prop where
  clean : ∀ {s : Tokener}, s.before = 0 → s.rest.length < n → r.clean s = nextClean s
  string : ∀ {s : Tokener} mark read {limit : Nat}, s.before = 0 → s.rest.length < n →
    s.rest.length < limit → r.string mark read s = stringWithin mark limit read s
  bare : ∀ {s : Tokener} last read {limit : Nat}, s.before = 0 → reach last s < n → reach last s < limit →
    r.bare last read s = bareWithin limit last read s
  -- A value asks for the object or array in it, and that one for its loop, before a character is used up: three
  -- levels to a character, and the loops come in one above a value.
  value : ∀ {s : Tokener} {fuel : Nat}, s.before = 0 → 3 * s.rest.length + 3 ≤ n →
    3 * s.rest.length + 3 ≤ fuel → r.value s = Reader.value fuel s
  object : ∀ {s : Tokener} {fuel : Nat}, s.before = 0 → 3 * s.rest.length + 2 ≤ n →
    3 * s.rest.length + 2 ≤ fuel → r.object s = Reader.object fuel s
  members : ∀ {s : Tokener} {fuel : Nat} read, s.before = 0 → 3 * s.rest.length + 4 ≤ n →
    3 * s.rest.length + 4 ≤ fuel → r.members read s = Reader.members fuel read s
  array : ∀ {s : Tokener} {fuel : Nat}, s.before = 0 → 3 * s.rest.length + 2 ≤ n →
    3 * s.rest.length + 2 ≤ fuel → r.array s = Reader.array fuel s
  elements : ∀ {s : Tokener} {fuel : Nat} read, s.before = 0 → 3 * s.rest.length + 4 ≤ n →
    3 * s.rest.length + 4 ≤ fuel → r.elements read s = Reader.elements fuel read s

variable {n : Nat} {r : Loops} {s : Tokener}

theorem clean_unrolled (settled : Settled n r) (inside : s.before = 0) (near : s.rest.length < n + 1) :
    r.unrolled.clean s = nextClean s := by
  obtain ⟨consumed, t, m, before⟩ := s
  cases inside
  cases t with
  | nil => rfl
  | cons c t =>
    rw [List.length_cons] at near
    have start : nextClean ⟨consumed, c :: t, m, 0⟩ = cleanWithin (t.length + 1) ⟨consumed, c :: t, m, 0⟩ := by
      rw [nextClean, run, ahead, Nat.zero_add, List.length_cons]
    rw [start, cleanWithin]
    refine bind_congr rfl fun x s' ok => ?_
    cases ok
    dsimp only
    split
    · rw [settled.clean rfl (by dsimp only; omega), nextClean, run, ahead, Nat.zero_add]
    · rfl

theorem string_unrolled (settled : Settled n r) (mark : Option CodePoint) (read : List CodePoint) {limit : Nat}
    (inside : s.before = 0) (near : s.rest.length < n + 1) (enough : s.rest.length < limit) :
    r.unrolled.string mark read s = stringWithin mark limit read s := by
  obtain ⟨limit, rfl⟩ : ∃ k, limit = k + 1 := Nat.exists_eq_succ_of_ne_zero (by omega)
  obtain ⟨consumed, t, m, before⟩ := s
  cases inside
  cases t with
  | nil => rfl
  | cons c t =>
    dsimp only [List.length_cons] at near enough
    rw [stringWithin]
    refine bind_congr rfl fun x s₁ ok => ?_
    cases ok
    dsimp only
    split
    · rfl
    split
    · refine bind_congr rfl fun meaning s₂ ok => ?_
      have lead := ((proceeds_escape rfl).of_ok ok).1
      have shorter := lead.rest_length
      dsimp only at shorter
      cases meaning with
      | none => rfl
      | some meaning => exact settled.string mark _ lead.inside (by omega) (by omega)
    split
    · rfl
    · exact settled.string mark _ rfl (by dsimp only; omega) (by dsimp only; omega)

theorem bare_unrolled (settled : Settled n r) (last : Option CodePoint) (read : List CodePoint) {limit : Nat}
    (inside : s.before = 0) (near : reach last s < n + 1) (enough : reach last s < limit) :
    r.unrolled.bare last read s = bareWithin limit last read s := by
  obtain ⟨limit, rfl⟩ : ∃ k, limit = k + 1 := Nat.exists_eq_succ_of_ne_zero (by omega)
  cases last with
  | none => rfl
  | some c =>
    change bareStep r.bare (some c) read s = bareStep (bareWithin limit) (some c) read s
    rw [bareStep, bareStep]
    split
    case isFalse => rfl
    refine bind_congr rfl fun last s' ok => ?_
    obtain ⟨consumed, t, m, before⟩ := s
    cases inside
    have closer : reach last s' < reach (some c) ⟨consumed, t, m, 0⟩ ∧ s'.before = 0 := by
      cases t with
      | nil =>
        cases ok
        exact ⟨Nat.zero_lt_one, rfl⟩
      | cons d t =>
        cases ok
        exact ⟨Nat.lt_succ_self _, rfl⟩
    exact settled.bare last _ closer.2 (Nat.lt_of_lt_of_le closer.1 (Nat.le_of_lt_succ near))
      (Nat.lt_of_lt_of_le closer.1 (Nat.le_of_lt_succ enough))

theorem word_settled (settled : Settled n r) {first : Option CodePoint} (inside : s.before = 0)
    (near : reach first s < n) : r.word first s = bareWord first s := by
  refine bind_congr ?_ fun _ _ _ => rfl
  have within : reach first s < s.ahead + 2 := by
    have := Option.length_toList_le (o := first)
    rw [reach, ahead, inside]
    omega
  exact settled.bare first [] inside near within

/-! The rounds of the loops, with one set of readers and with another. -/

theorem separation_settled (settled : Settled n r) (separators : List CodePoint) (closing : CodePoint)
    (reason : SyntaxReason) (inside : s.before = 0) (near : s.rest.length < n) :
    separation r.clean separators closing reason s = separation nextClean separators closing reason s := by
  obtain ⟨x, s₁, -, first, -, -, onward⟩ := exists_nextClean inside
  have shorter := onward.rest_length
  rw [separation, separation, bind_apply ((settled.clean inside near).trans first), bind_apply first]
  cases x with
  | none => rfl
  | some c =>
    dsimp only
    split
    · exact bind_congr (settled.clean onward.inside (by omega)) fun _ _ _ => rfl
    · rfl

theorem memberRound_settled (settled : Settled n r) {fuel : Nat} (read : Members Tree) (inside : s.before = 0)
    (near : 3 * s.rest.length + 3 ≤ n) (enough : 3 * s.rest.length + 3 ≤ fuel) :
    memberRound r.clean r.value read s = memberRound nextClean (Reader.value fuel) read s := by
  have values : ReadsValues (Reader.value fuel) := (progress fuel).values
  obtain ⟨x, s₁, s₂, first, given, held, -⟩ := exists_nextClean inside
  have shorter := held.rest_length
  rw [memberRound, memberRound, bind_apply ((settled.clean inside (by omega)).trans first), bind_apply first]
  cases x with
  | none => rfl
  | some c =>
    dsimp only
    split
    · rfl
    rw [bind_apply given, bind_apply given]
    refine bind_congr (settled.value held.inside (by omega) (by omega)) fun key s₃ ok => ?_
    have lead := ((values held.inside).of_ok ok).1
    have shorter := lead.rest_length
    obtain ⟨y, s₄, -, colon, -, -, onward⟩ := exists_nextClean lead.inside
    rw [bind_apply ((settled.clean lead.inside (by omega)).trans colon), bind_apply colon]
    have shorter := onward.rest_length
    split
    case isFalse => rfl
    refine bind_congr (settled.value onward.inside (by omega) (by omega)) fun item s₅ ok => ?_
    obtain ⟨lead, finite⟩ := (values onward.inside).of_ok ok
    have shorter := lead.rest_length
    refine bind_congr rfl fun read' s₆ ok => ?_
    have lead := ((proceeds_addNew lead.inside read _ item).of_ok ok).1
    have shorter := lead.rest_length
    rw [requireFinite_bind finite, requireFinite_bind finite]
    exact bind_congr (separation_settled settled _ _ _ lead.inside (by omega)) fun _ _ _ => rfl

theorem slotRound_settled (settled : Settled n r) {fuel : Nat} (inside : s.before = 0)
    (near : 3 * s.rest.length + 3 ≤ n) (enough : 3 * s.rest.length + 3 ≤ fuel) :
    slotRound r.clean r.value s = slotRound nextClean (Reader.value fuel) s := by
  obtain ⟨x, s₁, s₂, first, given, held, -⟩ := exists_nextClean inside
  have shorter := held.rest_length
  rw [slotRound, slotRound, bind_apply ((settled.clean inside (by omega)).trans first), bind_apply first,
    bind_apply given, bind_apply given]
  have element : slotElement r.value x s₂ = slotElement (Reader.value fuel) x s₂ := by
    rw [slotElement, slotElement]
    split
    · rfl
    · exact settled.value held.inside (by omega) (by omega)
  refine bind_congr element fun v s₃ ok => ?_
  obtain ⟨lead, finite⟩ := (proceeds_slotElement (progress fuel).values x held.inside).of_ok ok
  have shorter := lead.rest_length
  rw [requireFinite_bind finite, requireFinite_bind finite]
  exact bind_congr (separation_settled settled _ _ _ lead.inside (by omega)) fun _ _ _ => rfl

/-! One more unrolling settles one more level. -/

theorem value_unrolled (settled : Settled n r) {fuel : Nat} (inside : s.before = 0)
    (near : 3 * s.rest.length + 3 ≤ n + 1) (enough : 3 * s.rest.length + 3 ≤ fuel) :
    r.unrolled.value s = Reader.value fuel s := by
  obtain ⟨fuel, rfl⟩ : ∃ k, fuel = k + 1 := Nat.exists_eq_succ_of_ne_zero (by omega)
  obtain ⟨x, s₁, s₂, first, given, held, onward⟩ := exists_nextClean inside
  have shorter := held.rest_length
  have ahead := onward.rest_length
  have word : (r.word x >>= fun word => pure (.scalar word : Tree)) s₁ =
      (bareWord x >>= fun word => pure (.scalar word : Tree)) s₁ :=
    bind_congr (word_settled settled onward.inside (by rw [reach]; omega)) fun _ _ _ => rfl
  rw [Reader.value, valueStep]
  refine (bind_apply ((settled.clean inside (by omega)).trans first)).trans ?_
  rw [bind_apply first]
  cases x with
  | none => exact word
  | some c =>
    dsimp only
    split
    · refine bind_congr ?_ fun _ _ _ => rfl
      exact settled.string _ _ onward.inside (by omega) (by rw [Tokener.ahead]; omega)
    split
    · rw [bind_apply given, bind_apply given]
      exact bind_congr (settled.object held.inside (by omega) (by omega)) fun _ _ _ => rfl
    split
    · rw [bind_apply given, bind_apply given]
      exact bind_congr (settled.array held.inside (by omega) (by omega)) fun _ _ _ => rfl
    · exact word

theorem object_unrolled (settled : Settled n r) {fuel : Nat} (inside : s.before = 0)
    (near : 3 * s.rest.length + 2 ≤ n + 1) (enough : 3 * s.rest.length + 2 ≤ fuel) :
    r.unrolled.object s = Reader.object fuel s := by
  obtain ⟨fuel, rfl⟩ : ∃ k, fuel = k + 1 := Nat.exists_eq_succ_of_ne_zero (by omega)
  obtain ⟨x, s₁, -, first, -, -, onward⟩ := exists_nextClean inside
  have ahead := onward.rest_length
  rw [Reader.object, objectStep]
  refine (bind_apply ((settled.clean inside (by omega)).trans first)).trans ?_
  rw [bind_apply first]
  cases x with
  | none => rfl
  | some c =>
    rw [Option.toList_some, List.length_singleton] at ahead
    split
    · exact settled.members [] onward.inside (by omega) (by omega)
    · rfl

theorem members_unrolled (settled : Settled n r) {fuel : Nat} (read : Members Tree) (inside : s.before = 0)
    (near : 3 * s.rest.length + 4 ≤ n + 1) (enough : 3 * s.rest.length + 4 ≤ fuel) :
    r.unrolled.members read s = Reader.members fuel read s := by
  obtain ⟨fuel, rfl⟩ : ∃ k, fuel = k + 1 := Nat.exists_eq_succ_of_ne_zero (by omega)
  rw [Reader.members, membersStep]
  refine bind_congr (memberRound_settled settled read inside (by omega) (by omega)) fun round s' ok => ?_
  have lead := ((proceeds_memberRound (progress fuel).values read inside).of_ok ok).1
  have shorter := lead.rest_length
  obtain ⟨read, more⟩ := round
  dsimp only
  split
  · exact settled.members read lead.inside (by omega) (by omega)
  · rfl

theorem array_unrolled (settled : Settled n r) {fuel : Nat} (inside : s.before = 0)
    (near : 3 * s.rest.length + 2 ≤ n + 1) (enough : 3 * s.rest.length + 2 ≤ fuel) :
    r.unrolled.array s = Reader.array fuel s := by
  obtain ⟨fuel, rfl⟩ : ∃ k, fuel = k + 1 := Nat.exists_eq_succ_of_ne_zero (by omega)
  obtain ⟨x, s₁, -, first, -, -, onward⟩ := exists_nextClean inside
  have ahead := onward.rest_length
  rw [Reader.array, arrayStep]
  refine (bind_apply ((settled.clean inside (by omega)).trans first)).trans ?_
  rw [bind_apply first]
  cases x with
  | none => rfl
  | some c =>
    rw [Option.toList_some, List.length_singleton] at ahead
    split
    case isFalse => rfl
    obtain ⟨y, s₂, s₃, second, given, held, -⟩ := exists_nextClean onward.inside
    have shorter := held.rest_length
    rw [bind_apply ((settled.clean onward.inside (by omega)).trans second), bind_apply second]
    split
    · rfl
    · rw [bind_apply given, bind_apply given]
      exact settled.elements [] held.inside (by omega) (by omega)

theorem elements_unrolled (settled : Settled n r) {fuel : Nat} (read : List (Option Tree)) (inside : s.before = 0)
    (near : 3 * s.rest.length + 4 ≤ n + 1) (enough : 3 * s.rest.length + 4 ≤ fuel) :
    r.unrolled.elements read s = Reader.elements fuel read s := by
  obtain ⟨fuel, rfl⟩ : ∃ k, fuel = k + 1 := Nat.exists_eq_succ_of_ne_zero (by omega)
  rw [Reader.elements, elementsStep]
  refine bind_congr (slotRound_settled settled inside (by omega) (by omega)) fun round s' ok => ?_
  have lead := ((proceeds_slotRound (progress fuel).values inside).of_ok ok).1
  have shorter := lead.rest_length
  obtain ⟨element, more⟩ := round
  dsimp only
  split
  · exact settled.elements _ lead.inside (by omega) (by omega)
  · rfl

theorem settled_unrolled (settled : Settled n r) : Settled (n + 1) r.unrolled :=
  ⟨clean_unrolled settled, string_unrolled settled, bare_unrolled settled, value_unrolled settled,
    object_unrolled settled, members_unrolled settled, array_unrolled settled, elements_unrolled settled⟩

theorem settled_iterate (stand : Loops) (n : Nat) : Settled n (unrolled^[n] stand) := by
  induction n with
  | zero =>
    -- Nothing is claimed of the readers that stand in, which may be any.
    refine ⟨?_, ?_, ?_, ?_, ?_, ?_, ?_, ?_⟩ <;> intros <;> omega
  | succ n ih =>
    rw [Function.iterate_succ_apply']
    exact settled_unrolled ih

end Loops

theorem readsValues_nextValue : ReadsValues nextValue := by
  intro s inside
  have start : nextValue s = value (fuelFor s) s := rfl
  have proceeds := (progress (fuelFor s)).values inside
  rw [Proceeds, start]
  exact proceeds

theorem complaint_of_parseObject {t : Text} {fault : Fault} (failed : parseObject t = .error fault) :
    Complaint t fault := by
  rw [parseObject] at failed
  split at failed
  · cases failed
  · next failed' =>
    cases failed
    exact ((progress _).objects rfl).complaint failed'

/-- Parsing a text, or reading a value at its beginning, comes to an end and gives something or complains
about the text: unrolled often enough the recursion does not depend on what answers its further calls. A
value read from any place, and every round of the two loops, takes at least one character. -/
theorem parsing_ends (t : Text) :
    (∀ (stand : Loops) (n : Nat), 3 * t.length + 3 ≤ n →
      (Loops.unrolled^[n] stand).object (ofText t) = nextObject (ofText t) ∧
      (Loops.unrolled^[n] stand).value (ofText t) = nextValue (ofText t)) ∧
    (∀ fault, parseObject t = .error fault → Complaint t fault) ∧
    (∀ fault s, nextValue (ofText t) = .error fault s → Complaint t fault) ∧
    (∀ s v s', s.before = 0 → nextValue s = .ok v s' → s.position + 1 ≤ s'.position) ∧
    (∀ read s round s', s.before = 0 → memberRound nextClean nextValue read s = .ok round s' →
      s.position + 1 ≤ s'.position) ∧
    (∀ s round s', s.before = 0 → slotRound nextClean nextValue s = .ok round s' →
      s.position + 1 ≤ s'.position) := by
  refine ⟨fun stand n enough => ?_, fun _ => complaint_of_parseObject, fun _ _ failed => ?_, ?_, ?_, ?_⟩
  · have settled := Loops.settled_iterate stand n
    have fuel : fuelFor (ofText t) = 3 * t.length + 3 := by
      simp only [fuelFor, ahead, ofText, Nat.zero_add]
    exact ⟨settled.object rfl (Nat.le_of_succ_le enough) (Nat.le_of_succ_le (Nat.le_of_eq fuel.symm)),
      settled.value rfl enough (Nat.le_of_eq fuel.symm)⟩
  · exact (readsValues_nextValue rfl).complaint failed
  · intro s v s' inside ok
    exact ((readsValues_nextValue inside).of_ok ok).1.position inside
  · intro read s round s' inside ok
    exact ((proceeds_memberRound readsValues_nextValue read inside).of_ok ok).1.position inside
  · intro s round s' inside ok
    exact ((proceeds_slotRound readsValues_nextValue inside).of_ok ok).1.position inside

end LenientJson.Reader
