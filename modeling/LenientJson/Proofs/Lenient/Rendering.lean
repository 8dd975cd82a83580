import LenientJson.Proofs.Layout
import LenientJson.Proofs.Lenient.Parsing
import LenientJson.Proofs.Number.Canonical

/-! Whatever is parsed can be written. The leaves of a parsed object are inferred from words or taken
from string literals, its arrays have no gaps and its objects no key twice; so every leaf has a text,
and writing can only fail where an indentation finds no room. -/
namespace LenientJson

namespace Scalar

/-- Leaves that a text can stand for. -/
def IsPlain : Scalar → Prop
  | null | bool _ | text _ => True
  | int n => minInt64 ≤ n ∧ n ≤ maxInt64
  | float value => value.isFinite = true
  | _ => False

theorem isPlain_inferFloat? {word : Text} {leaf : Scalar} (ok : inferFloat? word = some leaf) : leaf.IsPlain := by
  unfold inferFloat? at ok
  split at ok
  · cases ok
  split at ok
  · split at ok
    · next finite =>
      cases ok
      exact finite
    · cases ok
  · cases ok

theorem isPlain_inferInteger? {word : Text} {leaf : Scalar} (ok : inferInteger? word = some leaf) : leaf.IsPlain := by
  unfold inferInteger? at ok
  split at ok
  · split at ok
    · next fits =>
      cases ok
      exact fits.2
    · cases ok
  · cases ok

theorem isPlain_inferNumber? {word : Text} {leaf : Scalar} (ok : inferNumber? word = some leaf) : leaf.IsPlain := by
  unfold inferNumber? at ok
  split at ok
  · cases ok
  split at ok
  · exact isPlain_inferFloat? ok
  · exact isPlain_inferInteger? ok

theorem isPlain_inferred (word : Text) : (inferred word).IsPlain := by
  unfold inferred
  split
  · trivial
  split
  · trivial
  split
  · trivial
  cases number : inferNumber? word with
  | none => trivial
  | some leaf => exact isPlain_inferNumber? number

theorem IsPlain.hasText (leaf : Scalar) (plain : leaf.IsPlain) : Value.HasText leaf := by
  cases leaf with
  | float value => exact ⟨shaved value.text, canonicalNumber_float plain⟩
  | int n => exact ⟨_, integerText_of_isShort (isShort_of_int64 plain.1 plain.2)⟩
  | null | bool | text => exact ⟨_, rfl⟩
  | _ => cases plain

end Scalar

namespace Value

/-- Without a margin there is room if the lines of the innermost container of several entries find room. -/
theorem fits_iff {k : Int} {room : Nat} {v : Tree} :
    Layout.Fits ⟨k, 0, room⟩ v ↔ k * v.lineDepth ≤ maxInt64 ∧ k * v.lineDepth ≤ room := by
  have countable : minInt64 ≤ 0 := by decide
  have limit : 0 ≤ maxInt64 := by decide
  simp only [Layout.Fits, Layout.hasLines, decide_eq_false_iff_not, Int.zero_add, countable, true_and]
  constructor
  · rintro (flat | inline | wide)
    · have narrow : k * v.lineDepth ≤ 0 := Int.mul_nonpos_of_nonpos_of_nonneg (by omega) (by omega)
      omega
    · rw [inline, Int.natCast_zero, Int.mul_zero]
      omega
    · exact wide
  · exact fun wide => .inr (.inr wide)

theorem exists_render_iff {l : Layout} {v : Tree} (every : v.EveryLeaf HasText) :
    (∃ t, v.render l = .ok t) ↔ l.Fits v := by
  have whole : (write l 0 v).fault = none ↔ l.Fits v := write_fault_eq_none_iff.trans (and_iff_right every)
  rw [← whole, render, Emission.complete]
  cases (write l 0 v).fault <;> simp

theorem fits_flat (v : Tree) : Layout.Fits .flat v := .inl rfl

end Value

namespace Lenient
open Value (EveryLeaf EveryMemberLeaf EveryElementLeaf IsFull MembersFull ElementsFull)
open Source (memberMeanings slotMeanings)

/-! What a written value means is well formed: it has no gaps, and its objects keep the keys that were
written. -/
mutual
theorem isFull_meaning : ∀ source : Source, source.meaning.IsFull
  | .leaf _ => trivial
  | .object members => membersFull_meanings members
  | .array slots => elementsFull_meanings slots

theorem membersFull_meanings : ∀ members : List (Source × Source), MembersFull (memberMeanings members)
  | [] => trivial
  | (_, value) :: rest => ⟨isFull_meaning value, membersFull_meanings rest⟩

theorem elementsFull_meanings : ∀ slots : List Source, ElementsFull (slotMeanings slots)
  | [] => trivial
  | slot :: rest => ⟨isFull_meaning slot, elementsFull_meanings rest⟩
end

mutual
theorem keysDiffer_meaning : ∀ source : Source, source.KeysDiffer → source.meaning.KeysDiffer
  | .leaf _ => id
  | .object members => fun ⟨distinct, differ⟩ => ⟨distinct, memberKeysDiffer_meanings members differ⟩
  | .array slots => elementKeysDiffer_meanings slots

theorem memberKeysDiffer_meanings : ∀ members : List (Source × Source), Source.MemberKeysDiffer members →
    Value.MemberKeysDiffer (memberMeanings members)
  | [] => id
  | (_, value) :: rest => fun ⟨_, differs, differ⟩ =>
    ⟨keysDiffer_meaning value differs, memberKeysDiffer_meanings rest differ⟩

theorem elementKeysDiffer_meanings : ∀ slots : List Source, Source.SlotKeysDiffer slots →
    Value.ElementKeysDiffer (slotMeanings slots)
  | [] => id
  | slot :: rest => fun ⟨differs, differ⟩ => ⟨keysDiffer_meaning slot differs, elementKeysDiffer_meanings rest differ⟩
end

/-! Leaves are found where a derivation ends: in words, in string literals, and in empty slots. -/
mutual
theorem ValueAt.leaves {t rest : Text} {source : Source} (derived : ValueAt t source rest) :
    source.meaning.EveryLeaf Scalar.IsPlain := by
  match derived with
  | .quoted _ _ _ => exact trivial
  | .bare _ _ _ => exact Scalar.isPlain_inferred _
  | .object inside => exact inside.leaves
  | .array inside => exact inside.leaves

theorem ObjectAt.leaves {t rest : Text} {members : List (Source × Source)} (derived : ObjectAt t members rest) :
    EveryMemberLeaf Scalar.IsPlain (memberMeanings members) := by
  match derived with
  | .empty _ _ => exact trivial
  | .members _ inside => exact inside.leaves

theorem MemberAt.leaves {t rest : Text} {member : Source × Source} (derived : MemberAt t member rest) :
    member.2.meaning.EveryLeaf Scalar.IsPlain := by
  match derived with
  | .mk _ _ second => exact second.leaves

theorem MembersAt.leaves {t rest : Text} {members : List (Source × Source)} (derived : MembersAt t members rest) :
    EveryMemberLeaf Scalar.IsPlain (memberMeanings members) := by
  match derived with
  | .last first _ => exact ⟨first.leaves, trivial⟩
  | .trailing first _ _ _ => exact ⟨first.leaves, trivial⟩
  | .more first _ _ others => exact ⟨first.leaves, others.leaves⟩

theorem ArrayAt.leaves {t rest : Text} {slots : List Source} (derived : ArrayAt t slots rest) :
    EveryElementLeaf Scalar.IsPlain (slotMeanings slots) := by
  match derived with
  | .empty _ _ => exact trivial
  | .slots _ inside => exact inside.leaves

theorem SlotAt.leaves {t rest : Text} {slot : Source} (derived : SlotAt t slot rest) :
    slot.meaning.EveryLeaf Scalar.IsPlain := by
  match derived with
  | .empty _ => exact trivial
  | .filled inside => exact inside.leaves

theorem SlotsAt.leaves {t rest : Text} {slots : List Source} (derived : SlotsAt t slots rest) :
    EveryElementLeaf Scalar.IsPlain (slotMeanings slots) := by
  match derived with
  | .last first _ => exact ⟨first.leaves, trivial⟩
  | .trailing first _ _ => exact ⟨first.leaves, trivial⟩
  | .more first _ others => exact ⟨first.leaves, others.leaves⟩
end

/-- Everything parsed can be rendered: the leaves of a parsed object are null, truth values, integers of 64
bits, finite numbers and texts, its arrays have no gaps, and its objects no key twice. So its compact
text exists, and its text with an indentation step does if the step, taken once for each container of several
entries around the innermost one, can be counted and finds room. -/
theorem renders_of_parseObject (t : Text) (members : Members Tree) (parsed : parseObject t = .ok members) :
    (Value.object members).EveryLeaf Scalar.IsPlain ∧ (Value.object members).IsFull ∧
      (Value.object members).KeysDiffer ∧ (Value.object members).compact?.isSome = true ∧
      ∀ (k : Int) (room : Nat), (∃ text, (Value.object members).render ⟨k, 0, room⟩ = .ok text) ↔
        k * (Value.object members).lineDepth ≤ maxInt64 ∧ k * (Value.object members).lineDepth ≤ room := by
  obtain ⟨written, rest, derived, differ, rfl⟩ := objectAt_of_parseObject parsed
  have leaves : (Source.object written).meaning.EveryLeaf Scalar.IsPlain := derived.leaves
  have texts := leaves.imp Scalar.IsPlain.hasText
  refine ⟨leaves, isFull_meaning (.object written), keysDiffer_meaning (.object written) differ, ?_,
    fun k room => (Value.exists_render_iff texts).trans Value.fits_iff⟩
  obtain ⟨text, compact⟩ := (Value.exists_render_iff texts).mpr (Value.fits_flat _)
  exact Option.isSome_iff_exists.mpr ⟨text, congrArg Except.toOption compact⟩

/-- An empty slot before a bare word. -/
theorem renders_of_parseObject_slots : ∃ members, parseObject (Text.ofString "\x7b'a':[,true]\x7d") = .ok members ∧
    members = [([0x61], .array [some .null, some (.scalar (.bool true))])] ∧
    (Value.object members).compact?.isSome = true ∧ ∃ text, (Value.object members).render ⟨4, 0, 80⟩ = .ok text := by
  have parsed : parseObject (Text.ofString "\x7b'a':[,true]\x7d") =
      .ok [([0x61], .array [some .null, some (.scalar (.bool true))])] := by cbv
  obtain ⟨-, -, -, compact, renders⟩ := renders_of_parseObject _ _ parsed
  exact ⟨_, parsed, rfl, compact, (renders 4 80).mpr (by decide)⟩

/-- A step that cannot be counted in 64 bits breaks the text of an object of two members, whatever the room. -/
theorem render_not_complete : ∃ members, parseObject (Text.ofString "\x7b'a':'','b':''\x7d") = .ok members ∧
    ∀ room : Nat, (Value.object members).render ⟨maxInt64 + 1, 0, room⟩ = .error .tooLarge := by
  have parsed : parseObject (Text.ofString "\x7b'a':'','b':''\x7d") =
      .ok [([0x61], .scalar (.text [])), ([0x62], .scalar (.text []))] := by cbv
  exact ⟨_, parsed, fun _ => rfl⟩

end Lenient
end LenientJson
