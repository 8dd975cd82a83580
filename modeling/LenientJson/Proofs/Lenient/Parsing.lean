import LenientJson.Proofs.Lenient.Soundness
import LenientJson.Proofs.Lenient.Completeness

/-! The whole parser against the lenient grammar. The fuel that a text is started with is always
enough, so the readers' soundness and completeness meet. -/
namespace LenientJson.Lenient
open Reader
open Source (memberMeanings)

theorem parseObject_eq_ok {t : Text} {m : Members Tree} :
    parseObject t = .ok m ↔ ∃ place, Reader.object (3 * t.length + 3) (Tokener.ofText t) = .ok m place := by
  have start : nextObject (Tokener.ofText t) = Reader.object (3 * t.length + 3) (Tokener.ofText t) := by
    rw [nextObject, run, fuelFor]
    simp only [Tokener.ahead, Tokener.ofText, Nat.zero_add]
  rw [parseObject, start]
  split
  · next m' place ok => simp only [ok, Except.ok.injEq, EStateM.Result.ok.injEq, exists_and_left, exists_eq', and_true]
  · next fault place failed => simp only [failed, reduceCtorEq, exists_false]

theorem parseObject_of_objectAt {t rest : Text} {members : List (Source × Source)} (derived : ObjectAt t members rest)
    (differ : (Source.object members).KeysDiffer) : parseObject t = .ok (memberMeanings members) := by
  obtain ⟨piece, -, reads⟩ := object_complete derived differ (Nat.le_add_right (3 * t.length) 3)
  obtain ⟨m, ok⟩ := reads [] .nothing
  exact parseObject_eq_ok.mpr ⟨_, ok⟩

theorem objectAt_of_parseObject {t : Text} {m : Members Tree} (ok : parseObject t = .ok m) :
    ∃ members rest, ObjectAt t members rest ∧ (Source.object members).KeysDiffer ∧ memberMeanings members = m := by
  obtain ⟨place, ok⟩ := parseObject_eq_ok.mp ok
  obtain ⟨-, members, derived, differ, meant⟩ := (sound _).2.1 rfl ok
  exact ⟨members, place.rest, derived, differ, meant⟩

/-- The parser accepts exactly the lenient grammar: it gives an object just when a beginning of the
text derives one whose members differ in their key texts at every level, and the object holds one
entry for each written member, in the order of the text. -/
theorem parseObject_eq_ok_iff (t : Text) (m : Members Tree) :
    parseObject t = .ok m ↔ ∃ members rest, ObjectAt t members rest ∧ (Source.object members).KeysDiffer ∧
      m = members.map fun member => (member.1.meaning.keyText, member.2.meaning) := by
  constructor
  · intro ok
    obtain ⟨members, rest, derived, differ, rfl⟩ := objectAt_of_parseObject ok
    exact ⟨members, rest, derived, differ, Source.memberMeanings_eq_map members⟩
  · rintro ⟨members, rest, derived, differ, rfl⟩
    rw [← Source.memberMeanings_eq_map]
    exact parseObject_of_objectAt derived differ

end LenientJson.Lenient
