import LenientJson.Proofs.Number.Canonical
import LenientJson.Proofs.Number.Quantity

/-! Numbers that are written and inferred again from their canonical texts. An integer of 64 bits comes back as
itself, and a finite binary64 number as itself or as the integer that it is. Only negative zero is lost: its
text is no integer in canonical form, so it remains a text. -/
namespace LenientJson.Scalar
open Strict

theorem inferred_signedDecimalText {n : Int} (low : minInt64 ≤ n) (high : n ≤ maxInt64) :
    inferred (signedDecimalText n) = .int n :=
  (inferred_token (isNumber_signedDecimalText n)).trans (numberValue_signedDecimalText low high)

/-- Every finite number but negative zero is inferred from its canonical text, as an integer or as itself. -/
theorem inferred_shaved {d : Double} (finite : d.isFinite = true) (notNegativeZero : d ≠ .zero true) :
    (∃ n : Int, inferred (shaved d.text) = .int n ∧ d.toRat? = some (n : Rat)) ∨ inferred (shaved d.text) = .float d := by
  cases d with
  | nan _ | infinity _ => cases finite
  | finite negative rank =>
    have positive : negative = true → 0 < rank.val := by
      rintro rfl
      refine Nat.pos_of_ne_zero fun zero => notNegativeZero ?_
      exact congrArg (Double.finite true) (Fin.ext zero)
    rw [inferred_token (canonicalDouble negative rank).isNumber]
    refine (numberValue_canonical positive).imp_left fun ⟨n, value, _, units⟩ => ?_
    exact ⟨n, value, Double.toRat?_of_units units⟩

/-- A number comes back from its canonical text. -/
theorem inferred_canonicalNumber :
    (∀ n : Int, minInt64 ≤ n → n ≤ maxInt64 →
      ∃ t, (int n).canonicalNumber = .ok t ∧ inferred t = int n) ∧
    (∀ d : Double, d.isFinite = true → d ≠ .zero true → ∃ t, (float d).canonicalNumber = .ok t ∧
      ((∃ n : Int, inferred t = int n ∧ d.toRat? = some (n : Rat)) ∨ inferred t = float d)) ∧
    ∃ t, (float (.zero true)).canonicalNumber = .ok t ∧ inferred t = text t := by
  refine ⟨fun n low high => ?_, fun d finite notNegativeZero => ?_, ?_⟩
  · exact ⟨_, integerText_of_isShort (isShort_of_int64 low high), inferred_signedDecimalText low high⟩
  · exact ⟨_, canonicalNumber_float finite, inferred_shaved finite notNegativeZero⟩
  · exact ⟨[Symbol.minus, Symbol.zero], rfl, rfl⟩

/-- The least integer of 64 bits, and half of one. -/
theorem inferred_canonicalNumber_half :
    (∃ t, (int minInt64).canonicalNumber = .ok t ∧ inferred t = int minInt64) ∧
    ∃ t, (float (.finite false ⟨1022 * twoTo 52, by decide⟩)).canonicalNumber = .ok t ∧
      ((∃ n : Int, inferred t = int n ∧ Double.toRat? (.finite false ⟨1022 * twoTo 52, by decide⟩) = some (n : Rat)) ∨
        inferred t = float (.finite false ⟨1022 * twoTo 52, by decide⟩)) :=
  ⟨inferred_canonicalNumber.1 minInt64 (by decide) (by decide),
    inferred_canonicalNumber.2.1 _ rfl (by decide)⟩

/-- Negative zero comes back as a text, not as a number. -/
theorem negativeZero_not_inferred : ¬ ∀ d : Double, d.isFinite = true →
    ∃ t, (float d).canonicalNumber = .ok t ∧ ((∃ n : Int, inferred t = int n ∧ d.toRat? = some (n : Rat)) ∨
      ∃ d' : Double, inferred t = float d' ∧ d'.toRat? = d.toRat?) := by
  intro every
  obtain ⟨t, canonical, number⟩ := every (.zero true) rfl
  have lost : (float (.zero true)).canonicalNumber = .ok [Symbol.minus, Symbol.zero] := rfl
  obtain rfl : [Symbol.minus, Symbol.zero] = t := Except.ok.inj (lost.symm.trans canonical)
  rcases number with ⟨n, value, -⟩ | ⟨d', value, -⟩
  · cases value
  · cases value

end LenientJson.Scalar
