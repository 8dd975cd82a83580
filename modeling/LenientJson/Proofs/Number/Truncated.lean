import LenientJson.Proofs.Number.Quantity
import Mathlib.Data.Rat.Floor

/-! Numbers without what stands behind the point. A magnitude knows its whole part, and this part, with the sign of
the number, is the number cut off toward zero. -/
namespace LenientJson

/-- The integer next to a number on the side of zero. -/
def truncated (x : Rat) : Int := if 0 ≤ x then ⌊x⌋ else ⌈x⌉

theorem truncated_of_nonneg {x : Rat} (above : 0 ≤ x) : truncated x = ⌊x⌋ := if_pos above

theorem truncated_neg (x : Rat) : truncated (-x) = -truncated x := by
  rcases lt_trichotomy x 0 with below | rfl | above
  · rw [truncated_of_nonneg (by linarith), truncated, if_neg (not_le.mpr below), Int.floor_neg]
  · simp [truncated]
  · rw [truncated_of_nonneg (le_of_lt above), truncated, if_neg (by linarith), Int.ceil_neg]

@[simp] theorem truncated_intCast (n : Int) : truncated n = n := by
  unfold truncated
  split
  · exact Int.floor_intCast n
  · exact Int.ceil_intCast n

theorem abs_truncated (x : Rat) : |truncated x| = ⌊|x|⌋ := by
  have nonnegative {y : Rat} (above : 0 ≤ y) : |truncated y| = ⌊|y|⌋ := by
    rw [truncated_of_nonneg above, abs_of_nonneg above, abs_of_nonneg (Int.floor_nonneg.mpr above)]
  rcases le_total 0 x with above | below
  · exact nonnegative above
  · rw [← abs_neg, ← truncated_neg, nonnegative (neg_nonneg.mpr below), abs_neg]

/-- A number that is out of a range by a whole number stays out of it. -/
theorem le_abs_truncated {bound : Nat} {x : Rat} (beyond : (bound : Rat) ≤ |x|) : (bound : Int) ≤ |truncated x| := by
  rw [abs_truncated, Int.le_floor]
  exact_mod_cast beyond

namespace Magnitude

theorem IsNormal.denominator_pos {m : Magnitude} (normal : m.IsNormal) : 0 < m.denominator := by
  rcases normal with rfl | ⟨-, coprime, -⟩
  · exact Nat.one_pos
  · exact Magnitude.denominator_pos coprime

theorem whole_eq_floor {m : Magnitude} (positive : 0 < m.denominator) : (m.whole : Int) = ⌊m.toRat⌋ := by
  obtain ⟨numerator, denominator, exponent⟩ := m
  cases exponent with
  | ofNat zeros =>
    have quotient : toRat ⟨numerator, denominator, .ofNat zeros⟩ = ((numerator * tenTo zeros : Nat) : Rat) / denominator := by
      simp only [toRat, Int.ofNat_eq_natCast, zpow_natCast, div_mul_eq_mul_div]
      push_cast [tenTo, Nat.pow_eq]
      rfl
    rw [quotient, Rat.floor_natCast_div_natCast]
    rfl
  | negSucc places =>
    have quotient : toRat ⟨numerator, denominator, .negSucc places⟩ =
        (numerator : Rat) / (denominator * tenTo (places + 1) : Nat) := by
      simp only [toRat, zpow_negSucc, ← div_eq_mul_inv, div_div]
      push_cast [tenTo, Nat.pow_eq]
      rfl
    rw [quotient, Rat.floor_natCast_div_natCast]
    simp only [whole]
    split
    · next small =>
      -- fewer binary digits than decimal places
      have short : numerator < 2 ^ (places + 1) := Nat.lt_log2_self.trans_le (Nat.pow_le_pow_right (by decide) (by omega))
      have powers : 2 ^ (places + 1) ≤ tenTo (places + 1) := Nat.pow_le_pow_left (by decide) _
      have below := Nat.lt_of_lt_of_le short (Nat.le_trans powers (Nat.le_mul_of_pos_left _ positive))
      rw [← Int.natCast_ediv, Nat.div_eq_of_lt below]
    · rfl

end Magnitude

namespace Quantity
open Magnitude

variable {negative : Bool} {m : Magnitude} {x : Rat}

theorem Denotes.isNormal (denotes : (finite negative m).Denotes x) : m.IsNormal := by
  cases denotes <;> assumption

theorem Denotes.abs_eq (denotes : (finite negative m).Denotes x) : |x| = m.toRat := by
  have nonnegative : 0 ≤ m.toRat := by
    unfold toRat
    positivity
  cases denotes with
  | plus => exact abs_of_nonneg nonnegative
  | minus => rw [abs_neg, abs_of_nonneg nonnegative]

/-- The whole part of a magnitude, with the sign of the number. -/
theorem Denotes.truncated_eq (denotes : (finite negative m).Denotes x) :
    truncated x = if negative then -(m.whole : Int) else m.whole := by
  have positive := denotes.isNormal.denominator_pos
  have nonnegative : 0 ≤ m.toRat := by
    unfold toRat
    positivity
  have size : truncated m.toRat = m.whole := by rw [whole_eq_floor positive, truncated_of_nonneg nonnegative]
  cases denotes with
  | plus => exact size
  | minus => rw [truncated_neg, size, if_pos rfl]

end Quantity
end LenientJson
