import LenientJson.Proofs.Number.Digits

/-! Rounding to binary64. What is asked of it here: a quotient that is a binary64 number is its own
nearest one, the numeral's coefficient and exponent matter only through the value they denote, and there is
one least magnitude that overflows.
Powers stay behind `twoTo` and `tenTo`, so that no proof multiplies out the large ones. -/
namespace LenientJson

theorem twoTo_pos (n : Nat) : 0 < twoTo n := Nat.pow_pos (by decide)

theorem twoTo_zero : twoTo 0 = 1 := rfl

theorem twoTo_succ (n : Nat) : twoTo (n + 1) = 2 * twoTo n := Nat.pow_succ'

theorem twoTo_add (m n : Nat) : twoTo (m + n) = twoTo m * twoTo n := Nat.pow_add 2 m n

theorem twoTo_lt {m n : Nat} (less : m < n) : twoTo m < twoTo n := Nat.pow_lt_pow_right (by decide) less

theorem twoTo_le {m n : Nat} (le : m ≤ n) : twoTo m ≤ twoTo n := Nat.pow_le_pow_right (by decide) le

theorem log2_eq {n k : Nat} (low : twoTo k ≤ n) (high : n < twoTo (k + 1)) : n.log2 = k :=
  (Nat.log2_eq_iff (Nat.ne_of_gt (Nat.lt_of_lt_of_le (twoTo_pos k) low))).mpr ⟨low, high⟩

namespace Double

theorem nearestRank_mul (n d : Nat) {k : Nat} (positive : 0 < k) : nearestRank (n * k) (d * k) = nearestRank n d := by
  have scaled : n * k * twoTo 1074 = n * twoTo 1074 * k := by ring
  have step (x : Nat) : d * k * x = d * x * k := by ring
  have twice (x : Nat) : 2 * (x * k) = 2 * x * k := by ring
  simp only [nearestRank, scaled, Nat.mul_div_mul_right _ _ positive, step, Nat.mul_mod_mul_right, twice,
    Nat.mul_lt_mul_right positive, Nat.mul_left_inj (Nat.ne_of_gt positive)]

/-- The magnitude of a rank beyond the first `2 ^ 52`: a significand of 53 bits and a shift. -/
theorem unitsOf_shifted {m k : Nat} (low : twoTo 52 ≤ m) (high : m < twoTo 53) :
    unitsOf (m + k * twoTo 52) = m * twoTo k := by
  have double : twoTo 53 = 2 * twoTo 52 := twoTo_succ 52
  have positive := twoTo_pos 52
  have quotient : (m + k * twoTo 52) / twoTo 52 = k + 1 := by
    have one : m / twoTo 52 = 1 := Nat.div_eq_of_lt_le (by omega) (by omega)
    rw [Nat.add_mul_div_right _ _ positive, one, Nat.add_comm]
  have remainder : twoTo 52 + (m + k * twoTo 52) % twoTo 52 = m := by
    rw [Nat.add_mul_mod_self_right, Nat.mod_eq_sub_mod low, Nat.mod_eq_of_lt (by omega)]
    omega
  rw [unitsOf, if_neg (by omega), quotient, remainder, Nat.add_sub_cancel]

/-- Every rank is a small one or has a significand and a shift. -/
theorem rank_cases (rank : Nat) : rank < twoTo 52 ∨
    ∃ m k, twoTo 52 ≤ m ∧ m < twoTo 53 ∧ rank = m + k * twoTo 52 := by
  by_cases small : rank < twoTo 52
  · exact .inl small
  · have double : twoTo 53 = 2 * twoTo 52 := twoTo_succ 52
    have split := Nat.mod_add_div rank (twoTo 52)
    have below := Nat.mod_lt rank (twoTo_pos 52)
    obtain ⟨k, quotient⟩ : ∃ k, rank / twoTo 52 = k + 1 :=
      ⟨rank / twoTo 52 - 1, by have := Nat.div_pos (Nat.le_of_not_lt small) (twoTo_pos 52); omega⟩
    refine .inr ⟨twoTo 52 + rank % twoTo 52, k, Nat.le_add_right .., by omega, ?_⟩
    rw [quotient, Nat.mul_add, Nat.mul_one, Nat.mul_comm] at split
    omega

theorem nearestRank_of_shift {n d shift : Nat} (shifted : (n * twoTo 1074 / d).log2 - 52 = shift) :
    nearestRank n d =
      (if d * twoTo shift < 2 * (n * twoTo 1074 % (d * twoTo shift)) ∨
          (2 * (n * twoTo 1074 % (d * twoTo shift)) = d * twoTo shift ∧ n * twoTo 1074 / (d * twoTo shift) % 2 = 1)
        then n * twoTo 1074 / (d * twoTo shift) + 1 else n * twoTo 1074 / (d * twoTo shift)) + shift * twoTo 52 := by
  rw [nearestRank]
  simp only [shifted]

theorem nearestRank_of_multiple {n d : Nat} (m shift : Nat) (positive : 0 < d)
    (multiple : n * twoTo 1074 = m * (d * twoTo shift))
    (shifted : (n * twoTo 1074 / d).log2 - 52 = shift) : nearestRank n d = m + shift * twoTo 52 := by
  have step : 0 < d * twoTo shift := Nat.mul_pos positive (twoTo_pos shift)
  rw [nearestRank_of_shift shifted, multiple, Nat.mul_mod_left, Nat.mul_div_cancel _ step, if_neg (by omega)]

theorem nearestRank_unitsOf (rank : Nat) : nearestRank (unitsOf rank) (twoTo 1074) = rank := by
  have positive := twoTo_pos 1074
  have whole : unitsOf rank * twoTo 1074 / twoTo 1074 = unitsOf rank := Nat.mul_div_cancel _ positive
  rcases rank_cases rank with small | ⟨m, k, low, high, rfl⟩
  · have units : unitsOf rank = rank := if_pos small
    have shift : (unitsOf rank).log2 - 52 = 0 := by
      by_cases zero : rank = 0
      · rw [units, zero]
        rfl
      · have := (Nat.log2_lt zero).mpr small
        rw [units]
        omega
    have multiple : unitsOf rank * twoTo 1074 = rank * (twoTo 1074 * twoTo 0) := by
      rw [units, twoTo_zero, Nat.mul_one]
    rw [nearestRank_of_multiple rank 0 positive multiple (by rw [whole]; exact shift), Nat.zero_mul, Nat.add_zero]
  · have units := unitsOf_shifted low high (k := k)
    have shift : (unitsOf (m + k * twoTo 52)).log2 - 52 = k := by
      have bits : (m * twoTo k).log2 = 52 + k := by
        refine log2_eq ?_ ?_
        · rw [twoTo_add]
          exact Nat.mul_le_mul_right _ low
        · rw [show 52 + k + 1 = 53 + k by omega, twoTo_add]
          exact Nat.mul_lt_mul_of_pos_right high (twoTo_pos k)
      rw [units, bits]
      omega
    refine nearestRank_of_multiple m k positive ?_ (by rw [whole]; exact shift)
    rw [units]
    ring

theorem nearestRank_of_exact {n d rank : Nat} (positive : 0 < d) (exact_ : n * twoTo 1074 = unitsOf rank * d) :
    nearestRank n d = rank := by
  rw [← nearestRank_mul n d (twoTo_pos 1074), exact_, Nat.mul_comm d, nearestRank_mul _ _ positive, nearestRank_unitsOf]

theorem ofRatio_mul (negative : Bool) (n d : Nat) {k : Nat} (positive : 0 < k) :
    ofRatio negative (n * k) (d * k) = ofRatio negative n d := by
  rw [ofRatio, nearestRank_mul n d positive, ofRatio]

theorem ofRatio_of_exact (negative : Bool) {n d : Nat} (positive : 0 < d) (rank : Fin rankCount)
    (exact_ : n * twoTo 1074 = unitsOf rank * d) : ofRatio negative n d = .finite negative rank := by
  rw [ofRatio, nearestRank_of_exact positive exact_, ofRank, dif_pos rank.isLt]

/-- The quotient that a numeral stands for. -/
def ratioOf (coefficient : Nat) (exponent : Int) : Nat × Nat :=
  if 0 ≤ exponent then (coefficient * tenTo exponent.toNat, 1) else (coefficient, tenTo (-exponent).toNat)

theorem ratioOf_pos (coefficient : Nat) (exponent : Int) : 0 < (ratioOf coefficient exponent).2 := by
  rw [ratioOf]
  split
  · exact Nat.one_pos
  · exact tenTo_pos _

theorem ofNumeral_zero (negative : Bool) (exponent : Int) : ofNumeral ⟨negative, 0, exponent⟩ = zero negative := by
  simp only [ofNumeral, if_true]

theorem ofNumeral_eq (negative : Bool) {coefficient : Nat} (exponent : Int) (nonzero : coefficient ≠ 0) :
    ofNumeral ⟨negative, coefficient, exponent⟩ =
      if 310 < exponent + (decimalText coefficient).length then .infinity negative
      else if exponent + (decimalText coefficient).length < -330 then zero negative
      else ofRatio negative (ratioOf coefficient exponent).1 (ratioOf coefficient exponent).2 := by
  by_cases whole : 0 ≤ exponent <;> simp only [ofNumeral, nonzero, ratioOf, whole, if_true, if_false]

/-- Moving a factor of ten from the coefficient to the exponent changes nothing. -/
theorem ofNumeral_mul_ten (negative : Bool) (coefficient : Nat) (exponent : Int) :
    ofNumeral ⟨negative, coefficient * 10, exponent - 1⟩ = ofNumeral ⟨negative, coefficient, exponent⟩ := by
  by_cases zero : coefficient = 0
  · rw [zero, Nat.zero_mul, ofNumeral_zero, ofNumeral_zero]
  have positive : 0 < coefficient := Nat.pos_of_ne_zero zero
  have longer : (decimalText (coefficient * 10)).length = (decimalText coefficient).length + 1 := by
    have := decimalText_mul_tenTo positive 1
    rw [show tenTo 1 = 10 from rfl] at this
    rw [this, List.length_append, List.length_replicate]
  have place : exponent - 1 + ((decimalText coefficient).length + 1 : Nat) = exponent + (decimalText coefficient).length := by
    omega
  have ratio : ofRatio negative (ratioOf (coefficient * 10) (exponent - 1)).1 (ratioOf (coefficient * 10) (exponent - 1)).2 =
      ofRatio negative (ratioOf coefficient exponent).1 (ratioOf coefficient exponent).2 := by
    rcases lt_trichotomy exponent 0 with below | rfl | above
    · have power : (-(exponent - 1)).toNat = (-exponent).toNat + 1 := by omega
      rw [ratioOf, ratioOf, if_neg (by omega), if_neg (by omega), power, tenTo_succ, Nat.mul_comm 10]
      exact ofRatio_mul negative _ _ (by decide)
    · have tenth : ratioOf (coefficient * 10) (0 - 1) = (coefficient * 10, 1 * 10) := rfl
      have whole : ratioOf coefficient 0 = (coefficient * 1, 1) := rfl
      rw [tenth, whole, ofRatio_mul negative coefficient 1 (by decide), Nat.mul_one]
    · have power : exponent.toNat = (exponent - 1).toNat + 1 := by omega
      rw [ratioOf, ratioOf, if_pos (by omega), if_pos (by omega), power, tenTo_succ, Nat.mul_assoc]
  rw [ofNumeral_eq negative _ (by omega), ofNumeral_eq negative _ zero, longer, place, ratio]

theorem ofNumeral_mul_tenTo (negative : Bool) (coefficient k : Nat) (exponent : Int) :
    ofNumeral ⟨negative, coefficient * tenTo k, exponent - k⟩ = ofNumeral ⟨negative, coefficient, exponent⟩ := by
  induction k with
  | zero =>
    rw [show tenTo 0 = 1 from rfl, Nat.mul_one]
    exact congrArg (fun e => ofNumeral ⟨negative, coefficient, e⟩) (by omega)
  | succ k ih =>
    rw [← ih, ← ofNumeral_mul_ten negative (coefficient * tenTo k), tenTo_succ, Nat.mul_comm 10, Nat.mul_assoc]
    exact congrArg (fun e => ofNumeral ⟨negative, coefficient * (tenTo k * 10), e⟩) (by omega)

/-- The sign of a numeral is the sign of its number, and nothing else depends on it. -/
theorem ofNumeral_sign {coefficient : Nat} {exponent : Int} {sign : Bool} {rank : Fin rankCount}
    (read : ofNumeral ⟨false, coefficient, exponent⟩ = .finite sign rank) (negative : Bool) :
    ofNumeral ⟨negative, coefficient, exponent⟩ = .finite negative rank := by
  by_cases isZero : coefficient = 0
  · subst isZero
    rw [ofNumeral_zero, zero, Double.finite.injEq] at read
    rw [ofNumeral_zero, zero, read.2]
  rw [ofNumeral_eq _ _ isZero] at read ⊢
  split at read
  · cases read
  · next fits =>
    rw [if_neg fits]
    split at read
    · next tiny =>
      rw [zero, Double.finite.injEq] at read
      rw [if_pos tiny, zero, read.2]
    · next large =>
      rw [if_neg large]
      rw [ofRatio, ofRank] at read ⊢
      split at read
      · next inside =>
        rw [dif_pos inside]
        rw [Double.finite.injEq] at read
        rw [read.2]
      · cases read

theorem readsBack_iff {rank : Fin rankCount} {coefficient : Nat} {exponent : Int} :
    readsBack rank coefficient exponent = true ↔
      ∀ negative, ofNumeral ⟨negative, coefficient, exponent⟩ = .finite negative rank := by
  rw [readsBack]
  constructor
  · intro same
    split at same
    · next sign r read =>
      have equal : r = rank := Fin.ext (beq_iff_eq.mp same)
      rw [equal] at read
      exact ofNumeral_sign read
    · cases same
  · intro all
    rw [all false]
    exact beq_self_eq_true _

/-! Overflow. -/

section Overflow

/-- The least magnitude that is rounded to infinity, halfway between the greatest finite number and the next power
of two. -/
def overflow : Nat := twoTo 1024 - twoTo 970

theorem overflow_mul (d : Nat) : overflow * d * twoTo 1074 = (twoTo 54 - 1) * (d * twoTo 2044) := by
  have whole : twoTo 1024 = twoTo 54 * twoTo 970 := twoTo_add 54 970
  have unit : twoTo 2044 = twoTo 970 * twoTo 1074 := twoTo_add 970 1074
  rw [overflow, whole, unit, ← Nat.sub_one_mul]
  ring

variable {s d shift : Nat}

theorem twoTo_add_mul (m n d : Nat) : twoTo (m + n) * d = twoTo n * (d * twoTo m) := by
  rw [twoTo_add]
  ring

theorem quotient_bounds (positive : 0 < d) (shifted : (s / d).log2 - 52 = shift) :
    s < twoTo (shift + 53) * d ∧ (shift ≠ 0 → twoTo (shift + 52) * d ≤ s) := by
  constructor
  · rw [← Nat.div_lt_iff_lt_mul positive]
    by_cases zero : s / d = 0
    · rw [zero]
      exact twoTo_pos _
    · exact (Nat.log2_lt zero).mp (by omega)
  · intro some
    rw [← Nat.le_div_iff_mul_le positive]
    have nonzero : s / d ≠ 0 := by
      intro zero
      rw [zero, Nat.log2_zero] at shifted
      omega
    have log : (s / d).log2 = shift + 52 := by omega
    exact log ▸ Nat.log2_self_le nonzero

theorem significand_bounds (positive : 0 < d) (shifted : (s / d).log2 - 52 = shift) :
    s / (d * twoTo shift) < twoTo 53 ∧ (shift ≠ 0 → twoTo 52 ≤ s / (d * twoTo shift)) := by
  obtain ⟨high, low⟩ := quotient_bounds positive shifted
  have step : 0 < d * twoTo shift := Nat.mul_pos positive (twoTo_pos shift)
  rw [Nat.div_lt_iff_lt_mul step, Nat.le_div_iff_mul_le step, ← twoTo_add_mul, ← twoTo_add_mul]
  exact ⟨high, low⟩

theorem rounded_overflows_iff (positive : 0 < d) (shifted : (s / d).log2 - 52 = shift) :
    rankCount ≤ (if d * twoTo shift < 2 * (s % (d * twoTo shift)) ∨
        (2 * (s % (d * twoTo shift)) = d * twoTo shift ∧ s / (d * twoTo shift) % 2 = 1)
      then s / (d * twoTo shift) + 1 else s / (d * twoTo shift)) + shift * twoTo 52 ↔
    (twoTo 54 - 1) * (d * twoTo 2044) ≤ s := by
  obtain ⟨high, low⟩ := significand_bounds positive shifted
  obtain ⟨above, below⟩ := quotient_bounds positive shifted
  have unit : 0 < d * twoTo 2044 := Nat.mul_pos positive (twoTo_pos 2044)
  have powers : twoTo 52 = 4503599627370496 ∧ twoTo 53 = 9007199254740992 ∧ twoTo 54 = 18014398509481984 ∧
      rankCount = 9218868437227405312 := by decide
  rcases Nat.lt_trichotomy shift 2045 with less | rfl | more
  · have wide : twoTo (shift + 53) * d ≤ twoTo (2044 + 53) * d := Nat.mul_le_mul_right d (twoTo_le (by omega))
    have places : shift * twoTo 52 ≤ 2044 * twoTo 52 := Nat.mul_le_mul_right _ (by omega)
    rw [twoTo_add_mul 2044] at wide
    simp only [powers] at *
    refine iff_of_false ?_ (by omega)
    split <;> omega
  · have step : d * twoTo 2045 = 2 * (d * twoTo 2044) := by
      rw [twoTo_succ 2044]
      ring
    have parts := Nat.div_add_mod s (d * twoTo 2045)
    have rest := Nat.mod_lt s (Nat.mul_pos positive (twoTo_pos 2045))
    rw [step] at high parts rest ⊢
    generalize d * twoTo 2044 = half at *
    generalize s / (2 * half) = significand at *
    simp only [powers] at *
    -- With this shift only rounding up from the last significand overflows, that is from halfway above it.
    by_cases last : significand = 9007199254740991
    · subst last
      split <;> omega
    · have lower : 2 * half * significand ≤ 2 * half * 9007199254740990 := Nat.mul_le_mul_left _ (by omega)
      refine iff_of_false ?_ (by omega)
      split <;> omega
  · have wide : twoTo (2044 + 54) * d ≤ twoTo (shift + 52) * d := Nat.mul_le_mul_right d (twoTo_le (by omega))
    have places : 2046 * twoTo 52 ≤ shift * twoTo 52 := Nat.mul_le_mul_right _ (by omega)
    have low := low (by omega)
    have below := below (by omega)
    rw [twoTo_add_mul 2044] at wide
    simp only [powers] at *
    refine iff_of_true ?_ (by omega)
    split <;> omega

theorem isFinite_ofRatio_iff (negative : Bool) {n : Nat} (positive : 0 < d) :
    (ofRatio negative n d).isFinite = false ↔ overflow * d ≤ n := by
  rw [← Nat.mul_le_mul_right_iff (twoTo_pos 1074), overflow_mul, ← rounded_overflows_iff positive rfl,
    ← nearestRank_of_shift rfl, ofRatio, ofRank]
  split
  · next within => exact iff_of_false nofun (Nat.not_le.mpr within)
  · next beyond => exact iff_of_true rfl (Nat.not_lt.mp beyond)

end Overflow

end Double
end LenientJson
