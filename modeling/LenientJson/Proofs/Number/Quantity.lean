import LenientJson.Number.Quantity
import LenientJson.Proofs.Number.Rounding
import Mathlib.Algebra.Order.Field.Power
import Mathlib.Data.Nat.Prime.Basic
import Mathlib.Data.Rat.Cast.Order
import Mathlib.Tactic.FieldSimp
import Mathlib.Tactic.LinearCombination
import Mathlib.Tactic.Positivity

/-! What numbers of every kind amount to exactly. The one form of a magnitude is found by taking out
factors of ten, two and five; it has the value that it stands for, and no other form has that value. So two
numbers have equal forms just when they are the same rational number. -/
namespace LenientJson

theorem log2_div_le {n factor limit : Nat} (several : 1 < factor) (enough : n.log2 ≤ limit + 1) :
    (n / factor).log2 ≤ limit := by
  by_cases zero : n / factor = 0
  · simp [zero]
  · have half : n / factor ≤ n / 2 := Nat.div_le_div_left several (by decide)
    have bound : n < 2 ^ (limit + 2) := (Nat.log2_lt (by rintro rfl; simp at zero)).mp (Nat.lt_succ_of_le enough)
    have : n / factor < 2 ^ (limit + 1) := by
      rw [Nat.pow_succ] at bound
      omega
    exact Nat.le_of_lt_succ ((Nat.log2_lt zero).mpr this)

/-- With a limit that is high enough a factor is taken out as often as it divides. -/
theorem factorOut_spec {factor limit n : Nat} (several : 1 < factor) (positive : 0 < n) (enough : n.log2 ≤ limit) :
    (factorOut factor limit n).2 * factor ^ (factorOut factor limit n).1 = n ∧
      ¬ factor ∣ (factorOut factor limit n).2 := by
  induction limit generalizing n with
  | zero =>
    have one : n = 1 := by
      have := (Nat.log2_lt (by omega)).mp (Nat.lt_succ_of_le enough)
      omega
    subst one
    exact ⟨rfl, fun divides => absurd (Nat.le_of_dvd Nat.one_pos divides) (by omega)⟩
  | succ limit ih =>
    unfold factorOut
    split
    · next divides =>
      have divides := Nat.dvd_of_mod_eq_zero divides
      obtain ⟨value, left⟩ := ih (Nat.div_pos (Nat.le_of_dvd positive divides) (by omega)) (log2_div_le several enough)
      refine ⟨?_, left⟩
      rw [Nat.pow_succ, ← Nat.mul_assoc, value, Nat.div_mul_cancel divides]
    · next undivided => exact ⟨by simp, fun divides => undivided (Nat.mod_eq_zero_of_dvd divides)⟩

namespace Magnitude

def toRat (m : Magnitude) : Rat := m.numerator / m.denominator * 10 ^ m.exponent

/-- The one form of a magnitude: zero, or a quotient in lowest terms of which neither part holds a factor of
ten that the exponent could hold. -/
def IsNormal (m : Magnitude) : Prop :=
  m = zero ∨ ¬ 10 ∣ m.numerator ∧ m.denominator.Coprime 10 ∧ m.numerator.Coprime m.denominator

theorem denominator_pos {d : Nat} (coprime : d.Coprime 10) : 0 < d := by
  refine Nat.pos_of_ne_zero fun zero => ?_
  subst zero
  exact absurd coprime (by decide)

@[simp] theorem toRat_zero : zero.toRat = 0 := by simp [toRat, zero]

theorem toRat_pos {m : Magnitude} (normal : m.IsNormal) (nonzero : m ≠ zero) : 0 < m.toRat := by
  obtain ⟨tenfold, coprime, -⟩ := normal.resolve_left nonzero
  have numerator : 0 < m.numerator := Nat.pos_of_ne_zero fun none => tenfold (none ▸ Nat.dvd_zero 10)
  have denominator := denominator_pos coprime
  unfold toRat
  positivity

/-- Of two forms with the same value neither has the smaller exponent: its numerator would be a multiple of
ten. -/
theorem exponent_le_of_toRat_eq {m n : Magnitude} (tenfold : ¬ 10 ∣ m.numerator) (coprime : m.denominator.Coprime 10)
    (coprime' : n.denominator.Coprime 10) (same : m.toRat = n.toRat) : n.exponent ≤ m.exponent := by
  by_contra less
  obtain ⟨k, apart⟩ : ∃ k : Nat, n.exponent = m.exponent + (k + 1 : Nat) := ⟨(n.exponent - m.exponent - 1).toNat, by omega⟩
  have left := denominator_pos coprime
  have right := denominator_pos coprime'
  have crossed : m.numerator * n.denominator = n.numerator * m.denominator * 10 ^ (k + 1) := by
    unfold toRat at same
    rw [apart, zpow_add₀ (by norm_num), zpow_natCast] at same
    field_simp at same
    have scaled : (m.numerator * n.denominator : Rat) = n.numerator * m.denominator * 10 ^ (k + 1) := by
      linear_combination same
    exact_mod_cast scaled
  have divides : 10 ∣ m.numerator * n.denominator := by
    rw [crossed, Nat.pow_succ, ← Nat.mul_assoc]
    exact Nat.dvd_mul_left 10 _
  exact tenfold (coprime'.symm.dvd_of_dvd_mul_right divides)

theorem eq_of_toRat_eq {m n : Magnitude} (normal : m.IsNormal) (normal' : n.IsNormal) (same : m.toRat = n.toRat) : m = n := by
  rcases normal with rfl | ⟨tenfold, coprime, lowest⟩
  · by_contra other
    have := toRat_pos normal' (Ne.symm other)
    simp [← same] at this
  rcases normal' with rfl | ⟨tenfold', coprime', lowest'⟩
  · by_contra other
    have := toRat_pos (.inr ⟨tenfold, coprime, lowest⟩) other
    simp [same] at this
  have exponent : m.exponent = n.exponent := Int.le_antisymm
    (exponent_le_of_toRat_eq tenfold' coprime' coprime same.symm) (exponent_le_of_toRat_eq tenfold coprime coprime' same)
  have left := denominator_pos coprime
  have right := denominator_pos coprime'
  have crossed : m.numerator * n.denominator = n.numerator * m.denominator := by
    unfold toRat at same
    rw [exponent] at same
    field_simp at same
    have crossed : (m.numerator * n.denominator : Rat) = n.numerator * m.denominator := by linear_combination same
    exact_mod_cast crossed
  have numerator : m.numerator = n.numerator := Nat.dvd_antisymm
    (lowest.dvd_of_dvd_mul_right (crossed ▸ Nat.dvd_mul_right ..))
    (lowest'.dvd_of_dvd_mul_right (crossed ▸ Nat.dvd_mul_right ..))
  have denominator : m.denominator = n.denominator := by
    have positive : 0 < n.numerator := Nat.pos_of_ne_zero fun none => tenfold' (none ▸ Nat.dvd_zero 10)
    rw [numerator] at crossed
    exact (Nat.eq_of_mul_eq_mul_left positive crossed).symm
  obtain ⟨_, _, _⟩ := m
  obtain ⟨_, _, _⟩ := n
  simp_all

theorem ofScaled_zero (d : Nat) (e : Int) : ofScaled 0 d e = zero := by simp [ofScaled]

theorem toRat_ofScaled (c d : Nat) (e : Int) : (ofScaled c d e).toRat = c / d * 10 ^ e := by
  by_cases none : c = 0
  · simp [none, ofScaled_zero]
  · obtain ⟨value, -⟩ := factorOut_spec (by decide : 1 < 10) (Nat.pos_of_ne_zero none) (Nat.le_refl c.log2)
    have value : ((factorOut 10 c.log2 c).2 : Rat) * 10 ^ (factorOut 10 c.log2 c).1 = c := by exact_mod_cast value
    simp only [ofScaled, none, if_false, toRat]
    rw [zpow_add₀ (by norm_num), zpow_natCast, ← value]
    ring

theorem isNormal_ofScaled {c d : Nat} (coprime : d.Coprime 10) (lowest : c.Coprime d) (e : Int) :
    (ofScaled c d e).IsNormal := by
  by_cases none : c = 0
  · exact .inl (by rw [none, ofScaled_zero])
  · obtain ⟨value, left⟩ := factorOut_spec (by decide : 1 < 10) (Nat.pos_of_ne_zero none) (Nat.le_refl c.log2)
    have divides : (factorOut 10 c.log2 c).2 ∣ c := Dvd.intro _ value
    refine .inr ?_
    simp only [ofScaled, none, if_false]
    exact ⟨left, coprime, lowest.coprime_dvd_left divides⟩

theorem ofNat_spec (n : Nat) : (ofNat n).toRat = n ∧ (ofNat n).IsNormal :=
  ⟨by simp [ofNat, toRat_ofScaled], isNormal_ofScaled (by decide) (Nat.coprime_one_right n) 0⟩

/-- A denominator is split into its factors of two, its factors of five, and what shares no factor with ten. -/
theorem exists_ofQuotient_eq (n : Nat) {d : Nat} (positive : 0 < d) : ∃ twos fives others,
    d = others * 5 ^ fives * 2 ^ twos ∧ others.Coprime 2 ∧ others.Coprime 5 ∧
      ofQuotient n d = ofScaled (n * 2 ^ (max twos fives - twos) * 5 ^ (max twos fives - fives)) others
        (-(max twos fives : Nat)) := by
  obtain ⟨halved, odd⟩ := factorOut_spec (by decide : 1 < 2) positive (Nat.le_refl d.log2)
  unfold ofQuotient
  generalize factorOut 2 d.log2 d = two at halved odd
  obtain ⟨twos, rest⟩ := two
  dsimp only at halved odd ⊢
  have positive' : 0 < rest := Nat.pos_of_ne_zero fun none => odd (none ▸ Nat.dvd_zero 2)
  obtain ⟨fifthed, left⟩ := factorOut_spec (by decide : 1 < 5) positive' (Nat.le_refl rest.log2)
  generalize factorOut 5 rest.log2 rest = five at fifthed left
  obtain ⟨fives, others⟩ := five
  dsimp only at fifthed left ⊢
  have odd' : ¬ 2 ∣ others := fun divides => odd (fifthed ▸ Nat.dvd_mul_right_of_dvd divides _)
  exact ⟨twos, fives, others, by rw [fifthed, halved], ((Nat.Prime.coprime_iff_not_dvd Nat.prime_two).mpr odd').symm,
    ((Nat.Prime.coprime_iff_not_dvd Nat.prime_five).mpr left).symm, rfl⟩

theorem ofQuotient_spec {n d : Nat} (positive : 0 < d) (lowest : n.Coprime d) :
    (ofQuotient n d).toRat = n / d ∧ (ofQuotient n d).IsNormal := by
  obtain ⟨twos, fives, others, split, two, five, form⟩ := exists_ofQuotient_eq n positive
  have coprime : others.Coprime 10 := Nat.Coprime.mul_right two five
  have lowest' : n.Coprime others :=
    lowest.coprime_dvd_right (split ▸ Nat.dvd_mul_right_of_dvd (Nat.dvd_mul_right ..) _)
  rw [form]
  refine ⟨?_, isNormal_ofScaled coprime ((lowest'.mul_left (two.pow_right _).symm).mul_left (five.pow_right _).symm) _⟩
  obtain ⟨moreTwos, twosUp⟩ := Nat.exists_eq_add_of_le (Nat.le_max_left twos fives)
  obtain ⟨moreFives, fivesUp⟩ := Nat.exists_eq_add_of_le (Nat.le_max_right twos fives)
  have power : (10 : Rat) ^ max twos fives = 2 ^ twos * 2 ^ moreTwos * (5 ^ fives * 5 ^ moreFives) := by
    rw [← pow_add, ← pow_add, ← twosUp, ← fivesUp, ← mul_pow]
    norm_num
  have shorter : max twos fives - twos = moreTwos ∧ max twos fives - fives = moreFives := by omega
  have nonzero : (others : Rat) ≠ 0 := by exact_mod_cast Nat.ne_of_gt (denominator_pos coprime)
  rw [toRat_ofScaled, shorter.1, shorter.2, zpow_neg, zpow_natCast, power, split]
  push_cast
  field_simp

theorem le_log2_of_pow_le {n k : Nat} (le : 10 ^ k ≤ n) : k ≤ n.log2 := by
  have positive : 0 < n := Nat.lt_of_lt_of_le (Nat.pow_pos (by decide)) le
  refine (Nat.le_log2 (Nat.ne_of_gt positive)).mpr (Nat.le_trans ?_ le)
  exact Nat.pow_le_pow_left (by decide) k

/-- A magnitude is compared with a number by its value. -/
theorem isBelow_iff {m : Magnitude} (normal : m.IsNormal) (bound : Nat) : m.isBelow bound = true ↔ m.toRat < bound := by
  obtain ⟨numerator, denominator, exponent⟩ := m
  rcases normal with zero | ⟨tenfold, coprime, -⟩
  · cases zero
    simp [isBelow, toRat, tenTo, Nat.pos_iff_ne_zero]
  have positive : 0 < denominator := denominator_pos coprime
  have nonzero : 0 < numerator := Nat.pos_of_ne_zero fun none => tenfold (none ▸ Nat.dvd_zero 10)
  cases exponent with
  | ofNat zeros =>
    have value : toRat ⟨numerator, denominator, .ofNat zeros⟩ < bound ↔ numerator * tenTo zeros < bound * denominator := by
      simp only [toRat, Int.ofNat_eq_natCast, zpow_natCast]
      rw [div_mul_eq_mul_div, div_lt_iff₀ (by exact_mod_cast positive)]
      exact_mod_cast Iff.rfl
    rw [value]
    simp only [isBelow, Bool.and_eq_true, decide_eq_true_eq, and_iff_right_iff_imp]
    intro below
    exact le_log2_of_pow_le (Nat.le_of_lt (Nat.lt_of_le_of_lt (Nat.le_mul_of_pos_left _ nonzero) below))
  | negSucc places =>
    have value : toRat ⟨numerator, denominator, .negSucc places⟩ < bound ↔
        numerator < bound * denominator * tenTo (places + 1) := by
      simp only [toRat, zpow_negSucc]
      rw [← div_eq_mul_inv, div_div, div_lt_iff₀ (by positivity), mul_assoc]
      exact_mod_cast Iff.rfl
    rw [value]
    simp only [isBelow, Bool.and_eq_true, Bool.or_eq_true, decide_eq_true_eq]
    constructor
    · rintro ⟨some, small | less⟩
      · have short : numerator < 2 ^ (places + 1) := (Nat.log2_lt (Nat.ne_of_gt nonzero)).mp (Nat.lt_succ_of_le small)
        have powers : 2 ^ (places + 1) ≤ tenTo (places + 1) := Nat.pow_le_pow_left (by decide) _
        exact Nat.lt_of_lt_of_le short (Nat.le_trans powers (Nat.le_mul_of_pos_left _ some))
      · exact less
    · intro less
      refine ⟨Nat.pos_of_ne_zero fun none => ?_, .inr less⟩
      rw [none, Nat.zero_mul] at less
      omega

end Magnitude

/-- The exact value of a finite number. -/
def Double.toRat? (d : Double) : Option Rat := d.units?.map fun (units : Int) => (units : Rat) / twoTo 1074

theorem Double.toRat?_of_units {d : Double} {n : Int} (units : d.units? = some (n * twoTo 1074)) :
    d.toRat? = some (n : Rat) := by
  have positive : (twoTo 1074 : Rat) ≠ 0 := by exact_mod_cast Nat.ne_of_gt (twoTo_pos 1074)
  rw [toRat?, units, Option.map_some, Int.cast_mul, Int.cast_natCast, mul_div_cancel_right₀ _ positive]

theorem Numeral.toRat_eq (n : Numeral) :
    n.toRat = if n.negative then -((n.coefficient : Rat) * 10 ^ n.exponent) else n.coefficient * 10 ^ n.exponent := by
  have size : (n.coefficient : Rat) * 10 ^ n.exponent =
      if 0 ≤ n.exponent then ((n.coefficient * tenTo n.exponent.toNat : Nat) : Rat)
      else mkRat n.coefficient (tenTo (-n.exponent).toNat) := by
    split
    · next above =>
      obtain ⟨places, exponent⟩ := Int.eq_ofNat_of_zero_le above
      simp [exponent, tenTo]
    · next below =>
      obtain ⟨places, exponent⟩ := Int.exists_eq_neg_ofNat (Int.le_of_lt (Int.not_le.mp below))
      simp [exponent, tenTo, Rat.mkRat_eq_div]
      rfl
  rw [toRat, size]

namespace Quantity
open Magnitude

/-- The rational number that a quantity in its one form stands for. Zero has no sign. -/
inductive Denotes : Quantity → Rat → Prop
  | plus {m} (normal : m.IsNormal) : Denotes (.finite false m) m.toRat
  | minus {m} (normal : m.IsNormal) (nonzero : m ≠ .zero) : Denotes (.finite true m) (-m.toRat)

theorem Denotes.eq_iff {p q : Quantity} {x y : Rat} (left : p.Denotes x) (right : q.Denotes y) : p = q ↔ x = y := by
  cases left with
  | @plus m normal =>
    have nonnegative : 0 ≤ m.toRat := by unfold toRat; positivity
    cases right with
    | plus normal' =>
      simp only [finite.injEq, true_and]
      exact ⟨congrArg toRat, eq_of_toRat_eq normal normal'⟩
    | minus normal' nonzero =>
      have := toRat_pos normal' nonzero
      simp only [finite.injEq, Bool.false_eq_true, false_and, false_iff]
      exact fun same => by linarith
  | @minus m normal nonzero =>
    have positive := toRat_pos normal nonzero
    cases right with
    | @plus n normal' =>
      have : 0 ≤ n.toRat := by unfold toRat; positivity
      simp only [finite.injEq, Bool.true_eq_false, false_and, false_iff]
      exact fun same => by linarith
    | minus normal' _ =>
      simp only [finite.injEq, true_and, neg_inj]
      exact ⟨congrArg toRat, eq_of_toRat_eq normal normal'⟩

theorem Denotes.isFinite {q : Quantity} {x : Rat} (denotes : q.Denotes x) : q ≠ .nan ∧ q ≠ .signaling := by
  cases denotes <;> simp

theorem denotes_ofMagnitude (negative : Bool) {m : Magnitude} (normal : m.IsNormal) :
    (ofMagnitude negative m).Denotes (if negative then -m.toRat else m.toRat) := by
  unfold ofMagnitude
  by_cases none : m = .zero
  · subst none
    have unsigned : (zero.numerator != 0) = false := rfl
    rw [unsigned, Bool.and_false]
    simpa using Denotes.plus normal
  · have numerator : (m.numerator != 0) = true :=
      bne_iff_ne.mpr fun zero => (normal.resolve_left none).1 (zero ▸ Nat.dvd_zero 10)
    rw [numerator, Bool.and_true]
    cases negative with
    | false => exact .plus normal
    | true => exact .minus normal none

theorem denotes_ofInt (n : Int) : (ofInt n).Denotes n := by
  obtain ⟨value, normal⟩ := ofNat_spec n.natAbs
  have denotes := denotes_ofMagnitude (n < 0) normal
  have size : (if n < 0 then -(n.natAbs : Rat) else n.natAbs) = n := by
    split
    · next below => rw [← Int.cast_natCast, Int.ofNat_natAbs_of_nonpos (Int.le_of_lt below)]; simp
    · next above => rw [← Int.cast_natCast, Int.natAbs_of_nonneg (Int.not_lt.mp above)]
  rw [ofInt]
  simpa only [value, decide_eq_true_eq, size] using denotes

theorem denotes_ofRat (q : Rat) : (ofRat q).Denotes q := by
  obtain ⟨value, normal⟩ := ofQuotient_spec q.den_pos q.reduced
  have denotes := denotes_ofMagnitude (q.num < 0) normal
  have size : (if q.num < 0 then -((q.num.natAbs : Rat) / q.den) else q.num.natAbs / q.den) = q := by
    conv_rhs => rw [← Rat.num_div_den q]
    split
    · next below => rw [← Int.cast_natCast, Int.ofNat_natAbs_of_nonpos (Int.le_of_lt below)]; simp [neg_div]
    · next above => rw [← Int.cast_natCast, Int.natAbs_of_nonneg (Int.not_lt.mp above)]
  rw [ofRat]
  simpa only [value, decide_eq_true_eq, size] using denotes

/-- A quotient that is not negative, by its numerator and denominator in lowest terms. -/
theorem ofQuotient_mkRat (n d : Nat) :
    (ofQuotient (mkRat n d).num.natAbs (mkRat n d).den).toRat = n / d ∧
      (ofQuotient (mkRat n d).num.natAbs (mkRat n d).den).IsNormal := by
  obtain ⟨value, normal⟩ := ofQuotient_spec (mkRat n d).den_pos (mkRat n d).reduced
  have quotient : mkRat n d = (n / d : Rat) := by simp [Rat.mkRat_eq_div]
  have nonnegative : 0 ≤ (mkRat n d).num := by
    rw [Rat.num_nonneg, quotient]
    positivity
  refine ⟨?_, normal⟩
  rw [value, ← Int.cast_natCast (mkRat n d).num.natAbs, Int.natAbs_of_nonneg nonnegative, Rat.num_div_den, quotient]

theorem denotes_ofDouble {d : Double} {x : Rat} (value : d.toRat? = some x) : (ofDouble d).Denotes x := by
  cases d with
  | finite negative rank =>
    obtain ⟨size, normal⟩ := ofQuotient_mkRat (Double.unitsOf rank) (twoTo 1074)
    have denotes := denotes_ofMagnitude negative normal
    have signed : x = if negative then -(Double.unitsOf rank / twoTo 1074 : Rat) else Double.unitsOf rank / twoTo 1074 := by
      cases negative <;> cases value <;>
        simp only [Bool.false_eq_true, if_false, if_true, Int.cast_neg, Int.cast_natCast, neg_div]
    rw [ofDouble, signed, ← size]
    exact denotes
  | _ => cases value

theorem denotes_ofDecimal (numeral : Numeral) : (ofDecimal (.finite numeral)).Denotes numeral.toRat := by
  have normal := isNormal_ofScaled (c := numeral.coefficient) (by decide : Nat.Coprime 1 10) (Nat.coprime_one_right _) numeral.exponent
  have denotes := denotes_ofMagnitude numeral.negative normal
  rw [toRat_ofScaled, Nat.cast_one, div_one] at denotes
  rw [ofDecimal, numeral.toRat_eq]
  exact denotes

end Quantity
end LenientJson
