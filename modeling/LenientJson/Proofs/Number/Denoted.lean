import LenientJson.Proofs.Number.Canonical
import LenientJson.Proofs.Number.Quantity

/-! The rational numbers that number tokens denote. Shaving a token keeps its value and leaves no redundant
zero. So an integer and a finite decimal denote themselves by their canonical texts, and a finite binary64
number is read back from its own. The canonical text of a fraction is a token only for an integer. -/
namespace LenientJson
open Strict

def Strict.exponentValue : Text → Int
  | [] => 0
  | _ :: t => integerValue t

/-- The number that a decimal numeral denotes: a sign, digits, a fraction and a power of ten. -/
inductive Strict.Denotes : Text → Rat → Prop
  | mk {sign whole fraction exponent} (signed : sign = [] ∨ sign = [Symbol.minus]) (digits : AreDigits whole)
      (isFraction : IsFraction fraction) (isExponent : IsExponent exponent) :
      Denotes (sign ++ whole ++ fraction ++ exponent)
        ((if sign = [Symbol.minus] then -1 else 1) * (digitsValue whole + fractionValue fraction) * 10 ^ exponentValue exponent)

/-- Without an exponent there is neither a point at the end nor a zero at the end of a fraction. -/
def IsTidy (t : Text) : Prop :=
  IsPlain t → t.getLast? ≠ some Symbol.dot ∧ (Symbol.dot ∈ t → t.getLast? ≠ some Symbol.zero)

section
variable {sign whole fraction exponent t : Text} {q : Rat}

theorem readExponent?_eq (isExponent : IsExponent exponent) : Numeral.readExponent? exponent = some (exponentValue exponent) := by
  cases isExponent with
  | absent => rfl
  | @mark e sign ds letter signed digits =>
    rw [Numeral.readExponent?_of_digits letter signed digits, List.cons_append, exponentValue]
    rcases signed with rfl | signed
    · rw [integerValue_of_signed (.inl rfl) digits]
    · rcases signed with rfl | rfl
      · rw [integerValue_of_signed (.inr rfl) digits]
      · rfl

theorem partsValue_eq (isFraction : IsFraction fraction) (e : Int) :
    (digitsValue whole + fractionValue fraction) * 10 ^ e =
      (digitsValue (whole ++ fraction.tail) : Rat) * 10 ^ (e - fraction.tail.length) := by
  cases isFraction with
  | absent => simp [fractionValue]
  | @point ds digits =>
    have ten : (10 : Rat) ≠ 0 := by norm_num
    have power : (tenTo ds.length : Rat) = 10 ^ ds.length := by simp [tenTo]
    rw [List.tail_cons, digitsValue_append, fractionValue, zpow_sub₀ ten, zpow_natCast, Nat.cast_add, Nat.cast_mul, power]
    field_simp

namespace Strict.Denotes

/-- What is denoted is the number that is read, so a text denotes no other one. -/
theorem read? (denotes : Denotes t q) : ∃ numeral, Numeral.read? t = some numeral ∧ numeral.toRat = q := by
  cases denotes with
  | mk signed digits isFraction isExponent =>
    refine ⟨_, Numeral.read?_of_parts signed digits isFraction isExponent (readExponent?_eq isExponent), ?_⟩
    rw [Numeral.toRat_eq, mul_assoc, partsValue_eq isFraction]
    rcases signed with rfl | rfl <;> simp

theorem unique {q' : Rat} (denotes : Denotes t q) (denotes' : Denotes t q') : q = q' := by
  obtain ⟨numeral, read, rfl⟩ := denotes.read?
  obtain ⟨numeral', read', rfl⟩ := denotes'.read?
  rw [Option.some.inj (read.symm.trans read')]

theorem shaved (denotes : Denotes t q) : Denotes (shaved t) q := by
  cases denotes with
  | mk signed digits isFraction isExponent =>
    obtain ⟨fraction, isFraction', value, same, -⟩ := exists_shaved_parts signed digits isFraction isExponent
    rw [same, ← value]
    exact .mk signed digits isFraction' isExponent

theorem isTidy_shaved (denotes : Denotes t q) : IsTidy (LenientJson.shaved t) := by
  cases denotes with
  | @mk sign whole fraction exponent signed digits isFraction isExponent =>
    obtain ⟨fraction, isFraction', -, same, ending⟩ := exists_shaved_parts signed digits isFraction isExponent
    rw [same]
    intro plain
    cases isExponent with
    | @mark e _ _ letter _ _ =>
      rcases letter with rfl | rfl
      · exact absurd (by simp) plain.1
      · exact absurd (by simp) plain.2
    | absent =>
      rw [List.append_nil]
      cases isFraction' with
      | absent =>
        have last : (sign ++ whole).getLast? ≠ some Symbol.dot := by
          intro same
          exact not_mem_signed signed digits (c := Symbol.dot) (by decide) (by decide) (List.mem_of_getLast? same)
        rw [List.append_nil]
        refine ⟨last, fun member => absurd member (not_mem_signed signed digits (by decide) (by decide))⟩
      | @point ds others =>
        have shown : (sign ++ whole ++ Symbol.dot :: ds).getLast? = ds.getLast? := by
          rw [List.getLast?_append_of_ne_nil _ (List.cons_ne_nil _ _), List.getLast?_cons_of_ne_nil others.1]
        have ending := ending (by simp)
        rw [List.getLast?_cons_of_ne_nil others.1] at ending
        rw [shown]
        refine ⟨fun same => ?_, fun _ => ending⟩
        exact absurd (others.2 _ (List.mem_of_getLast? same)) (by decide)

end Strict.Denotes

theorem denotes_of_parts (negative : Prop) [Decidable negative] (digits : AreDigits whole)
    (isFraction : IsFraction fraction) (isExponent : IsExponent exponent) :
    Denotes ((if negative then [Symbol.minus] else []) ++ whole ++ fraction ++ exponent)
      ((if negative then -1 else 1) *
        ((digitsValue (whole ++ fraction.tail) : Rat) * 10 ^ (exponentValue exponent - fraction.tail.length))) := by
  have denotes := Denotes.mk (sign_cases negative) digits isFraction isExponent
  rw [mul_assoc, partsValue_eq isFraction] at denotes
  by_cases minus : negative
  · simpa only [minus, if_true] using denotes
  · simpa only [minus, if_false, reduceCtorEq] using denotes

theorem denotes_signedDecimalText (n : Int) : Denotes (signedDecimalText n) n := by
  have denotes := denotes_of_parts (n < 0) (areDigits_decimalText n.natAbs) .absent .absent
  rw [List.append_nil, List.append_nil, ← signedDecimalText_eq] at denotes
  have value : (if n < 0 then -1 else 1) * ((n.natAbs : Rat) * 10 ^ (0 - (0 : Int))) = n := by
    rw [sub_self, zpow_zero, mul_one, ← Int.cast_natCast]
    split
    · next below => rw [Int.ofNat_natAbs_of_nonpos (Int.le_of_lt below)]; simp
    · next above => rw [Int.natAbs_of_nonneg (Int.not_lt.mp above), one_mul]
  rw [← value]
  simpa [exponentValue] using denotes

theorem denotes_scientificText (numeral : Numeral) : Denotes numeral.scientificText numeral.toRat := by
  obtain ⟨whole, fraction, exponent, spells, same⟩ := numeral.exists_spells_of_scientificText
  have place := (readExponent?_eq spells.isExponent).symm.trans spells.place
  have denotes := denotes_of_parts (numeral.negative = true) spells.isWhole.areDigits spells.isFraction spells.isExponent
  rw [← same, spells.digits, Option.some.inj place, add_sub_cancel_right] at denotes
  rw [numeral.toRat_eq]
  cases negative : numeral.negative <;> simpa [negative] using denotes

/-! Binary64 numbers. -/

theorem ofNumeral_of_units (negative : Bool) {rank : Fin rankCount} {n : Nat}
    (units : Double.unitsOf rank = n * twoTo 1074) (limit : n < tenTo 16) :
    Double.ofNumeral ⟨negative, n, 0⟩ = .finite negative rank := by
  by_cases zero : n = 0
  · have least : rank.val = 0 := by
      by_contra some
      have := Double.unitsOf_pos (Nat.pos_of_ne_zero some)
      simp [units, zero] at this
    rw [zero, Double.ofNumeral_zero, Double.zero]
    exact congrArg _ (Fin.ext least.symm)
  · have short := (decimalText_length_le_iff (k := 16) (by decide)).mpr limit
    have integer : Double.ratioOf n 0 = (n, 1) := by simp [Double.ratioOf, tenTo]
    rw [Double.ofNumeral_eq negative 0 zero, if_neg (by omega), if_neg (by omega), integer]
    apply Double.ofRatio_of_exact negative Nat.one_pos rank
    rw [units, Nat.mul_one]

theorem CanonicalDouble.read? {negative : Bool} {rank : Fin rankCount} (canonical : CanonicalDouble negative rank t) :
    Double.read? t = some (.finite negative rank) := by
  have number := canonical.isNumber
  cases canonical with
  | @integer n units limit =>
    have numeral := Numeral.read?_of_parts (sign_cases (negative = true)) (areDigits_decimalText n) .absent .absent
      (readExponent?_eq .absent)
    rw [List.append_nil, List.append_nil] at numeral
    rw [Double.read?_token number, numeral, Option.map_some, Option.some.injEq, List.tail_nil, List.append_nil,
      digitsValue_decimalText]
    have sign : decide ((if negative = true then [Symbol.minus] else []) = [Symbol.minus]) = negative := by
      cases negative <;> rfl
    have place : exponentValue [] - (([] : Text).length : Int) = 0 := by simp [exponentValue]
    rw [sign, place]
    exact ofNumeral_of_units negative units limit
  | other _ _ reads => exact reads

theorem isTidy_double (negative : Bool) (rank : Fin rankCount) : IsTidy (shaved (Double.text (.finite negative rank))) := by
  obtain ⟨whole, fraction, exponent, parts, together⟩ := Double.magnitude_parts rank
  have denotes := denotes_of_parts (negative = true) parts.isWhole.areDigits parts.isFraction parts.isExponent
  rw [text_finite, together, ← List.append_assoc, ← List.append_assoc]
  exact denotes.isTidy_shaved

end

/-! Numbers of every kind. -/

theorem isTidy_of_no_point {t : Text} (noPoint : Symbol.dot ∉ t) : IsTidy t :=
  fun _ => ⟨fun last => noPoint (List.mem_of_getLast? last), fun member => absurd member noPoint⟩

theorem dot_notMem_signedDecimalText (n : Int) : Symbol.dot ∉ signedDecimalText n := by
  rw [signedDecimalText_eq]
  exact not_mem_signed (sign_cases (n < 0)) (areDigits_decimalText n.natAbs) rfl (by decide)

namespace Scalar

variable {q : Rat}

/-- The text of a fraction that is no integer. -/
def quotientText (q : Rat) : Text := signedDecimalText q.num ++ [Symbol.slash] ++ decimalText q.den

theorem not_isNumber_quotientText (q : Rat) : ¬ IsNumber (quotientText q) := by
  intro number
  have bounds := (number.isNumeric Symbol.slash (by simp [quotientText])).bounds
  exact absurd bounds (by decide)

theorem dot_notMem_quotientText (q : Rat) : Symbol.dot ∉ quotientText q := by
  have digits := not_mem_signed (c := Symbol.dot) (.inl rfl) (areDigits_decimalText q.den) rfl (by decide)
  simp only [quotientText, List.mem_append, not_or]
  exact ⟨⟨dot_notMem_signedDecimalText q.num, by decide⟩, digits⟩

inductive IsFiniteNumber : Scalar → Prop
  | int (n) : IsFiniteNumber (int n)
  | float (negative rank) : IsFiniteNumber (float (.finite negative rank))
  | decimal (numeral) : IsFiniteNumber (decimal (.finite numeral))
  | fraction (value : Rat) : IsFiniteNumber (fraction value)

/-- A text denotes a number exactly or, for a binary64 number, is read back as it. -/
inductive StandsFor (t : Text) : Scalar → Prop
  | int {n : Int} (denotes : Denotes t n) : StandsFor t (int n)
  | float {d} (reads : Double.read? t = some d) : StandsFor t (float d)
  | decimal {numeral} (denotes : Denotes t numeral.toRat) : StandsFor t (decimal (.finite numeral))
  | fraction {value : Rat} (denotes : Denotes t value) : StandsFor t (fraction value)

theorem standsFor_fraction (integer : q.den = 1) : StandsFor (signedDecimalText q.num) (fraction q) := by
  have denotes := denotes_signedDecimalText q.num
  rw [Rat.coe_int_num_of_den_eq_one integer] at denotes
  exact .fraction denotes

theorem dot_notMem_fractionText {t : Text} (text : fractionText q = .ok t) : Symbol.dot ∉ t := by
  have short : (fraction q).IsShort := exists_fractionText.mp ⟨t, text⟩
  by_cases integer : q.den = 1
  · rw [fractionText_of_den_eq_one integer, integerText_of_isShort short.1] at text
    cases text
    exact dot_notMem_signedDecimalText q.num
  · rw [fractionText_of_den_ne_one integer short] at text
    cases text
    exact dot_notMem_quotientText q

/-- The text of a fraction is shaved, but as it never holds a point this comes to nothing. -/
theorem canonicalNumber_fraction (q : Rat) : (fraction q).canonicalNumber = fractionText q := by
  have canonical : (fraction q).canonicalNumber = (fractionText q).map shaved := by
    simp only [canonicalNumber, plain]
    cases fractionText q <;> rfl
  rw [canonical]
  cases text : fractionText q with
  | error fault => rfl
  | ok t => exact congrArg Except.ok (shaved_of_no_point (dot_notMem_fractionText text))

theorem canonicalNumber_decimal (numeral : Numeral) :
    (decimal (.finite numeral)).canonicalNumber = .ok (shaved numeral.scientificText) := rfl

/-- Numbers with more digits than are written have no canonical text. -/
theorem canonicalNumber_of_not_isShort {leaf : Scalar} (long : ¬ leaf.IsShort) :
    leaf.canonicalNumber = .error .tooManyDigits := by
  cases leaf with
  | int n => exact integerText_of_not_isShort long
  | fraction q => exact (canonicalNumber_fraction q).trans (fractionText_of_not_isShort long)
  | _ => exact (long trivial).elim

/-- The canonical text of a number, which it has unless it needs more digits than are written, has no redundant zeros. It is
a token that stands for the number, unless the number is a fraction and no integer: then it is no token. -/
theorem canonicalNumber_denotes {leaf : Scalar} (number : leaf.IsFiniteNumber) :
    (leaf.IsShort → ∃ t, leaf.canonicalNumber = .ok t ∧ IsTidy t ∧ (IsNumber t ↔ ∀ q, leaf = fraction q → q.den = 1) ∧
      (IsNumber t → StandsFor t leaf)) ∧
    (¬ leaf.IsShort → leaf.canonicalNumber = .error .tooManyDigits) := by
  refine ⟨fun short => ?_, canonicalNumber_of_not_isShort⟩
  cases number with
  | int n =>
    have token := isNumber_signedDecimalText n
    have tidy := isTidy_of_no_point (dot_notMem_signedDecimalText n)
    exact ⟨_, integerText_of_isShort short, tidy, iff_of_true token nofun, fun _ => .int (denotes_signedDecimalText n)⟩
  | float negative rank =>
    have canonical := canonicalDouble negative rank
    exact ⟨_, canonicalNumber_float rfl, isTidy_double negative rank, iff_of_true canonical.isNumber nofun,
      fun _ => .float canonical.read?⟩
  | decimal numeral =>
    have token := isNumber_shaved (isNumber_scientificText numeral)
    have denotes := denotes_scientificText numeral
    exact ⟨_, canonicalNumber_decimal numeral, denotes.isTidy_shaved, iff_of_true token nofun, fun _ => .decimal denotes.shaved⟩
  | fraction q =>
    by_cases integer : q.den = 1
    · have text := (fractionText_of_den_eq_one integer).trans (integerText_of_isShort short.1)
      refine ⟨_, (canonicalNumber_fraction q).trans text, isTidy_of_no_point (dot_notMem_signedDecimalText q.num), ?_,
        fun _ => standsFor_fraction integer⟩
      exact iff_of_true (isNumber_signedDecimalText q.num) fun _ same => Scalar.fraction.inj same ▸ integer
    · have text := fractionText_of_den_ne_one integer short
      refine ⟨_, (canonicalNumber_fraction q).trans text, isTidy_of_no_point (dot_notMem_quotientText q), ?_,
        fun token => absurd token (not_isNumber_quotientText q)⟩
      exact iff_of_false (not_isNumber_quotientText q) fun every => integer (every q rfl)

theorem canonicalNumber_denotes_decimal : (decimal (.finite ⟨false, 150, -2⟩)).IsShort ∧
    ∃ t, (decimal (.finite ⟨false, 150, -2⟩)).canonicalNumber = .ok t ∧ IsTidy t ∧ IsNumber t ∧ Denotes t (3 / 2) := by
  obtain ⟨t, canonical, tidy, token, stands⟩ := (canonicalNumber_denotes (.decimal ⟨false, 150, -2⟩)).1 trivial
  have isNumber := token.mpr nofun
  have value : Numeral.toRat ⟨false, 150, -2⟩ = 3 / 2 := by
    rw [Numeral.toRat_eq]
    norm_num
  cases stands isNumber with
  | decimal denotes => exact ⟨trivial, t, canonical, tidy, isNumber, value ▸ denotes⟩

/-- A half is accepted, but its text is no token. -/
theorem canonicalNumber_half :
    (fraction (mkRat 1 2)).canonicalNumber = .ok (Text.ofString "1/2") ∧ ¬ IsNumber (Text.ofString "1/2") := by
  refine ⟨by decide +kernel, fun number => ?_⟩
  have bounds := (number.isNumeric Symbol.slash (by decide)).bounds
  exact absurd bounds (by decide)

end Scalar
end LenientJson
