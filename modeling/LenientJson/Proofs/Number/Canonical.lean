import LenientJson.Number.Decimal
import LenientJson.Proofs.Number.Written

/-! Canonical texts of numbers. Shaving the zeros at the end of its fraction makes a number token a
shorter one. The canonical text of an integer, of a finite binary64 number and of a finite decimal is
a number token; that of a binary64 number means the same number, as an integer where it is one. -/
namespace LenientJson
open Strict

theorem dropTrailingZeros_append {x : CodePoint} (other : x ≠ Symbol.zero) (t : Text) :
    dropTrailingZeros (t ++ [x]) = t ++ [x] := by
  rw [dropTrailingZeros, List.reverse_append, List.reverse_singleton, List.singleton_append,
    List.dropWhile_cons_of_neg (by rwa [beq_iff_eq]), ← List.singleton_append, List.reverse_append, List.reverse_reverse,
    List.reverse_singleton]

theorem dropTrailingZeros_zero (t : Text) : dropTrailingZeros (t ++ [Symbol.zero]) = dropTrailingZeros t := by
  rw [dropTrailingZeros, List.reverse_append, List.reverse_singleton, List.singleton_append,
    List.dropWhile_cons_of_pos (p := (· == Symbol.zero)) rfl, dropTrailingZeros]

theorem dropTrailingZeros_append_zeros {t : Text} (ending : t.getLast? ≠ some Symbol.zero) (k : Nat) :
    dropTrailingZeros (t ++ List.replicate k Symbol.zero) = t := by
  induction k with
  | zero =>
    rw [List.replicate_zero, List.append_nil]
    cases t using List.reverseRecOn with
    | nil => rfl
    | append_singleton t x => exact dropTrailingZeros_append (fun zero => ending (by rw [List.getLast?_concat, zero])) t
  | succ k ih => rw [List.replicate_succ', ← List.append_assoc, dropTrailingZeros_zero, ih]

def IsPlain (t : Text) : Prop := Symbol.letterE ∉ t ∧ 0x45 ∉ t

theorem IsPlain.of_append {s t : Text} (plain : IsPlain (s ++ t)) : IsPlain s :=
  ⟨fun member => plain.1 (List.mem_append_left t member), fun member => plain.2 (List.mem_append_left t member)⟩

theorem shaved_of_exponent {t : Text} (marked : ¬ IsPlain t) : shaved t = t := by
  refine if_neg fun plain => marked ?_
  rw [Bool.and_eq_true, Bool.and_eq_true, Bool.not_eq_true', Bool.not_eq_true'] at plain
  constructor
  · intro member
    rw [List.contains_iff_mem.mpr member] at plain
    cases plain.1.2
  · intro member
    rw [List.contains_iff_mem.mpr member] at plain
    cases plain.2

theorem shaved_of_no_point {t : Text} (noPoint : Symbol.dot ∉ t) : shaved t = t := by
  refine if_neg fun plain => noPoint ?_
  rw [Bool.and_eq_true, Bool.and_eq_true] at plain
  exact List.contains_iff_mem.mp plain.1.1

theorem shaved_of_point {t : Text} (plain : IsPlain t) (point : Symbol.dot ∈ t) :
    shaved t = if (dropTrailingZeros t).getLast? = some Symbol.dot then (dropTrailingZeros t).dropLast
      else dropTrailingZeros t := by
  refine if_pos ?_
  rw [Bool.and_eq_true, Bool.and_eq_true, Bool.not_eq_true', Bool.not_eq_true']
  refine ⟨⟨List.contains_iff_mem.mpr point, ?_⟩, ?_⟩
  · exact Bool.eq_false_iff.mpr fun contained => plain.1 (List.contains_iff_mem.mp contained)
  · exact Bool.eq_false_iff.mpr fun contained => plain.2 (List.contains_iff_mem.mp contained)

theorem shaved_of_fraction {front ds : Text} {x : CodePoint} (plain : IsPlain (front ++ Symbol.dot :: (ds ++ [x])))
    (nonzero : x ≠ Symbol.zero) (digit : x.isAsciiDigit = true) :
    shaved (front ++ Symbol.dot :: (ds ++ [x])) = front ++ Symbol.dot :: (ds ++ [x]) := by
  have other : x ≠ Symbol.dot := by rintro rfl; cases digit
  rw [shaved_of_point plain (List.mem_append_right _ List.mem_cons_self), ← List.cons_append, ← List.append_assoc,
    dropTrailingZeros_append nonzero, if_neg]
  rw [List.getLast?_concat]
  exact fun same => other (Option.some.inj same)

theorem shaved_of_zero {front ds : Text} (plain : IsPlain (front ++ Symbol.dot :: (ds ++ [Symbol.zero]))) :
    shaved (front ++ Symbol.dot :: (ds ++ [Symbol.zero])) =
      if ds = [] then front else shaved (front ++ Symbol.dot :: ds) := by
  have part : IsPlain (front ++ Symbol.dot :: ds) := by
    rw [← List.cons_append, ← List.append_assoc] at plain
    exact plain.of_append
  rw [shaved_of_point plain (List.mem_append_right _ List.mem_cons_self), ← List.cons_append, ← List.append_assoc,
    dropTrailingZeros_zero]
  by_cases empty : ds = []
  · subst empty
    rw [dropTrailingZeros_append (by decide), List.getLast?_concat, if_pos rfl, if_pos rfl, List.dropLast_concat]
  · rw [if_neg empty, shaved_of_point part (List.mem_append_right _ List.mem_cons_self)]

theorem isPlain_of_parts {sign whole fraction : Text} (signed : sign = [] ∨ sign = [Symbol.minus]) (digits : AreDigits whole)
    (isFraction : IsFraction fraction) : IsPlain (sign ++ whole ++ fraction) := by
  have lacking (c : CodePoint) (notDigit : c.isAsciiDigit = false) (notMinus : c ≠ Symbol.minus) (notDot : c ≠ Symbol.dot) :
      c ∉ sign ++ whole ++ fraction := by
    intro member
    rcases List.mem_append.mp member with inFront | inFraction
    · exact not_mem_signed signed digits notDigit notMinus inFront
    · cases isFraction with
      | absent => cases inFraction
      | point others =>
        rcases List.mem_cons.mp inFraction with same | inDigits
        · exact notDot same
        · rw [others.2 c inDigits] at notDigit
          cases notDigit
  exact ⟨lacking _ rfl (by decide) (by decide), lacking _ rfl (by decide) (by decide)⟩

/-- What shaving leaves of a text with a fraction: the fraction up to its last digit other than zero,
or nothing of it. -/
theorem exists_shaved_fraction {front ds : Text} (plain : IsPlain (front ++ Symbol.dot :: ds)) (digits : AreDigits ds) :
    ∃ ds' k, ds = ds' ++ List.replicate k Symbol.zero ∧ ds'.getLast? ≠ some Symbol.zero ∧
      shaved (front ++ Symbol.dot :: ds) = if ds' = [] then front else front ++ Symbol.dot :: ds' := by
  obtain ⟨some, digits⟩ := digits
  induction ds using List.reverseRecOn with
  | nil => exact absurd rfl some
  | append_singleton ds x ih =>
    have last := digits x (List.mem_append_right _ List.mem_cons_self)
    by_cases zero : x = Symbol.zero
    · subst zero
      rw [shaved_of_zero plain]
      split
      · next empty => exact ⟨[], 1, by rw [empty]; rfl, by simp, by rw [if_pos rfl]⟩
      · next left =>
        rw [← List.cons_append, ← List.append_assoc] at plain
        obtain ⟨ds', k, split, ending, same⟩ := ih plain.of_append left fun c member => digits c (List.mem_append_left _ member)
        refine ⟨ds', k + 1, ?_, ending, same⟩
        rw [split, List.replicate_succ', List.append_assoc]
    · refine ⟨ds ++ [x], 0, by simp, by simp [zero], ?_⟩
      rw [shaved_of_fraction plain zero last, if_neg (by simp)]

/-- The part of one that a fraction stands for. -/
def Strict.fractionValue : Text → Rat
  | [] => 0
  | _ :: ds => digitsValue ds / tenTo ds.length

theorem fractionValue_append_zeros (ds : Text) (k : Nat) :
    fractionValue (Symbol.dot :: (ds ++ List.replicate k Symbol.zero)) = fractionValue (Symbol.dot :: ds) := by
  have whole : (tenTo k : Rat) ≠ 0 := by exact_mod_cast Nat.ne_of_gt (tenTo_pos k)
  rw [fractionValue, fractionValue, digitsValue_append_zeros, List.length_append, List.length_replicate, tenTo_add]
  rw [Nat.cast_mul, Nat.cast_mul, mul_div_mul_right _ _ whole]

/-- Shaving leaves the parts of a number as they are, but a fraction without an exponent loses the zeros at its end, and
its point if no digit is left. -/
theorem exists_shaved_parts {sign whole fraction exponent : Text} (signed : sign = [] ∨ sign = [Symbol.minus])
    (digits : AreDigits whole) (isFraction : IsFraction fraction) (isExponent : IsExponent exponent) :
    ∃ fraction', IsFraction fraction' ∧ fractionValue fraction' = fractionValue fraction ∧
      shaved (sign ++ whole ++ fraction ++ exponent) = sign ++ whole ++ fraction' ++ exponent ∧
      (exponent = [] → fraction'.getLast? ≠ some Symbol.zero) := by
  cases isExponent with
  | @mark e _ _ letter _ _ =>
    refine ⟨fraction, isFraction, rfl, shaved_of_exponent fun plain => ?_, nofun⟩
    rcases letter with rfl | rfl
    · exact plain.1 (by simp)
    · exact plain.2 (by simp)
  | absent =>
    rw [List.append_nil]
    cases isFraction with
    | absent =>
      refine ⟨[], .absent, rfl, ?_, nofun⟩
      rw [List.append_nil, List.append_nil]
      exact shaved_of_no_point (not_mem_signed signed digits rfl (by decide))
    | @point ds others =>
      obtain ⟨ds', k, split, ending, same⟩ :=
        exists_shaved_fraction (isPlain_of_parts signed digits (.point others)) others
      by_cases empty : ds' = []
      · subst empty
        refine ⟨[], .absent, ?_, ?_, nofun⟩
        · rw [split, fractionValue_append_zeros]
          simp [fractionValue, digitsValue]
        · rw [same, if_pos rfl, List.append_nil, List.append_nil]
      · refine ⟨Symbol.dot :: ds', .point ⟨empty, fun c member => others.2 c ?_⟩, ?_, ?_, fun _ => ?_⟩
        · rw [split]
          exact List.mem_append_left _ member
        · rw [split, fractionValue_append_zeros]
        · rw [same, if_neg empty, List.append_nil]
        · rwa [List.getLast?_cons_of_ne_nil empty]

theorem isNumber_shaved {t : Text} (number : IsNumber t) : IsNumber (shaved t) := by
  cases number with
  | mk signed isWhole isFraction isExponent =>
    obtain ⟨fraction, isFraction', -, same, -⟩ := exists_shaved_parts signed isWhole.areDigits isFraction isExponent
    rw [same]
    exact .mk signed isWhole isFraction' isExponent

/-! Integers. -/

theorem signedDecimalText_eq (n : Int) :
    signedDecimalText n = (if n < 0 then [Symbol.minus] else []) ++ decimalText n.natAbs := by
  rw [signedDecimalText]
  split <;> rfl

theorem sign_cases (negative : Prop) [Decidable negative] :
    (if negative then [Symbol.minus] else []) = [] ∨ (if negative then [Symbol.minus] else []) = [Symbol.minus] := by
  split
  · exact .inr rfl
  · exact .inl rfl

theorem isNumber_signedDecimalText (n : Int) : IsNumber (signedDecimalText n) := by
  have number := IsNumber.mk (sign_cases (n < 0)) (isWhole_decimalText n.natAbs) .absent .absent
  rwa [List.append_nil, List.append_nil, ← signedDecimalText_eq] at number

theorem isIntegral_of_digits {sign whole : Text} (signed : sign = [] ∨ sign = [Symbol.minus]) (digits : AreDigits whole) :
    isIntegral (sign ++ whole) = true := by
  have lacking (c : CodePoint) (notDigit : c.isAsciiDigit = false) (notMinus : c ≠ Symbol.minus) :
      (sign ++ whole).contains c = false := by
    refine Bool.eq_false_iff.mpr fun contained => ?_
    exact not_mem_signed signed digits notDigit notMinus (List.contains_iff_mem.mp contained)
  rw [isIntegral, lacking _ rfl (by decide), lacking _ rfl (by decide), lacking _ rfl (by decide)]
  rfl

/-- An integer of 64 bits is what its text means. -/
theorem numberValue_signedDecimalText {n : Int} (low : minInt64 ≤ n) (high : n ≤ maxInt64) :
    numberValue (signedDecimalText n) = .int n := by
  have digits := areDigits_decimalText n.natAbs
  have value : integerValue (signedDecimalText n) = n := by
    rw [signedDecimalText_eq, integerValue_of_signed (sign_cases (n < 0)) digits, digitsValue_decimalText]
    by_cases negative : n < 0
    · rw [if_pos negative, if_pos rfl]
      omega
    · rw [if_neg negative, if_neg (by decide)]
      omega
  have plain : signedDecimalText n ≠ [Symbol.minus, Symbol.zero] := by
    intro same
    rw [same] at value
    rw [← value] at same
    exact absurd same (by decide)
  have integral : isIntegral (signedDecimalText n) = true := by
    rw [signedDecimalText_eq]
    exact isIntegral_of_digits (sign_cases (n < 0)) digits
  rw [numberValue, integral, value]
  have fits : signedDecimalText n ≠ [Symbol.minus, Symbol.zero] ∧ minInt64 ≤ n ∧ n ≤ maxInt64 := ⟨plain, low, high⟩
  exact (if_pos rfl).trans (if_pos fits)

/-! Binary64 numbers. -/

theorem Scalar.canonicalNumber_float {d : Double} (finite : d.isFinite = true) :
    (float d).canonicalNumber = .ok (shaved d.text) := by
  have admissible : (float d).isAdmissible = true := finite
  simp only [canonicalNumber, requireFinite, admissible, if_true]
  rfl

/-- A finite number as its canonical text shows it: as an integer that it is, or with a fraction or an
exponent from which it is read back. -/
inductive CanonicalDouble (negative : Bool) (rank : Fin rankCount) : Text → Prop
  | integer {n} (units : Double.unitsOf rank = n * twoTo 1074) (limit : n < tenTo 16) :
      CanonicalDouble negative rank ((if negative then [Symbol.minus] else []) ++ decimalText n)
  | other {t} (number : IsNumber t) (broken : isIntegral t = false)
      (reads : Double.read? t = some (.finite negative rank)) : CanonicalDouble negative rank t

theorem CanonicalDouble.isNumber {negative : Bool} {rank : Fin rankCount} {t : Text}
    (canonical : CanonicalDouble negative rank t) : IsNumber t := by
  cases canonical with
  | @integer n _ _ =>
    have number := IsNumber.mk (sign_cases (negative = true)) (isWhole_decimalText n) .absent .absent
    rwa [List.append_nil, List.append_nil] at number
  | other number _ _ => exact number

theorem text_finite (negative : Bool) (rank : Fin rankCount) :
    Double.text (.finite negative rank) = (if negative then [Symbol.minus] else []) ++ Double.magnitudeText rank := by
  cases negative <;> rfl

theorem Double.Parts.isNumber {rank : Fin rankCount} {whole fraction exponent : Text}
    (parts : Parts rank whole fraction exponent) (negative : Bool) :
    IsNumber ((if negative then [Symbol.minus] else []) ++ whole ++ fraction ++ exponent) :=
  .mk (sign_cases (negative = true)) parts.isWhole parts.isFraction parts.isExponent

theorem Double.Parts.read? {rank : Fin rankCount} {whole fraction exponent : Text}
    (parts : Parts rank whole fraction exponent) (negative : Bool) :
    Double.read? ((if negative then [Symbol.minus] else []) ++ whole ++ fraction ++ exponent) =
      some (.finite negative rank) := by
  obtain ⟨value, read, back⟩ := parts.reads
  have numeral := Numeral.read?_of_parts (sign_cases (negative = true)) parts.isWhole.areDigits parts.isFraction
    parts.isExponent read
  rw [read?_token (parts.isNumber negative), numeral, Option.map_some, back]
  cases negative <;> rfl

theorem isIntegral_of_mem {c : CodePoint} {t : Text} (mark : c = Symbol.dot ∨ c = Symbol.letterE) (member : c ∈ t) :
    isIntegral t = false := by
  have contained : t.contains c = true := List.contains_iff_mem.mpr member
  rw [isIntegral, Bool.not_eq_false']
  rcases mark with rfl | rfl
  · rw [contained, Bool.true_or, Bool.true_or]
  · rw [contained, Bool.or_true, Bool.true_or]

theorem canonicalDouble (negative : Bool) (rank : Fin rankCount) :
    CanonicalDouble negative rank (shaved (Double.text (.finite negative rank))) := by
  obtain ⟨whole, fraction, exponent, parts, together⟩ := Double.magnitude_parts rank
  have number := parts.isNumber negative
  have reads := parts.read? negative
  have signed := sign_cases (negative = true)
  rw [text_finite, together, ← List.append_assoc, ← List.append_assoc]
  obtain ⟨isWhole, isFraction, isExponent, ending, -⟩ := parts
  cases ending with
  | @exponent _ tail =>
    have member : Symbol.letterE ∈ (if negative then [Symbol.minus] else []) ++ whole ++ fraction ++ Symbol.letterE :: tail :=
      List.mem_append_right _ List.mem_cons_self
    rw [shaved_of_exponent fun plain => plain.1 member]
    exact .other number (isIntegral_of_mem (.inr rfl) member) reads
  | @fraction ds x nonzero =>
    have plain := isPlain_of_parts signed isWhole.areDigits isFraction
    have member : Symbol.dot ∈ (if negative then [Symbol.minus] else []) ++ whole ++ Symbol.dot :: (ds ++ [x]) :=
      List.mem_append_right _ List.mem_cons_self
    rw [List.append_nil] at number reads ⊢
    cases isFraction with
    | point digits =>
      rw [shaved_of_fraction plain nonzero (digits.2 _ (List.mem_append_right _ List.mem_cons_self))]
      exact .other number (isIntegral_of_mem (.inl rfl) member) reads
  | integer written units limit =>
    have plain := isPlain_of_parts signed isWhole.areDigits isFraction
    have short := @shaved_of_zero _ [] plain
    rw [List.append_nil]
    rw [if_pos rfl] at short
    have spelled : (if negative then [Symbol.minus] else []) ++ whole ++ [Symbol.dot, Symbol.zero] =
        (if negative then [Symbol.minus] else []) ++ whole ++ Symbol.dot :: ([] ++ [Symbol.zero]) := rfl
    rw [spelled, short, written]
    exact .integer units limit

/-- What the canonical text of a finite number means: an integer that the number is, or the number
itself. Only negative zero means its own text. -/
theorem numberValue_canonical {negative : Bool} {rank : Fin rankCount} (notNegativeZero : negative = true → 0 < rank.val) :
    (∃ n : Int, numberValue (shaved (Double.text (.finite negative rank))) = .int n ∧
      integerText n = .ok (shaved (Double.text (.finite negative rank))) ∧
      Double.units? (.finite negative rank) = some (n * twoTo 1074)) ∨
    numberValue (shaved (Double.text (.finite negative rank))) = .float (.finite negative rank) := by
  have canonical := canonicalDouble negative rank
  generalize shaved (Double.text (.finite negative rank)) = t at canonical
  cases canonical with
  | @integer n units limit =>
    have room : (tenTo 16 : Int) ≤ maxInt64 ∧ minInt64 ≤ -(tenTo 16 : Int) := by decide +kernel
    have positive : negative = true → 0 < n := by
      intro minus
      refine Nat.pos_of_ne_zero fun zero => ?_
      rw [zero, Nat.zero_mul] at units
      exact Nat.ne_of_gt (Double.unitsOf_pos (notNegativeZero minus)) units
    have written : signedDecimalText (if negative then -(n : Int) else n) =
        (if negative then [Symbol.minus] else []) ++ decimalText n := by
      rw [signedDecimalText_eq]
      cases negative with
      | false =>
        have plus : ¬ (n : Int) < 0 := by omega
        simp only [Bool.false_eq_true, if_false, plus, Int.natAbs_natCast]
      | true =>
        have minus : -(n : Int) < 0 := by
          have := positive rfl
          omega
        simp only [if_true, minus, Int.natAbs_neg, Int.natAbs_natCast]
    obtain ⟨low, high⟩ : minInt64 ≤ (if negative then -(n : Int) else n) ∧ (if negative then -(n : Int) else n) ≤ maxInt64 := by
      generalize tenTo 16 = bound at limit room
      constructor <;> split <;> omega
    refine .inl ⟨if negative then -(n : Int) else n, ?_, ?_, ?_⟩
    · rw [← written]
      exact numberValue_signedDecimalText low high
    · rw [← written]
      exact integerText_of_isShort (isShort_of_int64 low high)
    · rw [Double.units?, units]
      cases negative with
      | false => exact congrArg some (Int.natCast_mul n (twoTo 1074))
      | true =>
        refine congrArg some ?_
        rw [if_pos rfl, if_pos rfl, Int.natCast_mul, Int.neg_mul]
  | other number broken reads =>
    right
    rw [numberValue, broken, reads]
    rfl

/-! Decimals. -/

namespace Numeral

/-- A numeral spelled in parts that keep all its digits. -/
structure Spells (numeral : Numeral) (whole fraction exponent : Text) : Prop where
  isWhole : IsWhole whole
  isFraction : IsFraction fraction
  isExponent : IsExponent exponent
  digits : digitsValue (whole ++ fraction.tail) = numeral.coefficient
  place : readExponent? exponent = some (numeral.exponent + fraction.tail.length)

variable {numeral : Numeral} {whole fraction : Text}

/-- A mantissa with the exponent that is written unless it is zero. -/
theorem exists_spells_of_mantissa (isWhole : IsWhole whole) (isFraction : IsFraction fraction)
    (digits : digitsValue (whole ++ fraction.tail) = numeral.coefficient) {e : Int}
    (place : e = numeral.exponent + fraction.tail.length) :
    ∃ exponent, numeral.Spells whole fraction exponent ∧
      (if e = 0 then whole ++ fraction
        else whole ++ fraction ++ [0x45, if e < 0 then Symbol.minus else Symbol.plus] ++ decimalText e.natAbs) =
      whole ++ fraction ++ exponent := by
  split
  · next zero => exact ⟨[], ⟨isWhole, isFraction, .absent, digits, by rw [← place, zero]; rfl⟩, by rw [List.append_nil]⟩
  · refine ⟨0x45 :: [if e < 0 then Symbol.minus else Symbol.plus] ++ decimalText e.natAbs, ⟨isWhole, isFraction, ?_, digits, ?_⟩,
      List.append_assoc ..⟩
    · refine .mark (.inr rfl) ?_ (areDigits_decimalText _)
      split
      · exact .inr (.inl rfl)
      · exact .inr (.inr rfl)
    · rw [← place]
      split
      · next negative =>
        rw [readExponent?_of_digits (.inr rfl) (.inr (.inl rfl)) (areDigits_decimalText _), digitsValue_decimalText, if_pos rfl]
        exact congrArg some (by omega)
      · next nonnegative =>
        rw [readExponent?_of_digits (.inr rfl) (.inr (.inr rfl)) (areDigits_decimalText _), digitsValue_decimalText,
          if_neg (by decide)]
        exact congrArg some (by omega)

theorem exists_spells_of_magnitude {t : Text}
    (spelled : ∃ whole fraction exponent, numeral.Spells whole fraction exponent ∧ t = whole ++ fraction ++ exponent) :
    ∃ whole fraction exponent, numeral.Spells whole fraction exponent ∧
      (if numeral.negative then Symbol.minus :: t else t) =
        (if numeral.negative then [Symbol.minus] else []) ++ whole ++ fraction ++ exponent := by
  obtain ⟨whole, fraction, exponent, spells, rfl⟩ := spelled
  refine ⟨whole, fraction, exponent, spells, ?_⟩
  cases numeral.negative <;> simp

theorem exists_spells_of_scientificText (numeral : Numeral) :
    ∃ whole fraction exponent, numeral.Spells whole fraction exponent ∧
      numeral.scientificText = (if numeral.negative then [Symbol.minus] else []) ++ whole ++ fraction ++ exponent := by
  have digits := isWhole_decimalText numeral.coefficient
  have value := digitsValue_decimalText numeral.coefficient
  unfold scientificText
  generalize decimalText numeral.coefficient = ds at digits value
  apply exists_spells_of_magnitude
  split
  · next plain =>
    split
    · next zero =>
      refine ⟨ds, [], [], ⟨digits, .absent, .absent, ?_, by rw [zero]; rfl⟩, by simp⟩
      rwa [List.tail_nil, List.append_nil]
    · split
      · next small =>
        refine ⟨[Symbol.zero], Symbol.dot :: (List.replicate (-(numeral.exponent + ds.length)).toNat Symbol.zero ++ ds), [],
          ⟨.zero, .point ⟨?_, ?_⟩, .absent, ?_, ?_⟩, by simp⟩
        · exact List.append_ne_nil_of_right_ne_nil _ digits.areDigits.1
        · exact List.forall_mem_append.mpr ⟨areDigits_zeros _, digits.areDigits.2⟩
        · exact (digitsValue_zeros _ ds).trans value
        · rw [List.tail_cons, List.length_append, List.length_replicate]
          exact congrArg some (by omega)
      · next after =>
        refine ⟨ds.take (numeral.exponent + ds.length).toNat, Symbol.dot :: ds.drop (numeral.exponent + ds.length).toNat, [],
          ⟨digits.take (by omega), .point ⟨?_, ?_⟩, .absent, ?_, ?_⟩, by simp⟩
        · intro none
          have := List.drop_eq_nil_iff.mp none
          omega
        · exact fun c member => digits.areDigits.2 c (List.mem_of_mem_drop member)
        · rwa [List.tail_cons, List.take_append_drop]
        · rw [List.tail_cons, List.length_drop]
          exact congrArg some (by omega)
  · -- a point stands after the first digit if there is a second
    match ds, digits with
    | [], digits => exact absurd rfl digits.areDigits.1
    | [d], digits =>
      obtain ⟨exponent, spells, same⟩ := @exists_spells_of_mantissa numeral _ _ digits .absent value
        (numeral.exponent + [d].length - 1) (by simp)
      rw [List.append_nil] at same
      exact ⟨_, _, exponent, spells, by rw [List.append_nil]; exact same⟩
    | first :: second :: rest, digits =>
      have others : AreDigits (second :: rest) :=
        ⟨List.cons_ne_nil _ _, (List.forall_mem_cons.mp digits.areDigits.2).2⟩
      obtain ⟨exponent, spells, same⟩ := @exists_spells_of_mantissa numeral _ _ (digits.take (n := 1) Nat.one_pos)
        (.point others) value (numeral.exponent + (first :: second :: rest).length - 1) (by simp; omega)
      exact ⟨_, _, exponent, spells, same⟩

end Numeral

theorem isNumber_scientificText (numeral : Numeral) : IsNumber numeral.scientificText := by
  obtain ⟨whole, fraction, exponent, spells, same⟩ := numeral.exists_spells_of_scientificText
  rw [same]
  exact .mk (sign_cases _) spells.isWhole spells.isFraction spells.isExponent

end LenientJson
