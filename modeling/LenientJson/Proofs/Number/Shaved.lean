import LenientJson.Proofs.Number.Denoted

/-! Shaving as a normal form of the numerals without an exponent. What is left of such a numeral has its sign, its
integer part and its value, and no zero at the end of its fraction. Only one numeral is like this: digits behind a point
are known by their value once the last of them is no zero. So numerals are shaved to the same text exactly if they agree
in sign, integer part and value, and what is shaved is not shaved any further. -/
namespace LenientJson
open Strict

/-- Digits behind a point are known by the part of one that they stand for, unless a zero is the last of them. -/
theorem digits_eq_of_value_eq {ds es : Text} (digits : ∀ c ∈ ds, c.isAsciiDigit = true)
    (digits' : ∀ c ∈ es, c.isAsciiDigit = true) (ending : ds.getLast? ≠ some Symbol.zero)
    (ending' : es.getLast? ≠ some Symbol.zero)
    (same : digitsValue ds * tenTo es.length = digitsValue es * tenTo ds.length) : ds = es := by
  -- filled up with zeros to one length, both are the same digits
  have filled : ds ++ List.replicate es.length Symbol.zero = es ++ List.replicate ds.length Symbol.zero := by
    apply digitsValue_injective
    · exact List.forall_mem_append.mpr ⟨digits, areDigits_zeros _⟩
    · exact List.forall_mem_append.mpr ⟨digits', areDigits_zeros _⟩
    · rw [List.length_append, List.length_append, List.length_replicate, List.length_replicate, Nat.add_comm]
    · rwa [digitsValue_append_zeros, digitsValue_append_zeros]
  calc ds = dropTrailingZeros (ds ++ List.replicate es.length Symbol.zero) :=
        (dropTrailingZeros_append_zeros ending _).symm
    _ = dropTrailingZeros (es ++ List.replicate ds.length Symbol.zero) := congrArg dropTrailingZeros filled
    _ = es := dropTrailingZeros_append_zeros ending' _

/-! Fractions. -/

theorem fractionValue_eq (fraction : Text) :
    fractionValue fraction = digitsValue fraction.tail / tenTo fraction.tail.length := by
  cases fraction with
  | nil => simp [fractionValue, digitsValue]
  | cons c ds => rfl

namespace Strict.IsFraction

variable {fraction fraction' : Text}

theorem tail_digits (isFraction : IsFraction fraction) : ∀ c ∈ fraction.tail, c.isAsciiDigit = true := by
  cases isFraction with
  | absent => exact List.forall_mem_nil _
  | point digits => exact digits.2

theorem getLast?_tail (isFraction : IsFraction fraction) : fraction.tail.getLast? = fraction.getLast? := by
  cases isFraction with
  | absent => rfl
  | point digits => rw [List.tail_cons, List.getLast?_cons_of_ne_nil digits.1]

theorem eq_of_tail_eq (isFraction : IsFraction fraction) (isFraction' : IsFraction fraction')
    (same : fraction.tail = fraction'.tail) : fraction = fraction' := by
  cases isFraction with
  | absent =>
    cases isFraction' with
    | absent => rfl
    | point digits' => exact absurd same.symm digits'.1
  | point digits =>
    cases isFraction' with
    | absent => exact absurd same digits.1
    | point digits' => exact congrArg (Symbol.dot :: ·) same

/-- A fraction without a zero at its end is known by its value. -/
theorem eq_of_value_eq (isFraction : IsFraction fraction) (isFraction' : IsFraction fraction')
    (ending : fraction.getLast? ≠ some Symbol.zero) (ending' : fraction'.getLast? ≠ some Symbol.zero)
    (same : fractionValue fraction = fractionValue fraction') : fraction = fraction' := by
  have scale (k : Nat) : (tenTo k : Rat) ≠ 0 := by exact_mod_cast Nat.ne_of_gt (tenTo_pos k)
  rw [fractionValue_eq, fractionValue_eq, div_eq_div_iff (scale _) (scale _)] at same
  apply isFraction.eq_of_tail_eq isFraction'
  apply digits_eq_of_value_eq isFraction.tail_digits isFraction'.tail_digits
  · rwa [isFraction.getLast?_tail]
  · rwa [isFraction'.getLast?_tail]
  · exact_mod_cast same

end Strict.IsFraction

/-! Numerals. -/

/-- A decimal numeral without an exponent. Its integer part may have zeros in front. -/
@[ext] structure PlainNumeral where
  sign : Text
  whole : Text
  fraction : Text
  signed : sign = [] ∨ sign = [Symbol.minus]
  isWhole : AreDigits whole
  isFraction : IsFraction fraction

namespace PlainNumeral

variable {m n : PlainNumeral}

def text (n : PlainNumeral) : Text := n.sign ++ n.whole ++ n.fraction

def toRat (n : PlainNumeral) : Rat :=
  (if n.sign = [Symbol.minus] then -1 else 1) * (digitsValue n.whole + fractionValue n.fraction)

/-- No zero stands at the end of the fraction. -/
def IsShort (n : PlainNumeral) : Prop := n.fraction.getLast? ≠ some Symbol.zero

theorem denotes (n : PlainNumeral) : Denotes n.text n.toRat := by
  have denotes := Denotes.mk n.signed n.isWhole n.isFraction .absent
  rwa [List.append_nil, show exponentValue [] = 0 from rfl, zpow_zero, mul_one] at denotes

theorem isPlain (n : PlainNumeral) : IsPlain n.text := isPlain_of_parts n.signed n.isWhole n.isFraction

theorem splitSign_text (n : PlainNumeral) :
    Text.splitSign n.text = (decide (n.sign = [Symbol.minus]), n.whole ++ n.fraction) := by
  rw [text, List.append_assoc]
  apply Text.splitSign_of_lead n.signed
  obtain ⟨d, ds, whole, digit⟩ := n.isWhole.exists_cons
  exact ⟨d, ds ++ n.fraction, by rw [whole, List.cons_append], digit⟩

theorem sign_eq_of_minus_iff (minus : m.sign = [Symbol.minus] ↔ n.sign = [Symbol.minus]) : m.sign = n.sign := by
  rcases m.signed with plain | marked
  · rcases n.signed with plain' | marked'
    · rw [plain, plain']
    · exact (minus.mpr marked').trans marked'.symm
  · rw [marked, minus.mp marked]

/-- The integer part is made of the digits in front of the fraction. -/
theorem digits_of_unsigned (n : PlainNumeral) :
    (n.whole ++ n.fraction).takeWhile CodePoint.isAsciiDigit = n.whole ∧
      (n.whole ++ n.fraction).dropWhile CodePoint.isAsciiDigit = n.fraction := by
  apply digits_of_append n.isWhole.2
  intro c head
  rw [← List.append_nil n.fraction] at head
  exact n.isFraction.stops .absent c head

/-- A text is that of one numeral at most. -/
theorem eq_of_text_eq (same : m.text = n.text) : m = n := by
  have parts := congrArg Text.splitSign same
  rw [splitSign_text, splitSign_text, Prod.mk.injEq, decide_eq_decide] at parts
  obtain ⟨minus, unsigned⟩ := parts
  obtain ⟨whole, fraction⟩ := m.digits_of_unsigned
  rw [unsigned] at whole fraction
  ext1
  · exact sign_eq_of_minus_iff minus
  · exact whole.symm.trans n.digits_of_unsigned.1
  · exact fraction.symm.trans n.digits_of_unsigned.2

theorem toRat_eq_iff (sign : m.sign = n.sign) (whole : m.whole = n.whole) :
    m.toRat = n.toRat ↔ fractionValue m.fraction = fractionValue n.fraction := by
  have unit : (if n.sign = [Symbol.minus] then -1 else 1 : Rat) ≠ 0 := by split <;> norm_num
  rw [toRat, toRat, sign, whole, mul_right_inj' unit, add_right_inj]

theorem IsShort.eq (short : m.IsShort) (short' : n.IsShort) (sign : m.sign = n.sign) (whole : m.whole = n.whole)
    (value : m.toRat = n.toRat) : m = n := by
  have fraction := m.isFraction.eq_of_value_eq n.isFraction short short' ((toRat_eq_iff sign whole).mp value)
  exact PlainNumeral.ext sign whole fraction

theorem exists_short (n : PlainNumeral) :
    ∃ m : PlainNumeral, shaved n.text = m.text ∧ m.sign = n.sign ∧ m.whole = n.whole ∧ m.toRat = n.toRat ∧ m.IsShort := by
  obtain ⟨fraction, isFraction, value, same, ending⟩ := exists_shaved_parts n.signed n.isWhole n.isFraction .absent
  rw [List.append_nil, List.append_nil] at same
  let m : PlainNumeral := { n with fraction, isFraction }
  have unchanged : m.toRat = n.toRat := (toRat_eq_iff (m := m) (n := n) rfl rfl).mpr value
  exact ⟨m, same, rfl, rfl, unchanged, ending rfl⟩

theorem IsShort.shaved_text (short : n.IsShort) : shaved n.text = n.text := by
  obtain ⟨m, text, sign, whole, value, short'⟩ := n.exists_short
  rw [text, short'.eq short sign whole value]

theorem shaved_text_eq_iff :
    shaved m.text = shaved n.text ↔ m.sign = n.sign ∧ m.whole = n.whole ∧ m.toRat = n.toRat := by
  obtain ⟨m', text, sign, whole, value, short⟩ := m.exists_short
  obtain ⟨n', text', sign', whole', value', short'⟩ := n.exists_short
  -- what is left are the texts of two short numerals
  rw [text, text', ← sign, ← sign', ← whole, ← whole', ← value, ← value']
  constructor
  · intro same
    rw [eq_of_text_eq same]
    exact ⟨rfl, rfl, rfl⟩
  · rintro ⟨sign, whole, value⟩
    rw [short.eq short' sign whole value]

/-- A numeral is shaved to one with its sign, its integer part and its value that ends neither in a point nor in a zero
behind a point. This one stays as it is, and two numerals have it in common exactly if they agree in all three. -/
theorem shaved_isNormalForm (n : PlainNumeral) :
    (∃ m : PlainNumeral, shaved n.text = m.text ∧ m.sign = n.sign ∧ m.whole = n.whole ∧ m.toRat = n.toRat ∧
      m.text.getLast? ≠ some Symbol.dot ∧ (Symbol.dot ∈ m.text → m.text.getLast? ≠ some Symbol.zero)) ∧
    shaved (shaved n.text) = shaved n.text ∧
    ∀ n' : PlainNumeral, shaved n.text = shaved n'.text ↔ n.sign = n'.sign ∧ n.whole = n'.whole ∧ n.toRat = n'.toRat := by
  obtain ⟨m, text, sign, whole, value, short⟩ := n.exists_short
  have tidy := n.denotes.isTidy_shaved
  rw [text] at tidy
  refine ⟨⟨m, text, sign, whole, value, tidy m.isPlain⟩, ?_, fun n' => shaved_text_eq_iff⟩
  rw [text, short.shaved_text]

end PlainNumeral
end LenientJson
