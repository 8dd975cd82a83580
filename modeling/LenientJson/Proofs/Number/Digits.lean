import LenientJson.Proofs.Grammar.Strict
import Mathlib.Data.List.Induction
import Mathlib.Tactic.Ring
import Mathlib.Tactic.Linarith

/-! Decimal digits of natural numbers. Writing and reading digits are inverse on texts without a
redundant zero in front, and the number of digits says between which powers of ten a number lies. An
integer has a text unless it has more digits than are written; integers of 64 bits always have one. -/
namespace LenientJson
open Strict

theorem tenTo_succ (n : Nat) : tenTo (n + 1) = 10 * tenTo n := Nat.pow_succ'

theorem tenTo_add (m n : Nat) : tenTo (m + n) = tenTo m * tenTo n := Nat.pow_add 10 m n

theorem tenTo_pos (n : Nat) : 0 < tenTo n := Nat.pow_pos (by decide)

theorem isAsciiDigit_iff {c : Nat} : CodePoint.isAsciiDigit c = true ↔ 0x30 ≤ c ∧ c ≤ 0x39 := by
  simp only [CodePoint.isAsciiDigit, Bool.and_eq_true, decide_eq_true_eq]

theorem decimalText_of_lt {d : Nat} (small : d < 10) : decimalText d = [0x30 + d] := by
  rw [decimalText, Nat.toDigits_of_lt_base small, List.map_singleton, Nat.toNat_digitChar_of_lt_ten small]

theorem decimalText_append {n d : Nat} (positive : 0 < n) (small : d < 10) :
    decimalText (10 * n + d) = decimalText n ++ [0x30 + d] := by
  rw [← decimalText_of_lt small]
  simp only [decimalText, ← Nat.toDigits_append_toDigits (by decide : 1 < 10) positive small, List.map_append]

/-- Numbers are built from their digits, the last one at a time. -/
theorem decimal_induction {p : Nat → Prop} (one : ∀ d, d < 10 → p d)
    (more : ∀ n d, 0 < n → d < 10 → p n → p (10 * n + d)) (n : Nat) : p n := by
  induction n using Nat.strongRecOn with
  | ind n ih =>
    by_cases small : n < 10
    · exact one n small
    · have split : 10 * (n / 10) + n % 10 = n := Nat.div_add_mod n 10
      rw [← split]
      exact more _ _ (by omega) (by omega) (ih _ (by omega))

theorem decimalText_ne_nil (n : Nat) : decimalText n ≠ [] := by
  rw [decimalText, ne_eq, List.map_eq_nil_iff]
  exact Nat.toDigits_ne_nil

theorem decimalText_digits (n : Nat) : ∀ c ∈ decimalText n, c.isAsciiDigit = true := by
  induction n using decimal_induction with
  | one d small =>
    rw [decimalText_of_lt small]
    intro c member
    obtain rfl := List.mem_singleton.mp member
    exact isAsciiDigit_iff.mpr ⟨Nat.le_add_right .., by omega⟩
  | more n d positive small ih =>
    rw [decimalText_append positive small]
    intro c member
    rcases List.mem_append.mp member with front | last
    · exact ih c front
    · obtain rfl := List.mem_singleton.mp last
      exact isAsciiDigit_iff.mpr ⟨Nat.le_add_right .., by omega⟩

theorem areDigits_decimalText (n : Nat) : AreDigits (decimalText n) :=
  ⟨decimalText_ne_nil n, decimalText_digits n⟩

theorem digitsValue_append_singleton (digits : Text) (c : CodePoint) :
    digitsValue (digits ++ [c]) = 10 * digitsValue digits + (c - 0x30) := by
  rw [digitsValue, List.foldl_append, List.foldl_cons, List.foldl_nil, digitsValue]

theorem digitsValue_append (s t : Text) : digitsValue (s ++ t) = digitsValue s * tenTo t.length + digitsValue t := by
  induction t using List.reverseRecOn with
  | nil => rw [List.append_nil, List.length_nil, show tenTo 0 = 1 from rfl, Nat.mul_one]; rfl
  | append_singleton t c ih =>
    rw [← List.append_assoc, digitsValue_append_singleton, digitsValue_append_singleton, ih, List.length_append,
      List.length_singleton, tenTo_succ]
    ring

/-- Of equally many digits, no others have the same value. -/
theorem digitsValue_injective {ds es : Text} (digits : ∀ c ∈ ds, c.isAsciiDigit = true)
    (digits' : ∀ c ∈ es, c.isAsciiDigit = true) (long : ds.length = es.length)
    (same : digitsValue ds = digitsValue es) : ds = es := by
  induction ds using List.reverseRecOn generalizing es with
  | nil => exact (List.length_eq_zero_iff.mp long.symm).symm
  | append_singleton ds c ih =>
    cases es using List.reverseRecOn with
    | nil => simp at long
    | append_singleton es d =>
      obtain ⟨others, last⟩ := List.forall_mem_append.mp digits
      obtain ⟨others', last'⟩ := List.forall_mem_append.mp digits'
      have bounds := isAsciiDigit_iff.mp (last c List.mem_cons_self)
      have bounds' := isAsciiDigit_iff.mp (last' d List.mem_cons_self)
      rw [digitsValue_append_singleton, digitsValue_append_singleton] at same
      obtain rfl : ds = es := ih others others' (by simpa using long) (by omega)
      exact congrArg (fun x : Nat => ds ++ [x]) (by omega)

@[simp] theorem digitsValue_decimalText (n : Nat) : digitsValue (decimalText n) = n := by
  induction n using decimal_induction with
  | one d small =>
    rw [decimalText_of_lt small]
    simp only [digitsValue, List.foldl_cons, List.foldl_nil]
    omega
  | more n d positive small ih =>
    rw [decimalText_append positive small, digitsValue_append_singleton, ih]
    omega

theorem isWhole_decimalText (n : Nat) : IsWhole (decimalText n) := by
  induction n using decimal_induction with
  | one d small =>
    rw [decimalText_of_lt small]
    by_cases zero : d = 0
    · rw [zero]
      exact .zero
    · exact .digits (by omega) (by omega) (List.forall_mem_nil _)
  | more n d positive small ih =>
    rw [decimalText_append positive small]
    have last : CodePoint.isAsciiDigit (0x30 + d) = true := isAsciiDigit_iff.mpr ⟨Nat.le_add_right .., by omega⟩
    generalize front : decimalText n = digits at ih
    cases ih with
    | zero =>
      have value := digitsValue_decimalText n
      rw [front] at value
      exact absurd value.symm (Nat.ne_of_gt positive)
    | digits low high others =>
      refine .digits low high ?_
      exact List.forall_mem_append.mpr ⟨others, List.forall_mem_singleton.mpr last⟩

/-- Digits without a redundant zero are those that their value is written with. -/
theorem decimalText_digitsValue {digits : Text} (whole : IsWhole digits) :
    decimalText (digitsValue digits) = digits ∧ (digits ≠ [Symbol.zero] → 0 < digitsValue digits) := by
  cases whole with
  | zero => exact ⟨by decide, fun other => absurd rfl other⟩
  | @digits d ds low high others =>
    induction ds using List.reverseRecOn with
    | nil =>
      have value : digitsValue [d] = d - 0x30 := by simp [digitsValue]
      rw [value, decimalText_of_lt (by omega)]
      exact ⟨congrArg (fun c => [c]) (by omega), fun _ => by omega⟩
    | append_singleton ds c ih =>
      obtain ⟨others, last⟩ := List.forall_mem_append.mp others
      obtain ⟨low', high'⟩ := isAsciiDigit_iff.mp (last c List.mem_cons_self)
      have nonzero : d :: ds ≠ [Symbol.zero] := by
        intro same
        have first : d = 0x30 := (List.cons.inj same).1
        omega
      obtain ⟨written, positive⟩ := ih others
      rw [← List.cons_append, digitsValue_append_singleton, decimalText_append (positive nonzero) (by omega), written]
      have positive := positive nonzero
      exact ⟨congrArg (fun x => d :: ds ++ [x]) (by omega), fun _ => by omega⟩

theorem decimalText_length_le_iff {n k : Nat} (positive : 0 < k) : (decimalText n).length ≤ k ↔ n < tenTo k := by
  rw [decimalText, List.length_map]
  exact Nat.length_toDigits_le_iff (by decide) positive

theorem decimalText_length_pos (n : Nat) : 0 < (decimalText n).length :=
  List.length_pos_iff.mpr (decimalText_ne_nil n)

theorem tenTo_le_of_lt_length {n k : Nat} (positive : 0 < n) (longer : k < (decimalText n).length) : tenTo k ≤ n := by
  cases k with
  | zero => exact positive
  | succ k =>
    refine Nat.le_of_not_lt fun small => ?_
    have := (decimalText_length_le_iff (Nat.succ_pos k)).mpr small
    omega

theorem decimalText_mul_tenTo {n : Nat} (positive : 0 < n) (k : Nat) :
    decimalText (n * tenTo k) = decimalText n ++ List.replicate k Symbol.zero := by
  induction k with
  | zero => rw [List.replicate_zero, List.append_nil]; exact congrArg decimalText (Nat.mul_one n)
  | succ k ih =>
    have shifted : n * tenTo (k + 1) = 10 * (n * tenTo k) + 0 := by
      rw [tenTo_succ]
      ring
    rw [shifted, decimalText_append (Nat.mul_pos positive (tenTo_pos k)) (by decide), ih, List.replicate_succ',
      List.append_assoc]

/-! Integers that are written. -/

/-- An integer with no more digits than are written. -/
def IsShort (n : Int) : Prop := (decimalText n.natAbs).length ≤ digitLimit

instance (n : Int) : Decidable (IsShort n) := inferInstanceAs (Decidable (_ ≤ _))

theorem integerText_of_isShort {n : Int} (short : IsShort n) : integerText n = .ok (signedDecimalText n) := if_pos short

theorem integerText_of_not_isShort {n : Int} (long : ¬ IsShort n) : integerText n = .error .tooManyDigits := if_neg long

theorem isShort_of_int64 {n : Int} (low : minInt64 ≤ n) (high : n ≤ maxInt64) : IsShort n := by
  have bound : n.natAbs < tenTo 19 := by
    have limit : tenTo 19 = 10000000000000000000 := by decide
    unfold minInt64 at low
    unfold maxInt64 at high
    omega
  exact ((decimalText_length_le_iff (by decide)).mpr bound).trans (by decide)

/-- A leaf whose text needs no more digits than are written. -/
def Scalar.IsShort : Scalar → Prop
  | int n => LenientJson.IsShort n
  | fraction q => LenientJson.IsShort q.num ∧ LenientJson.IsShort q.den
  | _ => True

namespace Scalar

variable {q : Rat} {t : Text}

/-- A fraction that is an integer has its text. -/
theorem fractionText_of_den_eq_one (integer : q.den = 1) : fractionText q = integerText q.num := if_pos integer

theorem fractionText_of_den_ne_one (proper : q.den ≠ 1) (short : (fraction q).IsShort) :
    fractionText q = .ok (signedDecimalText q.num ++ [Symbol.slash] ++ decimalText q.den) := by
  have den : signedDecimalText q.den = decimalText q.den := if_neg (by omega)
  rw [fractionText, if_neg proper, integerText_of_isShort short.1, integerText_of_isShort short.2, den]
  rfl

theorem fractionText_of_not_isShort (long : ¬ (fraction q).IsShort) : fractionText q = .error .tooManyDigits := by
  rw [fractionText]
  split
  · next integer =>
    refine integerText_of_not_isShort fun short => long ⟨short, ?_⟩
    rw [integer]
    decide
  by_cases short : LenientJson.IsShort q.num
  · have long' : ¬ LenientJson.IsShort q.den := fun short' => long ⟨short, short'⟩
    rw [integerText_of_isShort short, integerText_of_not_isShort long']
    rfl
  · rw [integerText_of_not_isShort short]
    rfl

/-- A fraction has a text exactly if it needs no more digits than are written. -/
theorem exists_fractionText : (∃ t, fractionText q = .ok t) ↔ (fraction q).IsShort := by
  refine ⟨fun ⟨t, written⟩ => ?_, fun short => ?_⟩
  · by_contra long
    cases (fractionText_of_not_isShort long).symm.trans written
  · by_cases integer : q.den = 1
    · exact ⟨_, (fractionText_of_den_eq_one integer).trans (integerText_of_isShort short.1)⟩
    · exact ⟨_, fractionText_of_den_ne_one integer short⟩

end Scalar
end LenientJson
