import LenientJson.Proofs.Number.Shortest
import LenientJson.Proofs.Number.Token

/-! The text of a magnitude of binary64 taken apart into its whole, its fraction and its exponent. The
parts are those of a number token, they read back as the magnitude, and it is noted how they end: this
says what is left once the zeros at the end are shaved. -/
namespace LenientJson
open Strict

theorem digitsValue_zeros (k : Nat) (digits : Text) :
    digitsValue (List.replicate k Symbol.zero ++ digits) = digitsValue digits := by
  induction k with
  | zero => rfl
  | succ k ih => exact ih

theorem digitsValue_append_zeros (digits : Text) (k : Nat) :
    digitsValue (digits ++ List.replicate k Symbol.zero) = digitsValue digits * tenTo k := by
  have zeros := digitsValue_zeros k []
  rw [List.append_nil] at zeros
  rw [digitsValue_append, zeros, List.length_replicate]
  rfl

theorem areDigits_zeros (k : Nat) : ∀ c ∈ List.replicate k Symbol.zero, CodePoint.isAsciiDigit c = true := by
  intro c member
  rw [List.eq_of_mem_replicate member]
  rfl

theorem exists_last_digit {c : Nat} (nonzero : c % 10 ≠ 0) : ∃ ds x, decimalText c = ds ++ [x] ∧ x ≠ Symbol.zero := by
  induction c using decimal_induction with
  | one d small => exact ⟨[], 0x30 + d, decimalText_of_lt small, fun same => nonzero (by have : 0x30 + d = 0x30 := same; omega)⟩
  | more n d front small _ =>
    exact ⟨_, 0x30 + d, decimalText_append front small, fun same => nonzero (by have : 0x30 + d = 0x30 := same; omega)⟩

theorem Strict.IsWhole.take {digits : Text} (whole : IsWhole digits) {n : Nat} (positive : 0 < n) : IsWhole (digits.take n) := by
  obtain ⟨n, rfl⟩ : ∃ k, n = k + 1 := Nat.exists_eq_succ_of_ne_zero (Nat.ne_of_gt positive)
  cases whole with
  | zero => rw [List.take_succ_cons, List.take_nil]; exact .zero
  | digits low high others =>
    rw [List.take_succ_cons]
    exact .digits low high fun c member => others c (List.mem_of_mem_take member)

namespace Double

theorem exponentText_eq (exponent : Int) :
    exponentText exponent = Symbol.letterE :: [if exponent < 0 then Symbol.minus else Symbol.plus] ++
      (List.replicate (2 - (decimalText exponent.natAbs).length) Symbol.zero ++ decimalText exponent.natAbs) := rfl

theorem isExponent_exponentText (exponent : Int) :
    IsExponent (exponentText exponent) ∧ Numeral.readExponent? (exponentText exponent) = some exponent := by
  have value := digitsValue_zeros (2 - (decimalText exponent.natAbs).length) (decimalText exponent.natAbs)
  have digits : AreDigits (List.replicate (2 - (decimalText exponent.natAbs).length) Symbol.zero ++
      decimalText exponent.natAbs) := by
    refine ⟨List.append_ne_nil_of_right_ne_nil _ (decimalText_ne_nil _), ?_⟩
    exact List.forall_mem_append.mpr ⟨areDigits_zeros _, decimalText_digits _⟩
  rw [digitsValue_decimalText] at value
  rw [exponentText_eq]
  by_cases negative : exponent < 0
  · have minus : [if exponent < 0 then Symbol.minus else Symbol.plus] = [Symbol.minus] := by rw [if_pos negative]
    rw [minus]
    refine ⟨.mark (.inl rfl) (.inr (.inl rfl)) digits, ?_⟩
    rw [Numeral.readExponent?_of_digits (.inl rfl) (.inr (.inl rfl)) digits, value, if_pos rfl]
    exact congrArg some (by omega)
  · have plus : [if exponent < 0 then Symbol.minus else Symbol.plus] = [Symbol.plus] := by rw [if_neg negative]
    rw [plus]
    refine ⟨.mark (.inl rfl) (.inr (.inr rfl)) digits, ?_⟩
    rw [Numeral.readExponent?_of_digits (.inl rfl) (.inr (.inr rfl)) digits, value, if_neg (by decide)]
    exact congrArg some (by omega)

/-- How the text of a magnitude ends: with an exponent, with a fraction that is not zero, or with the
fraction of an integer. -/
inductive Ending (rank : Nat) (whole : Text) : (fraction exponent : Text) → Prop
  | exponent {fraction exponent} : Ending rank whole fraction (Symbol.letterE :: exponent)
  | fraction {ds x} (nonzero : x ≠ Symbol.zero) : Ending rank whole (Symbol.dot :: (ds ++ [x])) []
  | integer {n} (written : whole = decimalText n) (units : unitsOf rank = n * twoTo 1074) (limit : n < tenTo 16) :
      Ending rank whole [Symbol.dot, Symbol.zero] []

/-- The text of a magnitude in its parts. -/
structure Parts (rank : Fin rankCount) (whole fraction exponent : Text) : Prop where
  isWhole : IsWhole whole
  isFraction : IsFraction fraction
  isExponent : IsExponent exponent
  ending : Ending rank whole fraction exponent
  reads : ∃ value, Numeral.readExponent? exponent = some value ∧ ∀ negative,
    ofNumeral ⟨negative, digitsValue (whole ++ fraction.tail), value - fraction.tail.length⟩ = .finite negative rank

variable {rank : Fin rankCount} {c : Nat} {e : Int}

theorem scientific_parts (reads : ∀ negative, ofNumeral ⟨negative, c, e⟩ = .finite negative rank) :
    ∃ whole fraction exponent, Parts rank whole fraction exponent ∧
      scientific (decimalText c) (e + (decimalText c).length - 1) = whole ++ fraction ++ exponent := by
  obtain ⟨isExponent, exponentRead⟩ := isExponent_exponentText (e + (decimalText c).length - 1)
  have whole := isWhole_decimalText c
  have value := digitsValue_decimalText c
  generalize decimalText c = digits at *
  obtain ⟨d, ds, rfl, digit⟩ := whole.areDigits.exists_cons
  have others := (List.forall_mem_cons.mp whole.areDigits.2).2
  by_cases single : ds = []
  · subst single
    refine ⟨[d], [], _, ⟨whole, .absent, isExponent, .exponent, _, exponentRead, fun negative => ?_⟩, ?_⟩
    · rw [← reads negative, ← value]
      exact congrArg (fun e => ofNumeral ⟨negative, digitsValue [d], e⟩) (by simp)
    · rw [scientific, if_pos rfl, List.append_nil]
  · refine ⟨[d], Symbol.dot :: ds, _, ⟨whole.take (n := 1) Nat.one_pos, .point ⟨single, others⟩, isExponent,
      .exponent, _, exponentRead, fun negative => ?_⟩, ?_⟩
    · rw [← reads negative, ← value]
      exact congrArg (fun e => ofNumeral ⟨negative, digitsValue (d :: ds), e⟩) (by simp; omega)
    · rw [scientific, if_neg single]
      rfl

/-- Zeros stand between the point and the digits. -/
theorem positional_parts_of_small (significant : c % 10 ≠ 0)
    (reads : ∀ negative, ofNumeral ⟨negative, c, e⟩ = .finite negative rank) {k : Nat}
    (gap : e + (decimalText c).length = -k) :
    ∃ whole fraction exponent, Parts rank whole fraction exponent ∧
      positional (decimalText c) (e + (decimalText c).length) = whole ++ fraction ++ exponent := by
  obtain ⟨front, x, split, nonzero⟩ := exists_last_digit significant
  have digits : AreDigits (List.replicate k Symbol.zero ++ decimalText c) :=
    ⟨List.append_ne_nil_of_right_ne_nil _ (decimalText_ne_nil c),
      List.forall_mem_append.mpr ⟨areDigits_zeros k, decimalText_digits c⟩⟩
  refine ⟨[Symbol.zero], Symbol.dot :: (List.replicate k Symbol.zero ++ decimalText c), [],
    ⟨.zero, .point digits, .absent, ?_, 0, rfl, fun negative => ?_⟩, ?_⟩
  · rw [split, ← List.append_assoc]
    exact .fraction nonzero
  · have same : digitsValue ([Symbol.zero] ++ (List.replicate k Symbol.zero ++ decimalText c)) = c :=
      (digitsValue_zeros k (decimalText c)).trans (digitsValue_decimalText c)
    rw [List.tail_cons, same, ← reads negative]
    refine congrArg (fun e => ofNumeral ⟨negative, c, e⟩) ?_
    rw [List.length_append, List.length_replicate]
    omega
  · rw [positional, if_pos (by omega), gap, Int.neg_neg, Int.toNat_natCast, List.append_nil]
    rfl

theorem positional_of_pos (digits : Text) {place : Nat} (positive : 0 < place) :
    positional digits place = digits.take place ++ List.replicate (place - digits.length) Symbol.zero ++ [Symbol.dot] ++
      (if digits.drop place = [] then [Symbol.zero] else digits.drop place) := by
  rw [positional, if_neg (by omega), Int.toNat_natCast]

/-- The point stands among the digits. -/
theorem positional_parts_of_inside (significant : c % 10 ≠ 0)
    (reads : ∀ negative, ofNumeral ⟨negative, c, e⟩ = .finite negative rank) {place : Nat} (positive : 0 < place)
    (same : e + (decimalText c).length = place) (inside : place < (decimalText c).length) :
    ∃ whole fraction exponent, Parts rank whole fraction exponent ∧
      positional (decimalText c) (e + (decimalText c).length) = whole ++ fraction ++ exponent := by
  obtain ⟨front, x, split, nonzero⟩ := exists_last_digit significant
  have left : (decimalText c).drop place ≠ [] := by
    rw [ne_eq, List.drop_eq_nil_iff]
    omega
  have digits : AreDigits ((decimalText c).drop place) :=
    ⟨left, fun d member => decimalText_digits c d (List.mem_of_mem_drop member)⟩
  refine ⟨(decimalText c).take place, Symbol.dot :: (decimalText c).drop place, [],
    ⟨(isWhole_decimalText c).take positive, .point digits, .absent, ?_, 0, rfl, fun negative => ?_⟩, ?_⟩
  · rw [split, List.length_append, List.length_singleton] at inside
    rw [split, List.drop_append_of_le_length (by omega)]
    exact .fraction nonzero
  · rw [List.tail_cons, List.take_append_drop, digitsValue_decimalText, ← reads negative]
    refine congrArg (fun e => ofNumeral ⟨negative, c, e⟩) ?_
    rw [List.length_drop]
    omega
  · rw [same, positional_of_pos _ positive, Nat.sub_eq_zero_of_le (Nat.le_of_lt inside), if_neg left, List.replicate_zero,
      List.append_nil, List.append_nil, List.append_assoc]
    rfl

/-- Zeros stand between the digits and the point. -/
theorem positional_parts_of_integer (significant : c % 10 ≠ 0) {zeros : Nat}
    (reads : ∀ negative, ofNumeral ⟨negative, c, zeros⟩ = .finite negative rank)
    (short : zeros + (decimalText c).length ≤ 16) (integer : unitsOf rank = c * tenTo zeros * twoTo 1074) :
    ∃ whole fraction exponent, Parts rank whole fraction exponent ∧
      positional (decimalText c) (zeros + (decimalText c).length) = whole ++ fraction ++ exponent := by
  have positive : 0 < c := by omega
  have wide := decimalText_mul_tenTo positive zeros
  refine ⟨decimalText (c * tenTo zeros), [Symbol.dot, Symbol.zero], [],
    ⟨isWhole_decimalText _, .point ⟨List.cons_ne_nil _ _, List.forall_mem_singleton.mpr rfl⟩, .absent,
      .integer rfl integer ?_, 0, rfl, fun negative => ?_⟩, ?_⟩
  · refine (decimalText_length_le_iff (by decide)).mp ?_
    rw [wide, List.length_append, List.length_replicate]
    omega
  · have tenth : digitsValue (decimalText (c * tenTo zeros) ++ [Symbol.zero]) = c * tenTo zeros * 10 := by
      rw [digitsValue_append_singleton, digitsValue_decimalText, Nat.mul_comm 10]
      rfl
    have place : (0 : Int) - ([Symbol.zero] : Text).length = zeros - zeros - 1 := by
      rw [List.length_singleton]
      omega
    rw [List.tail_cons, tenth, place, ofNumeral_mul_ten, ofNumeral_mul_tenTo, reads]
  · have all : (decimalText c).drop (zeros + (decimalText c).length) = [] := List.drop_eq_nil_iff.mpr (by omega)
    have positive := decimalText_length_pos c
    rw [show (zeros : Int) + (decimalText c).length = (zeros + (decimalText c).length : Nat) from rfl,
      positional_of_pos _ (by omega), all, if_pos rfl, List.take_of_length_le (by omega), wide, List.append_nil,
      Nat.add_sub_cancel, List.append_assoc _ [Symbol.dot]]
    rfl

theorem magnitude_parts (rank : Fin rankCount) :
    ∃ whole fraction exponent, Parts rank whole fraction exponent ∧ magnitudeText rank = whole ++ fraction ++ exponent := by
  by_cases isZero : rank.val = 0
  · have units : unitsOf rank = 0 * twoTo 1074 := by
      rw [Nat.zero_mul, unitsOf, if_pos (by rw [isZero]; exact twoTo_pos 52), isZero]
    refine ⟨[Symbol.zero], [Symbol.dot, Symbol.zero], [], ⟨.zero,
      .point ⟨List.cons_ne_nil _ _, List.forall_mem_singleton.mpr rfl⟩, .absent,
      .integer (n := 0) (by decide) units (by decide), 0, rfl, fun negative => ?_⟩, ?_⟩
    · exact (ofNumeral_zero negative _).trans (congrArg _ (Fin.ext isZero.symm))
    · rw [magnitudeText, if_pos isZero]
      rfl
  · have positive : 0 < rank.val := Nat.pos_of_ne_zero isZero
    have reads := readsBack_iff.mp (readsBack_shortest positive rank.isLt)
    have nonzero : 0 < (shortest rank).1 := by
      refine Nat.pos_of_ne_zero fun zero => isZero ?_
      have read := reads false
      rw [zero, ofNumeral_zero, Double.zero, Double.finite.injEq] at read
      rw [← read.2]
    obtain ⟨c, k, split, significant, digits⟩ := significantDigits_eq nonzero
    have coefficient : 0 < c := by omega
    have moved (negative : Bool) : ofNumeral ⟨negative, c, (shortest rank).2 + k⟩ = .finite negative rank := by
      rw [← reads negative, split, ← ofNumeral_mul_tenTo negative c k, Int.add_sub_cancel]
    have place : (shortest rank).2 + (decimalText (shortest rank).1).length =
        (shortest rank).2 + k + (decimalText c).length := by
      rw [split, decimalText_mul_tenTo coefficient, List.length_append, List.length_replicate]
      omega
    have text : magnitudeText rank =
        if -4 < (shortest rank).2 + k + (decimalText c).length ∧ (shortest rank).2 + k + (decimalText c).length ≤ 16 then
          positional (decimalText c) ((shortest rank).2 + k + (decimalText c).length)
        else scientific (decimalText c) ((shortest rank).2 + k + (decimalText c).length - 1) := by
      rw [magnitudeText, if_neg isZero]
      simp only [place, digits]
    have integer (zeros : Nat) (whole : (shortest rank).2 + k = zeros) (short : zeros + (decimalText c).length ≤ 16) :
        unitsOf rank = c * tenTo zeros * twoTo 1074 := unitsOf_of_integer positive split whole short
    generalize (shortest rank).2 + k = e at moved text integer
    rw [text]
    split
    · next plain =>
      rcases lt_or_ge 0 (e + (decimalText c).length) with after | before
      · obtain ⟨point, same⟩ : ∃ point : Nat, e + (decimalText c).length = point := Int.eq_ofNat_of_zero_le (by omega)
        by_cases inside : point < (decimalText c).length
        · exact positional_parts_of_inside significant moved (by omega) same inside
        · obtain ⟨zeros, rfl⟩ : ∃ zeros : Nat, e = zeros := Int.eq_ofNat_of_zero_le (by omega)
          exact positional_parts_of_integer significant moved (by omega) (integer zeros rfl (by omega))
      · obtain ⟨k, gap⟩ : ∃ k : Nat, -(e + (decimalText c).length) = k := Int.eq_ofNat_of_zero_le (by omega)
        exact positional_parts_of_small significant moved (k := k) (by omega)
    · exact scientific_parts moved

end Double

end LenientJson
