import LenientJson.Inference
import LenientJson.Proofs.Number.Digits

/-! Number tokens of strict JSON as the readers of numbers take them. A token is plain ASCII with
nothing to trim, so every reader sees its sign, its digits and its exponent as they stand. From this
the value inferred from a bare word is the value of the token that it is. -/
namespace LenientJson
open Strict

def IsNumeric (c : CodePoint) : Prop :=
  c.isAsciiDigit = true ∨ c = Symbol.minus ∨ c = Symbol.plus ∨ c = Symbol.dot ∨ c = Symbol.letterE ∨ c = 0x45

theorem IsNumeric.bounds {c : Nat} (numeric : IsNumeric c) : 0x2B ≤ c ∧ c ≤ 0x65 ∧ c ≠ 0x5F ∧ c ≠ 0x2C ∧ c ≠ 0x2F ∧
    c ≠ 0x3A ∧ c ≠ 0x3B ∧ c ≠ 0x3D ∧ c ≠ 0x5B ∧ c ≠ 0x5C ∧ c ≠ 0x5D := by
  rcases numeric with digit | rfl | rfl | rfl | rfl | rfl
  · have := isAsciiDigit_iff.mp digit
    omega
  all_goals decide

theorem IsNumeric.visible {t : Text} (numeric : ∀ c ∈ t, IsNumeric c) (c : Nat) (member : c ∈ t) : 0x20 < c ∧ c < 0x80 := by
  have := (numeric c member).bounds
  omega

theorem isNumeric_of_digits {ds : Text} (digits : ∀ c ∈ ds, c.isAsciiDigit = true) : ∀ c ∈ ds, IsNumeric c :=
  fun c member => .inl (digits c member)

theorem isNumeric_of_sign {sign : Text} (signed : sign = [] ∨ sign = [Symbol.minus]) : ∀ c ∈ sign, IsNumeric c := by
  rcases signed with rfl | rfl
  · exact List.forall_mem_nil _
  · exact List.forall_mem_singleton.mpr (.inr (.inl rfl))

/-- What is neither a digit nor a minus does not occur among signed digits. -/
theorem not_mem_signed {sign whole : Text} {c : CodePoint} (signed : sign = [] ∨ sign = [Symbol.minus])
    (digits : AreDigits whole) (notDigit : c.isAsciiDigit = false) (notMinus : c ≠ Symbol.minus) : c ∉ sign ++ whole := by
  intro member
  rcases List.mem_append.mp member with inSign | inWhole
  · rcases signed with rfl | rfl
    · cases inSign
    · exact notMinus (List.mem_singleton.mp inSign)
  · rw [digits.2 c inWhole] at notDigit
    cases notDigit

theorem Strict.IsWhole.areDigits {t : Text} (whole : IsWhole t) : AreDigits t := by
  cases whole with
  | zero => exact ⟨List.cons_ne_nil _ _, List.forall_mem_singleton.mpr rfl⟩
  | digits low high others =>
    exact ⟨List.cons_ne_nil _ _, List.forall_mem_cons.mpr ⟨isAsciiDigit_iff.mpr ⟨by omega, high⟩, others⟩⟩

theorem Strict.AreDigits.exists_cons {t : Text} (digits : AreDigits t) : ∃ d ds, t = d :: ds ∧ d.isAsciiDigit = true := by
  obtain ⟨d, ds, rfl⟩ := List.exists_cons_of_ne_nil digits.1
  exact ⟨d, ds, rfl, digits.2 d List.mem_cons_self⟩

theorem Strict.IsFraction.isNumeric {t : Text} (fraction : IsFraction t) : ∀ c ∈ t, IsNumeric c := by
  cases fraction with
  | absent => exact List.forall_mem_nil _
  | point digits =>
    exact List.forall_mem_cons.mpr ⟨.inr (.inr (.inr (.inl rfl))), isNumeric_of_digits digits.2⟩

theorem Strict.IsExponent.isNumeric {t : Text} (exponent : IsExponent t) : ∀ c ∈ t, IsNumeric c := by
  cases exponent with
  | absent => exact List.forall_mem_nil _
  | mark letter signed digits =>
    refine List.forall_mem_cons.mpr ⟨.inr (.inr (.inr (.inr letter))), ?_⟩
    refine List.forall_mem_append.mpr ⟨?_, isNumeric_of_digits digits.2⟩
    rcases signed with rfl | rfl | rfl
    · exact List.forall_mem_nil _
    · exact List.forall_mem_singleton.mpr (.inr (.inl rfl))
    · exact List.forall_mem_singleton.mpr (.inr (.inr (.inl rfl)))

theorem Strict.IsNumber.isNumeric {t : Text} (number : IsNumber t) : ∀ c ∈ t, IsNumeric c := by
  cases number with
  | mk signed whole fraction exponent =>
    refine List.forall_mem_append.mpr ⟨List.forall_mem_append.mpr ⟨List.forall_mem_append.mpr ⟨?_, ?_⟩, ?_⟩, ?_⟩
    · exact isNumeric_of_sign signed
    · exact isNumeric_of_digits whole.areDigits.2
    · exact fraction.isNumeric
    · exact exponent.isNumeric

/-- A token is a digit, perhaps after a minus, and what follows it. -/
theorem Strict.IsNumber.head {t : Text} (number : IsNumber t) :
    ∃ c u, t = c :: u ∧ (c.isAsciiDigit = true ∨ c = Symbol.minus) := by
  cases number with
  | mk signed whole fraction exponent =>
    obtain ⟨d, ds, rfl, digit⟩ := whole.areDigits.exists_cons
    rcases signed with rfl | rfl
    · exact ⟨d, _, rfl, .inl digit⟩
    · exact ⟨Symbol.minus, _, rfl, .inr rfl⟩

theorem Strict.IsFraction.stops {fraction exponent : Text} (isFraction : IsFraction fraction)
    (isExponent : IsExponent exponent) (c : Nat) (head : (fraction ++ exponent).head? = some c) :
    CodePoint.isAsciiDigit c = false := by
  cases isFraction with
  | point digits =>
    obtain rfl : Symbol.dot = c := Option.some.inj head
    rfl
  | absent =>
    cases isExponent with
    | absent => cases head
    | @mark e _ _ letter signed digits =>
      obtain rfl : e = c := Option.some.inj head
      rcases letter with rfl | rfl <;> rfl

theorem digits_of_append {ds rest : Text} (digits : ∀ c ∈ ds, c.isAsciiDigit = true)
    (stop : ∀ c : CodePoint, rest.head? = some c → c.isAsciiDigit = false) :
    (ds ++ rest).takeWhile CodePoint.isAsciiDigit = ds ∧ (ds ++ rest).dropWhile CodePoint.isAsciiDigit = rest := by
  rw [List.takeWhile_append_of_pos digits, List.dropWhile_append_of_pos digits]
  cases rest with
  | nil => exact ⟨List.append_nil ds, rfl⟩
  | cons c rest =>
    have other : ¬ CodePoint.isAsciiDigit c = true := by
      rw [stop c rfl]
      decide
    rw [List.takeWhile_cons_of_neg other, List.dropWhile_cons_of_neg other]
    exact ⟨List.append_nil ds, rfl⟩

/-- A minus and a plus are signs, and digits and letters are none. -/
theorem Text.splitSign_of_sign {sign : Text} (signed : sign = [] ∨ sign = [Symbol.minus] ∨ sign = [Symbol.plus]) {c : Nat}
    (unsigned : 0x30 ≤ c) (t : Text) : Text.splitSign (sign ++ c :: t) = (decide (sign = [Symbol.minus]), c :: t) := by
  rcases signed with rfl | rfl | rfl
  · have minus : ¬ c = 0x2D := by omega
    have plus : ¬ c = 0x2B := by omega
    rw [List.nil_append, Text.splitSign, if_neg minus, if_neg plus]
    rfl
  · rfl
  · rfl

theorem Text.splitSign_of_digit {d : CodePoint} (digit : d.isAsciiDigit = true) (t : Text) :
    Text.splitSign (d :: t) = (false, d :: t) :=
  Text.splitSign_of_sign (.inl rfl) (isAsciiDigit_iff.mp digit).1 t

theorem Text.splitSign_of_lead {sign unsigned : Text} (signed : sign = [] ∨ sign = [Symbol.minus])
    (digit : ∃ d ds, unsigned = d :: ds ∧ d.isAsciiDigit = true) :
    Text.splitSign (sign ++ unsigned) = (decide (sign = [Symbol.minus]), unsigned) := by
  obtain ⟨d, ds, rfl, digit⟩ := digit
  exact Text.splitSign_of_sign (signed.imp_right .inl) (isAsciiDigit_iff.mp digit).1 ds

namespace Numeral

theorem readExponent?_of_digits {e : CodePoint} {sign ds : Text} (letter : e = Symbol.letterE ∨ e = 0x45)
    (signed : sign = [] ∨ sign = [Symbol.minus] ∨ sign = [Symbol.plus]) (digits : AreDigits ds) :
    readExponent? (e :: sign ++ ds) =
      some (if sign = [Symbol.minus] then -(digitsValue ds : Int) else digitsValue ds) := by
  have lowered : e.lowerAscii = Symbol.letterE := by rcases letter with rfl | rfl <;> rfl
  have all : ds ≠ [] ∧ ds.all CodePoint.isAsciiDigit = true := ⟨digits.1, List.all_eq_true.mpr digits.2⟩
  obtain ⟨d, rest, rfl, digit⟩ := digits.exists_cons
  rw [List.cons_append, readExponent?, if_pos lowered, Text.splitSign_of_sign signed (isAsciiDigit_iff.mp digit).1]
  simp only [if_pos all, decide_eq_true_eq]

/-- The digits of the whole and of the fraction are read as one coefficient. -/
theorem readUnsigned?_of_parts (negative : Bool) {whole fraction exponent : Text} {value : Int}
    (isWhole : AreDigits whole) (isFraction : IsFraction fraction) (isExponent : IsExponent exponent)
    (read : readExponent? exponent = some value) :
    readUnsigned? negative (whole ++ fraction ++ exponent) =
      some ⟨negative, digitsValue (whole ++ fraction.tail), value - fraction.tail.length⟩ := by
  obtain ⟨taken, dropped⟩ := digits_of_append isWhole.2 (isFraction.stops isExponent)
  rw [List.append_assoc, readUnsigned?]
  simp only [taken, dropped]
  cases isFraction with
  | absent =>
    have point : ∀ rest, [] ++ exponent ≠ Symbol.dot :: rest := by
      intro rest same
      cases isExponent with
      | absent => cases same
      | mark letter _ _ => rcases letter with rfl | rfl <;> cases same
    split
    · next rest same => exact absurd same (point rest)
    · rw [List.nil_append, read, if_neg (by simpa using isWhole.1)]
      rfl
  | point digits =>
    have stop : ∀ c : CodePoint, exponent.head? = some c → c.isAsciiDigit = false :=
      IsFraction.absent.stops isExponent
    obtain ⟨taken, dropped⟩ := digits_of_append digits.2 stop
    simp only [List.cons_append, taken, dropped, read, List.tail_cons]
    rw [if_neg (by simpa using fun empty => absurd empty isWhole.1)]
    rfl

theorem read?_of_signed {sign unsigned : Text} (signed : sign = [] ∨ sign = [Symbol.minus])
    (digit : ∃ d ds, unsigned = d :: ds ∧ d.isAsciiDigit = true) :
    read? (sign ++ unsigned) = readUnsigned? (decide (sign = [Symbol.minus])) unsigned := by
  rw [read?, Text.splitSign_of_lead signed digit]

theorem read?_of_parts {sign whole fraction exponent : Text} {value : Int} (signed : sign = [] ∨ sign = [Symbol.minus])
    (isWhole : AreDigits whole) (isFraction : IsFraction fraction) (isExponent : IsExponent exponent)
    (read : readExponent? exponent = some value) :
    read? (sign ++ whole ++ fraction ++ exponent) =
      some ⟨decide (sign = [Symbol.minus]), digitsValue (whole ++ fraction.tail), value - fraction.tail.length⟩ := by
  rw [← readUnsigned?_of_parts _ isWhole isFraction isExponent read, List.append_assoc, List.append_assoc,
    List.append_assoc whole]
  apply read?_of_signed signed
  obtain ⟨d, ds, rfl, digit⟩ := isWhole.exists_cons
  exact ⟨d, _, rfl, digit⟩

end Numeral

theorem dropWhile_of_none {p : CodePoint → Bool} {t : Text} (none : ∀ c ∈ t, p c = false) : t.dropWhile p = t := by
  cases t with
  | nil => rfl
  | cons c t =>
    refine List.dropWhile_cons_of_neg ?_
    rw [none c List.mem_cons_self]
    decide

theorem Text.trim_of_none {p : CodePoint → Bool} {t : Text} (none : ∀ c ∈ t, p c = false) : t.trim p = t := by
  have back : ∀ c ∈ t.reverse, p c = false := fun c member => none c (List.mem_reverse.mp member)
  rw [Text.trim, dropWhile_of_none none, dropWhile_of_none back, List.reverse_reverse]

theorem isNumeralSpace_eq_false {c : Nat} (high : 0x20 < c) : Text.isNumeralSpace c = false := by
  have control : ¬ c ≤ 0x0D := by omega
  have space : c ≠ 0x20 := by omega
  rw [Text.isNumeralSpace, decide_eq_false control, Bool.and_false, Bool.false_or]
  exact beq_eq_false_iff_ne.mpr space

theorem asciiNumeral_of_ascii {t : Text} (ascii : ∀ c : Nat, c ∈ t → c < 0x80) : Text.asciiNumeral t = t := by
  rw [Text.asciiNumeral]
  refine (List.map_congr_left fun (c : Nat) member => ?_).trans (List.map_id t)
  exact if_pos (ascii c member)

/-- There is nothing to convert and nothing to trim where all characters are visible and ASCII. -/
theorem trim_asciiNumeral {t : Text} (visible : ∀ c : Nat, c ∈ t → 0x20 < c ∧ c < 0x80) :
    (Text.asciiNumeral t).trim Text.isNumeralSpace = t := by
  rw [asciiNumeral_of_ascii fun c member => (visible c member).2]
  exact Text.trim_of_none fun c member => isNumeralSpace_eq_false (visible c member).1

/-- A word that does not begin with one of the letters of a name is not that name. -/
theorem equalsAnyCase_eq_false {c d : CodePoint} {t name : Text} (differ : c.lowerAscii ≠ d.lowerAscii) :
    Text.equalsAnyCase (c :: t) (d :: name) = false := by
  rw [Text.equalsAnyCase, List.map_cons, List.map_cons]
  exact beq_eq_false_iff_ne.mpr fun same => differ (List.cons.inj same).1

theorem lowerAscii_of_lead {c : Nat} (lead : CodePoint.isAsciiDigit c = true ∨ c = Symbol.minus) :
    CodePoint.lowerAscii c = c := by
  rcases lead with digit | rfl
  · have := isAsciiDigit_iff.mp digit
    have small : ¬ 0x41 ≤ c := by omega
    rw [CodePoint.lowerAscii, decide_eq_false small, Bool.false_and]
    rfl
  · rfl

namespace Double

theorem read?_token {t : Text} (number : IsNumber t) : read? t = (Numeral.read? t).map ofNumeral := by
  have named {d : CodePoint} {ds name : Text} {x : CodePoint} (digit : d.isAsciiDigit = true)
      (letter : CodePoint.isAsciiDigit x = false) : (d :: ds).map CodePoint.lowerAscii ≠ x :: name := by
    intro same
    have first : d.lowerAscii = x := (List.cons.inj same).1
    rw [lowerAscii_of_lead (.inl digit)] at first
    rw [first, letter] at digit
    cases digit
  rw [read?, trim_asciiNumeral (IsNumeric.visible number.isNumeric), Numeral.read?]
  obtain ⟨d, ds, digit, split⟩ : ∃ d ds, CodePoint.isAsciiDigit d = true ∧ (Text.splitSign t).2 = d :: ds := by
    cases number with
    | @mk _ _ fraction exponent signed isWhole _ _ =>
      obtain ⟨d, ds, rfl, digit⟩ := isWhole.areDigits.exists_cons
      rcases signed with rfl | rfl
      · refine ⟨d, ds ++ fraction ++ exponent, digit, ?_⟩
        rw [List.nil_append, List.cons_append, List.cons_append, Text.splitSign_of_digit digit]
      · exact ⟨d, _, digit, rfl⟩
  simp only [split]
  rw [if_neg, if_neg]
  · exact named digit rfl
  · rintro (infinite | infinite)
    · exact named digit rfl infinite
    · exact named digit rfl infinite

end Double

/-! What is inferred from a bare word that is a number token. -/

theorem readDigits_of_digits {ds : Text} (digits : ∀ c ∈ ds, c.isAsciiDigit = true) (value : Nat) :
    readDigits 10 decimalValue? true value ds = some (ds.foldl (fun value c => 10 * value + (c - 0x30)) value) := by
  induction ds generalizing value with
  | nil => rfl
  | cons d ds ih =>
    obtain ⟨digit, others⟩ := List.forall_mem_cons.mp digits
    have value? : decimalValue? d = some (d - 0x30) := if_pos digit
    have other : ¬ d = Symbol.underscore := by rintro rfl; cases digit
    rw [readDigits, if_neg other, value?, List.foldl_cons]
    exact ih others _

theorem readDigits_eq {ds : Text} (digits : AreDigits ds) : readDigits 10 decimalValue? false 0 ds = some (digitsValue ds) := by
  obtain ⟨d, ds, rfl, digit⟩ := digits.exists_cons
  have value? : decimalValue? d = some (d - 0x30) := if_pos digit
  have other : ¬ d = Symbol.underscore := by rintro rfl; cases digit
  rw [readDigits, if_neg other, value?]
  exact readDigits_of_digits (List.forall_mem_cons.mp digits.2).2 _

theorem splitSign_of_signed {sign whole : Text} (signed : sign = [] ∨ sign = [Symbol.minus]) (digits : AreDigits whole) :
    Text.splitSign (sign ++ whole) = (decide (sign = [Symbol.minus]), whole) :=
  Text.splitSign_of_lead signed digits.exists_cons

theorem readInteger?_token {sign whole : Text} (signed : sign = [] ∨ sign = [Symbol.minus]) (digits : AreDigits whole) :
    readInteger? (sign ++ whole) =
      if whole.length ≤ digitLimit then some (integerValue (sign ++ whole)) else none := by
  have numeric : ∀ c ∈ sign ++ whole, IsNumeric c :=
    List.forall_mem_append.mpr ⟨isNumeric_of_sign signed, isNumeric_of_digits digits.2⟩
  have count : whole.countP (· != Symbol.underscore) = whole.length := by
    refine List.countP_eq_length.mpr fun c member => ?_
    exact bne_iff_ne.mpr (by rintro rfl; cases digits.2 _ member)
  rw [readInteger?, trim_asciiNumeral (IsNumeric.visible numeric), integerValue, splitSign_of_signed signed digits]
  simp only [isWithinDigitLimit, count, decide_eq_true_eq, readDigits_eq digits]
  rfl

theorem integerValue_of_signed {sign whole : Text} (signed : sign = [] ∨ sign = [Symbol.minus]) (digits : AreDigits whole) :
    integerValue (sign ++ whole) = if sign = [Symbol.minus] then -(digitsValue whole : Int) else digitsValue whole := by
  rw [integerValue, splitSign_of_signed signed digits]
  simp only [decide_eq_true_eq]

/-- A token that is written the way its value is written is any but minus zero. -/
theorem signedDecimalText_integerValue {sign whole : Text} (signed : sign = [] ∨ sign = [Symbol.minus])
    (isWhole : IsWhole whole) :
    signedDecimalText (integerValue (sign ++ whole)) = sign ++ whole ↔ sign ++ whole ≠ [Symbol.minus, Symbol.zero] := by
  obtain ⟨written, positive⟩ := decimalText_digitsValue isWhole
  rw [integerValue_of_signed signed isWhole.areDigits]
  rcases signed with rfl | rfl
  · have plus : ¬ ((digitsValue whole : Nat) : Int) < 0 := by omega
    rw [if_neg (by decide), signedDecimalText, if_neg plus, Int.natAbs_natCast, written]
    refine iff_of_true rfl fun same => ?_
    have : whole = [Symbol.minus, Symbol.zero] := same
    rw [this] at isWhole
    cases isWhole.areDigits.2 _ List.mem_cons_self
  · rw [if_pos rfl, signedDecimalText, Int.natAbs_neg, Int.natAbs_natCast, written]
    by_cases zero : whole = [Symbol.zero]
    · rw [zero]
      decide
    · have positive := positive zero
      have minus : -((digitsValue whole : Nat) : Int) < 0 := by omega
      rw [if_pos minus]
      exact iff_of_true rfl fun same => zero (List.cons.inj same).2

theorem inferInteger?_token {sign whole : Text} (signed : sign = [] ∨ sign = [Symbol.minus]) (isWhole : IsWhole whole) :
    inferInteger? (sign ++ whole) =
      if sign ++ whole ≠ [Symbol.minus, Symbol.zero] ∧ minInt64 ≤ integerValue (sign ++ whole) ∧
          integerValue (sign ++ whole) ≤ maxInt64
        then some (.int (integerValue (sign ++ whole))) else none := by
  rw [inferInteger?, readInteger?_token signed isWhole.areDigits]
  by_cases readable : whole.length ≤ digitLimit
  · rw [if_pos readable]
    simp only [signedDecimalText_integerValue signed isWhole]
  · rw [if_neg readable, if_neg]
    -- so many digits make a number that does not fit
    rintro ⟨-, low, high⟩
    have limits : maxInt64 < tenTo digitLimit ∧ -(tenTo digitLimit : Int) < minInt64 := by decide +kernel
    obtain ⟨written, positive⟩ := decimalText_digitsValue isWhole
    have nonzero : whole ≠ [Symbol.zero] := by
      rintro rfl
      exact readable (by decide)
    have large : tenTo digitLimit ≤ digitsValue whole := by
      refine tenTo_le_of_lt_length (positive nonzero) ?_
      rw [written]
      exact Nat.lt_of_not_le readable
    rw [integerValue_of_signed signed isWhole.areDigits] at low high
    generalize tenTo digitLimit = limit at limits large
    split at low
    · omega
    · next plus =>
      rw [if_neg plus] at high
      omega

theorem inferFloat?_token {t : Text} (number : IsNumber t) :
    inferFloat? t = match Double.read? t with
      | some d => if d.isFinite then some (.float d) else none
      | none => none := by
  refine if_neg fun underscore => ?_
  have bounds := (number.isNumeric _ (List.contains_iff_mem.mp underscore)).bounds
  exact bounds.2.2.1 rfl

theorem Strict.IsNumber.exists_of_integral {t : Text} (number : IsNumber t) (integral : isIntegral t = true) :
    ∃ sign whole, (sign = [] ∨ sign = [Symbol.minus]) ∧ IsWhole whole ∧ t = sign ++ whole := by
  have lacking (c : CodePoint) (mark : c = Symbol.dot ∨ c = Symbol.letterE ∨ c = 0x45) : c ∉ t := by
    intro member
    rw [isIntegral, Bool.not_eq_true', Bool.or_eq_false_iff, Bool.or_eq_false_iff] at integral
    obtain ⟨⟨dot, small⟩, capital⟩ := integral
    have contained : t.contains c = true := List.contains_iff_mem.mpr member
    rcases mark with rfl | rfl | rfl
    · rw [dot] at contained
      cases contained
    · rw [small] at contained
      cases contained
    · rw [capital] at contained
      cases contained
  cases number with
  | @mk sign whole fraction exponent signed isWhole isFraction isExponent =>
    cases isFraction with
    | point _ => exact absurd (by simp) (lacking Symbol.dot (.inl rfl))
    | absent =>
      cases isExponent with
      | @mark e _ _ letter _ _ => exact absurd (by simp) (lacking e (.inr letter))
      | absent => exact ⟨sign, whole, signed, isWhole, by rw [List.append_nil, List.append_nil]⟩

/-- What a bare word means that is a number token is what the token means. -/
theorem inferred_token {t : Text} (number : IsNumber t) : inferred t = numberValue t := by
  obtain ⟨c, u, same, lead⟩ := number.head
  have named {name rest : Text} {d : CodePoint} (spelled : name = d :: rest) (notDigit : d.lowerAscii.isAsciiDigit = false)
      (notMinus : d.lowerAscii ≠ Symbol.minus) : ¬ Text.equalsAnyCase t name = true := by
    have differ : c.lowerAscii ≠ d.lowerAscii := by
      rw [lowerAscii_of_lead lead]
      rintro rfl
      rcases lead with digit | minus
      · rw [notDigit] at digit
        cases digit
      · exact notMinus minus
    rw [same, spelled, equalsAnyCase_eq_false differ]
    decide
  have isLead : hasNumberLead t = true := by
    rw [same, hasNumberLead, Bool.or_eq_true, beq_iff_eq]
    exact lead
  have isTrue : Text.ofString "true" = 0x74 :: Text.ofString "rue" := rfl
  have isFalse : Text.ofString "false" = 0x66 :: Text.ofString "alse" := rfl
  have isNull : Text.ofString "null" = 0x6E :: Text.ofString "ull" := rfl
  rw [inferred, if_neg (named isTrue rfl (by decide)), if_neg (named isFalse rfl (by decide)),
    if_neg (named isNull rfl (by decide)), inferNumber?, isLead, numberValue]
  cases integral : isIntegral t with
  | false =>
    rw [isIntegral, Bool.not_eq_false'] at integral
    simp only [integral, Bool.not_true, Bool.false_eq_true, if_false, if_true, inferFloat?_token number]
    cases Double.read? t with
    | none => rfl
    | some d => cases finite : d.isFinite <;> simp [finite]
  | true =>
    obtain ⟨sign, whole, signed, isWhole, rfl⟩ := number.exists_of_integral integral
    rw [isIntegral, Bool.not_eq_true'] at integral
    simp only [integral, Bool.not_true, Bool.false_eq_true, if_false, if_true, inferInteger?_token signed isWhole]
    split <;> rfl

end LenientJson
