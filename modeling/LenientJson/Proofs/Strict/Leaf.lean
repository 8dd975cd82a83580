import LenientJson.Writer
import LenientJson.Proofs.Document
import LenientJson.Proofs.Number.Canonical
import LenientJson.Proofs.Number.Hexadecimal

/-! The strict JSON of leaves. A text becomes a string token that decodes to it, escape by escape; a
number becomes the one token that is its canonical text. -/
namespace LenientJson
open Strict

/-! String tokens. -/

theorem hexValue?_hexDigit {k : Nat} (small : k < 16) : hexValue? (hexDigit k) = some k := by
  have all : ∀ k, k < 16 → hexValue? (hexDigit k) = some k := by decide
  exact all k small

theorem shortEscape?_named {c letter : CodePoint} (short : Text.shortEscape? c = some letter) : (letter, c) ∈ escapes := by
  unfold Text.shortEscape? at short
  split_ifs at short with same same same same same
  all_goals
    cases short
    rw [same]
    decide

theorem fourDigits_hexDigits {c : Nat} (small : c < 0x10000) : FourDigits (hexDigits 4 c) c := by
  have digits := FourDigits.mk (hexValue?_hexDigit (k := c / 16 / 16 / 16 % 16) (by omega))
    (hexValue?_hexDigit (k := c / 16 / 16 % 16) (by omega)) (hexValue?_hexDigit (k := c / 16 % 16) (by omega))
    (hexValue?_hexDigit (k := c % 16) (by omega))
  have value : ((c / 16 / 16 / 16 % 16 * 16 + c / 16 / 16 % 16) * 16 + c / 16 % 16) * 16 + c % 16 = c := by omega
  rwa [value] at digits

theorem needsHex_iff {c : Nat} :
    Text.needsHex c = true ↔ c < 0x20 ∨ 0x80 ≤ c ∧ c < 0xA0 ∨ 0x2000 ≤ c ∧ c < 0x2100 := by
  simp only [Text.needsHex, Bool.or_eq_true, Bool.and_eq_true, decide_eq_true_eq, or_assoc]

/-- What is written for one character: an escape with a letter, one with digits, or the character itself. -/
theorem escaped_cases (previous : Option CodePoint) (c : Nat) :
    (∃ letter, (letter, c) ∈ escapes ∧ Text.escaped previous c = [Symbol.backslash, letter]) ∨
    FourDigits (hexDigits 4 c) c ∧ Text.escaped previous c = Symbol.backslash :: Symbol.letterU :: hexDigits 4 c ∨
    (Symbol.space ≤ c ∧ c ≠ Symbol.doubleQuote ∧ c ≠ Symbol.backslash) ∧ Text.escaped previous c = [c] := by
  unfold Text.escaped
  split
  · next mark =>
    refine .inl ⟨c, ?_, rfl⟩
    rcases mark with rfl | rfl <;> decide
  · next plain =>
    obtain ⟨backslash, quote⟩ := not_or.mp plain
    split
    · next slash =>
      subst slash
      split
      · exact .inl ⟨_, by decide, rfl⟩
      · exact .inr (.inr ⟨⟨by decide, quote, backslash⟩, rfl⟩)
    · split
      · next short => exact .inl ⟨_, shortEscape?_named short, rfl⟩
      · split
        · next hex =>
          have block := needsHex_iff.mp hex
          exact .inr (.inl ⟨fourDigits_hexDigits (by omega), rfl⟩)
        · next plain =>
          have visible : ¬ c < 0x20 := fun control => plain (needsHex_iff.mpr (.inl control))
          exact .inr (.inr ⟨⟨Nat.le_of_not_lt visible, quote, backslash⟩, rfl⟩)

theorem isChars_escaped (previous : Option CodePoint) {c : Nat} (valid : c < 0x110000) {t s : Text} (others : IsChars t s) :
    IsChars (Text.escaped previous c ++ t) (c :: s) := by
  rcases escaped_cases previous c with ⟨letter, named, same⟩ | ⟨digits, same⟩ | ⟨⟨visible, quote, backslash⟩, same⟩
  all_goals rw [same]
  · exact .escape named others
  · generalize hexDigits 4 c = group at digits
    cases digits with
    | mk first second third fourth => exact .hex first second third fourth others
  · exact .unescaped visible valid quote backslash others

theorem isChars_quotedBody (previous : Option CodePoint) {t : Text} (valid : t.IsValid) :
    IsChars (Text.quotedBody previous t) t := by
  induction t generalizing previous with
  | nil => exact .nil
  | cons c t ih =>
    obtain ⟨first, others⟩ := List.forall_mem_cons.mp valid
    exact isChars_escaped previous first (ih (some c) others)

theorem isString_quoted {t : Text} (valid : t.IsValid) : IsString (Text.quoted t) t :=
  .mk (isChars_quotedBody none valid)

/-! Leaves. -/

namespace Scalar

def isNumber : Scalar → Bool
  | int _ | float _ | decimal _ => true
  | _ => false

/-- Texts, dates, and user objects that are no numbers and have no rendering of their own. -/
def isSpoken : Scalar → Bool
  | text _ | date _ => true
  | foreign value => value.number.isNone && value.rendering.isNone
  | _ => false

/-- The strict JSON that stands for a leaf: one token, which for a number is its canonical text. -/
inductive Shows : Scalar → Json → Prop
  | null : Shows .null .null
  | bool (value : Bool) : Shows (.bool value) (.bool value)
  | number {leaf token} (isNumber : leaf.isNumber = true) (canonical : leaf.canonicalNumber = .ok token) :
      Shows leaf (.number token)
  | string {leaf t} (isSpoken : leaf.isSpoken = true) (plain : leaf.plain = .ok t) : Shows leaf (.string t)

/-- Leaves that strict JSON has a form for: null, truth values, integers, finite numbers, dates, texts,
and user objects that have a text but are no numbers and have no rendering of their own. -/
def IsShowable : Scalar → Prop
  | null | bool _ | int _ | date _ => True
  | float value => value.isFinite = true
  | decimal value => value.isFinite = true
  | text value => value.IsValid
  | foreign value => value.number = none ∧ value.rendering = none ∧ ∃ t : Text, value.spoken = .text t ∧ t.IsValid
  | _ => False

theorem isValue_string {leaf : Scalar} {t : Text} (isSpoken : leaf.isSpoken = true) (plain : leaf.plain = .ok t)
    (written : leaf.json = .ok (Text.quoted t)) (valid : t.IsValid) :
    ∃ json u, leaf.Shows json ∧ leaf.json = .ok u ∧ IsValue u json :=
  ⟨.string t, Text.quoted t, .string isSpoken plain, written, .string (isString_quoted valid)⟩

theorem isValid_dateText (d : Date) : d.text.IsValid := by
  have digits (width n : Nat) : Text.IsValid (List.replicate (width - (decimalText n).length) Symbol.zero ++ decimalText n) := by
    intro c member
    have digit : CodePoint.isAsciiDigit c = true :=
      (List.forall_mem_append.mpr ⟨areDigits_zeros _, decimalText_digits n⟩) c member
    exact Nat.lt_of_le_of_lt (isAsciiDigit_iff.mp digit).2 (by decide)
  have minus : Text.IsValid [Symbol.minus] := by decide
  exact List.forall_mem_append.mpr ⟨List.forall_mem_append.mpr ⟨List.forall_mem_append.mpr ⟨List.forall_mem_append.mpr
    ⟨digits 4 d.year, minus⟩, digits 2 d.month⟩, minus⟩, digits 2 d.day⟩

theorem exists_shows {leaf : Scalar} (showable : leaf.IsShowable) (short : leaf.IsShort) :
    ∃ json u, leaf.Shows json ∧ leaf.json = .ok u ∧ IsValue u json := by
  cases leaf with
  | null => exact ⟨.null, _, .null, rfl, .null⟩
  | bool value => exact ⟨.bool value, _, .bool value, rfl, .bool value⟩
  | int n =>
    have canonical : (Scalar.int n).canonicalNumber = .ok (signedDecimalText n) := integerText_of_isShort short
    exact ⟨_, _, .number rfl canonical, canonical, .number (isNumber_signedDecimalText n)⟩
  | float value =>
    have canonical : (Scalar.float value).canonicalNumber = .ok (shaved value.text) := canonicalNumber_float showable
    cases value with
    | finite negative rank =>
      exact ⟨_, _, .number rfl canonical, canonical, .number (canonicalDouble negative rank).isNumber⟩
    | _ => cases showable
  | decimal value =>
    cases value with
    | finite numeral => exact ⟨_, _, .number rfl rfl, rfl, .number (isNumber_shaved (isNumber_scientificText numeral))⟩
    | _ => cases showable
  | date value => exact isValue_string rfl rfl rfl (isValid_dateText value)
  | text value => exact isValue_string rfl rfl rfl showable
  | foreign value =>
    obtain ⟨unnumbered, unrendered, t, spoken, valid⟩ := showable
    have plain : (Scalar.foreign value).plain = .ok t := by
      rw [Scalar.plain, spoken]
      rfl
    refine isValue_string (by rw [isSpoken, unnumbered, unrendered]; rfl) plain ?_ valid
    simp only [Scalar.json, unnumbered, unrendered, spoken]
    rfl
  | _ => cases showable

end Scalar
end LenientJson
