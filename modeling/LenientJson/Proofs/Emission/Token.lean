import LenientJson.Proofs.Emission.Entries
import LenientJson.Proofs.Number.Denoted
import LenientJson.Proofs.Strict.Leaf

/-! The tokens of emitted text. Every leaf without a ready-made text is written as a string or as a word, which is a name
or a number. A reader of the text can tell by the quotes and backslashes alone which places lie inside a string. -/
namespace LenientJson

/-- Where a place of a text lies: outside of strings, inside of one, or behind a backslash in one. -/
inductive Region
  | outside
  | inside
  | escaped
deriving DecidableEq

namespace Region

def after : Region → CodePoint → Region
  | outside, c => if c = Symbol.doubleQuote then inside else outside
  | inside, c => if c = Symbol.backslash then escaped else if c = Symbol.doubleQuote then outside else inside
  | escaped, _ => inside

/-- The region behind a text that begins in a region. -/
def reached (r : Region) (t : Text) : Region := t.foldl after r

@[simp] theorem reached_nil (r : Region) : r.reached [] = r := rfl

@[simp] theorem reached_cons (r : Region) (c : CodePoint) (t : Text) : r.reached (c :: t) = (r.after c).reached t := rfl

@[simp] theorem reached_append (r : Region) (s t : Text) : r.reached (s ++ t) = (r.reached s).reached t := List.foldl_append

theorem reached_outside {t : Text} (plain : ∀ c ∈ t, c ≠ Symbol.doubleQuote) : outside.reached t = outside := by
  induction t with
  | nil => rfl
  | cons c t ih =>
    obtain ⟨quote, plain⟩ := List.forall_mem_cons.mp plain
    rw [reached_cons, after, if_neg quote, ih plain]

end Region

/-- The inside of a string, up to its closing quote: a backslash takes one more code point with it. -/
inductive IsBody : Text → Prop
  | nil : IsBody []
  | plain {c t} (quote : c ≠ Symbol.doubleQuote) (backslash : c ≠ Symbol.backslash) (others : IsBody t) : IsBody (c :: t)
  | pair {c t} (others : IsBody t) : IsBody (Symbol.backslash :: c :: t)

theorem IsBody.reached {t : Text} (body : IsBody t) : Region.inside.reached t = .inside := by
  induction body with
  | nil => rfl
  | plain quote backslash _ ih => rwa [Region.reached_cons, Region.after, if_neg backslash, if_neg quote]
  | pair _ ih => exact ih

theorem IsBody.reached_quoted {t : Text} (body : IsBody t) :
    Region.outside.reached (Symbol.doubleQuote :: t ++ [Symbol.doubleQuote]) = .outside := by
  have opened : Region.outside.reached (Symbol.doubleQuote :: t) = .inside := body.reached
  rw [Region.reached_append, opened]
  rfl

/-- Code points of names and of numbers, the fractions among them. -/
def IsWordMark (c : CodePoint) : Prop := IsNumeric c ∨ c = Symbol.slash ∨ 0x61 ≤ c ∧ c ≤ 0x7A

theorem IsWordMark.bounds {c : Nat} (mark : IsWordMark c) : 0x2B ≤ c ∧ c ≤ 0x7A ∧ c ≠ 0x2C ∧ c ≠ 0x3C ∧ c ≠ 0x5B ∧ c ≠ 0x5D := by
  rcases mark with (digit | rfl | rfl | rfl | rfl | rfl) | rfl | letter
  · have := isAsciiDigit_iff.mp digit
    omega
  · decide
  · decide
  · decide
  · decide
  · decide
  · decide
  · have small : 0x61 ≤ c ∧ c ≤ 0x7A := letter
    omega

theorem reached_word {t : Text} (marks : ∀ c ∈ t, IsWordMark c) : Region.outside.reached t = .outside := by
  apply Region.reached_outside
  rintro c member rfl
  exact absurd (marks _ member).bounds.1 (by decide)

inductive IsToken : Text → Prop
  | string (t) : IsToken (Text.quoted t)
  | word {t} (some : t ≠ []) (marks : ∀ c ∈ t, IsWordMark c) : IsToken t

/-! Strings. -/

theorem FourDigits.isBody {digits t : Text} {c : CodePoint} (four : FourDigits digits c) (body : IsBody t) :
    IsBody (digits ++ t) := by
  have plain {d x : Nat} (digit : hexValue? d = some x) {t : Text} (body : IsBody t) : IsBody (d :: t) := by
    refine .plain ?_ ?_ body <;> rintro rfl <;> cases digit
  cases four with
  | mk first second third fourth => exact plain first (plain second (plain third (plain fourth body)))

theorem FourDigits.visible {digits : Text} {c : CodePoint} (four : FourDigits digits c) :
    ∀ d ∈ digits, Text.needsHex d = false ∧ d ≠ Symbol.less ∧ d ≠ Symbol.slash := by
  have digit {d x : Nat} (digit : hexValue? d = some x) : Text.needsHex d = false ∧ d ≠ 0x3C ∧ d ≠ 0x2F := by
    have bounds := hexValue?_bounds digit
    refine ⟨Bool.eq_false_iff.mpr fun hex => ?_, ?_, by omega⟩
    · have := needsHex_iff.mp hex
      omega
    · rintro rfl
      cases digit
  cases four with
  | mk first second third fourth =>
    simp only [List.forall_mem_cons]
    exact ⟨digit first, digit second, digit third, digit fourth, List.forall_mem_nil _⟩

/-- A code point that stands for itself needs no escape, and is no slash behind `<`. -/
theorem plain_of_escaped_eq {previous : Option CodePoint} {c : CodePoint} (same : Text.escaped previous c = [c]) :
    Text.needsHex c = false ∧ (c = Symbol.slash → previous ≠ some Symbol.less) := by
  unfold Text.escaped at same
  split at same
  · cases same
  split at same
  · next slash =>
    split at same
    · cases same
    · next other => exact ⟨by rw [slash]; decide, fun _ => other⟩
  · next other =>
    split at same
    · cases same
    · split at same
      · cases same
      · next plain => exact ⟨by simpa using plain, fun slash => absurd slash other⟩

theorem visible_of_escapes {letter c : CodePoint} (named : (letter, c) ∈ Strict.escapes) :
    Text.needsHex letter = false ∧ (letter = Symbol.less → c = Symbol.less) := by
  have table : ∀ pair ∈ Strict.escapes, Text.needsHex pair.1 = false ∧ (pair.1 = Symbol.less → pair.2 = Symbol.less) := by decide
  exact table _ named

theorem isBody_quotedBody (previous : Option CodePoint) (t : Text) : IsBody (Text.quotedBody previous t) := by
  induction t generalizing previous with
  | nil => exact .nil
  | cons c t ih =>
    rw [Text.quotedBody]
    rcases escaped_cases previous c with ⟨letter, -, same⟩ | ⟨digits, same⟩ | ⟨⟨-, quote, backslash⟩, same⟩
    · rw [same]
      exact .pair (ih _)
    · rw [same]
      exact .pair (digits.isBody (ih _))
    · rw [same]
      exact .plain quote backslash (ih _)

theorem reached_quoted (t : Text) : Region.outside.reached t.quoted = .outside := (isBody_quotedBody none t).reached_quoted

theorem IsToken.reached {t : Text} (token : IsToken t) : Region.outside.reached t = .outside := by
  cases token with
  | string s => exact reached_quoted s
  | word _ marks => exact reached_word marks

theorem visible_quotedBody (previous : Option CodePoint) (t : Text) :
    ∀ c ∈ Text.quotedBody previous t, Text.needsHex c = false := by
  induction t generalizing previous with
  | nil => exact List.forall_mem_nil _
  | cons c t ih =>
    refine List.forall_mem_append.mpr ⟨?_, ih _⟩
    rcases escaped_cases previous c with ⟨letter, named, same⟩ | ⟨digits, same⟩ | ⟨-, same⟩
    · rw [same]
      simp only [List.forall_mem_cons]
      exact ⟨by decide, (visible_of_escapes named).1, List.forall_mem_nil _⟩
    · rw [same]
      simp only [List.forall_mem_cons]
      exact ⟨by decide, by decide, fun d member => (digits.visible d member).1⟩
    · rw [same]
      exact List.forall_mem_singleton.mpr (plain_of_escaped_eq same).1

/-! Words. -/

theorem isToken_of_number {t : Text} (number : Strict.IsNumber t) : IsToken t := by
  obtain ⟨c, u, split, -⟩ := number.head
  exact .word (split ▸ List.cons_ne_nil c u) fun d member => .inl (number.isNumeric d member)

namespace Scalar

theorem isToken_null : IsToken (Text.ofString "null") := .word (by decide) (by simp [IsWordMark, Text.ofString])

theorem isToken_fractionText {q : Rat} {t : Text} (written : fractionText q = .ok t) : IsToken t := by
  have short : (fraction q).IsShort := exists_fractionText.mp ⟨t, written⟩
  have numerator := isNumber_signedDecimalText q.num
  by_cases integer : q.den = 1
  · rw [fractionText_of_den_eq_one integer, integerText_of_isShort short.1] at written
    cases written
    exact isToken_of_number numerator
  · rw [fractionText_of_den_ne_one integer short] at written
    cases written
    refine .word (by simp) (List.forall_mem_append.mpr ⟨List.forall_mem_append.mpr ⟨?_, ?_⟩, ?_⟩)
    · exact fun c member => .inl (numerator.isNumeric c member)
    · exact List.forall_mem_singleton.mpr (.inr (.inl rfl))
    · exact fun c member => .inl (.inl (decimalText_digits q.den c member))

theorem isToken_of_json {leaf : Scalar} {t : Text} (unmade : leaf.isReadyMade = false) (written : leaf.json = .ok t) : IsToken t := by
  have spoken (answer : Except Fault Text) (written : answer.map Text.quoted = .ok t) : IsToken t := by
    cases answer with
    | error fault => cases written
    | ok s =>
      cases written
      exact .string s
  cases leaf with
  | null =>
    cases written
    exact isToken_null
  | bool value =>
    cases written
    cases value
    · exact .word (by decide) (by simp [IsWordMark, Text.ofString])
    · exact .word (by decide) (by simp [IsWordMark, Text.ofString])
  | int n =>
    by_cases short : LenientJson.IsShort n
    · obtain rfl : signedDecimalText n = t := Except.ok.inj ((integerText_of_isShort short).symm.trans written)
      exact isToken_of_number (isNumber_signedDecimalText n)
    · cases (integerText_of_not_isShort short).symm.trans written
  | float value =>
    cases value with
    | finite negative rank =>
      cases (canonicalNumber_float rfl).symm.trans written
      exact isToken_of_number (canonicalDouble negative rank).isNumber
    | _ => cases written
  | decimal value =>
    cases value with
    | finite numeral =>
      cases written
      exact isToken_of_number (isNumber_shaved (isNumber_scientificText numeral))
    | _ => cases written
  | fraction q => exact isToken_fractionText ((canonicalNumber_fraction q).symm.trans written)
  | foreign value =>
    obtain ⟨unnumbered, unrendered⟩ : value.number = none ∧ value.rendering = none := by simpa [isReadyMade] using unmade
    rw [json, unnumbered, unrendered] at written
    exact spoken _ written
  | text value => exact spoken (plain (text value)) written
  | date value => exact spoken (plain (date value)) written
  | bytes mutable octets => exact spoken (plain (bytes mutable octets)) written
  | raw => cases unmade

end Scalar
end LenientJson
