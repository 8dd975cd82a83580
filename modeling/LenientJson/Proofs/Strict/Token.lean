import LenientJson.Proofs.Grammar.Strict
import LenientJson.Proofs.Lenient.Literal

/-! Tokens of strict JSON before the lenient reader. A string token is a literal of the lenient grammar. A name
or a number is a bare word: the reader runs on over the spaces behind it, which are stripped, and what
is inferred from the word is what the token means. -/
namespace LenientJson
open Strict

/-! String tokens. -/

namespace Lenient

theorem items_of_isChars {t s : Text} (inside : IsChars t s) : Items FourDigits Symbol.doubleQuote t s := by
  induction inside with
  | nil => exact .nil
  | @unescaped c _ _ low _ quote backslash _ ih =>
    have inLine : ¬ (c = Symbol.lineFeed ∨ c = Symbol.carriageReturn) := by
      rintro (rfl | rfl) <;> exact absurd low (by decide)
    exact .cons (.plain quote backslash inLine) ih
  | escape named _ ih => exact .cons (.letter (List.mem_cons_of_mem _ named)) ih
  | hex first second third fourth _ ih => exact .cons (.group (.mk first second third fourth)) ih

theorem literal_of_items {t s : Text} (items : Items FourDigits Symbol.doubleQuote t s) (rest : Text) :
    Literal Symbol.doubleQuote (t ++ Symbol.doubleQuote :: rest) s rest :=
  Reader.literal_iff.mpr ⟨IsQuoteMark.closing (.inl rfl), t, items.imp fun _ _ => FourDigits.isGroup, rfl⟩

theorem valueAt_of_string {t s : Text} (string : IsString t s) (rest : Text) : ValueAt (t ++ rest) (.leaf (.text s)) rest := by
  cases string with
  | @mk inside _ chars =>
    have split : Symbol.doubleQuote :: inside ++ [Symbol.doubleQuote] ++ rest =
        Symbol.doubleQuote :: (inside ++ Symbol.doubleQuote :: rest) := by
      rw [List.append_assoc]
      rfl
    rw [split]
    exact .quoted (.refl _) (.inl rfl) (literal_of_items (items_of_isChars chars) rest)

/-! Names and numbers. -/

/-- A word without spaces, quote marks and stops, in ASCII. -/
structure IsWord (t : Text) : Prop where
  some : t ≠ []
  visible : ∀ c : Nat, c ∈ t → 0x27 < c ∧ c < 0x80
  bare : ∀ c ∈ t, c ∉ stops

theorem isWord_of_number {t : Text} (number : IsNumber t) : IsWord t := by
  obtain ⟨c, u, split, -⟩ := number.head
  refine ⟨by rw [split]; exact List.cons_ne_nil c u, fun d member => ?_, fun (d : Nat) member stop => ?_⟩
  · have := (number.isNumeric d member).bounds
    omega
  · have bounds := (number.isNumeric d member).bounds
    have listed : ∀ x ∈ stops, x = 0x2C ∨ x = 0x3A ∨ x = 0x5D ∨ x = 0x7D ∨ x = 0x2F ∨ x = 0x5C ∨ x = 0x22 ∨ x = 0x5B ∨
        x = 0x7B ∨ x = 0x3B ∨ x = 0x3D ∨ x = 0x23 := by decide
    have stop : d = 0x2C ∨ d = 0x3A ∨ d = 0x5D ∨ d = 0x7D ∨ d = 0x2F ∨ d = 0x5C ∨ d = 0x22 ∨ d = 0x5B ∨
        d = 0x7B ∨ d = 0x3B ∨ d = 0x3D ∨ d = 0x23 := listed d stop
    omega

theorem isSpace_of_visible {c : Nat} (visible : 0x27 < c ∧ c < 0x80) : CodePoint.isSpace c = false := by
  have all : ∀ d, d < 0x80 → 0x27 < d → CodePoint.isSpace d = false := by decide
  exact all c visible.2 visible.1

theorem strip_append_spaces (t : Text) (n : Nat) : Text.strip (t ++ Text.spaces n) = t.strip := by
  have spaces : ∀ c ∈ Text.spaces n, CodePoint.isSpace c = true := by
    intro c member
    rw [List.eq_of_mem_replicate member]
    decide
  have back : ∀ c ∈ (Text.spaces n).reverse, CodePoint.isSpace c = true := fun c member => spaces c (List.mem_reverse.mp member)
  unfold Text.strip Text.stripLeft Text.stripRight
  rw [List.dropWhile_append]
  split
  · next nothing =>
    have none : (Text.spaces n).dropWhile CodePoint.isSpace = [] := by
      rw [← List.append_nil (Text.spaces n), List.dropWhile_append_of_pos spaces, List.dropWhile_nil]
    rw [List.isEmpty_iff.mp nothing, none]
  · rw [List.reverse_append, List.dropWhile_append_of_pos back]

theorem strip_word {t : Text} (word : IsWord t) (n : Nat) : Text.strip (t ++ Text.spaces n) = t := by
  have solid : ∀ c ∈ t, CodePoint.isSpace c = false := fun c member => isSpace_of_visible (word.visible c member)
  have back : ∀ c ∈ t.reverse, CodePoint.isSpace c = false := fun c member => solid c (List.mem_reverse.mp member)
  rw [strip_append_spaces, Text.strip, Text.stripLeft, dropWhile_of_none solid, Text.stripRight, dropWhile_of_none back,
    List.reverse_reverse]

/-- What ends a value in strict JSON, apart from the end of the text. -/
def Closes (c : CodePoint) : Prop := c = Symbol.comma ∨ c = Symbol.rightBrace ∨ c = Symbol.rightBracket

/-- Blanks begin with some spaces, which run on with a word, and go on with what ends it. -/
theorem exists_spaces (w : Text) : ∃ n v, w = Text.spaces n ++ v ∧ ∀ c, v.head? = some c → c ≠ Symbol.space := by
  induction w with
  | nil => exact ⟨0, [], rfl, fun c h => nomatch h⟩
  | cons c w ih =>
    by_cases space : c = Symbol.space
    · obtain ⟨n, v, rfl, stop⟩ := ih
      exact ⟨n + 1, v, by rw [space]; rfl, stop⟩
    · refine ⟨0, c :: w, rfl, fun d head => ?_⟩
      cases head
      exact space

theorem blanks_of_spaces {w : Text} (blank : AreSpaces w) (rest : Text) : Blanks (w ++ rest) rest := by
  refine ⟨w, fun c member => ?_, rfl⟩
  rcases blank c member with rfl | rfl | rfl | rfl <;> decide

theorem valueAt_of_word {t w : Text} (word : IsWord t) (blank : AreSpaces w) {c : CodePoint} (closes : Closes c) (u : Text) :
    ∃ rest, ValueAt (t ++ (w ++ c :: u)) (.leaf (inferred t)) rest ∧ Mark c rest u := by
  obtain ⟨n, v, rfl, stop⟩ := exists_spaces w
  have blank' : AreSpaces v := (List.forall_mem_append.mp blank).2
  have strip := strip_word word n
  refine ⟨v ++ c :: u, ?_, blanks_of_spaces blank' _⟩
  have run : BareRun (t ++ (Text.spaces n ++ v ++ c :: u)) (t ++ Text.spaces n) (v ++ c :: u) := by
    obtain ⟨x, t, rfl⟩ := List.exists_cons_of_ne_nil word.some
    have lead := word.visible x List.mem_cons_self
    constructor
    · simp only [List.append_assoc]
    · refine List.forall_mem_append.mpr ⟨fun d member => ⟨?_, word.bare d member⟩, fun d member => ?_⟩
      · have visible := (word.visible d member).1
        exact Nat.le_of_lt (Nat.lt_trans (by decide : 0x20 < 0x27) visible)
      · rw [List.eq_of_mem_replicate member]
        exact ⟨Nat.le_refl _, by decide⟩
    · intro d head bare
      cases v with
      | nil =>
        obtain rfl : c = d := Option.some.inj head
        rcases closes with rfl | rfl | rfl <;> exact bare.2 (by decide)
      | cons y v =>
        obtain rfl : y = d := Option.some.inj head
        rcases (List.forall_mem_cons.mp blank').1 with space | rfl | rfl | rfl
        · exact stop y rfl space
        all_goals exact absurd bare.1 (by decide)
    · intro d head
      obtain rfl : x = d := Option.some.inj head
      exact Nat.lt_trans (by decide : 0x20 < 0x27) lead.1
    · intro d head quote
      obtain rfl : x = d := Option.some.inj head
      rcases quote with rfl | rfl <;> exact absurd lead.1 (by decide)
  have named : (t ++ Text.spaces n).strip ≠ [] := by
    rw [strip]
    exact word.some
  have value := ValueAt.bare (.refl _) run named
  rwa [strip] at value

end Lenient

end LenientJson
