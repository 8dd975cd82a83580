import LenientJson.Proofs.Members
import LenientJson.Table.Properties
import Mathlib.Data.List.TakeWhile

/-! What lines of keys and values say. The search for a separator with white space around it tries every place of a line
in turn; it finds the first separator there is, and the white space it takes is all that stands next to this one. -/
namespace LenientJson

theorem Text.stripRight_cons (c : CodePoint) (t : Text) :
    stripRight (c :: t) = if (c :: t).all CodePoint.isSpace then [] else c :: stripRight t := by
  have blank : (t.reverse.dropWhile CodePoint.isSpace).isEmpty = true ↔ t.all CodePoint.isSpace = true := by
    rw [List.isEmpty_iff, List.dropWhile_eq_nil_iff, ← List.all_eq_true, List.all_reverse]
  rw [stripRight, stripRight, List.reverse_cons, List.dropWhile_append]
  by_cases all : t.all CodePoint.isSpace = true
  · have none := List.isEmpty_iff.mp (blank.mpr all)
    rw [if_pos (blank.mpr all), none, List.all_cons, all]
    cases space : c.isSpace <;> simp [space]
  · rw [if_neg (mt blank.mp all), List.all_cons]
    simp [all]

namespace Table

/-- What may stand between a key and its value. -/
def isSeparator (c : CodePoint) : Bool := c == Symbol.equals || c == Symbol.colon

/-- A text before and after its first separator, with no white space next to it. -/
def splitPlainly? (t : Text) : Option (Text × Text) :=
  match t.dropWhile fun c => !isSeparator c with
  | [] => none
  | _ :: value => some (Text.stripRight (t.takeWhile fun c => !isSeparator c), Text.stripLeft value)

/-- What a line says, if it is neither blank nor a remark: its two parts, or a key alone. -/
def plainEntry? (line : Text) : Option (Text × Text) :=
  let stripped := line.strip
  if stripped = [] ∨ stripped.head? = some Symbol.hash ∨ stripped.head? = some Symbol.exclamation then none
  else some ((splitPlainly? stripped).getD (stripped, []))

theorem isSpace_separator {c : CodePoint} (separates : isSeparator c = true) : c.isSpace = false := by
  rcases Bool.or_eq_true_iff.mp separates with same | same <;> rw [beq_iff_eq.mp same] <;> rfl

/-- A separator is found at the beginning of a text where nothing but white space stands before the first one. -/
theorem afterSeparator?_eq (t : Text) : afterSeparator? t = match t.dropWhile fun c => !isSeparator c with
    | [] => none
    | _ :: value =>
      if (t.takeWhile fun c => !isSeparator c).all CodePoint.isSpace then some (Text.stripLeft value) else none := by
  induction t with
  | nil => rfl
  | cons c t ih =>
    cases separates : isSeparator c with
    | true =>
      have here : c = Symbol.equals ∨ c = Symbol.colon := by simpa [isSeparator] using separates
      rw [afterSeparator?, List.dropWhile_cons_of_neg (by simp [isSpace_separator separates])]
      simp [separates, here, Text.stripLeft]
    | false =>
      rw [List.dropWhile_cons_of_pos (by simp [separates]), List.takeWhile_cons_of_pos (by simp [separates]), List.all_cons]
      cases space : c.isSpace with
      | true => simpa [afterSeparator?, space] using ih
      | false =>
        have other : ¬ (c = Symbol.equals ∨ c = Symbol.colon) := by simpa [isSeparator] using separates
        rw [afterSeparator?, List.dropWhile_cons_of_neg (by simp [space])]
        simp only [other, if_false, Bool.false_and, Bool.false_eq_true]
        split <;> rfl

section

-- the ranges of white space would all be tried where the code point is not known
attribute [local irreducible] CodePoint.isSpace

theorem splitAtSeparator?_cons (c : CodePoint) (t : Text) : splitAtSeparator? (c :: t) =
    match afterSeparator? (c :: t) with
    | some value => some ([], value)
    | none => (splitAtSeparator? t).map fun (key, value) => (c :: key, value) := rfl

end

/-- The search from place to place finds the first separator, with all the white space next to it. -/
theorem splitAtSeparator?_eq (t : Text) : splitAtSeparator? t = splitPlainly? t := by
  induction t with
  | nil => rfl
  | cons c t ih =>
    rw [splitAtSeparator?_cons, afterSeparator?_eq, splitPlainly?]
    cases separates : isSeparator c with
    | true => simp [separates, Text.stripRight]
    | false =>
      rw [ih, splitPlainly?, List.dropWhile_cons_of_pos (by simp [separates]),
        List.takeWhile_cons_of_pos (by simp [separates])]
      cases t.dropWhile fun c => !isSeparator c with
      | nil => rfl
      | cons separator value =>
        -- either the white space before the separator begins here, or it leaves this place alone
        dsimp only
        rw [Text.stripRight_cons]
        by_cases blank : (c :: t.takeWhile fun c => !isSeparator c).all CodePoint.isSpace = true
        · rw [if_pos blank, if_pos blank]
        · rw [if_neg blank, if_neg blank]
          rfl

theorem entryOf?_eq (line : Text) : entryOf? line = plainEntry? line := by
  unfold entryOf? plainEntry?
  cases line.strip with
  | nil => rfl
  | cons c rest => simp [splitAtSeparator?_eq]

theorem ofLines_eq_merge (lines : List Text) : ofLines lines = Members.merge [] (lines.filterMap entryOf?) := by
  rw [ofLines, Members.merge, List.foldl_filterMap]
  congr 1
  funext table line
  cases entryOf? line <;> rfl

/-- The table of a list of lines has the keys of what the lines say, each once and where it came first, and maps each
key to what it was given last. -/
theorem ofLines_plain (lines : List Text) : (ofLines lines).keys.Nodup ∧
    (ofLines lines).keys = (Members.keys (lines.filterMap plainEntry?)).eraseDups ∧
    ∀ key, (ofLines lines).find? key = Members.find? key (lines.filterMap plainEntry?).reverse := by
  have none : (Members.keys ([] : Table)).Nodup := List.nodup_nil
  rw [ofLines_eq_merge, funext entryOf?_eq]
  refine ⟨Members.nodup_keys_merge none _, Members.keys_merge_nil _, fun key => ?_⟩
  rw [Members.find?_merge, Members.find?, Option.or_none]

end Table
end LenientJson
