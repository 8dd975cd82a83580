import LenientJson.Proofs.Number.Hexadecimal
import LenientJson.Proofs.Progress

/-! String literals of the lenient grammar. The inside of a literal is a sequence of items, one for each code
point that it gives. The reader of literals takes exactly these sequences up to the closing mark and
complains about every other text. Of the groups behind an escaped u it takes more than four digits. -/
namespace LenientJson

namespace Lenient

/-- Letters behind a backslash with what they stand for. Strict JSON has all but the single quote. -/
def escapeLetters : List (CodePoint × CodePoint) := (Symbol.singleQuote, Symbol.singleQuote) :: Strict.escapes

section
variable (Group : Text → CodePoint → Prop) (mark : CodePoint)

/-- What stands for one code point in a literal that `mark` closes; `Group` tells what the characters behind an
escaped u stand for. -/
inductive Item : Text → CodePoint → Prop
  | plain {c} (inside : c ≠ mark) (unescaped : c ≠ Symbol.backslash)
      (inLine : ¬ (c = Symbol.lineFeed ∨ c = Symbol.carriageReturn)) : Item [c] c
  | letter {letter c} (named : (letter, c) ∈ escapeLetters) : Item [Symbol.backslash, letter] c
  | group {digits c} (group : Group digits c) : Item (Symbol.backslash :: Symbol.letterU :: digits) c

inductive Items : Text → Text → Prop
  | nil : Items [] []
  | cons {t c u s} (item : Item Group mark t c) (others : Items u s) : Items (t ++ u) (c :: s)

end

/-- A character that can close a literal. -/
def Closing (mark : CodePoint) : Prop :=
  mark ≠ Symbol.backslash ∧ ¬ (mark = Symbol.lineFeed ∨ mark = Symbol.carriageReturn)

theorem IsQuoteMark.closing {mark : CodePoint} (quote : IsQuoteMark mark) : Closing mark := by
  rcases quote with rfl | rfl <;> exact ⟨by decide, by decide⟩

variable {G H : Text → CodePoint → Prop} {mark : CodePoint} {t s : Text}

theorem Items.imp (items : Items G mark t s) (implies : ∀ digits c, G digits c → H digits c) : Items H mark t s := by
  induction items with
  | nil => exact .nil
  | cons item _ ih =>
    cases item with
    | plain inside unescaped inLine => exact .cons (.plain inside unescaped inLine) ih
    | letter named => exact .cons (.letter named) ih
    | group group => exact .cons (.group (implies _ _ group)) ih

end Lenient

namespace Reader
open Lenient

variable {consumed : List CodePoint} {t s rest : Text} {m : Memory} {place : Tokener} {mark : CodePoint}

theorem escapeMeaning?_iff {letter c : CodePoint} : escapeMeaning? letter = some c ↔ (letter, c) ∈ escapeLetters := by
  constructor
  · intro meaning
    unfold escapeMeaning? at meaning
    split_ifs at meaning with same same same same same same
    all_goals cases meaning
    on_goal 6 => rcases same with rfl | rfl | rfl | rfl <;> decide
    all_goals
      rw [same]
      decide
  · have table : ∀ pair ∈ escapeLetters, escapeMeaning? pair.1 = some pair.2 := by decide
    exact table (letter, c)

theorem letter_ne {letter c : CodePoint} (named : (letter, c) ∈ escapeLetters) : letter ≠ Symbol.letterU := by
  have table : ∀ pair ∈ escapeLetters, pair.1 ≠ Symbol.letterU := by decide
  exact table _ named

/-! What is read is a literal. -/

theorem nextMany_ok {n : Nat} (several : n ≠ 0) {digits : Text} (ok : nextMany n ⟨consumed, t, m, 0⟩ = .ok digits place) :
    digits.length = n ∧ ∃ rest, t = digits ++ rest ∧ place = ⟨digits.reverse ++ consumed, rest, .character, 0⟩ := by
  by_cases enough : n ≤ t.length
  · rw [nextMany_of_le consumed t m several enough] at ok
    cases ok
    exact ⟨List.length_take_of_le enough, _, (List.take_append_drop n t).symm, rfl⟩
  · rw [nextMany_past (Nat.lt_of_not_le enough) consumed m] at ok
    cases ok

theorem escape_ok {c : CodePoint} (ok : escape ⟨consumed, t, m, 0⟩ = .ok (some c) place) :
    ∃ piece rest, (∀ mark, Item IsGroup mark (Symbol.backslash :: piece) c) ∧ t = piece ++ rest ∧
      place = ⟨piece.reverse ++ consumed, rest, .character, 0⟩ := by
  rw [escape] at ok
  cases t with
  | nil => cases ok
  | cons x t =>
    rw [bind_apply (next_cons consumed x t m)] at ok
    dsimp only at ok
    split at ok
    · next isHex =>
      obtain ⟨digits, s, four, ok⟩ := bind_ok.mp ok
      obtain ⟨meant, rfl⟩ := pure_ok.mp ok
      obtain ⟨length, rest, rfl, rfl⟩ := nextMany_ok (n := 4) (by decide) four
      refine ⟨x :: digits, rest, fun mark => ?_, rfl, by simp⟩
      rw [isHex]
      exact .group ⟨length, hexMeaning?_iff.mp meant⟩
    · obtain ⟨meant, rfl⟩ := pure_ok.mp ok
      exact ⟨[x], t, fun mark => .letter (escapeMeaning?_iff.mp meant), rfl, rfl⟩

theorem stringWithin_ok {limit : Nat} {read : List CodePoint}
    (ok : stringWithin (some mark) limit read ⟨consumed, t, m, 0⟩ = .ok s place) :
    Closing mark ∧ ∃ u v rest, Items IsGroup mark u v ∧ s = read.reverse ++ v ∧ t = u ++ mark :: rest ∧
      place = ⟨mark :: (u.reverse ++ consumed), rest, .character, 0⟩ := by
  -- every round takes one item or the closing mark
  induction limit generalizing read consumed t m with
  | zero => cases ok
  | succ limit ih =>
    rw [stringWithin, stringStep] at ok
    cases t with
    | nil => cases ok
    | cons c t =>
      rw [bind_apply (next_cons consumed c t m)] at ok
      dsimp only at ok
      split at ok
      · cases ok
      next inLine =>
      split at ok
      · next backslash =>
        obtain ⟨meaning?, s₁, escaped, further⟩ := bind_ok.mp ok
        cases meaning? with
        | none => cases further
        | some meaning =>
          obtain ⟨piece, rest, item, rfl, rfl⟩ := escape_ok escaped
          obtain ⟨closing, u, v, rest, items, rfl, rfl, rfl⟩ := ih further
          exact ⟨closing, _, _, rest, .cons (item mark) items, by simp, by simp [backslash], by simp [backslash]⟩
      next unescaped =>
      split at ok
      · next closed =>
        obtain ⟨rfl, rfl⟩ := pure_ok.mp ok
        cases closed
        exact ⟨⟨unescaped, inLine⟩, [], [], t, .nil, by simp, rfl, rfl⟩
      · next inside =>
        obtain ⟨closing, u, v, rest, items, rfl, rfl, rfl⟩ := ih ok
        have item : Item IsGroup mark [c] c := .plain (fun same => inside (congrArg some same)) unescaped inLine
        exact ⟨closing, _, _, rest, .cons item items, by simp, rfl, by simp⟩

/-! Literals are read. -/

theorem reads_escape_letter {letter c : CodePoint} (named : (letter, c) ∈ escapeLetters) (t : Text) :
    Reads escape (letter :: t) (some c) t := by
  apply (reads_next letter t).bind
  simp only [letter_ne named, if_false]
  rw [escapeMeaning?_iff.mpr named]
  exact reads_pure _ t

theorem reads_escape_group {digits : Text} {c : CodePoint} (group : IsGroup digits c) (t : Text) :
    Reads escape (Symbol.letterU :: (digits ++ t)) (some c) t := by
  have four : Reads (nextMany (4 : Nat)) (digits ++ t) digits t := by
    have reads := reads_nextMany (n := 4) (t := digits ++ t) (by decide) (by rw [List.length_append, group.1]; omega)
    rwa [List.take_left' group.1, List.drop_left' group.1] at reads
  apply (reads_next Symbol.letterU _).bind
  simp only [if_true]
  apply four.bind
  rw [group.meaning]
  exact reads_pure _ t

theorem reads_stringWithin (closing : Closing mark) (items : Items IsGroup mark t s) (rest : Text) (limit : Nat)
    (enough : t.length < limit) (read : List CodePoint) :
    Reads (stringWithin (some mark) limit read) (t ++ mark :: rest) (read.reverse ++ s) rest := by
  induction items generalizing limit read with
  | nil =>
    obtain ⟨limit, rfl⟩ : ∃ n, limit = n + 1 := Nat.exists_eq_succ_of_ne_zero (by omega)
    rw [List.append_nil]
    exact reads_stringWithin_closing closing.2 closing.1 rfl limit
  | @cons t c u s item others ih =>
    obtain ⟨limit, rfl⟩ : ∃ n, limit = n + 1 := Nat.exists_eq_succ_of_ne_zero (by omega)
    have further (limit : Nat) (enough : u.length < limit) := ih limit enough (c :: read)
    simp only [List.reverse_cons, List.append_assoc, List.singleton_append] at further
    rw [List.append_assoc]
    cases item with
    | plain inside unescaped inLine =>
      rw [List.length_append, List.length_singleton] at enough
      exact reads_stringWithin_plain inLine unescaped (fun same => inside (Option.some.inj same)) (further limit (by omega))
    | letter named =>
      simp only [List.length_append, List.length_cons, List.length_nil] at enough
      exact reads_stringWithin_escaped (reads_escape_letter named _) (further limit (by omega))
    | group group =>
      simp only [List.length_append, List.length_cons] at enough
      exact reads_stringWithin_escaped (reads_escape_group group _) (further limit (by omega))

theorem nextString_eq_ok_iff : nextString (some mark) ⟨consumed, t, m, 0⟩ = .ok s place ↔
    Closing mark ∧ ∃ u rest, Items IsGroup mark u s ∧ t = u ++ mark :: rest ∧
      place = ⟨mark :: (u.reverse ++ consumed), rest, .character, 0⟩ := by
  rw [nextString_apply]
  constructor
  · intro ok
    obtain ⟨closing, u, v, rest, items, rfl, split, stops⟩ := stringWithin_ok ok
    exact ⟨closing, u, rest, items, split, stops⟩
  · rintro ⟨closing, u, rest, items, rfl, rfl⟩
    have longer : u.length < (u ++ mark :: rest).length + 1 := by
      rw [List.length_append]
      omega
    obtain ⟨piece, split, reads⟩ := reads_stringWithin closing items rest _ longer []
    obtain ⟨m', ok⟩ := reads consumed m
    obtain rfl : u ++ [mark] = piece := List.append_cancel_right (by rw [← split, List.append_assoc]; rfl)
    -- the closing mark is the last character that was read
    obtain ⟨-, _, _, _, -, -, -, stops⟩ := stringWithin_ok ok
    cases (Tokener.mk.inj stops).2.2.1
    rw [ok, List.reverse_append]
    rfl

theorem literal_iff : Literal mark t s rest ↔ Closing mark ∧ ∃ u, Items IsGroup mark u s ∧ t = u ++ mark :: rest := by
  constructor
  · rintro ⟨place, ok, rfl⟩
    obtain ⟨closing, u, rest, items, split, rfl⟩ := nextString_eq_ok_iff.mp ok
    exact ⟨closing, u, items, split⟩
  · rintro ⟨closing, u, items, split⟩
    exact ⟨_, nextString_eq_ok_iff.mpr ⟨closing, u, rest, items, split, rfl⟩, rfl⟩

/-! How reading a literal fails. -/

theorem nextMany_error {n : Nat} {s s' : Tokener} {fault : Fault} (failed : nextMany n s = .error fault s') :
    ∃ reason, fault = s'.fault reason := by
  replace failed : Tokener.nextMany n s = .error fault s' := (run_move (.nextMany n) s).symm.trans failed
  unfold Tokener.nextMany at failed
  split at failed
  · cases failed
  · dsimp only at failed
    split at failed
    · cases failed
      exact ⟨_, rfl⟩
    · cases failed

theorem escape_error {fault : Fault} (failed : escape ⟨consumed, t, m, 0⟩ = .error fault place) :
    ∃ reason, fault = place.fault reason := by
  rw [escape] at failed
  cases t with
  | nil => cases failed
  | cons x t =>
    rw [bind_apply (next_cons consumed x t m)] at failed
    dsimp only at failed
    split at failed
    · rcases bind_error.mp failed with failed | ⟨_, _, -, failed⟩
      · exact nextMany_error failed
      · cases failed
    · cases failed

theorem stringWithin_error {mark : Option CodePoint} {limit : Nat} {read : List CodePoint} {fault : Fault}
    (failed : stringWithin mark limit read ⟨consumed, t, m, 0⟩ = .error fault place) : ∃ reason, fault = place.fault reason := by
  induction limit generalizing read consumed t m with
  | zero =>
    cases failed
    exact ⟨_, rfl⟩
  | succ limit ih =>
    rw [stringWithin, stringStep] at failed
    cases t with
    | nil =>
      cases failed
      exact ⟨_, rfl⟩
    | cons c t =>
      rw [bind_apply (next_cons consumed c t m)] at failed
      dsimp only at failed
      split at failed
      · cases failed
        exact ⟨_, rfl⟩
      split at failed
      · rcases bind_error.mp failed with failed | ⟨meaning?, s₁, escaped, failed⟩
        · exact escape_error failed
        · obtain ⟨-, before⟩ := Reads.of_ok steady_escape escaped
          obtain ⟨consumed', rest, m', before'⟩ := s₁
          cases before
          cases meaning? with
          | none =>
            cases failed
            exact ⟨_, rfl⟩
          | some meaning => exact ih failed
      split at failed
      · cases failed
      · exact ih failed

/-- From a place inside a text, behind the opening of a literal, the reader gives what the items up to the closing mark
stand for and stops behind that mark; before any other text it complains at a place inside the text. It takes every
literal in whose groups four digits stand, and all that it takes besides has a group with another character. -/
theorem nextString_exact {mark : CodePoint} (quote : IsQuoteMark mark) {place : Tokener} (inside : place.before = 0) :
    (∀ s place', nextString (some mark) place = .ok s place' ↔
      ∃ t rest, Items IsGroup mark t s ∧ place.rest = t ++ mark :: rest ∧
        place' = ⟨mark :: (t.reverse ++ place.consumed), rest, .character, 0⟩) ∧
    (∀ fault place', nextString (some mark) place = .error fault place' →
      ∃ reason at_, fault = Tokener.fault at_ reason ∧ at_.before = 0 ∧ at_.source = place.source) ∧
    ∀ t s, Items FourDigits mark t s ↔
      Items (fun digits c => IsGroup digits c ∧ ∀ d ∈ digits, (hexValue? d).isSome = true) mark t s := by
  refine ⟨fun s place' => ?_, fun fault place' failed => ?_, fun t s => ?_⟩
  · obtain ⟨consumed, t, m, before⟩ := place
    cases inside
    exact nextString_eq_ok_iff.trans (and_iff_right quote.closing)
  · have complaint := (proceeds_nextString (some mark) inside).complaint failed
    obtain ⟨consumed, t, m, before⟩ := place
    cases inside
    obtain ⟨reason, same⟩ := stringWithin_error ((nextString_apply ..).symm.trans failed)
    cases complaint with
    | malformed at_ inside source _ => exact ⟨_, at_, rfl, inside, source⟩
    | duplicate key => cases same
  · constructor
    · exact fun items => items.imp fun _ _ => fourDigits_iff.mp
    · exact fun items => items.imp fun _ _ => fourDigits_iff.mpr

/-- A literal of single quotes with a double one, a group and an escaped quote inside, behind the letter x. -/
theorem nextString_exact_escapes :
    nextString (some Symbol.singleQuote) ⟨[0x78], Text.ofString "\"\\u004a\\'' y", .nothing, 0⟩ =
      .ok [0x22, 0x4A, 0x27] ⟨(Text.ofString "x\"\\u004a\\''").reverse, Text.ofString " y", .character, 0⟩ := by
  refine ((nextString_exact (.inr rfl) rfl).1 _ _).mpr ⟨Text.ofString "\"\\u004a\\'", _, ?_, rfl, rfl⟩
  have group : IsGroup (Text.ofString "004a") 0x4A := (@FourDigits.mk 0x30 0x30 0x34 0x61 0 0 4 10 rfl rfl rfl rfl).isGroup
  exact .cons (.plain (by decide) (by decide) (by decide)) (.cons (.group group) (.cons (.letter (by decide)) .nil))

/-- A sign among the characters behind an escaped u is read as part of a number, though only three digits stand there. -/
theorem nextString_sign :
    nextString (some Symbol.doubleQuote) (Tokener.ofText (Text.ofString "\\u+041\"")) =
      .ok [0x41] ⟨(Text.ofString "\\u+041\"").reverse, [], .character, 0⟩ ∧
    ¬ ∃ t s rest, Items FourDigits Symbol.doubleQuote t s ∧ Text.ofString "\\u+041\"" = t ++ Symbol.doubleQuote :: rest := by
  have group : IsGroup (Text.ofString "+041") 0x41 := ⟨rfl, hexMeaning?_iff.mp rfl⟩
  refine ⟨nextString_eq_ok_iff.mpr ⟨IsQuoteMark.closing (.inl rfl), _, [], .cons (.group group) .nil, rfl, rfl⟩, ?_⟩
  rintro ⟨t, s, rest, items, split⟩
  cases items with
  | nil => cases split
  | cons item _ =>
    cases item with
    | plain _ unescaped _ => exact unescaped (List.cons.inj split).1.symm
    | letter named => exact letter_ne named (List.cons.inj (List.cons.inj split).2).1.symm
    | group digits =>
      cases digits with
      | mk first _ _ _ =>
        cases (List.cons.inj (List.cons.inj (List.cons.inj split).2).2).1
        cases first

end Reader
end LenientJson
