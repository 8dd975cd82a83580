import LenientJson.Proofs.Number.Token
import LenientJson.Reader

/-! Hexadecimal numerals as their reader takes them. They are the grammar of integers in base sixteen: a sign,
a mark, and underscores may stand among the digits, and blanks around them. Four characters behind
an escape mark are such a numeral, and most often four plain digits. -/
namespace LenientJson

/-- Digits that follow a number `m` already read, with single underscores before some of them. -/
inductive HexDigits : (m : Nat) → Text → (n : Nat) → Prop
  | nil {m} : HexDigits m [] m
  | digit {m c x t n} (value : hexValue? c = some x) (others : HexDigits (16 * m + x) t n) : HexDigits m (c :: t) n
  | parted {m c x t n} (value : hexValue? c = some x) (others : HexDigits (16 * m + x) t n) :
      HexDigits m (Symbol.underscore :: c :: t) n

def hexMarks : List Text :=
  [[], [0x30, 0x78], [0x30, 0x58], [0x30, 0x78, Symbol.underscore], [0x30, 0x58, Symbol.underscore]]

/-- An integer in base sixteen: `*blank [ sign ] [ "0x" [ "_" ] ] digit *( [ "_" ] digit ) *blank` -/
inductive IsHexadecimal : Text → Int → Prop
  | mk {before sign mark c x t after n} (blank : ∀ c ∈ before, Text.isNumeralSpace c = true)
      (signed : sign = [] ∨ sign = [Symbol.minus] ∨ sign = [Symbol.plus]) (marked : mark ∈ hexMarks)
      (first : hexValue? c = some x) (others : HexDigits x t n) (blank' : ∀ c ∈ after, Text.isNumeralSpace c = true) :
      IsHexadecimal (before ++ (sign ++ mark ++ c :: t) ++ after) (if sign = [Symbol.minus] then -n else n)

theorem hexValue?_bounds {c x : Nat} (digit : hexValue? c = some x) : 0x30 ≤ c ∧ c ≤ 0x66 ∧ c ≠ 0x5F ∧ c ≠ 0x58 := by
  rw [hexValue?] at digit
  split at digit
  · next ascii =>
    have := isAsciiDigit_iff.mp ascii
    omega
  · split at digit
    · next small =>
      have bounds : 0x61 ≤ c ∧ c ≤ 0x66 := small
      omega
    · split at digit
      · next large =>
        have bounds : 0x41 ≤ c ∧ c ≤ 0x46 := large
        omega
      · cases digit

/-! Digits. -/

theorem readDigits_digit {e v : Nat} (digit : hexValue? e = some v) (after : Bool) (value : Nat) (t : Text) :
    readDigits 16 hexValue? after value (e :: t) = readDigits 16 hexValue? true (16 * value + v) t := by
  have other : ¬ e = Symbol.underscore := (hexValue?_bounds digit).2.2.1
  rw [readDigits, if_neg other, digit]

/-- After a digit the reader goes on as `HexDigits` says; after an underscore and at the beginning it asks for a
digit first. -/
theorem readDigits_iff {t : Text} {n : Nat} : (∀ m, readDigits 16 hexValue? true m t = some n ↔ HexDigits m t n) ∧
    ∀ m, readDigits 16 hexValue? false m t = some n ↔
      ∃ c x u, t = c :: u ∧ hexValue? c = some x ∧ HexDigits (16 * m + x) u n := by
  -- an underscore leads from the first state to the second and a digit back, so one induction shows both
  induction t with
  | nil =>
    refine ⟨fun m => ⟨fun same => ?_, fun digits => ?_⟩, fun m => ⟨nofun, nofun⟩⟩
    · cases same
      exact .nil
    · cases digits
      rfl
  | cons c t ih =>
    obtain ⟨further, first⟩ := ih
    by_cases underscore : c = Symbol.underscore
    · subst underscore
      refine ⟨fun m => ?_, fun m => ⟨nofun, ?_⟩⟩
      · rw [readDigits, if_pos rfl, if_pos rfl, first]
        constructor
        · rintro ⟨c, x, u, rfl, value, others⟩
          exact .parted value others
        · intro digits
          cases digits with
          | digit value _ => cases value
          | parted value others => exact ⟨_, _, _, rfl, value, others⟩
      · rintro ⟨c, x, u, same, value, -⟩
        cases same
        cases value
    · cases value : hexValue? c with
      | none =>
        simp only [readDigits, underscore, value, if_false]
        refine ⟨fun m => iff_of_false (Option.some_ne_none n).symm fun digits => ?_,
          fun m => iff_of_false (Option.some_ne_none n).symm ?_⟩
        · cases digits with
          | digit other _ => exact Option.some_ne_none _ (other.symm.trans value)
          | parted _ _ => exact underscore rfl
        · rintro ⟨_, _, _, same, other, -⟩
          cases same
          exact Option.some_ne_none _ (other.symm.trans value)
      | some x =>
        refine ⟨fun m => ?_, fun m => ?_⟩
        · rw [readDigits_digit value, further]
          constructor
          · exact .digit value
          · intro digits
            cases digits with
            | digit other others => rwa [Option.some.inj (value.symm.trans other)]
            | parted _ _ => exact absurd rfl underscore
        · rw [readDigits_digit value, further]
          constructor
          · exact fun others => ⟨c, x, t, rfl, value, others⟩
          · rintro ⟨_, _, _, same, other, others⟩
            cases same
            rwa [Option.some.inj (value.symm.trans other)]

/-! Signs, marks and blanks. -/

theorem exists_sign (t : Text) : ∃ sign, (sign = [] ∨ sign = [Symbol.minus] ∨ sign = [Symbol.plus]) ∧
    t = sign ++ (Text.splitSign t).2 ∧ (Text.splitSign t).1 = decide (sign = [Symbol.minus]) := by
  cases t with
  | nil => exact ⟨[], .inl rfl, rfl, rfl⟩
  | cons c t =>
    rw [Text.splitSign]
    split
    · next minus => exact ⟨[c], .inr (.inl (by rw [minus])), rfl, by rw [minus]; rfl⟩
    · split
      · next plus => exact ⟨[c], .inr (.inr (by rw [plus])), rfl, by rw [plus]; rfl⟩
      · exact ⟨[], .inl rfl, rfl, rfl⟩

theorem exists_hexMark (t : Text) : ∃ mark ∈ hexMarks, t = mark ++ dropHexMark t := by
  unfold dropHexMark
  split
  · next c t =>
    split
    · next mark =>
      split
      · refine ⟨[0x30, c, Symbol.underscore], ?_, rfl⟩
        rcases mark with rfl | rfl <;> decide
      · refine ⟨[0x30, c], ?_, rfl⟩
        rcases mark with rfl | rfl <;> decide
    · exact ⟨[], by decide, rfl⟩
  · exact ⟨[], by decide, rfl⟩

theorem HexDigits.head_ne {m n : Nat} {t : Text} (digits : HexDigits m t n) {c : Nat} (head : t.head? = some c) :
    c ≠ 0x78 ∧ c ≠ 0x58 := by
  cases digits with
  | nil => cases head
  | digit value _ =>
    cases head
    have := hexValue?_bounds value
    omega
  | parted _ _ =>
    cases head
    decide

theorem dropHexMark_of_mark {mark : Text} (marked : mark ∈ hexMarks) {c x n : Nat} {t : Text} (first : hexValue? c = some x)
    (others : HexDigits x t n) : dropHexMark (mark ++ c :: t) = c :: t := by
  have bounds := hexValue?_bounds first
  have plain {letter : Nat} (named : letter = 0x78 ∨ letter = 0x58) : dropHexMark (0x30 :: letter :: c :: t) = c :: t := by
    rw [dropHexMark, if_pos named]
    intro rest same
    cases same
    exact absurd rfl bounds.2.2.1
  simp only [hexMarks, List.mem_cons, List.not_mem_nil, or_false] at marked
  rcases marked with rfl | rfl | rfl | rfl | rfl
  · rw [List.nil_append, dropHexMark.eq_def]
    split
    · next d u same =>
      cases same
      rw [if_neg]
      rintro (rfl | rfl)
      · exact (others.head_ne rfl).1 rfl
      · exact (others.head_ne rfl).2 rfl
    · rfl
  · exact plain (.inl rfl)
  · exact plain (.inr rfl)
  · rfl
  · rfl

theorem exists_trim (p : CodePoint → Bool) (t : Text) : ∃ before after, t = before ++ t.trim p ++ after ∧
    (∀ c ∈ before, p c = true) ∧ ∀ c ∈ after, p c = true := by
  refine ⟨t.takeWhile p, ((t.dropWhile p).reverse.takeWhile p).reverse, ?_, ?_, ?_⟩
  · rw [Text.trim, List.append_assoc, ← List.reverse_append, List.takeWhile_append_dropWhile, List.reverse_reverse,
      List.takeWhile_append_dropWhile]
  · exact List.all_eq_true.mp List.all_takeWhile
  · intro c member
    exact List.all_eq_true.mp List.all_takeWhile c (List.mem_reverse.mp member)

theorem dropWhile_blanks {p : CodePoint → Bool} {before core : Text} (blank : ∀ c ∈ before, p c = true)
    (solid : ∃ c ∈ core.head?, p c = false) : (before ++ core).dropWhile p = core := by
  obtain ⟨c, head, solid⟩ := solid
  obtain ⟨t, rfl⟩ := List.head?_eq_some_iff.mp head
  rw [List.dropWhile_append_of_pos blank, List.dropWhile_cons_of_neg]
  rw [solid]
  decide

theorem trim_of_blanks {p : CodePoint → Bool} {before after core : Text} (blank : ∀ c ∈ before, p c = true)
    (blank' : ∀ c ∈ after, p c = true) (solid : ∃ c ∈ core.head?, p c = false) (solid' : ∃ c ∈ core.getLast?, p c = false) :
    (before ++ core ++ after).trim p = core := by
  have front : ∃ c ∈ (core ++ after).head?, p c = false := by
    obtain ⟨c, head, solid⟩ := solid
    obtain ⟨t, rfl⟩ := List.head?_eq_some_iff.mp head
    exact ⟨c, rfl, solid⟩
  have back : ∀ c ∈ after.reverse, p c = true := fun c member => blank' c (List.mem_reverse.mp member)
  rw [Text.trim, List.append_assoc, dropWhile_blanks blank front, List.reverse_append,
    dropWhile_blanks back (by rwa [List.head?_reverse]), List.reverse_reverse]

/-! Numerals. -/

theorem HexDigits.solid_last {m n c x : Nat} {t : Text} (digits : HexDigits m t n) (first : hexValue? c = some x) :
    ∃ d ∈ (c :: t).getLast?, Text.isNumeralSpace d = false := by
  induction digits generalizing c x with
  | nil =>
    have := (hexValue?_bounds first).1
    exact ⟨c, rfl, isNumeralSpace_eq_false (by omega)⟩
  | digit value _ ih =>
    rw [List.getLast?_cons_cons]
    exact ih value
  | parted value _ ih =>
    rw [List.getLast?_cons_cons, List.getLast?_cons_cons]
    exact ih value

/-- A numeral without its blanks begins with its sign or with what is no sign. -/
theorem exists_unsigned {mark t : Text} {c x : Nat} (marked : mark ∈ hexMarks) (first : hexValue? c = some x) :
    ∃ d u, mark ++ c :: t = d :: u ∧ 0x30 ≤ d := by
  cases mark with
  | nil => exact ⟨c, t, rfl, (hexValue?_bounds first).1⟩
  | cons d mark =>
    have zero : ∀ mark ∈ hexMarks, ∀ d ∈ mark.head?, d = 0x30 := by decide
    rw [zero _ marked d rfl]
    exact ⟨_, _, rfl, Nat.le_refl _⟩

theorem solid_head {sign t : Text} {d : Nat} (signed : sign = [] ∨ sign = [Symbol.minus] ∨ sign = [Symbol.plus])
    (unsigned : 0x30 ≤ d) : ∃ c ∈ (sign ++ d :: t).head?, Text.isNumeralSpace c = false := by
  rcases signed with rfl | rfl | rfl
  · exact ⟨d, rfl, isNumeralSpace_eq_false (by omega)⟩
  · exact ⟨_, rfl, rfl⟩
  · exact ⟨_, rfl, rfl⟩

theorem readHexadecimal?_eq (t : Text) : readHexadecimal? t =
    (readDigits 16 hexValue? false 0 (dropHexMark (Text.splitSign ((Text.asciiNumeral t).trim Text.isNumeralSpace)).2)).map
      fun n : Nat => if (Text.splitSign ((Text.asciiNumeral t).trim Text.isNumeralSpace)).1 then -(n : Int) else n := by
  rw [readHexadecimal?]
  generalize Text.splitSign ((Text.asciiNumeral t).trim Text.isNumeralSpace) = signed
  obtain ⟨negative, digits⟩ := signed
  dsimp only
  cases readDigits 16 hexValue? false 0 (dropHexMark digits) <;> rfl

theorem readHexadecimal?_iff {t : Text} {n : Int} :
    readHexadecimal? t = some n ↔ IsHexadecimal (Text.asciiNumeral t) n := by
  rw [readHexadecimal?_eq]
  generalize Text.asciiNumeral t = u
  constructor
  · intro read
    obtain ⟨before, after, split, blank, blank'⟩ := exists_trim Text.isNumeralSpace u
    obtain ⟨sign, signed, split', negative⟩ := exists_sign (u.trim Text.isNumeralSpace)
    obtain ⟨mark, marked, split''⟩ := exists_hexMark (Text.splitSign (u.trim Text.isNumeralSpace)).2
    obtain ⟨value, digits, rfl⟩ := Option.map_eq_some_iff.mp read
    obtain ⟨c, x, rest, same, first, others⟩ := (readDigits_iff.2 0).mp digits
    rw [Nat.mul_zero, Nat.zero_add] at others
    have numeral := IsHexadecimal.mk blank signed marked first others blank'
    rw [List.append_assoc sign, ← same, ← split'', ← split', ← split] at numeral
    simpa only [negative, decide_eq_true_eq] using numeral
  · intro numeral
    cases numeral with
    | @mk before sign mark c x t after n blank signed marked first others blank' =>
      have last : ∃ d ∈ (sign ++ mark ++ c :: t).getLast?, Text.isNumeralSpace d = false := by
        obtain ⟨d, same, solid⟩ := others.solid_last first
        exact ⟨d, by rw [List.getLast?_append, same]; rfl, solid⟩
      obtain ⟨d, rest, same, unsigned⟩ := exists_unsigned (t := t) marked first
      rw [List.append_assoc sign, same] at last ⊢
      rw [trim_of_blanks blank blank' (solid_head signed unsigned) last, Text.splitSign_of_sign signed unsigned, ← same,
        dropHexMark_of_mark marked first others]
      have digits := (readDigits_iff.2 0).mpr ⟨c, x, t, rfl, first, by rwa [Nat.mul_zero, Nat.zero_add]⟩
      rw [digits]
      simp only [Option.map_some, decide_eq_true_eq]

/-- Characters that occur in an integer in base sixteen. -/
def isHexMark (c : CodePoint) : Bool :=
  Text.isNumeralSpace c || [Symbol.minus, Symbol.plus, 0x30, 0x58, 0x78, Symbol.underscore].contains c || (hexValue? c).isSome

theorem HexDigits.marks {m n : Nat} {t : Text} (digits : HexDigits m t n) : ∀ d ∈ t, isHexMark d = true := by
  induction digits with
  | nil => exact List.forall_mem_nil _
  | digit value _ ih => exact List.forall_mem_cons.mpr ⟨by simp [isHexMark, value], ih⟩
  | parted value _ ih => exact List.forall_mem_cons.mpr ⟨by decide, List.forall_mem_cons.mpr ⟨by simp [isHexMark, value], ih⟩⟩

theorem IsHexadecimal.marks {t : Text} {n : Int} (numeral : IsHexadecimal t n) : ∀ d ∈ t, isHexMark d = true := by
  cases numeral with
  | mk blank signed marked first others blank' =>
    have marks : ∀ mark ∈ hexMarks, ∀ d ∈ mark, isHexMark d = true := by decide
    simp only [List.forall_mem_append, List.forall_mem_cons]
    refine ⟨⟨fun d member => by simp [isHexMark, blank d member], ⟨?_, marks _ marked⟩, by simp [isHexMark, first], others.marks⟩,
      fun d member => by simp [isHexMark, blank' d member]⟩
    rcases signed with rfl | rfl | rfl <;> decide

theorem hexMeaning?_iff {t : Text} {c : CodePoint} :
    Reader.hexMeaning? t = some c ↔ IsHexadecimal (Text.asciiNumeral t) (c : Nat) := by
  rw [← readHexadecimal?_iff, Reader.hexMeaning?]
  cases readHexadecimal? t with
  | none => exact ⟨nofun, nofun⟩
  | some n => cases n <;> simp

/-! Groups of four. -/

/-- Exactly four digits, with the number that they are in base sixteen. -/
inductive FourDigits : Text → CodePoint → Prop
  | mk {a b c d x y z w} (first : hexValue? a = some x) (second : hexValue? b = some y) (third : hexValue? c = some z)
      (fourth : hexValue? d = some w) : FourDigits [a, b, c, d] (((x * 16 + y) * 16 + z) * 16 + w)

/-- Four characters that the reader of hexadecimal numerals takes for a number that is not negative. -/
def IsGroup (digits : Text) (c : CodePoint) : Prop :=
  digits.length = 4 ∧ IsHexadecimal (Text.asciiNumeral digits) (c : Nat)

theorem IsGroup.meaning {digits : Text} {c : CodePoint} (group : IsGroup digits c) : Reader.hexMeaning? digits = some c :=
  hexMeaning?_iff.mpr group.2

/-- A character of a group that is in ASCII is one of a numeral. -/
theorem IsGroup.isHexMark {digits : Text} {c d : CodePoint} (group : IsGroup digits c) (member : d ∈ digits) (ascii : d < 0x80) :
    isHexMark d = true := by
  apply group.2.marks d
  rw [Text.asciiNumeral, List.mem_map]
  exact ⟨d, member, if_pos ascii⟩

theorem FourDigits.isGroup {digits : Text} {n : CodePoint} (four : FourDigits digits n) : IsGroup digits n := by
  cases four with
  | @mk a b c d x y z w first second third fourth =>
    have ascii : Text.asciiNumeral [a, b, c, d] = [a, b, c, d] := by
      have bounds := hexValue?_bounds first
      have bounds' := hexValue?_bounds second
      have bounds'' := hexValue?_bounds third
      have bounds''' := hexValue?_bounds fourth
      apply asciiNumeral_of_ascii
      simp only [List.mem_cons, List.not_mem_nil, or_false, forall_eq_or_imp, forall_eq]
      omega
    have value : 16 * (16 * (16 * x + y) + z) + w = ((x * 16 + y) * 16 + z) * 16 + w := by omega
    refine ⟨rfl, ?_⟩
    rw [ascii, ← value]
    exact @IsHexadecimal.mk [] [] [] a x [b, c, d] [] _ (List.forall_mem_nil _) (.inl rfl) (by decide) first
      (.digit second (.digit third (.digit fourth .nil))) (List.forall_mem_nil _)

theorem fourDigits_iff {digits : Text} {n : CodePoint} :
    FourDigits digits n ↔ IsGroup digits n ∧ ∀ d ∈ digits, (hexValue? d).isSome = true := by
  constructor
  · intro four
    refine ⟨four.isGroup, ?_⟩
    cases four with
    | mk first second third fourth => simp [first, second, third, fourth]
  · rintro ⟨group, plain⟩
    obtain ⟨a, b, c, d, rfl⟩ : ∃ a b c d, digits = [a, b, c, d] := by
      match digits, group.1 with
      | [a, b, c, d], _ => exact ⟨a, b, c, d, rfl⟩
    simp only [List.mem_cons, List.not_mem_nil, or_false, forall_eq_or_imp, forall_eq, Option.isSome_iff_exists] at plain
    obtain ⟨⟨x, first⟩, ⟨y, second⟩, ⟨z, third⟩, w, fourth⟩ := plain
    have four := FourDigits.mk first second third fourth
    rwa [Option.some.inj (group.meaning.symm.trans four.isGroup.meaning)]

end LenientJson
