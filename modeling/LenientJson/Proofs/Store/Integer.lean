import LenientJson.Proofs.Number.Token
import LenientJson.Proofs.Number.Truncated
import LenientJson.Proofs.Similar
import LenientJson.Proofs.Store.Optional

/-! Questions for an integer in a range. A number that is held is cut off toward zero before the range is looked at, and a
text must spell an integer; whatever else is held, or lies out of the range, is refused in one way. -/
namespace LenientJson
open Strict (AreDigits)

/-- Texts that spell integers: digits, which a sign may precede. -/
inductive SpellsInteger : Text → Int → Prop
  | plain {digits} (areDigits : AreDigits digits) : SpellsInteger digits (digitsValue digits)
  | plus {digits} (areDigits : AreDigits digits) : SpellsInteger (Symbol.plus :: digits) (digitsValue digits)
  | minus {digits} (areDigits : AreDigits digits) : SpellsInteger (Symbol.minus :: digits) (-(digitsValue digits : Int))

theorem isWithinDigitLimit_iff {digits : Text} (areDigits : AreDigits digits) :
    isWithinDigitLimit digits = true ↔ digits.countP CodePoint.isAsciiDigit ≤ digitLimit := by
  have same : digits.countP (· != Symbol.underscore) = digits.countP CodePoint.isAsciiDigit := by
    refine List.countP_congr fun c member => ?_
    have digit := areDigits.2 c member
    exact iff_of_true (bne_iff_ne.mpr (by rintro rfl; cases digit)) digit
  rw [isWithinDigitLimit, same, decide_eq_true_eq]

namespace Scalar

variable {leaf : Scalar} {n : Int} {room bound : Nat}

theorem readPlainInteger?_of_splitSign {t digits : Text} {negative : Bool} (split : Text.splitSign t = (negative, digits))
    (areDigits : AreDigits digits) (short : digits.countP CodePoint.isAsciiDigit ≤ digitLimit) :
    readPlainInteger? t = some (if negative then -(digitsValue digits : Int) else digitsValue digits) := by
  have all : digits.all CodePoint.isAsciiDigit = true := List.all_eq_true.mpr areDigits.2
  rw [readPlainInteger?, split]
  exact if_pos ⟨areDigits.1, all, (isWithinDigitLimit_iff areDigits).mpr short⟩

theorem readPlainInteger?_eq_some_iff {t : Text} :
    readPlainInteger? t = some n ↔ SpellsInteger t n ∧ t.countP CodePoint.isAsciiDigit ≤ digitLimit := by
  constructor
  · intro read
    rw [readPlainInteger?] at read
    split at read
    next negative digits split =>
    split at read
    case isFalse => cases read
    next areDigits =>
    obtain ⟨some, all, short⟩ := areDigits
    have areDigits : AreDigits digits := ⟨some, List.all_eq_true.mp all⟩
    rw [isWithinDigitLimit_iff areDigits] at short
    cases read
    unfold Text.splitSign at split
    split at split
    · cases split
      exact absurd rfl some
    · split at split
      · next minus =>
        cases split
        exact ⟨minus ▸ .minus areDigits, by rwa [minus]⟩
      split at split
      · next plus =>
        cases split
        exact ⟨plus ▸ .plus areDigits, by rwa [plus]⟩
      · cases split
        exact ⟨.plain areDigits, short⟩
  · rintro ⟨spells, short⟩
    cases spells with
    | plain areDigits =>
      obtain ⟨d, ds, rfl, digit⟩ := areDigits.exists_cons
      exact readPlainInteger?_of_splitSign (Text.splitSign_of_digit digit ds) areDigits short
    | plus areDigits => exact readPlainInteger?_of_splitSign rfl areDigits short
    | minus areDigits => exact readPlainInteger?_of_splitSign rfl areDigits short

/-- The integer that a leaf amounts to: a number, unless it is a truth value, without what stands behind the point, and a
text what it spells. A user object that is a number amounts to the integer that it is, or that it gives when it is cut off. -/
inductive Amounts : Scalar → Int → Prop
  | number {leaf x} (value : leaf.content? = some (.number x)) : Amounts leaf (truncated x)
  | text {t n} (spells : SpellsInteger t n) (short : t.countP CodePoint.isAsciiDigit ≤ digitLimit) : Amounts (text t) n
  | itself {object : Foreign} {n} (isInteger : object.kind? = some (.int n)) : Amounts (.foreign object) n
  | whole {object : Foreign} {number n} (isNumber : object.number = some number) (noInteger : ∀ i, number.kind ≠ .int i)
      (gives : number.whole = .gives n) : Amounts (.foreign object) n

theorem exists_quantity {x : Rat} (value : leaf.content? = some (.number x)) : (∀ b, leaf ≠ .bool b) ∧
    ∃ negative m, leaf.quantity? = some (.finite negative m) ∧ (Quantity.finite negative m).Denotes x := by
  have other : ∀ b, leaf ≠ .bool b := by
    rintro b rfl
    cases value
  refine ⟨other, ?_⟩
  cases quantity : leaf.quantity? with
  | none => cases itself_of_quantity value quantity
  | some q =>
    obtain ⟨_, same, denotes⟩ := denotes_of_quantity value quantity other
    cases same
    cases denotes with
    | plus normal => exact ⟨_, _, rfl, .plus normal⟩
    | minus normal nonzero => exact ⟨_, _, rfl, .minus normal nonzero⟩

theorem exists_content {negative : Bool} {m : Magnitude} (quantity : leaf.quantity? = some (.finite negative m))
    (other : ∀ b, leaf ≠ .bool b) (own : ∀ object, leaf ≠ .foreign object) :
    ∃ x, leaf.content? = some (.number x) ∧ (Quantity.finite negative m).Denotes x := by
  have content : ∃ c, leaf.content? = some c := by
    cases leaf with
    | int | fraction => exact ⟨_, rfl⟩
    | float d => cases d <;> first | exact ⟨_, rfl⟩ | cases quantity
    | decimal d =>
      cases d with
      | finite => exact ⟨_, rfl⟩
      | infinity => cases quantity
      | nan _ signaling => cases signaling <;> cases quantity
    | bool b => exact absurd rfl (other b)
    | foreign object => exact absurd rfl (own object)
    | _ => cases quantity
  obtain ⟨c, content⟩ := content
  obtain ⟨x, rfl, denotes⟩ := denotes_of_quantity content quantity other
  exact ⟨x, content, denotes⟩

theorem wholePart?_of_quantity {negative : Bool} {m : Magnitude} (quantity : leaf.quantity? = some (.finite negative m))
    (below : m.isBelow bound = true) :
    leaf.wholePart? room bound = .ok (some (if negative then -(m.whole : Int) else m.whole)) := by
  rw [wholePart?, quantity]
  exact if_pos below

theorem toInteger?_of_amounts (amounts : leaf.Amounts n) (inside : |n| < bound) :
    leaf.toInteger? room bound = .ok (some n) := by
  cases amounts with
  | text spells short => exact congrArg Except.ok (readPlainInteger?_eq_some_iff.mpr ⟨spells, short⟩)
  | itself isInteger => exact toInteger?_of_isInteger isInteger
  | whole isNumber noInteger gives =>
    rw [toInteger?_of_isNumber isNumber noInteger, gives]
    rfl
  | @number leaf x value =>
    obtain ⟨-, negative, m, quantity, denotes⟩ := exists_quantity value
    have below : m.isBelow bound = true := by
      rw [Magnitude.isBelow_iff denotes.isNormal, ← denotes.abs_eq]
      by_contra beyond
      exact absurd (le_abs_truncated (not_lt.mp beyond)) (not_le.mpr inside)
    have cut : leaf.wholePart? room bound = .ok (some (truncated x)) := by
      rw [wholePart?_of_quantity quantity below, denotes.truncated_eq]
    cases leaf with
    | float | decimal | fraction => exact cut
    | int i =>
      cases value
      exact congrArg (Except.ok ∘ some) (truncated_intCast i).symm
    | _ => cases value

theorem amounts_of_wholePart? (other : ∀ b, leaf ≠ .bool b) (own : ∀ object, leaf ≠ .foreign object)
    (ok : leaf.wholePart? room bound = .ok (some n)) : leaf.Amounts n := by
  rw [wholePart?] at ok
  split at ok
  · next negative m quantity =>
    obtain ⟨x, value, denotes⟩ := exists_content quantity other own
    split at ok
    · cases ok
      exact denotes.truncated_eq ▸ .number value
    · split at ok
      · split at ok <;> cases ok
      · cases ok
  · cases ok

theorem amounts_of_toInteger? (ok : leaf.toInteger? room bound = .ok (some n)) : leaf.Amounts n := by
  cases leaf with
  | int i =>
    cases ok
    have amounts : (Scalar.int n).Amounts (truncated n) := .number rfl
    rwa [truncated_intCast] at amounts
  | float | decimal | fraction =>
    exact @amounts_of_wholePart? _ n room bound (fun _ same => nomatch same) (fun _ same => nomatch same) ok
  | text t =>
    obtain ⟨spells, short⟩ := readPlainInteger?_eq_some_iff.mp (Except.ok.inj ok)
    exact .text spells short
  | foreign object =>
    rcases number_cases object with noNumber | ⟨i, isInteger⟩ | ⟨number, isNumber, noInteger⟩
    · rw [toInteger?_of_noNumber noNumber] at ok
      cases asked : fitting isNoInteger object.literal.answer <;> rw [asked] at ok <;> cases ok
    · rw [toInteger?_of_isInteger isInteger] at ok
      cases ok
      exact .itself isInteger
    · rw [toInteger?_of_isNumber isNumber noInteger] at ok
      cases gives : number.whole with
      | gives i =>
        rw [gives] at ok
        cases ok
        exact .whole isNumber noInteger gives
      | fails fault =>
        rw [gives, Conversion.answer, fitting] at ok
        split at ok <;> cases ok
  | _ => cases ok

theorem toIntegerWithin?_eq_some_iff_toInteger? {low high : Int} : leaf.toIntegerWithin? room low high = .ok (some n) ↔
    leaf.toInteger? room (low.natAbs + high.natAbs + 1) = .ok (some n) ∧ low ≤ n ∧ n ≤ high := by
  rw [toIntegerWithin?]
  cases leaf.toInteger? room (low.natAbs + high.natAbs + 1) with
  | error fault => simp [Bind.bind, Except.bind]
  | ok made =>
    cases made with
    | none => simp [Bind.bind, Except.bind, pure, Except.pure]
    | some i =>
      simp only [Bind.bind, Except.bind]
      split
      · next inside =>
        simp only [pure, Except.pure, Except.ok.injEq, Option.some.injEq, iff_self_and]
        rintro rfl
        exact inside
      · next beyond =>
        have apart : ¬ ((Except.ok (some i) : Except Fault (Option Int)) = .ok (some n) ∧ low ≤ n ∧ n ≤ high) := by
          rintro ⟨same, inside⟩
          cases same
          exact beyond inside
        rw [iff_false_right apart]
        cases fitting isNoInteger (leaf.shownInteger i) <;> simp [pure, Except.pure]

/-- A leaf is turned into the integer that it amounts to, if this lies in the range. -/
theorem toIntegerWithin?_eq_some_iff {low high : Int} :
    leaf.toIntegerWithin? room low high = .ok (some n) ↔ leaf.Amounts n ∧ low ≤ n ∧ n ≤ high := by
  rw [toIntegerWithin?_eq_some_iff_toInteger?, and_congr_left_iff]
  intro range
  have inside : |n| < (low.natAbs + high.natAbs + 1 : Nat) := by
    rw [Int.abs_eq_natAbs]
    omega
  exact ⟨amounts_of_toInteger?, fun amounts => toInteger?_of_amounts amounts inside⟩

end Scalar

namespace Slot

/-- Only leaves amount to an integer. -/
def Amounts (slot : Slot) (n : Int) : Prop := ∃ leaf, slot = .leaf leaf ∧ leaf.Amounts n

end Slot

namespace Store

variable {st : Store} {o : Nat} {key : Text} {slot : Slot} {low high : Int}

/-- How a question for an integer in a range is answered. -/
structure AnswersInteger (st : Store) (slot : Slot) (low high : Int) (refusal : Fault) (answer : Except Fault Int) :
    Prop where
  returns : ∀ n, answer = .ok n ↔ slot.Amounts n ∧ low ≤ n ∧ n ≤ high
  fails : ∀ fault, answer = .error fault ↔ st.BreaksInteger low high slot fault ∨
    fault = refusal ∧ (∀ other, ¬ st.BreaksInteger low high slot other) ∧ ¬ ∃ n, slot.Amounts n ∧ low ≤ n ∧ n ≤ high

theorem integerOf_eq_some_iff {n : Int} :
    st.integerOf low high slot = .ok (some n) ↔ slot.Amounts n ∧ low ≤ n ∧ n ≤ high := by
  cases slot with
  | leaf value => simp [integerOf, Slot.Amounts, Scalar.toIntegerWithin?_eq_some_iff]
  | link target =>
    have noLeaf : ¬ (Slot.Amounts (.link target) n ∧ low ≤ n ∧ n ≤ high) := by
      rintro ⟨⟨leaf, isLeaf, -⟩, -⟩
      cases isLeaf
    rw [integerOf, iff_false_right noLeaf]
    cases fitting Scalar.isNoInteger (st.literal target) <;> simp [Except.map]

theorem answersInteger (refusal : Fault) : st.AnswersInteger slot low high refusal
    (st.integerOf low high slot >>= fun made => made.elim (.error refusal) pure) := by
  have returns (n : Int) : st.integerOf low high slot = .ok (some n) ↔ _ := integerOf_eq_some_iff
  have fails (fault : Fault) : st.integerOf low high slot = .error fault ↔ _ := st.integerOf_eq_error_iff
  cases made : st.integerOf low high slot with
  | error fault =>
    have breaks := (fails fault).mp made
    simp only [made, reduceCtorEq, false_iff] at returns
    refine ⟨fun n => iff_of_false nofun (returns n), fun other => ?_⟩
    constructor
    · intro failed
      cases failed
      exact .inl breaks
    · rintro (breaks' | ⟨-, whole, -⟩)
      · cases made.symm.trans ((fails other).mpr breaks')
        rfl
      · exact absurd breaks (whole fault)
  | ok result =>
    have whole (other : Fault) : ¬ st.BreaksInteger low high slot other := fun breaks => by
      cases made.symm.trans ((fails other).mpr breaks)
    cases result with
    | none =>
      simp only [made, Except.ok.injEq, reduceCtorEq, false_iff] at returns
      exact ⟨fun n => iff_of_false nofun (returns n), fun fault => by
        simp [Bind.bind, Except.bind, whole, not_exists.mpr returns, eq_comm]⟩
    | some value =>
      have inside := (returns value).mp made
      simp only [made, Except.ok.injEq, Option.some.injEq] at returns
      exact ⟨fun n => by simp [Bind.bind, Except.bind, pure, Except.pure, ← returns n], fun fault =>
        iff_of_false nofun (by rintro (breaks | ⟨-, -, none⟩); exacts [whole _ breaks, none ⟨value, inside⟩])⟩

theorem get_ofText (held : (st.membersOf o).find? key = some slot) : st.get o (.ofText key) = .ok slot := by
  have found := st.get_ofKey o (some key)
  rwa [Store.held, Option.bind_some, held] at found

/-- A question for an integer that treats entries as they are made integers, and refuses what is none. -/
theorem answersInteger_of_get (held : (st.membersOf o).find? key = some slot) {refusal : Fault} {next : Slot → Except Fault Int}
    (link : ∀ target, next (.link target) = fitting Scalar.isNoInteger (st.literal target) >>= fun _ => .error refusal)
    (leaf : ∀ leaf, next (.leaf leaf) =
      leaf.toIntegerWithin? st.room.zeros low high >>= fun made => made.elim (.error refusal) pure) :
    st.AnswersInteger slot low high refusal (st.get o (.ofText key) >>= next) := by
  have asked : (st.get o (.ofText key) >>= next) =
      st.integerOf low high slot >>= fun made => made.elim (.error refusal) pure := by
    rw [get_ofText held]
    exact st.bind_integerOf link leaf slot
  exact asked ▸ answersInteger refusal

theorem answersInteger_getLong (held : (st.membersOf o).find? key = some slot) : st.AnswersInteger slot minInt64 maxInt64
    (.memberMismatch key.quoted .long) (st.getLong o (.ofText key)) :=
  answersInteger_of_get held (fun _ => rfl) fun leaf => congrArg (leaf.toIntegerWithin? st.room.zeros minInt64 maxInt64 >>= ·)
    (funext fun made => by cases made <;> rfl)

theorem answersInteger_getInt (held : (st.membersOf o).find? key = some slot) : st.AnswersInteger slot minInt32 maxInt32
    (.memberMismatch key.quoted .int) (st.getInt o (.ofText key)) :=
  answersInteger_of_get held (fun _ => rfl) fun leaf => congrArg (leaf.toIntegerWithin? st.room.zeros minInt32 maxInt32 >>= ·)
    (funext fun made => by cases made <;> rfl)

/-- Both questions for an integer give what the value that is held amounts to, each within its own range, and refuse
everything else, unless a decimal finds no room or a user object fails. -/
theorem answersIntegers (st : Store) (o : Nat) (key : Text) (slot : Slot) (held : (st.membersOf o).find? key = some slot) :
    st.AnswersInteger slot minInt64 maxInt64 (.memberMismatch key.quoted .long) (st.getLong o (.ofText key)) ∧
    st.AnswersInteger slot minInt32 maxInt32 (.memberMismatch key.quoted .int) (st.getInt o (.ofText key)) ∧
    ∀ n, st.getInt o (.ofText key) = .ok n ↔ st.getLong o (.ofText key) = .ok n ∧ minInt32 ≤ n ∧ n ≤ maxInt32 := by
  have long := answersInteger_getLong held
  have int := answersInteger_getInt held
  refine ⟨long, int, fun n => ?_⟩
  rw [int.returns, long.returns]
  have wider : minInt64 ≤ minInt32 ∧ maxInt32 ≤ maxInt64 := by decide
  constructor
  · exact fun ⟨amounts, low, high⟩ => ⟨⟨amounts, wider.1.trans low, high.trans wider.2⟩, low, high⟩
  · exact fun ⟨⟨amounts, _⟩, range⟩ => ⟨amounts, range⟩

/-- A decimal that lies beyond the largest integer of 64 bits, but not by a whole number. -/
theorem answersIntegers_decimal : ∃ st : Store, st = (empty ⟨80, 80, 80⟩).run [.object .absent,
      .put 0 (.ofText [0x61]) (.scalar (.decimal (.finite ⟨false, 92233720368547758079, -1⟩)))] ∧
    st.getLong 0 (.ofText [0x61]) = .ok maxInt64 ∧ ¬ ∃ n, st.getInt 0 (.ofText [0x61]) = .ok n := by
  refine ⟨_, rfl, ?_⟩
  obtain ⟨long, -, both⟩ := answersIntegers ((empty ⟨80, 80, 80⟩).run [.object .absent, .put 0 (.ofText [0x61])
    (.scalar (.decimal (.finite ⟨false, 92233720368547758079, -1⟩)))]) 0 [0x61] _ rfl
  have value : truncated (Numeral.toRat ⟨false, 92233720368547758079, -1⟩) = maxInt64 := by
    have quotient : Numeral.toRat ⟨false, 92233720368547758079, -1⟩ = 92233720368547758079 / 10 := by
      rw [Numeral.toRat_eq]
      norm_num
    rw [quotient, truncated_of_nonneg (by norm_num), Int.floor_eq_iff]
    norm_num [maxInt64]
  have returned := (long.returns maxInt64).mpr ⟨⟨_, rfl, value ▸ .number rfl⟩, by decide⟩
  refine ⟨returned, fun ⟨n, answered⟩ => ?_⟩
  obtain ⟨same, -, high⟩ := (both n).mp answered
  cases returned.symm.trans same
  exact absurd high (by decide)

/-- A decimal with so many zeros that its integer part finds no room is not refused in the way of other numbers out of
the range. -/
theorem getLong_finds_no_room : ¬ ∃ room : Room, room.zeros < 999999999999999999 ∧
    ∀ (calls : List Call) (o : Nat) (key : Text) (slot : Slot) (fault : Fault),
      (((empty room).run calls).membersOf o).find? key = some slot →
      ((empty room).run calls).getLong o (.ofText key) = .error fault → fault = .memberMismatch key.quoted .long := by
  rintro ⟨room, few, refuses⟩
  have held : (((empty room).run [.object .absent, .put 0 (.ofText [0x61])
      (.scalar (.decimal (.finite ⟨false, 1, 999999999999999999⟩)))]).membersOf 0).find? [0x61] =
    some (.leaf (.decimal (.finite ⟨false, 1, 999999999999999999⟩))) := rfl
  have many : Decimal.HasManyZeros (.finite ⟨false, 1, 999999999999999999⟩) room.zeros
      (minInt64.natAbs + maxInt64.natAbs + 1) := by
    have quantity : Quantity.ofDecimal (.finite ⟨false, 1, 999999999999999999⟩) =
      .finite false ⟨1, 1, 999999999999999999⟩ := rfl
    have zeros : (room.zeros : Int) < 999999999999999999 := by exact_mod_cast few
    refine ⟨false, _, quantity, ?_, zeros⟩
    rw [← not_lt, ← Magnitude.isBelow_iff (Scalar.isNormal_of_ofDecimal quantity)]
    decide
  cases refuses _ _ _ _ _ held (((answersInteger_getLong held).fails .noRoom).mpr (.inl (.zeros many)))

end Store
end LenientJson
