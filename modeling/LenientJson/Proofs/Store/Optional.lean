import LenientJson.Proofs.Number.Quantity
import LenientJson.Proofs.Store.Coherent

/-! Questions with a fallback. They return whatever a key holds, or the fallback if it cannot be converted, unless a
conversion fails in a way that is not one of the model: for an integer or a fraction beyond binary64 or with too many
digits, for a decimal with more zeros than there is room for, and for a user object whose own answer fails. -/
namespace LenientJson

theorem fitting_eq_error_iff {α : Type} {isNone : Fault → Bool} {attempt : Except Fault α} {fault : Fault} :
    fitting isNone attempt = .error fault ↔ attempt = .error fault ∧ isNone fault = false := by
  cases attempt with
  | ok value => simp [fitting]
  | error other =>
    cases none : isNone other with
    | true =>
      refine iff_of_false (by simp [fitting, none]) ?_
      rintro ⟨same, escapes⟩
      cases same
      cases none.symm.trans escapes
    | false =>
      simp only [fitting, none, Bool.false_eq_true, if_false, Except.error.injEq, iff_self_and]
      rintro rfl
      exact none

theorem recovered_eq_error_iff {α : Type} {attempt : Except Fault α} {fallback : α} {fault : Fault} :
    recovered attempt fallback = .error fault ↔ attempt = .error fault ∧ fault.isModelFault = false := by
  cases attempt with
  | ok value => simp [recovered]
  | error other =>
    cases model : other.isModelFault with
    | true =>
      refine iff_of_false (by simp [recovered, model]) ?_
      rintro ⟨same, genuine⟩
      cases same
      cases model.symm.trans genuine
    | false =>
      simp only [recovered, model, Bool.false_eq_true, if_false, Except.error.injEq, iff_self_and]
      rintro rfl
      exact model

theorem Conversion.answer_eq_error_iff {α : Type} {conversion : Conversion α} {fault : Fault} :
    conversion.answer = .error fault ↔ conversion = .fails fault := by
  cases conversion <;> simp [answer]

theorem Spoken.answer_eq_error_iff {spoken : Spoken} {fault : Fault} :
    spoken.answer = .error fault ↔ ∃ message, spoken = .fails message ∧ fault = .raised message := by
  cases spoken <;> simp [answer, eq_comm]

/-- A decimal of at least a given magnitude that ends in more zeros than there is room for. -/
def Decimal.HasManyZeros (value : Decimal) (room bound : Nat) : Prop :=
  ∃ negative m, Quantity.ofDecimal value = .finite negative m ∧ (bound : Rat) ≤ m.toRat ∧ room < m.exponent

namespace Scalar

variable {leaf : Scalar} {fault : Fault}

/-- The value of numbers that are held without rounding and converted by division. -/
def exactValue? : Scalar → Option Rat
  | int value => some value
  | fraction value => some value
  | _ => none

/-- How making a binary64 number out of a leaf fails, apart from refusals. -/
inductive BreaksDouble : Scalar → Fault → Prop
  | beyond {leaf x} (value : leaf.exactValue? = some x) (large : (Double.overflow : Rat) ≤ |x|) : BreaksDouble leaf .tooLarge
  | answer {object : Foreign} {number fault} (isNumber : object.number = some number) (fails : number.double = .fails fault)
      (escapes : fault.isRefusal = false) : BreaksDouble (.foreign object) fault

theorem toDouble?_of_exactValue {negative : Bool} {n d : Nat} {x : Rat} (positive : 0 < d) (value : |x| = n / d)
    (exact : leaf.exactValue? = some x)
    (converted : leaf.toDouble? = if (Double.ofRatio negative n d).isFinite then .ok (some (Double.ofRatio negative n d))
      else .error .tooLarge) :
    leaf.toDouble? = .error fault ↔ leaf.BreaksDouble fault := by
  have beyond : (Double.overflow : Rat) ≤ |x| ↔ (Double.ofRatio negative n d).isFinite = false := by
    rw [value, Double.isFinite_ofRatio_iff negative positive, le_div_iff₀ (by exact_mod_cast positive)]
    exact_mod_cast Iff.rfl
  have breaks : leaf.BreaksDouble fault ↔ fault = .tooLarge ∧ (Double.overflow : Rat) ≤ |x| := by
    constructor
    · rintro (⟨exact', large⟩ | _)
      · cases exact.symm.trans exact'
        exact ⟨rfl, large⟩
      · cases exact
    · rintro ⟨rfl, large⟩
      exact .beyond exact large
  rw [converted, breaks, beyond]
  cases (Double.ofRatio negative n d).isFinite <;> simp [eq_comm]

theorem toDouble?_eq_error_iff : leaf.toDouble? = .error fault ↔ leaf.BreaksDouble fault := by
  cases leaf with
  | int value =>
    have size : |(value : Rat)| = (value.natAbs : Rat) / (1 : Nat) := by simp [Nat.cast_natAbs]
    exact toDouble?_of_exactValue Nat.one_pos size rfl rfl
  | fraction value =>
    have size : |value| = (value.num.natAbs : Rat) / value.den := by
      conv_lhs => rw [← Rat.num_div_den value, abs_div]
      simp [Nat.cast_natAbs]
    exact toDouble?_of_exactValue value.den_pos size rfl rfl
  | foreign object =>
    cases isNumber : object.number with
    | none =>
      refine iff_of_false (by simp [toDouble?, isNumber]) ?_
      rintro (⟨value, -⟩ | ⟨some, -, -⟩)
      · cases value
      · cases isNumber.symm.trans some
    | some number =>
      have converted : (foreign object).toDouble? = fitting Fault.isRefusal number.double.answer := by
        simp only [toDouble?, isNumber]
      rw [converted, fitting_eq_error_iff, Conversion.answer_eq_error_iff]
      constructor
      · exact fun ⟨fails, escapes⟩ => .answer isNumber fails escapes
      · rintro (⟨value, -⟩ | ⟨some, fails, escapes⟩)
        · cases value
        · cases isNumber.symm.trans some
          exact ⟨fails, escapes⟩
  | _ =>
    refine iff_of_false (fun fails => nomatch fails) ?_
    rintro ⟨value, -⟩
    cases value

theorem isNormal_of_ofDecimal {value : Decimal} {negative : Bool} {m : Magnitude}
    (quantity : Quantity.ofDecimal value = .finite negative m) : m.IsNormal := by
  cases value with
  | finite numeral =>
    have denotes := Quantity.denotes_ofDecimal numeral
    rw [quantity] at denotes
    generalize numeral.toRat = x at denotes
    cases denotes <;> assumption
  | infinity => cases quantity
  | nan sign isSignaling payload => cases isSignaling <;> cases quantity

/-- How making an integer in a range out of a leaf fails, apart from refusals: a decimal finds no room, what is no number
gives no literal, a user object fails as it is cut off, or it is an integer out of the range and fails to give its text. -/
inductive BreaksInteger (room : Nat) (low high : Int) : Scalar → Fault → Prop
  | zeros {value : Decimal} (many : value.HasManyZeros room (low.natAbs + high.natAbs + 1)) :
      BreaksInteger room low high (.decimal value) .noRoom
  | literal {object : Foreign} {message} (noNumber : object.number = none) (fails : object.literal = .fails message) :
      BreaksInteger room low high (.foreign object) (.raised message)
  | whole {object : Foreign} {number fault} (isNumber : object.number = some number) (noInteger : ∀ n, number.kind ≠ .int n)
      (fails : number.whole = .fails fault) (escapes : isNoInteger fault = false) :
      BreaksInteger room low high (.foreign object) fault
  | text {object : Foreign} {n message} (isInteger : object.kind? = some (.int n)) (beyond : ¬ (low ≤ n ∧ n ≤ high))
      (fails : object.spoken = .fails message) : BreaksInteger room low high (.foreign object) (.raised message)

variable {room : Nat} {low high : Int}

theorem wholePart?_decimal_eq_error_iff {value : Decimal} {bound : Nat} :
    (decimal value).wholePart? room bound = .error fault ↔ fault = .noRoom ∧ value.HasManyZeros room bound := by
  rw [wholePart?]
  cases quantity : Quantity.ofDecimal value with
  | finite negative m =>
    have below : (bound : Rat) ≤ m.toRat ↔ m.isBelow bound = false := by
      rw [← not_lt, ← Magnitude.isBelow_iff (isNormal_of_ofDecimal quantity), Bool.not_eq_true]
    have many : value.HasManyZeros room bound ↔ m.isBelow bound = false ∧ room < m.exponent := by
      rw [← below]
      constructor
      · rintro ⟨sign, n, quantity', large, zeros⟩
        cases quantity.symm.trans quantity'
        exact ⟨large, zeros⟩
      · exact fun ⟨large, zeros⟩ => ⟨negative, m, quantity, large, zeros⟩
    simp only [many, quantity?, quantity]
    cases m.isBelow bound with
    | true => simp
    | false => by_cases zeros : (room : Int) < m.exponent <;> simp [zeros, eq_comm]
  | _ =>
    simp only [quantity?, quantity]
    refine iff_of_false nofun ?_
    rintro ⟨-, sign, n, quantity', -⟩
    cases quantity.symm.trans quantity'

/-- A leaf that is no integer of a user: of an integer that is out of range the text can always be made, or has too many
digits. -/
theorem toIntegerWithin?_eq_map (plain : ∀ n, leaf.shownInteger n = integerText n) :
    leaf.toIntegerWithin? room low high =
      (leaf.toInteger? room (low.natAbs + high.natAbs + 1)).map (·.filter fun n => low ≤ n ∧ n ≤ high) := by
  rw [toIntegerWithin?]
  cases leaf.toInteger? room (low.natAbs + high.natAbs + 1) with
  | error fault => rfl
  | ok made =>
    cases made with
    | none => rfl
    | some n =>
      by_cases inside : low ≤ n ∧ n ≤ high
      · simp [Bind.bind, Except.bind, Except.map, pure, Except.pure, Option.filter, inside]
      · have shown : ∃ shown, fitting isNoInteger (integerText n) = .ok shown := by
          rw [integerText]
          split <;> exact ⟨_, rfl⟩
        obtain ⟨shown, ok⟩ := shown
        simp [Bind.bind, Except.bind, Except.map, pure, Except.pure, Option.filter, inside, plain, ok]

theorem toIntegerWithin?_eq_error_iff_of_plain (plain : ∀ n, leaf.shownInteger n = integerText n) :
    leaf.toIntegerWithin? room low high = .error fault ↔
      leaf.toInteger? room (low.natAbs + high.natAbs + 1) = .error fault := by
  rw [toIntegerWithin?_eq_map plain]
  cases leaf.toInteger? room (low.natAbs + high.natAbs + 1) <;> simp [Except.map]

theorem wholePart?_eq_ok {bound : Nat} (other : ∀ value, leaf ≠ .decimal value) : ∃ made, leaf.wholePart? room bound = .ok made := by
  rw [wholePart?]
  split
  · split
    · exact ⟨_, rfl⟩
    · split
      · next value _ => exact absurd rfl (other value)
      · exact ⟨_, rfl⟩
  · exact ⟨_, rfl⟩

/-! User objects as integers: no numbers, integers, and other numbers. -/

section Foreign

variable {object : Foreign} {number : ForeignNumber} {n : Int} {bound : Nat}

theorem number_cases (object : Foreign) : object.number = none ∨ (∃ n, object.kind? = some (.int n)) ∨
    ∃ number, object.number = some number ∧ ∀ n, number.kind ≠ .int n := by
  cases isNumber : object.number with
  | none => exact .inl rfl
  | some number =>
    by_cases isInteger : ∃ n, number.kind = .int n
    · obtain ⟨n, kind⟩ := isInteger
      exact .inr (.inl ⟨n, by rw [Foreign.kind?, isNumber, Option.map_some, kind]⟩)
    · exact .inr (.inr ⟨number, rfl, not_exists.mp isInteger⟩)

theorem kind?_ne_int (isNumber : object.number = some number) (noInteger : ∀ n, number.kind ≠ .int n) (n : Int) :
    object.kind? ≠ some (.int n) := by
  rw [Foreign.kind?, isNumber, Option.map_some]
  exact fun same => noInteger n (Option.some.inj same)

theorem kind?_of_noNumber (noNumber : object.number = none) : object.kind? = none := by
  rw [Foreign.kind?, noNumber, Option.map_none]

theorem toInteger?_of_noNumber (noNumber : object.number = none) : (foreign object).toInteger? room bound =
    (fitting isNoInteger object.literal.answer).map fun _ => none := by
  simp only [toInteger?, noNumber]
  rfl

theorem toInteger?_of_isInteger (isInteger : object.kind? = some (.int n)) :
    (foreign object).toInteger? room bound = .ok (some n) := by
  obtain ⟨⟨kind, double, whole⟩, isNumber, rfl⟩ := Option.map_eq_some_iff.mp isInteger
  simp only [toInteger?, isNumber]

theorem toInteger?_of_isNumber (isNumber : object.number = some number) (noInteger : ∀ n, number.kind ≠ .int n) :
    (foreign object).toInteger? room bound = fitting isNoInteger number.whole.answer := by
  obtain ⟨kind, double, whole⟩ := number
  cases kind with
  | int n => exact absurd rfl (noInteger n)
  | _ => simp only [toInteger?, isNumber]

theorem shownInteger_of_kind? (noInteger : ∀ n, object.kind? ≠ some (.int n)) (n : Int) :
    (foreign object).shownInteger n = integerText n := by
  simp only [shownInteger]

theorem toIntegerWithin?_of_isInteger (isInteger : object.kind? = some (.int n)) :
    (foreign object).toIntegerWithin? room low high =
      if low ≤ n ∧ n ≤ high then .ok (some n) else (fitting isNoInteger object.spoken.answer).map fun _ => none := by
  simp only [toIntegerWithin?, toInteger?_of_isInteger isInteger, shownInteger, isInteger, Bind.bind, Except.bind]
  split
  · rfl
  · cases fitting isNoInteger object.spoken.answer <;> rfl

/-- An answer that is asked for, but not used. -/
theorem unused_eq_error_iff {spoken : Spoken} :
    ((fitting isNoInteger spoken.answer).map fun _ => (none : Option Int)) = .error fault ↔
      ∃ message, spoken = .fails message ∧ fault = .raised message := by
  cases spoken with
  | text t => exact iff_of_false nofun nofun
  | fails message =>
    rw [Spoken.answer]
    constructor
    · intro failed
      cases failed
      exact ⟨message, rfl, rfl⟩
    · rintro ⟨_, same, rfl⟩
      cases same
      rfl

theorem toIntegerWithin?_foreign_eq_error_iff :
    (foreign object).toIntegerWithin? room low high = .error fault ↔ (foreign object).BreaksInteger room low high fault := by
  rcases number_cases object with noNumber | ⟨n, isInteger⟩ | ⟨number, isNumber, noInteger⟩
  · have noKind := kind?_of_noNumber noNumber
    rw [toIntegerWithin?_eq_error_iff_of_plain (shownInteger_of_kind? fun n => noKind ▸ nofun),
      toInteger?_of_noNumber noNumber, unused_eq_error_iff]
    constructor
    · rintro ⟨message, fails, rfl⟩
      exact .literal noNumber fails
    · intro breaks
      cases breaks with
      | literal _ fails => exact ⟨_, fails, rfl⟩
      | whole isNumber => cases noNumber.symm.trans isNumber
      | text isInteger => cases noKind.symm.trans isInteger
  · rw [toIntegerWithin?_of_isInteger isInteger]
    by_cases inside : low ≤ n ∧ n ≤ high
    · rw [if_pos inside]
      refine iff_of_false nofun fun breaks => ?_
      cases breaks with
      | literal noNumber => cases (kind?_of_noNumber noNumber).symm.trans isInteger
      | whole isNumber noInteger => exact kind?_ne_int isNumber noInteger n isInteger
      | text isInteger' beyond =>
        cases isInteger.symm.trans isInteger'
        exact beyond inside
    · rw [if_neg inside, unused_eq_error_iff]
      constructor
      · rintro ⟨message, fails, rfl⟩
        exact .text isInteger inside fails
      · intro breaks
        cases breaks with
        | literal noNumber => cases (kind?_of_noNumber noNumber).symm.trans isInteger
        | whole isNumber noInteger => exact absurd isInteger (kind?_ne_int isNumber noInteger n)
        | text _ _ fails => exact ⟨_, fails, rfl⟩
  · have other := kind?_ne_int isNumber noInteger
    rw [toIntegerWithin?_eq_error_iff_of_plain (shownInteger_of_kind? other), toInteger?_of_isNumber isNumber noInteger,
      fitting_eq_error_iff, Conversion.answer_eq_error_iff]
    constructor
    · exact fun ⟨fails, escapes⟩ => .whole isNumber noInteger fails escapes
    · intro breaks
      cases breaks with
      | literal noNumber => cases noNumber.symm.trans isNumber
      | whole isNumber' _ fails escapes =>
        cases isNumber.symm.trans isNumber'
        exact ⟨fails, escapes⟩
      | text isInteger => exact absurd isInteger (other _)

end Foreign

theorem toIntegerWithin?_eq_error_iff :
    leaf.toIntegerWithin? room low high = .error fault ↔ leaf.BreaksInteger room low high fault := by
  cases leaf with
  | foreign object => exact toIntegerWithin?_foreign_eq_error_iff
  | decimal value =>
    rw [toIntegerWithin?_eq_error_iff_of_plain fun _ => rfl, toInteger?, wholePart?_decimal_eq_error_iff]
    constructor
    · rintro ⟨rfl, many⟩
      exact .zeros many
    · rintro ⟨many⟩
      exact ⟨rfl, many⟩
  | float value =>
    obtain ⟨made, ok⟩ := @wholePart?_eq_ok (.float value) room (low.natAbs + high.natAbs + 1) fun _ same => nomatch same
    rw [toIntegerWithin?_eq_error_iff_of_plain fun _ => rfl, toInteger?, ok]
    exact iff_of_false nofun fun breaks => nomatch breaks
  | fraction value =>
    obtain ⟨made, ok⟩ := @wholePart?_eq_ok (.fraction value) room (low.natAbs + high.natAbs + 1) fun _ same => nomatch same
    rw [toIntegerWithin?_eq_error_iff_of_plain fun _ => rfl, toInteger?, ok]
    exact iff_of_false nofun fun breaks => nomatch breaks
  | _ =>
    rw [toIntegerWithin?_eq_error_iff_of_plain fun _ => rfl]
    exact iff_of_false (fun failed => nomatch failed) fun breaks => nomatch breaks

/-- How making the plain text of a leaf fails. -/
inductive BreaksText : Scalar → Fault → Prop
  | answer {object : Foreign} {message} (fails : object.spoken = .fails message) :
      BreaksText (.foreign object) (.raised message)
  | digits {leaf : Scalar} (long : ¬ leaf.IsShort) : BreaksText leaf .tooManyDigits

theorem plain_eq_error_iff : leaf.plain = .error fault ↔ leaf.BreaksText fault := by
  have ofShort (short : leaf.IsShort) (ok : ∃ t, leaf.plain = .ok t) (other : ∀ object, leaf ≠ .foreign object) :
      leaf.plain = .error fault ↔ leaf.BreaksText fault := by
    obtain ⟨t, ok⟩ := ok
    refine iff_of_false (fun failed => nomatch ok.symm.trans failed) fun breaks => ?_
    cases breaks with
    | answer => exact other _ rfl
    | digits long => exact long short
  have ofLong (long : ¬ leaf.IsShort) (failed : leaf.plain = .error .tooManyDigits) (other : ∀ object, leaf ≠ .foreign object) :
      leaf.plain = .error fault ↔ leaf.BreaksText fault := by
    rw [failed]
    constructor
    · rintro ⟨⟩
      exact .digits long
    · intro breaks
      cases breaks with
      | answer => exact absurd rfl (other _)
      | digits => rfl
  cases leaf with
  | foreign object =>
    rw [plain, Spoken.answer_eq_error_iff]
    constructor
    · rintro ⟨message, fails, rfl⟩
      exact .answer fails
    · intro breaks
      cases breaks with
      | answer fails => exact ⟨_, fails, rfl⟩
      | digits long => exact absurd trivial long
  | int n =>
    by_cases few : LenientJson.IsShort n
    · exact ofShort few ⟨_, integerText_of_isShort few⟩ fun _ same => nomatch same
    · exact ofLong few (integerText_of_not_isShort few) fun _ same => nomatch same
  | fraction q =>
    by_cases few : (fraction q).IsShort
    · exact ofShort few (exists_fractionText.mpr few) fun _ same => nomatch same
    · exact ofLong few (fractionText_of_not_isShort few) fun _ same => nomatch same
  | _ => exact ofShort trivial ⟨_, rfl⟩ fun _ same => nomatch same

end Scalar

def Host.ofKey : Option Text → Host
  | none => .absent
  | some key => .ofText key

namespace Slot

def leaf? : Slot → Option Scalar
  | .leaf value => some value
  | .link _ => none

def array? : Slot → Option Nat
  | .link (.array a) => some a
  | _ => none

def object? : Slot → Option Nat
  | .link (.object o) => some o
  | _ => none

end Slot

namespace Store

variable (st : Store) (o : Nat) (key : Option Text) (fallback : Option Host)

/-- What an object holds under a key, which may be nothing at all. -/
def held : Option Slot := key.bind fun key => (st.membersOf o).find? key

def heldLeaf : Option Scalar := (st.held o key).bind Slot.leaf?

theorem opt_ofKey : st.opt o (.ofKey key) = .ok (st.held o key) := by
  cases key <;> rfl

theorem get_ofKey : st.get o (.ofKey key) = match st.held o key with
    | some slot => .ok slot
    | none => .error (key.elim .nullKey fun key => .memberNotFound key.quoted) := by
  cases key with
  | none => rfl
  | some key =>
    change (st.opt o (.ofText key) >>= _) = _
    rw [opt_ofText, held, Option.bind_some]
    cases (st.membersOf o).find? key <;> rfl

/-- An entry as an integer in a range. Of a container the literal is made, and then it is no integer. -/
def integerOf (low high : Int) : Slot → Except Fault (Option Int)
  | .leaf leaf => leaf.toIntegerWithin? st.room.zeros low high
  | .link target => (fitting Scalar.isNoInteger (st.literal target)).map fun _ => none

/-- How making an integer out of an entry fails, apart from refusals. -/
def BreaksInteger (low high : Int) : Slot → Fault → Prop
  | .leaf leaf, fault => leaf.BreaksInteger st.room.zeros low high fault
  | .link target, fault => st.literal target = .error fault ∧ Scalar.isNoInteger fault = false

theorem integerOf_eq_error_iff {low high : Int} {slot : Slot} {fault : Fault} :
    st.integerOf low high slot = .error fault ↔ st.BreaksInteger low high slot fault := by
  cases slot with
  | leaf leaf => exact Scalar.toIntegerWithin?_eq_error_iff
  | link target =>
    rw [BreaksInteger, ← fitting_eq_error_iff, integerOf]
    cases fitting Scalar.isNoInteger (st.literal target) <;> simp [Except.map]

/-- The answer to a question with a fallback: what is made of the entry that is held, or the fallback if there is none,
if nothing can be made of it, or if that fails with a fault of the model. -/
def asked {α : Type} (convert : Slot → Except Fault (Option α)) (host : α → Host) (default : Host) : Except Fault Host :=
  match st.held o key with
  | some slot => recovered ((convert slot).map fun value => value.elim default host) default
  | none => .ok default

theorem asked_eq_error_iff {α : Type} {convert : Slot → Except Fault (Option α)} {host : α → Host} {default : Host}
    {fault : Fault} : st.asked o key convert host default = .error fault ↔
      ∃ slot, st.held o key = some slot ∧ convert slot = .error fault ∧ fault.isModelFault = false := by
  unfold asked
  cases st.held o key with
  | none => simp
  | some slot =>
    simp only [recovered_eq_error_iff, Option.some.injEq, exists_eq_left']
    cases convert slot <;> simp [Except.map]

/-- A strict question whose refusals are recovered. -/
theorem recovered_eq_asked {α : Type} {convert : Slot → Except Fault (Option α)} {host : α → Host} {default : Host}
    {next : Slot → Except Fault α} {refuse : Except Fault α}
    (each : ∀ slot, next slot = convert slot >>= fun value => value.elim refuse pure)
    (refused : recovered (refuse.map host) default = .ok default) :
    recovered ((st.get o (.ofKey key) >>= next).map host) default = st.asked o key convert host default := by
  rw [get_ofKey, asked]
  cases st.held o key with
  | none => cases key <;> rfl
  | some slot =>
    simp only [bind, Except.bind, each]
    cases convert slot with
    | error fault => rfl
    | ok made =>
      cases made with
      | none => exact refused
      | some _ => rfl

/-- What is made of an entry by way of its leaf. Of links nothing is made. -/
def ofLeaf {α : Type} (convert : Scalar → Except Fault (Option α)) : Slot → Except Fault (Option α)
  | .leaf leaf => convert leaf
  | .link _ => .ok none

theorem ofLeaf_eq_error_iff {α : Type} {convert : Scalar → Except Fault (Option α)} {slot : Slot} {fault : Fault} :
    ofLeaf convert slot = .error fault ↔ ∃ leaf, slot.leaf? = some leaf ∧ convert leaf = .error fault := by
  cases slot <;> simp [ofLeaf, Slot.leaf?]

/-- How strict questions use what is made of a leaf. -/
theorem bind_ofLeaf {α : Type} {convert : Scalar → Except Fault (Option α)} {next : Slot → Except Fault α}
    {refuse : Except Fault α} (link : ∀ target, next (.link target) = refuse)
    (leaf : ∀ leaf, next (.leaf leaf) = convert leaf >>= fun value => value.elim refuse pure) :
    ∀ slot, next slot = ofLeaf convert slot >>= fun value => value.elim refuse pure
  | .link target => link target
  | .leaf value => leaf value

/-- How the strict questions for an integer use what is made of an entry. -/
theorem bind_integerOf {low high : Int} {next : Slot → Except Fault Int} {refuse : Except Fault Int}
    (link : ∀ target, next (.link target) = fitting Scalar.isNoInteger (st.literal target) >>= fun _ => refuse)
    (leaf : ∀ leaf, next (.leaf leaf) = leaf.toIntegerWithin? st.room.zeros low high >>= fun value => value.elim refuse pure) :
    ∀ slot, next slot = st.integerOf low high slot >>= fun value => value.elim refuse pure
  | .link target => by
    rw [link, integerOf]
    cases fitting Scalar.isNoInteger (st.literal target) <;> rfl
  | .leaf value => leaf value

theorem optBool_eq : st.optBool o (.ofKey key) fallback =
    st.asked o key (ofLeaf fun leaf => .ok leaf.toBool?) .ofBool (fallback.getD (.ofBool false)) := by
  refine recovered_eq_asked st o key (bind_ofLeaf (fun _ => rfl) fun leaf => ?_) ?_
  · cases made : leaf.toBool? <;> simp only [made] <;> rfl
  · cases key <;> rfl

theorem optFloat_eq : st.optFloat o (.ofKey key) fallback =
    st.asked o key (ofLeaf Scalar.toDouble?) (fun value => .scalar (.float value)) (fallback.getD noNumber) := by
  refine recovered_eq_asked st o key (bind_ofLeaf (fun _ => rfl) fun leaf => ?_) ?_
  · exact congrArg (leaf.toDouble? >>= ·) (funext fun value => by cases value <;> rfl)
  · cases key <;> rfl

theorem optInt_eq : st.optInt o (.ofKey key) fallback =
    st.asked o key (st.integerOf minInt32 maxInt32) .ofInt (fallback.getD (.ofInt 0)) := by
  refine recovered_eq_asked st o key (st.bind_integerOf (fun _ => rfl) fun leaf => ?_) ?_
  · exact congrArg (leaf.toIntegerWithin? st.room.zeros minInt32 maxInt32 >>= ·) (funext fun value => by cases value <;> rfl)
  · cases key <;> rfl

theorem optLong_eq : st.optLong o (.ofKey key) fallback =
    st.asked o key (st.integerOf minInt64 maxInt64) .ofInt (fallback.getD (.ofInt 0)) := by
  refine recovered_eq_asked st o key (st.bind_integerOf (fun _ => rfl) fun leaf => ?_) ?_
  · exact congrArg (leaf.toIntegerWithin? st.room.zeros minInt64 maxInt64 >>= ·) (funext fun value => by cases value <;> rfl)
  · cases key <;> rfl

theorem optArray_eq : st.optArray o (.ofKey key) = .ok ((st.held o key).bind Slot.array?) := by
  rw [optArray, opt_ofKey]
  rcases st.held o key with none | leaf | ⟨_ | _⟩ <;> rfl

theorem optObject_eq : st.optObject o (.ofKey key) = .ok ((st.held o key).bind Slot.object?) := by
  rw [optObject, opt_ofKey]
  rcases st.held o key with none | leaf | ⟨_ | _⟩ <;> rfl

theorem optString_eq_error_iff {fault : Fault} : st.optString o (.ofKey key) fallback = .error fault ↔
    ∃ leaf, st.heldLeaf o key = some leaf ∧ leaf.BreaksText fault := by
  simp only [← Scalar.plain_eq_error_iff]
  rw [optString, opt_ofKey, heldLeaf]
  cases st.held o key with
  | none => simp [bind, Except.bind, pure, Except.pure]
  | some slot =>
    cases slot with
    | link target => simp [Slot.leaf?, bind, Except.bind, pure, Except.pure]
    | leaf leaf =>
      simp only [Option.bind_some, Slot.leaf?, Option.some.injEq, exists_eq_left']
      cases leaf with
      | null | bool => exact iff_of_false nofun nofun
      | _ =>
        simp only [bind, Except.bind, pure, Except.pure]
        generalize Scalar.plain _ = plain
        cases plain <;> simp

/-- The questions with a fallback return what is made of the value that is held, else the fallback; they fail with
none but the faults of their conversions that are not of the model. -/
structure IsForgiving : Prop where
  opt : st.opt o (.ofKey key) = .ok (st.held o key)
  optArray : st.optArray o (.ofKey key) = .ok ((st.held o key).bind Slot.array?)
  optObject : st.optObject o (.ofKey key) = .ok ((st.held o key).bind Slot.object?)
  optBool : st.optBool o (.ofKey key) fallback =
    st.asked o key (ofLeaf fun leaf => .ok leaf.toBool?) .ofBool (fallback.getD (.ofBool false))
  optFloat : st.optFloat o (.ofKey key) fallback =
    st.asked o key (ofLeaf Scalar.toDouble?) (fun value => .scalar (.float value)) (fallback.getD noNumber)
  optInt : st.optInt o (.ofKey key) fallback =
    st.asked o key (st.integerOf minInt32 maxInt32) .ofInt (fallback.getD (.ofInt 0))
  optLong : st.optLong o (.ofKey key) fallback =
    st.asked o key (st.integerOf minInt64 maxInt64) .ofInt (fallback.getD (.ofInt 0))
  boolReturns : ∃ answer, st.optBool o (.ofKey key) fallback = .ok answer
  floatFails : ∀ fault, st.optFloat o (.ofKey key) fallback = .error fault ↔
    ∃ leaf, st.heldLeaf o key = some leaf ∧ leaf.BreaksDouble fault ∧ fault.isModelFault = false
  intFails : ∀ fault, st.optInt o (.ofKey key) fallback = .error fault ↔
    ∃ slot, st.held o key = some slot ∧ st.BreaksInteger minInt32 maxInt32 slot fault ∧ fault.isModelFault = false
  longFails : ∀ fault, st.optLong o (.ofKey key) fallback = .error fault ↔
    ∃ slot, st.held o key = some slot ∧ st.BreaksInteger minInt64 maxInt64 slot fault ∧ fault.isModelFault = false
  stringFails : ∀ fault, st.optString o (.ofKey key) fallback = .error fault ↔
    ∃ leaf, st.heldLeaf o key = some leaf ∧ leaf.BreaksText fault

theorem isForgiving : st.IsForgiving o key fallback where
  opt := st.opt_ofKey o key
  optArray := st.optArray_eq o key
  optObject := st.optObject_eq o key
  optBool := st.optBool_eq o key fallback
  optFloat := st.optFloat_eq o key fallback
  optInt := st.optInt_eq o key fallback
  optLong := st.optLong_eq o key fallback
  boolReturns := by
    rw [optBool_eq, asked]
    rcases st.held o key with none | leaf | target <;> exact ⟨_, rfl⟩
  floatFails fault := by
    simp only [optFloat_eq, asked_eq_error_iff, ofLeaf_eq_error_iff, Scalar.toDouble?_eq_error_iff, heldLeaf,
      Option.bind_eq_some_iff]
    constructor
    · exact fun ⟨slot, held, ⟨leaf, isLeaf, breaks⟩, genuine⟩ => ⟨leaf, ⟨slot, held, isLeaf⟩, breaks, genuine⟩
    · exact fun ⟨leaf, ⟨slot, held, isLeaf⟩, breaks, genuine⟩ => ⟨slot, held, ⟨leaf, isLeaf, breaks⟩, genuine⟩
  intFails fault := by simp only [optInt_eq, asked_eq_error_iff, integerOf_eq_error_iff]
  longFails fault := by simp only [optLong_eq, asked_eq_error_iff, integerOf_eq_error_iff]
  stringFails fault := st.optString_eq_error_iff o key fallback

/-- An integer just beyond the range of binary64. -/
theorem optFloat_raises : ¬ ∀ (room : Room) (calls : List Call) (o : Nat) (key : Option Text) (fallback : Option Host),
    ∃ answer, ((empty room).run calls).optFloat o (.ofKey key) fallback = .ok answer := by
  intro returns
  obtain ⟨answer, ok⟩ := returns ⟨80, 80, 80⟩ [.object .absent, .put 0 (.ofText [97]) (.ofInt (twoTo 1024))] 0 (some [97]) none
  have large : (Scalar.int (twoTo 1024)).BreaksDouble .tooLarge := by
    refine .beyond rfl ?_
    rw [Int.cast_natCast, Nat.abs_cast]
    exact_mod_cast Nat.sub_le _ _
  have failed := Scalar.toDouble?_eq_error_iff.mpr large
  rw [optFloat_eq, (asked_eq_error_iff _ _ _).mpr ⟨_, rfl, ofLeaf_eq_error_iff.mpr ⟨_, rfl, failed⟩, rfl⟩] at ok
  cases ok

end Store
end LenientJson
