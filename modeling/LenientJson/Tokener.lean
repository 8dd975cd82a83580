import LenientJson.Fault

/-! A place in a text, and the moves of which all reading is made: to the next character, over several
characters, and back. The character or the end that was read last can be given back once. A move that
fails leaves the place where it stopped. -/
namespace LenientJson

/-- What the latest read met, as long as it can be given back. -/
inductive Memory
  | nothing
  | character
  | ending
deriving DecidableEq

/-- A text cut in two at the place reached; the part already read is held backwards. A place before
the beginning is `before` characters away from it, with the whole text still to come; there the end
of the text is read once more. -/
structure Tokener where
  consumed : List CodePoint
  rest : Text
  memory : Memory
  before : Nat
deriving DecidableEq

namespace Tokener

def ofText (t : Text) : Tokener := ⟨[], t, .nothing, 0⟩

def source (t : Tokener) : Text := t.consumed.reverse ++ t.rest

def position (t : Tokener) : Int := t.consumed.length - t.before

/-- The part of the text up to the place, backwards. Before the beginning this is all but the end
that is read once more. -/
def passed (t : Tokener) : List CodePoint :=
  match t.before with
  | 0 => t.consumed
  | before => t.rest.reverse.drop before

/-- Lines are counted from one and end with a line feed. -/
def line (t : Tokener) : Nat := t.passed.count Symbol.lineFeed + 1

/-- Columns are counted from one behind the last line feed. -/
def column (t : Tokener) : Int :=
  t.position - (t.passed.dropWhile (· != Symbol.lineFeed)).length + 1

def more (t : Tokener) : Bool := t.before != 0 || !t.rest.isEmpty

def ahead (t : Tokener) : Nat := t.before + t.rest.length

def movedTo (t : Tokener) : (place : Int) → Tokener
  | .ofNat n => ⟨(t.source.take n).reverse, t.source.drop n, t.memory, 0⟩
  | .negSucc n => ⟨[], t.source, t.memory, n + 1⟩

def fault (t : Tokener) (reason : SyntaxReason) : Fault :=
  .malformed reason t.position t.line t.column

def description (t : Tokener) : Text := Text.ofString " at " ++ signedDecimalText t.position

/-- What is read, or why nothing is, with the place where reading stops. -/
abbrev Result (α : Type) := EStateM.Result Fault Tokener α

/-- The next character, or nothing at the end. Before the beginning characters are counted from the
end, and where there are none, reading fails. -/
def next (t : Tokener) : Result (Option CodePoint) :=
  match t.before, t.rest with
  | 0, [] => .ok none { t with memory := .ending }
  | 0, c :: rest => .ok (some c) ⟨c :: t.consumed, rest, .character, 0⟩
  | before + 1, text =>
    match text.reverse[before]? with
    | some c => .ok (some c) { t with memory := .character, before }
    | none => .error .outsideText { t with memory := .character }

def back (t : Tokener) : Result Unit :=
  match t.memory, t.consumed with
  | .nothing, _ => .error (t.fault .secondStepBack) t
  | .ending, _ => .ok () { t with memory := .nothing }
  | .character, c :: consumed => .ok () { t with consumed, rest := c :: t.rest, memory := .nothing }
  | .character, [] => .ok () { t with memory := .nothing, before := t.before + 1 }

/-- The next `n` characters. If fewer are left, the place moves to the end. A negative number moves
the place back, and the characters are those between the old place and the new one, where negative
places count from the end. -/
def nextMany (n : Int) (t : Tokener) : Result Text :=
  if n = 0 then .ok [] t
  else
    let place := t.position + n
    if t.source.length < place then
      let ended := t.movedTo t.source.length
      .error (ended.fault .substringBounds) ended
    else .ok (t.source.between t.position place) { t.movedTo place with memory := .character }

/-- Inside the text the next characters are those that follow the place. -/
theorem nextMany_of_le (consumed : List CodePoint) (rest : Text) (m : Memory) {n : Nat}
    (hn : n ≠ 0) (h : n ≤ rest.length) :
    nextMany n ⟨consumed, rest, m, 0⟩ =
      .ok (rest.take n) ⟨(rest.take n).reverse ++ consumed, rest.drop n, .character, 0⟩ := by
  have hstart : position ⟨consumed, rest, m, 0⟩ = (consumed.reverse.length : Nat) := by
    simp [position]
  have hplace : ((consumed.reverse.length : Nat) + n : Int) = (consumed.reverse.length + n : Nat) :=
    rfl
  have hmoved : movedTo ⟨consumed, rest, m, 0⟩ (consumed.reverse.length + n : Nat) =
      ⟨(rest.take n).reverse ++ consumed, rest.drop n, m, 0⟩ := by
    change mk _ _ _ _ = _
    simp [source, List.take_append, List.drop_append, List.take_of_length_le]
  have hfits : ¬ ((source ⟨consumed, rest, m, 0⟩).length : Int) <
      (consumed.reverse.length + n : Nat) := by
    simp only [source, List.length_append]
    omega
  simp only [nextMany, hstart, hplace, hfits, hmoved, if_false]
  rw [if_neg (by omega)]
  simp only [source, Text.between_append]

/-- Past the end nothing is read, and the place has moved on to the end. -/
theorem nextMany_past {n : Nat} {t : Text} (past : t.length < n) (consumed : List CodePoint) (m : Memory) :
    nextMany n ⟨consumed, t, m, 0⟩ =
      .error (fault ⟨t.reverse ++ consumed, [], m, 0⟩ .substringBounds) ⟨t.reverse ++ consumed, [], m, 0⟩ := by
  have beyond : ((source ⟨consumed, t, m, 0⟩).length : Int) < position ⟨consumed, t, m, 0⟩ + n := by
    simp only [source, position, List.length_append, List.length_reverse]
    omega
  have moved : movedTo ⟨consumed, t, m, 0⟩ (source ⟨consumed, t, m, 0⟩).length = ⟨t.reverse ++ consumed, [], m, 0⟩ := by
    change mk _ _ _ _ = _
    rw [List.take_length, List.drop_length, source, List.reverse_append, List.reverse_reverse]
  rw [nextMany, if_neg (by omega)]
  simp only [if_pos beyond, moved]

inductive Move
  | next
  | nextMany (n : Nat)
  | back

namespace Move

abbrev Answer : Move → Type
  | next => Option CodePoint
  | nextMany _ => Text
  | back => Unit

def act : (move : Move) → Tokener → Result move.Answer
  | next => Tokener.next
  | nextMany n => Tokener.nextMany n
  | back => Tokener.back

end Move

end Tokener
end LenientJson
