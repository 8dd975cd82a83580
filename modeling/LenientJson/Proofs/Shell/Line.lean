import LenientJson.Parser
import LenientJson.Shell.Command
import LenientJson.Shell.Destination
import Mathlib.Tactic.Tauto

/-! What a line of a session is for, without the blanks at its ends, and what it makes of the working object. The commands
are read off the lines accordingly. -/
namespace LenientJson

namespace Session

def IsInspection (line : Text) : Prop :=
  (Text.startsWith (Text.ofString "inspect(") line = true ∨ Text.startsWith (Text.ofString "i(") line = true) ∧
    line.getLast? = some Symbol.rightParen

/-- Lines that say nothing, end the session, or look at the working object. -/
def IsQuiet (line : Text) : Prop :=
  line ∈ [[], Text.ofString ":q", Text.ofString ":quit", Text.ofString ":keys", Text.ofString ":show"] ∨
    Text.startsWith (Text.ofString "? ") line = true ∨ IsInspection line

def IsReset (line : Text) : Prop := line = Text.ofString ":reset"

/-- Lines that name a file with more lines. -/
def IsBatch (line : Text) : Prop := Text.startsWith (Text.ofString "?<< ") line = true

instance (line : Text) : Decidable (IsInspection line) := inferInstanceAs (Decidable (_ ∧ _))

instance (line : Text) : Decidable (IsQuiet line) := inferInstanceAs (Decidable (_ ∨ _))

instance (line : Text) : Decidable (IsReset line) := inferInstanceAs (Decidable (_ = _))

instance (line : Text) : Decidable (IsBatch line) := inferInstanceAs (Decidable (_ = _))

/-- The object that a line stands for, if it is no command. -/
def brought (line : Text) : Option (Except Fault (Members Tree)) :=
  if IsReset line ∨ IsQuiet line then none else some (parseObject line)

/-- The working object after a line. -/
def handle (document : Members Tree) (line : Text) : Members Tree :=
  if IsReset line then []
  else match brought line with
    | some (.ok members) => document.merge members
    | some (.error _) | none => document

/-- The working object after lines, for each of which a destination is chosen. -/
def documentAfter (document : Members Tree) (entries : List (Destination × Text)) : Members Tree :=
  entries.foldl (fun document entry => handle document entry.2.strip) document

theorem not_isReset_of_isQuiet {line : Text} (quiet : IsQuiet line) : ¬ IsReset line := by
  rintro rfl
  exact absurd quiet (by decide)

theorem brought_of_isQuiet {line : Text} (quiet : IsQuiet line) : brought line = none := if_pos (.inr quiet)

theorem handle_of_isQuiet {line : Text} (quiet : IsQuiet line) (document : Members Tree) :
    handle document line = document := by
  rw [handle, if_neg (not_isReset_of_isQuiet quiet), brought_of_isQuiet quiet]

theorem handle_of_parseObject {line : Text} (plain : ¬ (IsReset line ∨ IsQuiet line)) (document : Members Tree) :
    handle document line = match parseObject line with
      | .ok members => document.merge members
      | .error _ => document := by
  rw [handle, if_neg (mt Or.inl plain), brought, if_neg plain]
  cases parseObject line <;> rfl

end Session

namespace Text

theorem eq_append_of_after? {start t rest : Text} (found : after? start t = some rest) : t = start ++ rest := by
  induction start generalizing t with
  | nil => exact Option.some.inj found
  | cons a start ih =>
    cases t with
    | nil => cases found
    | cons c t =>
      rw [after?] at found
      split at found
      · next same => rw [← same, ih found, List.cons_append]
      · cases found

end Text

namespace Command
open Session

/-- A command of each kind is one of these lines. -/
def Suits (line : Text) : Command → Prop
  | .quit => line = Text.ofString ":q" ∨ line = Text.ofString ":quit"
  | .reset => IsReset line
  | .blank | .keys | .showAll | .inspect _ | .query _ =>
    IsQuiet line ∧ ¬ (line = Text.ofString ":q" ∨ line = Text.ofString ":quit")
  | .batch _ => IsBatch line
  | .eval text => text = line ∧ ¬ IsReset line ∧ ¬ IsQuiet line

theorem startsWith_iff_operand? (opening : String) (line : Text) :
    Text.startsWith (Text.ofString opening) line = true ↔ (operand? opening line).isSome = true := by
  rw [operand?, Option.isSome_map, Text.startsWith]

/-- As an opening does not end in a parenthesis, one at the end is not its own. -/
theorem isSome_argument? {opening : String} (opened : (Text.ofString opening).getLast? ≠ some Symbol.rightParen)
    (line : Text) : (argument? opening line).isSome = true ↔
      Text.startsWith (Text.ofString opening) line = true ∧ line.getLast? = some Symbol.rightParen := by
  rw [argument?, Text.startsWith]
  cases found : Text.after? (Text.ofString opening) line with
  | none => simp
  | some rest =>
    have last : line.getLast? = some Symbol.rightParen ↔ rest.getLast? = some Symbol.rightParen := by
      rw [Text.eq_append_of_after? found, List.getLast?_append]
      cases rest.getLast? with
      | none => simp [opened]
      | some c => simp
    rw [last]
    by_cases closed : rest.getLast? = some Symbol.rightParen <;> simp [closed]

theorem isInspection_iff (line : Text) :
    IsInspection line ↔ (argument? "inspect(" line).isSome = true ∨ (argument? "i(" line).isSome = true := by
  rw [isSome_argument? (by decide), isSome_argument? (by decide), IsInspection, or_and_right]

theorem suits_ofStripped (line : Text) : (ofStripped line).Suits line := by
  rw [ofStripped]
  split
  · next blank =>
    subst blank
    exact ⟨.inl (by decide), by decide⟩
  split
  · next quits => exact quits
  split
  · next keys =>
    subst keys
    exact ⟨.inl (by decide), by decide⟩
  split
  · next shows =>
    subst shows
    exact ⟨.inl (by decide), by decide⟩
  split
  · next resets => exact resets
  next notBlank notQuit notKeys notShown notReset =>
  split
  · next path found => exact ⟨.inr (.inr ((isInspection_iff line).mpr (.inl (by rw [found]; rfl)))), notQuit⟩
  · next path _ found => exact ⟨.inr (.inr ((isInspection_iff line).mpr (.inr (by rw [found]; rfl)))), notQuit⟩
  next noLong noShort =>
  split
  · next path found => exact ⟨.inr (.inl ((startsWith_iff_operand? "? " line).mpr (by rw [found]; rfl))), notQuit⟩
  · next file _ found => exact (startsWith_iff_operand? "?<< " line).mpr (by rw [found]; rfl)
  · next noQuery noBatch =>
    refine ⟨rfl, notReset, ?_⟩
    rintro (word | asks | inspects)
    · simp only [List.mem_cons, List.not_mem_nil, or_false] at word
      tauto
    · rw [startsWith_iff_operand?, noQuery] at asks
      cases asks
    · rw [isInspection_iff, noLong, noShort] at inspects
      rcases inspects with long | short
      · cases long
      · cases short

theorem ofLine_ne_batch {line : Text} (single : ¬ IsBatch line.strip) (file : Text) : ofLine line ≠ .batch file := by
  intro is
  have suits : (ofLine line).Suits line.strip := suits_ofStripped line.strip
  rw [is] at suits
  exact single suits

end Command

end LenientJson
