import LenientJson.Proofs.Reading
import Mathlib.Data.List.Induction

/-! The moves that all reading is made of: to the next character, over several characters, and back. What can be given
back is settled by the moves made so far: a step back succeeds if something has been read since the last one that did,
and it goes back by the character that was read, or by nothing if the end was met. -/
namespace LenientJson

namespace Tokener

/-- The place where reading stops, whether or not it fails. -/
def reached {α : Type} : Result α → Tokener
  | .ok _ s | .error _ s => s

/-- A move, and the place from which it is made. -/
structure Turn where
  move : Move
  start : Tokener

namespace Turn

def stop (turn : Turn) : Tokener := reached (turn.move.act turn.start)

def fault? (turn : Turn) : Option Fault :=
  match turn.move.act turn.start with
  | .ok _ _ => none
  | .error fault _ => some fault

/-- Every look at the next character, though it may meet the end, and characters that have been passed over. -/
def IsRead (turn : Turn) : Prop :=
  match turn.move with
  | .next => True
  | .nextMany n => 0 < n ∧ turn.fault? = none
  | .back => False

def GivesBack (turn : Turn) : Prop := turn.move = .back ∧ turn.fault? = none

def Consumes (turn : Turn) : Prop := turn.start.position < turn.stop.position

def MeetsEnd (turn : Turn) : Prop := turn.start.rest = []

theorem stop_of_ok (move : Move) {s s' : Tokener} {a : move.Answer} (ok : move.act s = .ok a s') :
    stop ⟨move, s⟩ = s' := congrArg reached ok

theorem stop_of_error (move : Move) {s s' : Tokener} {fault : Fault} (failed : move.act s = .error fault s') :
    stop ⟨move, s⟩ = s' := congrArg reached failed

theorem fault?_of_ok (move : Move) {s s' : Tokener} {a : move.Answer} (ok : move.act s = .ok a s') :
    fault? ⟨move, s⟩ = none := by
  simp only [fault?, ok]

theorem fault?_of_error (move : Move) {s s' : Tokener} {fault : Fault} (failed : move.act s = .error fault s') :
    fault? ⟨move, s⟩ = some fault := by
  simp only [fault?, failed]

end Turn

/-- The latest read among the turns taken, if nothing has been given back since. -/
def Pending (turns : List Turn) (read : Turn) : Prop :=
  read.IsRead ∧ ∃ before after, turns = before ++ read :: after ∧ ∀ turn ∈ after, ¬ turn.IsRead ∧ ¬ turn.GivesBack

variable {t : Text} {turns : List Turn} {turn read : Turn} {s : Tokener}

theorem pending_concat : Pending (turns ++ [turn]) read ↔
    (turn.IsRead ∧ read = turn) ∨ (¬ turn.IsRead ∧ ¬ turn.GivesBack ∧ Pending turns read) := by
  constructor
  · rintro ⟨isRead, before, after, split, quiet⟩
    rcases List.eq_nil_or_concat after with rfl | ⟨after, last, rfl⟩
    · obtain ⟨-, same⟩ := List.append_inj' split rfl
      cases same
      exact .inl ⟨isRead, rfl⟩
    · rw [List.concat_eq_append] at quiet
      rw [List.concat_eq_append, ← List.cons_append, ← List.append_assoc] at split
      obtain ⟨rfl, same⟩ := List.append_inj' split rfl
      cases same
      obtain ⟨earlier, latest⟩ := List.forall_mem_append.mp quiet
      obtain ⟨noRead, kept⟩ := latest turn List.mem_cons_self
      exact .inr ⟨noRead, kept, isRead, before, after, rfl, earlier⟩
  · rintro (⟨isRead, rfl⟩ | ⟨noRead, kept, isRead, before, after, rfl, quiet⟩)
    · exact ⟨isRead, turns, [], rfl, nofun⟩
    · refine ⟨isRead, before, after ++ [turn], by rw [List.append_assoc, List.cons_append], ?_⟩
      exact List.forall_mem_append.mpr ⟨quiet, List.forall_mem_singleton.mpr ⟨noRead, kept⟩⟩

theorem pending_concat_of_isRead (isRead : turn.IsRead) : Pending (turns ++ [turn]) read ↔ read = turn := by
  rw [pending_concat]
  simp only [isRead, true_and, not_true_eq_false, false_and, or_false]

/-- Something has been read, and nothing given back since. -/
def HasRead (turns : List Turn) : Prop :=
  ∃ before read after, turns = before ++ read :: after ∧ read.IsRead ∧ ∀ turn ∈ after, ¬ turn.GivesBack

theorem hasRead_iff : HasRead turns ↔ ∃ read, Pending turns read := by
  constructor
  · rintro ⟨before, read, after, rfl, isRead, kept⟩
    -- each further turn is the latest read now, or the one before stays it
    induction after using List.reverseRecOn with
    | nil => exact ⟨read, isRead, before, [], rfl, nofun⟩
    | append_singleton after last ih =>
      obtain ⟨earlier, latest⟩ := List.forall_mem_append.mp kept
      rw [← List.cons_append, ← List.append_assoc]
      by_cases reads : last.IsRead
      · exact ⟨last, (pending_concat_of_isRead reads).mpr rfl⟩
      · obtain ⟨read', pending⟩ := ih earlier
        exact ⟨read', pending_concat.mpr (.inr ⟨reads, latest last List.mem_cons_self, pending⟩)⟩
  · rintro ⟨read, isRead, before, after, split, quiet⟩
    exact ⟨before, read, after, split, isRead, fun turn member => (quiet turn member).2⟩

/-- What the memory tells of the turns taken. -/
def Recalls (turns : List Turn) : Memory → Prop
  | .nothing => ∀ read, ¬ Pending turns read
  | .character => (∃ read, Pending turns read) ∧ ∀ read, Pending turns read → read.Consumes ∧ ¬ read.MeetsEnd
  | .ending => (∃ read, Pending turns read) ∧ ∀ read, Pending turns read → ¬ read.Consumes ∧ read.MeetsEnd

theorem recalls_consumed (isRead : turn.IsRead) (consumes : turn.Consumes) (amid : ¬ turn.MeetsEnd) :
    Recalls (turns ++ [turn]) .character := by
  refine ⟨⟨turn, (pending_concat_of_isRead isRead).mpr rfl⟩, fun read pending => ?_⟩
  rw [(pending_concat_of_isRead isRead).mp pending]
  exact ⟨consumes, amid⟩

theorem recalls_ended (isRead : turn.IsRead) (still : ¬ turn.Consumes) (ended : turn.MeetsEnd) :
    Recalls (turns ++ [turn]) .ending := by
  refine ⟨⟨turn, (pending_concat_of_isRead isRead).mpr rfl⟩, fun read pending => ?_⟩
  rw [(pending_concat_of_isRead isRead).mp pending]
  exact ⟨still, ended⟩

theorem recalls_givenBack (gives : turn.GivesBack) : Recalls (turns ++ [turn]) .nothing := by
  intro read pending
  obtain ⟨isRead, -⟩ | ⟨-, kept, -⟩ := pending_concat.mp pending
  · rw [Turn.IsRead, gives.1] at isRead
    exact isRead
  · exact kept gives

/-- A turn that neither reads nor gives back is not remembered. -/
theorem recalls_idle {m : Memory} (noRead : ¬ turn.IsRead) (kept : ¬ turn.GivesBack) (recalls : Recalls turns m) :
    Recalls (turns ++ [turn]) m := by
  have same (read : Turn) : Pending (turns ++ [turn]) read ↔ Pending turns read := by
    rw [pending_concat]
    simp only [noRead, kept, not_false_eq_true, false_and, true_and, false_or]
  cases m <;> simpa only [Recalls, same] using recalls

/-- A place inside the text whose memory tells of the turns taken, and which is not at the beginning if a character can be
given back. -/
structure Stands (t : Text) (turns : List Turn) (s : Tokener) : Prop where
  inside : s.before = 0
  source : s.source = t
  recalls : Recalls turns s.memory
  held : s.memory = .character → s.consumed ≠ []

theorem Stands.position (stands : Stands t turns s) : 0 ≤ s.position ∧ s.position ≤ t.length := by
  rw [← stands.source, Tokener.source, Tokener.position, stands.inside, List.length_append, List.length_reverse]
  omega

theorem stands_ofText (t : Text) : Stands t [] (ofText t) := by
  refine ⟨rfl, rfl, ?_, nofun⟩
  rintro read ⟨-, before, after, split, -⟩
  cases before <;> cases split

/-- A read that has passed over a piece of the text leaves a character that can be given back. -/
theorem Stands.onward {move : Move} {consumed : List CodePoint} {piece rest : Text} {m : Memory}
    (stands : Stands t turns ⟨consumed, piece ++ rest, m, 0⟩) (some : piece ≠ [])
    (isRead : Turn.IsRead ⟨move, ⟨consumed, piece ++ rest, m, 0⟩⟩)
    (stop : Turn.stop ⟨move, ⟨consumed, piece ++ rest, m, 0⟩⟩ = ⟨piece.reverse ++ consumed, rest, .character, 0⟩) :
    Stands t (turns ++ [⟨move, ⟨consumed, piece ++ rest, m, 0⟩⟩]) ⟨piece.reverse ++ consumed, rest, .character, 0⟩ := by
  have consumes : Turn.Consumes ⟨move, ⟨consumed, piece ++ rest, m, 0⟩⟩ := by
    rw [Turn.Consumes, stop]
    have := List.length_pos_iff.mpr some
    simp only [Tokener.position, List.length_append, List.length_reverse]
    omega
  have amid : ¬ Turn.MeetsEnd ⟨move, ⟨consumed, piece ++ rest, m, 0⟩⟩ := List.append_ne_nil_of_left_ne_nil some rest
  refine ⟨rfl, ?_, recalls_consumed isRead consumes amid, fun _ empty => ?_⟩
  · rw [← stands.source, Tokener.source, Tokener.source, List.reverse_append, List.reverse_reverse, List.append_assoc]
  · exact some (List.reverse_eq_nil_iff.mp (List.append_eq_nil_iff.mp empty).1)

theorem Stands.next (stands : Stands t turns s) : Stands t (turns ++ [⟨.next, s⟩]) (Turn.stop ⟨.next, s⟩) := by
  obtain ⟨consumed, rest, m, before⟩ := s
  obtain rfl : before = 0 := stands.inside
  cases rest with
  | nil =>
    have still : ¬ Turn.Consumes ⟨.next, ⟨consumed, [], m, 0⟩⟩ := Int.lt_irrefl _
    exact ⟨rfl, stands.source, recalls_ended trivial still rfl, nofun⟩
  | cons c rest =>
    have piece : Stands t turns ⟨consumed, [c] ++ rest, m, 0⟩ := stands
    exact piece.onward (List.cons_ne_nil c []) trivial rfl

theorem Stands.nextMany (stands : Stands t turns s) (n : Nat) :
    Stands t (turns ++ [⟨.nextMany n, s⟩]) (Turn.stop ⟨.nextMany n, s⟩) := by
  obtain ⟨consumed, rest, m, before⟩ := s
  obtain rfl : before = 0 := stands.inside
  have kept : ¬ Turn.GivesBack ⟨.nextMany n, ⟨consumed, rest, m, 0⟩⟩ := fun gives => nomatch gives.1
  rcases Nat.eq_zero_or_pos n with rfl | positive
  · have noRead : ¬ Turn.IsRead ⟨.nextMany 0, ⟨consumed, rest, m, 0⟩⟩ := fun isRead => Nat.lt_irrefl 0 isRead.1
    exact ⟨rfl, stands.source, recalls_idle noRead kept stands.recalls, stands.held⟩
  rcases Nat.lt_or_ge rest.length n with short | fits
  -- past the end nothing has been read, though the place moves on to the end
  · have failed := nextMany_past short consumed m
    have noRead : ¬ Turn.IsRead ⟨.nextMany n, ⟨consumed, rest, m, 0⟩⟩ := by
      rintro ⟨-, ok⟩
      rw [Turn.fault?_of_error (.nextMany n) failed] at ok
      cases ok
    rw [Turn.stop_of_error (.nextMany n) failed]
    refine ⟨rfl, ?_, recalls_idle noRead kept stands.recalls, fun character empty => stands.held character ?_⟩
    · rw [← stands.source, Tokener.source, Tokener.source, List.reverse_append, List.reverse_reverse, List.append_nil]
    · exact (List.append_eq_nil_iff.mp empty).2
  · obtain ⟨piece, rest, rfl, rfl⟩ : ∃ piece rest', rest = piece ++ rest' ∧ n = piece.length :=
      ⟨rest.take n, rest.drop n, (List.take_append_drop n rest).symm, (List.length_take_of_le fits).symm⟩
    have ok := nextMany_of_le consumed (piece ++ rest) m (Nat.ne_of_gt positive) fits
    rw [List.take_left, List.drop_left] at ok
    have stop := Turn.stop_of_ok (.nextMany piece.length) ok
    rw [stop]
    exact stands.onward (List.ne_nil_of_length_pos positive) ⟨positive, Turn.fault?_of_ok (.nextMany piece.length) ok⟩ stop

/-! Stepping back. -/

/-- A step back is made by what is remembered, and it remembers nothing. -/
theorem back_cases (inside : s.before = 0) (held : s.memory = .character → s.consumed ≠ []) :
    (s.memory = .nothing ∧ s.back = .error (s.fault .secondStepBack) s) ∨
      ∃ s', s.back = .ok () s' ∧ s'.before = 0 ∧ s'.source = s.source ∧ s'.memory = .nothing ∧
        ((s.memory = .character ∧ s'.position = s.position - 1) ∨ (s.memory = .ending ∧ s'.position = s.position)) := by
  obtain ⟨consumed, rest, m, before⟩ := s
  cases inside
  cases m with
  | nothing => exact .inl ⟨rfl, rfl⟩
  | ending => exact .inr ⟨_, rfl, rfl, rfl, rfl, .inr ⟨rfl, rfl⟩⟩
  | character =>
    obtain ⟨c, consumed, rfl⟩ := List.exists_cons_of_ne_nil (held rfl)
    refine .inr ⟨_, rfl, rfl, ?_, rfl, .inl ⟨rfl, ?_⟩⟩
    · simp [source]
    · simp only [position, List.length_cons]
      omega

theorem Stands.back (stands : Stands t turns s) : Stands t (turns ++ [⟨.back, s⟩]) (Turn.stop ⟨.back, s⟩) := by
  obtain ⟨-, failed⟩ | ⟨s', ok, inside, source, nothing, -⟩ := back_cases stands.inside stands.held
  · have kept : ¬ Turn.GivesBack ⟨.back, s⟩ := by
      rintro ⟨-, ok⟩
      rw [Turn.fault?_of_error .back failed] at ok
      cases ok
    rw [Turn.stop_of_error .back failed]
    exact ⟨stands.inside, stands.source, recalls_idle id kept stands.recalls, stands.held⟩
  · have recalls : Recalls (turns ++ [⟨.back, s⟩]) .nothing := recalls_givenBack ⟨rfl, Turn.fault?_of_ok .back ok⟩
    rw [Turn.stop_of_ok .back ok]
    refine ⟨inside, source.trans stands.source, nothing ▸ recalls, fun character => ?_⟩
    rw [nothing] at character
    cases character

theorem Stands.moved (stands : Stands t turns s) (move : Move) :
    Stands t (turns ++ [⟨move, s⟩]) (Turn.stop ⟨move, s⟩) := by
  cases move with
  | next => exact stands.next
  | nextMany n => exact stands.nextMany n
  | back => exact stands.back

/-- How a turn follows those before it. Its places lie in the text. A step back succeeds just when something has been read
since the last one that did. It goes back by one character then, or by none if the latest read met the end, and otherwise
it fails and stays where it is. -/
structure Turn.IsDisciplined (t : Text) (turns : List Turn) (turn : Turn) : Prop where
  start : 0 ≤ turn.start.position ∧ turn.start.position ≤ t.length
  stop : 0 ≤ turn.stop.position ∧ turn.stop.position ≤ t.length
  succeeds : turn.move = .back → (turn.fault? = none ↔ HasRead turns)
  either : ∀ read, Pending turns read → (read.Consumes ∧ ¬ read.MeetsEnd) ∨ (¬ read.Consumes ∧ read.MeetsEnd)
  consumed : turn.move = .back → ∀ read, Pending turns read → read.Consumes →
    turn.stop.position = turn.start.position - 1
  ended : turn.move = .back → ∀ read, Pending turns read → read.MeetsEnd → turn.stop.position = turn.start.position
  refused : turn.move = .back → ¬ HasRead turns →
    turn.fault? = some (turn.start.fault .secondStepBack) ∧ turn.stop.position = turn.start.position

theorem Stands.isDisciplined (stands : Stands t turns s) (move : Move) : Turn.IsDisciplined t turns ⟨move, s⟩ := by
  have start := stands.position
  have stop := (stands.moved move).position
  have recalls := stands.recalls
  obtain ⟨m, failed⟩ | ⟨s', ok, -, -, -, ⟨m, lower⟩ | ⟨m, same⟩⟩ := back_cases stands.inside stands.held
  · rw [m] at recalls
    have never (read : Turn) {P : Prop} (pending : Pending turns read) : P := absurd pending (recalls read)
    refine ⟨start, stop, ?_, fun read pending => never read pending, fun _ read pending _ => never read pending,
      fun _ read pending _ => never read pending, ?_⟩
    · rintro ⟨⟩
      rw [Turn.fault?_of_error .back failed]
      exact iff_of_false nofun fun hasRead => not_exists.mpr recalls (hasRead_iff.mp hasRead)
    · rintro ⟨⟩ -
      rw [Turn.fault?_of_error .back failed, Turn.stop_of_error .back failed]
      exact ⟨rfl, rfl⟩
  · rw [m] at recalls
    obtain ⟨some, each⟩ := recalls
    rw [← hasRead_iff] at some
    refine ⟨start, stop, ?_, fun read pending => .inl (each read pending), ?_,
      fun _ read pending ended => absurd ended (each read pending).2, fun _ none => absurd some none⟩
    · rintro ⟨⟩
      exact iff_of_true (Turn.fault?_of_ok .back ok) some
    · rintro ⟨⟩ read - -
      rw [Turn.stop_of_ok .back ok]
      exact lower
  · rw [m] at recalls
    obtain ⟨some, each⟩ := recalls
    rw [← hasRead_iff] at some
    refine ⟨start, stop, ?_, fun read pending => .inr (each read pending),
      fun _ read pending consumes => absurd consumes (each read pending).1, ?_, fun _ none => absurd some none⟩
    · rintro ⟨⟩
      exact iff_of_true (Turn.fault?_of_ok .back ok) some
    · rintro ⟨⟩ read - -
      rw [Turn.stop_of_ok .back ok]
      exact same

/-! Turns taken one after another. -/

/-- From the beginning of a text these turns have led to this place, each from where the one before it has led. -/
inductive Led (t : Text) : List Turn → Tokener → Prop
  | start : Led t [] (ofText t)
  | turn {turns : List Turn} {s : Tokener} (led : Led t turns s) (move : Move) :
      Led t (turns ++ [⟨move, s⟩]) (Turn.stop ⟨move, s⟩)

theorem Led.stands (led : Led t turns s) : Stands t turns s := by
  induction led with
  | start => exact stands_ofText t
  | turn led move ih => exact ih.moved move

/-- Every turn is taken from the place to which those before it have led. -/
theorem Led.before (led : Led t turns s) {earlier later : List Turn} (split : turns = earlier ++ turn :: later) :
    Led t earlier turn.start := by
  induction led generalizing later with
  | start => cases earlier <;> cases split
  | @turn turns s led move ih =>
    rcases List.eq_nil_or_concat later with rfl | ⟨later, last, rfl⟩
    · obtain ⟨rfl, same⟩ := List.append_inj' split rfl
      cases same
      exact led
    · rw [List.concat_eq_append, ← List.cons_append, ← List.append_assoc] at split
      exact ih (List.append_inj' split rfl).1

theorem Led.isDisciplined (led : Led t turns s) {earlier later : List Turn} (split : turns = earlier ++ turn :: later) :
    turn.IsDisciplined t earlier :=
  (led.before split).stands.isDisciplined turn.move

end Tokener
end LenientJson
