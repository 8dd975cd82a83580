import LenientJson.Parser
import LenientJson.Proofs.Tokener.Move

/-! The moves that readers make, one after another. The turns of a reader, those of the readers that it calls included,
are read off it with its result. So the turns of any requests are one history, in which every turn obeys the rules of
the moves. -/
namespace LenientJson

namespace Reader
open Tokener

variable {α : Type}

/-- The turns that are taken from a place. -/
def turns : Reader α → Tokener → List Turn
  | gives _, _ | fails _, _ => []
  | look further, s => (further s).turns s
  | make move further, s => ⟨move, s⟩ ::
    match move.act s with
    | .ok answer s' => (further answer).turns s'
    | .error _ _ => []

/-- The turns of a reader lead to the place that it leaves. -/
theorem led_turns (r : Reader α) {t : Text} {before : List Turn} {s : Tokener} (led : Led t before s) :
    Led t (before ++ r.turns s) (reached (r s)) := by
  induction r generalizing before s with
  | gives a => rwa [turns, List.append_nil]
  | fails fault => rwa [turns, List.append_nil]
  | look further ih => exact ih s led
  | make move further ih =>
    have made := led.turn move
    rw [turns, Reader.run]
    cases run : move.act s with
    | ok answer s' =>
      rw [Turn.stop_of_ok move run] at made
      have further := ih answer made
      rwa [List.append_assoc] at further
    | error fault s' => rwa [Turn.stop_of_error move run] at made

end Reader

namespace Tokener

/-! Requests, one after another. -/

inductive Request
  | next
  | nextClean
  | nextMany (n : Nat)
  | nextString (mark : Option CodePoint)
  | nextValue
  | back

namespace Request

abbrev Answer : Request → Type
  | next | nextClean => Option CodePoint
  | nextMany _ | nextString _ => Text
  | nextValue => Tree
  | back => Unit

def reader : (request : Request) → Reader request.Answer
  | next => Reader.next
  | nextClean => Reader.nextClean
  | nextMany n => Reader.nextMany n
  | nextString mark => Reader.nextString mark
  | nextValue => Reader.nextValue
  | back => Reader.back

end Request

/-- The place that is left by requests of which some may fail. -/
def run (s : Tokener) (requests : List Request) : Tokener :=
  requests.foldl (fun s request => reached (request.reader s)) s

/-- All turns of these requests. -/
def history : Tokener → List Request → List Turn
  | _, [] => []
  | s, request :: rest => request.reader.turns s ++ history (reached (request.reader s)) rest

theorem led_history {t : Text} {before : List Turn} {s : Tokener} (led : Led t before s) (requests : List Request) :
    Led t (before ++ history s requests) (run s requests) := by
  induction requests generalizing before s with
  | nil => rwa [history, List.append_nil]
  | cons request rest ih =>
    have further := ih (request.reader.led_turns led)
    rwa [List.append_assoc] at further

/-- Whatever a tokener is asked for, the turns of all requests, nested ones included, lead from the beginning of the text to
the place that is left, which lies in the text, and each of them keeps the discipline. -/
theorem history_isDisciplined (t : Text) (requests : List Request) :
    Led t (history (ofText t) requests) (run (ofText t) requests) ∧
      (0 ≤ (run (ofText t) requests).position ∧ (run (ofText t) requests).position ≤ t.length) ∧
      ∀ earlier turn later, history (ofText t) requests = earlier ++ turn :: later → turn.IsDisciplined t earlier := by
  have led : Led t (history (ofText t) requests) (run (ofText t) requests) := led_history .start requests
  exact ⟨led, led.stands.position, fun earlier turn later split => led.isDisciplined split⟩

/-- A bare word has given back what comes after it, so that nothing is left to give back. -/
example : (history (ofText (Text.ofString "a,")) [.nextValue, .back]).map Turn.fault? =
    [none, none, none, some (.malformed .secondStepBack 1 1 2)] := by
  cbv

end Tokener
end LenientJson
