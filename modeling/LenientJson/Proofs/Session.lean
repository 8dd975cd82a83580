import LenientJson.Proofs.Lenient.Parsing
import LenientJson.Proofs.Progress
import LenientJson.Proofs.Store.Call
import LenientJson.Shell.Session

/-! What fails leaves everything as it was: a call on a store, and a text given to a session. A text that can be
parsed at all holds nothing that the working object refuses, so that its members are never put in part. -/
namespace LenientJson

namespace Lenient

theorem MembersAt.requireFinite {t rest : Text} {members : List (Source × Source)} :
    MembersAt t members rest → ∀ member ∈ members, member.2.meaning.requireFinite = .ok ()
  | .last (.mk _ _ value) _ | .trailing (.mk _ _ value) _ _ _ => List.forall_mem_singleton.mpr value.requireFinite
  | .more (.mk _ _ value) _ _ others => List.forall_mem_cons.mpr ⟨value.requireFinite, others.requireFinite⟩

theorem requireFinite_of_parseObject {t : Text} {m : Members Tree} (ok : parseObject t = .ok m) :
    ∀ member ∈ m, member.2.requireFinite = .ok () := by
  obtain ⟨members, rest, derived, -, rfl⟩ := objectAt_of_parseObject ok
  rw [Source.memberMeanings_eq_map]
  refine List.forall_mem_map.mpr ?_
  cases derived with
  | empty _ _ => exact List.forall_mem_nil _
  | members _ inside => exact inside.requireFinite

end Lenient

namespace Session

theorem putAll_eq {members : Members Tree} (storable : ∀ member ∈ members, member.2.requireFinite = .ok ())
    (s : Session) : putAll members s = .ok () { s with document := s.document.merge members } := by
  induction members generalizing s with
  | nil => rfl
  | cons member rest ih =>
    obtain ⟨first, others⟩ := List.forall_mem_cons.mp storable
    have stored : put member.1 member.2 s = .ok () { s with document := s.document.insert member.1 member.2 } := by
      rw [put, first]
    simp only [putAll, Bind.bind, EStateM.bind, stored, ih others]
    rfl

/-- A text is merged into the working object as a whole, or it is no object and nothing happens. -/
theorem eval_eq (text : Text) (s : Session) : eval text s = match parseObject text with
    | .ok members => .ok members { s with document := s.document.merge members }
    | .error fault => .error fault s := by
  rw [eval]
  cases parsed : parseObject text with
  | error fault => rfl
  | ok members =>
    have put := putAll_eq (Lenient.requireFinite_of_parseObject parsed) s
    simp only [Bind.bind, EStateM.bind, put]
    rfl

end Session

/-- A call that fails leaves every container of the store as it was, with the same entries in the same order, and
a text that fails leaves the session as it was. -/
theorem failures_change_nothing :
    (∀ (call : Call) (st : Store) (fault : Fault) (st' : Store), call.act st = .error fault st' → st' = st) ∧
    (∀ (text : Text) (s : Session) (fault : Fault) (s' : Session), Session.eval text s = .error fault s' → s' = s) := by
  refine ⟨fun call st fault st' failed => Call.of_error failed, fun text s fault s' failed => ?_⟩
  rw [Session.eval_eq] at failed
  split at failed <;> cases failed
  rfl

end LenientJson
