import LenientJson.Proofs.Reading

/-! How far readers get, and how they fail. From a place inside a text a reader ends further on in the same
text, or it complains about the text in one of the ways of the grammar. -/
namespace LenientJson

/-- A reason that lies in the text: giving back twice lies in the reader. -/
def SyntaxReason.IsGrammatical : SyntaxReason → Prop
  | secondStepBack | other _ => False
  | _ => True

/-- What can be wrong with a text: its syntax, at a place inside it, or a key that is there twice. -/
inductive Complaint (t : Text) : Fault → Prop
  | malformed (place : Tokener) (inside : place.before = 0) (source : place.source = t)
      {reason : SyntaxReason} (grammatical : reason.IsGrammatical) : Complaint t (place.fault reason)
  | duplicate (key : Text) : Complaint t (.duplicateKey key)

namespace Tokener

/-- The place `s'` lies in the text of `s`, at least `n` characters further on. -/
structure Leads (n : Nat) (s s' : Tokener) : Prop where
  inside : s'.before = 0
  source : s'.source = s.source
  onward : s.consumed.length + n ≤ s'.consumed.length

variable {m n : Nat} {s s' s'' : Tokener}

theorem Leads.refl (inside : s.before = 0) : Leads 0 s s := ⟨inside, rfl, Nat.le_refl _⟩

theorem Leads.trans (first : Leads m s s') (second : Leads n s' s'') : Leads (m + n) s s'' :=
  ⟨second.inside, second.source.trans first.source, by
    have := first.onward
    have := second.onward
    omega⟩

theorem Leads.weaken (lead : Leads m s s') (less : n ≤ m) : Leads n s s' :=
  ⟨lead.inside, lead.source, by
    have := lead.onward
    omega⟩

/-- What has been read is no longer ahead. -/
theorem Leads.rest_length (lead : Leads n s s') : s'.rest.length + n ≤ s.rest.length := by
  have same := congrArg List.length lead.source
  simp only [Tokener.source, List.length_append, List.length_reverse] at same
  have := lead.onward
  omega

theorem Leads.position (lead : Leads n s s') (inside : s.before = 0) : s.position + n ≤ s'.position := by
  rw [Tokener.position, Tokener.position, inside, lead.inside]
  have := lead.onward
  omega

end Tokener

namespace Reader
open Tokener

variable {α β : Type} {m n : Nat} {s s' : Tokener}

/-- From `s` the reader gives a result that satisfies `P`, at least `n` characters further on, or it
complains about the text. -/
def Proceeds (n : Nat) (P : α → Prop) (r : Reader α) (s : Tokener) : Prop :=
  match r s with
  | .ok a s' => Leads n s s' ∧ P a
  | .error fault _ => Complaint s.source fault

theorem Proceeds.of_ok {P : α → Prop} {r : Reader α} (proceeds : Proceeds n P r s) {a : α}
    (ok : r s = .ok a s') : Leads n s s' ∧ P a := by
  rw [Proceeds, ok] at proceeds
  exact proceeds

theorem Proceeds.complaint {P : α → Prop} {r : Reader α} (proceeds : Proceeds n P r s) {fault : Fault}
    (failed : r s = .error fault s') : Complaint s.source fault := by
  rw [Proceeds, failed] at proceeds
  exact proceeds

theorem Proceeds.weaken {P : α → Prop} {r : Reader α} (proceeds : Proceeds m P r s) (less : n ≤ m) :
    Proceeds n P r s := by
  rw [Proceeds] at proceeds ⊢
  split
  · next ok =>
    rw [ok] at proceeds
    exact ⟨proceeds.1.weaken less, proceeds.2⟩
  · next failed =>
    rw [failed] at proceeds
    exact proceeds

/-- A reader that does at `s` what another one does further on. -/
theorem Proceeds.from {P : α → Prop} {r r' : Reader α} (lead : Leads m s s') (same : r s = r' s')
    (proceeds : Proceeds (n - m) P r' s') : Proceeds n P r s := by
  rw [Proceeds] at proceeds ⊢
  rw [same]
  split
  · next ok =>
    rw [ok] at proceeds
    exact ⟨(lead.trans proceeds.1).weaken (by omega), proceeds.2⟩
  · next failed =>
    rw [failed, lead.source] at proceeds
    exact proceeds

theorem Proceeds.bind {P : α → Prop} {Q : β → Prop} {r : Reader α} {k : α → Reader β}
    (first : Proceeds m P r s) (second : ∀ a s', Leads m s s' → P a → Proceeds (n - m) Q (k a) s') :
    Proceeds n Q (r >>= k) s := by
  cases run : r s with
  | ok a s' =>
    obtain ⟨lead, holds⟩ := first.of_ok run
    exact .from lead (bind_apply run) (second a s' lead holds)
  | error fault s' =>
    rw [Proceeds, bind_failed k run]
    exact first.complaint run

theorem proceeds_pure {P : α → Prop} (inside : s.before = 0) {a : α} (holds : P a) :
    Proceeds 0 P (pure a) s := ⟨.refl inside, holds⟩

theorem proceeds_fail (P : α → Prop) (inside : s.before = 0) {reason : SyntaxReason}
    (grammatical : reason.IsGrammatical) : Proceeds n P (fail reason) s :=
  Complaint.malformed s inside rfl grammatical

theorem proceeds_addNew (inside : s.before = 0) (read : Members Tree) (key : Text) (v : Tree) :
    Proceeds 0 (fun _ => True) (lift (read.addNew key v)) s := by
  rw [Members.addNew]
  split
  · exact Complaint.duplicate key
  · exact proceeds_pure inside trivial

/-! What each reader does at least. -/

theorem proceeds_next (inside : s.before = 0) : Proceeds 0 (fun _ => True) next s := by
  obtain ⟨consumed, t, m, before⟩ := s
  cases inside
  cases t with
  | nil => exact ⟨⟨rfl, rfl, Nat.le_refl _⟩, trivial⟩
  | cons c t => exact ⟨⟨rfl, by simp [source], Nat.le_succ _⟩, trivial⟩

theorem proceeds_nextMany {n : Nat} (hn : n ≠ 0) (inside : s.before = 0) :
    Proceeds 0 (fun _ => True) (nextMany n) s := by
  obtain ⟨consumed, t, m, before⟩ := s
  cases inside
  rcases Nat.lt_or_ge t.length n with past | fits
  · rw [Proceeds, nextMany_past past consumed m]
    exact .malformed _ rfl (by simp [source]) trivial
  · rw [Proceeds, nextMany_of_le consumed t m hn fits]
    refine ⟨⟨rfl, ?_, ?_⟩, trivial⟩
    · simp [source]
    · simp

theorem proceeds_escape (inside : s.before = 0) : Proceeds 0 (fun _ => True) escape s := by
  refine (proceeds_next inside).bind fun x s' lead _ => ?_
  cases x with
  | none => exact proceeds_pure lead.inside trivial
  | some c =>
    dsimp only
    split
    · exact (proceeds_nextMany (by decide : 4 ≠ 0) lead.inside).bind fun _ _ lead _ => proceeds_pure lead.inside trivial
    · exact proceeds_pure lead.inside trivial

theorem proceeds_stringWithin (mark : Option CodePoint) (limit : Nat) (read : List CodePoint)
    (inside : s.before = 0) : Proceeds 0 (fun _ => True) (stringWithin mark limit read) s := by
  have unterminated {s : Tokener} (inside : s.before = 0) :
      Proceeds 0 (fun _ => True) (fail .unterminatedString : Reader Text) s :=
    proceeds_fail _ inside trivial
  induction limit generalizing read s with
  | zero => exact unterminated inside
  | succ limit ih =>
    refine (proceeds_next inside).bind fun x s' lead _ => ?_
    cases x with
    | none => exact unterminated lead.inside
    | some c =>
      dsimp only
      split
      · exact unterminated lead.inside
      split
      · refine (proceeds_escape lead.inside).bind fun meaning s'' lead _ => ?_
        cases meaning with
        | none => exact proceeds_fail _ lead.inside trivial
        | some meaning => exact ih _ lead.inside
      split
      · exact proceeds_pure lead.inside trivial
      · exact ih _ lead.inside

theorem proceeds_nextString (mark : Option CodePoint) (inside : s.before = 0) :
    Proceeds 0 (fun _ => True) (nextString mark) s :=
  proceeds_stringWithin mark (s.ahead + 1) [] inside

/-- Looking at the next significant character never fails, and it can be given back. -/
theorem exists_nextClean (inside : s.before = 0) : ∃ x s₁ s₂, nextClean s = .ok x s₁ ∧
    back s₁ = .ok () s₂ ∧ Leads 0 s s₂ ∧ Leads x.toList.length s s₁ := by
  obtain ⟨consumed, t, m, before⟩ := s
  cases inside
  rcases blank_or_mark t with low | ⟨c, rest, high, blanks, low, rfl⟩
  · refine ⟨none, _, _, nextClean_blanks low consumed m, rfl, ?_, ?_⟩ <;>
      exact ⟨rfl, by simp [source], by simp⟩
  · refine ⟨some c, _, _, nextClean_mark low high rest consumed m, rfl, ?_, ?_⟩ <;>
      exact ⟨rfl, by simp [source], by simp⟩

theorem isAdmissible_inferred (word : Text) : (inferred word).isAdmissible = true := by
  rw [inferred]
  split
  · rfl
  split
  · rfl
  split
  · rfl
  rw [inferNumber?]
  split
  · rfl
  split
  · rw [inferFloat?]
    split
    · rfl
    split
    · split
      · next finite => exact finite
      · rfl
    · rfl
  · rw [inferInteger?]
    split
    · split <;> rfl
    · rfl

theorem Proceeds.step {P : β → Prop} {r : Reader α} {k : α → Reader β} {a : α} (lead : Leads m s s')
    (ok : r s = .ok a s') (proceeds : Proceeds (n - m) P (k a) s') : Proceeds n P (r >>= k) s :=
  .from lead (bind_apply ok) proceeds

/-- What is looked at and given back is passed over. -/
theorem Proceeds.peek {P : α → Prop} {s₁ s₂ : Tokener} {x : Option CodePoint} (first : nextClean s = .ok x s₁)
    (given : back s₁ = .ok () s₂) (held : Leads 0 s s₂) {k : Option CodePoint → Reader α} {r : Reader α}
    (after : k x = back >>= fun _ => r) (proceeds : Proceeds n P r s₂) : Proceeds n P (nextClean >>= k) s :=
  .from held (by rw [bind_apply first, after, bind_apply given]) proceeds

theorem proceeds_bareWord (inside : s.before = 0) :
    Proceeds 1 (fun leaf => leaf.isAdmissible = true) (next >>= bareWord) s := by
  obtain ⟨consumed, t, m, before⟩ := s
  cases inside
  obtain ⟨run, rest, rfl, bare, longest⟩ := exists_bareRun t
  have lead : Leads run.length ⟨consumed, run ++ rest, m, 0⟩ ⟨run.reverse ++ consumed, rest, .nothing, 0⟩ :=
    ⟨rfl, by simp [source], by simp; omega⟩
  refine .from lead (bareWord_apply bare longest consumed m) ?_
  split
  · exact proceeds_fail _ rfl trivial
  · next named =>
    have nonempty : run.length ≠ 0 := by
      rintro empty
      rw [List.length_eq_zero_iff.mp empty] at named
      exact named rfl
    exact (proceeds_pure rfl (isAdmissible_inferred _)).weaken (by omega)

end Reader
end LenientJson
