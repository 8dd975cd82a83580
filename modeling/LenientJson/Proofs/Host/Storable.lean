import LenientJson.Proofs.Host.Digest

/-! Values that may be held. What the containers hold that a value refers to counts for nothing but the text of a key: a
tuple that is a key shows the literals of its elements, and the literal of a container may fail at one time and not at
another. A mapping without such keys may be held at any time if it may be held once. -/
namespace LenientJson

namespace Entry

/-- An entry that does not keep a mapping from being stored. -/
def IsPuttable (entry : Entry) : Prop :=
  entry.isAbsent = true ∨ (∃ key, entry.key = .ok key) ∧ ∀ v, entry.document? = some v → v.requireFinite = .ok ()

theorem exists_putAll_iff {entries : List Entry} {m : Members Draft} :
    (∃ m', putAll entries m = .ok m') ↔ ∀ entry ∈ entries, entry.IsPuttable := by
  induction entries generalizing m with
  | nil => exact iff_of_true ⟨m, rfl⟩ (List.forall_mem_nil _)
  | cons entry rest ih =>
    obtain ⟨key, isAbsent, document?⟩ := entry
    rw [List.forall_mem_cons, putAll, IsPuttable]
    cases isAbsent with
    | true => exact ih.trans (and_iff_right (.inl rfl)).symm
    | false =>
      cases key with
      | error fault => simp [Bind.bind, Except.bind]
      | ok key =>
        cases document? with
        | none => simpa [Bind.bind, Except.bind] using ih
        | some v => cases finite : v.requireFinite <;> simp [Bind.bind, Except.bind, ih, finite]

end Entry

namespace Host

variable {view : Link → Sight} {h : Host}

theorem isAbsent_digest (view : Link → Sight) (h : Host) : (digest view h).isAbsent = h.isAbsent := by
  cases h with
  | scalar leaf =>
    cases leaf with
    | foreign face =>
      rw [digest, Digest.ofScalar]
      split <;> rfl
    | _ => rfl
  | user u =>
    rw [digest, Digest.ofUser]
    split <;> rfl
  | _ => rfl

/-- A value that has its text, or has none, whatever containers hold: one that shows no literals of others. -/
def isSteady : Host → Bool
  | sequence .. | mapping _ => false
  | _ => true

theorem exists_plain (steady : h.isSteady = true) (view' : Link → Sight) (plain : ∃ t, h.plain view = .ok t) :
    ∃ t, h.plain view' = .ok t := by
  cases h with
  | scalar | user | absent => exact plain
  | link target => exact ⟨_, rfl⟩
  | sequence | mapping => cases steady

/-- Only a leaf can be a document that must not be held. -/
theorem finite_wrap (view' : Link → Sight) (finite : ∀ v, wrap view h = some v → v.requireFinite = .ok ()) :
    ∀ v, wrap view' h = some v → v.requireFinite = .ok () := by
  intro v wrapped
  cases h with
  | scalar leaf => exact finite v wrapped
  | absent | link | sequence =>
    cases wrapped
    rfl
  | mapping entries =>
    obtain ⟨members, -, rfl⟩ := Option.map_eq_some_iff.mp wrapped
    rfl
  | user u =>
    rw [wrap, digest, Digest.ofUser] at wrapped
    split at wrapped
    · next stays =>
      cases wrapped
      refine finite _ ?_
      rw [wrap, digest, Digest.ofUser, if_pos stays]
      rfl
    · obtain ⟨members, -, rfl⟩ := Option.map_eq_some_iff.mp wrapped
      rfl

/-- A value that may be held at any time, whatever the containers that it refers to hold then. -/
def IsStorable (h : Host) : Prop := ∀ view, ∃ v, h.stored view = .ok (some v)

/-- A value that may be held once may be held at any time, if no key of it shows the literals of others. -/
theorem isStorable_of_stored (steady : ∀ entries, h = .mapping entries → ∀ entry ∈ entries, entry.1.isSteady = true)
    (stored : ∃ v, h.stored view = .ok (some v)) : h.IsStorable := by
  intro view'
  cases h with
  | mapping entries =>
    obtain ⟨v, stored⟩ := stored
    obtain ⟨members, put, -⟩ := Fault.bind_eq_ok.mp stored
    -- of each entry only its key may change its text, and no document of it changes whether it may be held
    have puttable := Entry.exists_putAll_iff.mp ⟨members, put⟩
    rw [entryDigests_eq_map, List.forall_mem_map] at puttable
    obtain ⟨members', put'⟩ : ∃ m, Entry.putAll (entryDigests view' entries) [] = .ok m := by
      rw [Entry.exists_putAll_iff, entryDigests_eq_map, List.forall_mem_map]
      intro entry member
      rcases puttable entry member with absent | ⟨named, finite⟩
      · left
        rwa [isAbsent_digest] at absent ⊢
      · exact .inr ⟨exists_plain (steady entries rfl entry member) view' named, finite_wrap view' finite⟩
    exact ⟨.object members', Fault.bind_eq_ok.mpr ⟨members', put', rfl⟩⟩
  | absent | scalar | user => exact stored
  | link | sequence => exact ⟨_, rfl⟩

theorem requireFinite_of_stored {v : Draft} (stored : h.stored view = .ok (some v)) : h.requireFinite = .ok () := by
  cases h with
  | scalar leaf | user u =>
    obtain ⟨_, finite, -⟩ := Fault.bind_eq_ok.mp stored
    exact finite
  | _ => rfl

end Host
end LenientJson
