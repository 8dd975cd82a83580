import LenientJson.Proofs.Host.Parts

/-! What gets into the objects that are made of host values. An entry takes one of several ways into an object, but its
document is always that of a value, and it is checked before. So a property of all documents that the digests give is one
of all members. -/
namespace LenientJson

theorem Fault.bind_eq_ok {α β : Type} {attempt : Except Fault α} {k : α → Except Fault β} {b : β} :
    attempt >>= k = .ok b ↔ ∃ a, attempt = .ok a ∧ k a = .ok b := by
  cases attempt with
  | ok a => simp only [Bind.bind, Except.bind, Except.ok.injEq, exists_eq_left']
  | error fault => simp only [Bind.bind, Except.bind, reduceCtorEq, false_and, exists_false]

variable {P : Draft → Prop}

/-- Fit to be a member. -/
def Value.IsMember (v : Draft) : Prop := v.requireFinite = .ok ()

/-- A member with a property. -/
def Value.IsMemberWith (P : Draft → Prop) (v : Draft) : Prop := v.IsMember ∧ P v

/-- The documents of the entries have a property. -/
def Entry.Give (P : Draft → Prop) (entries : List Entry) : Prop :=
  ∀ entry ∈ entries, ∀ v, entry.document? = some v → P v

/-- The documents in a digest have a property. -/
structure Digest.Gives (P : Draft → Prop) (digest : Digest) : Prop where
  document : ∀ v, digest.document? = some v → P v
  entries : ∀ entries, digest.entries? = some entries → Entry.Give P entries

theorem Digest.Gives.ofDocument {v : Draft} (fit : P v) {isAbsent : Bool} : Digest.Gives P ⟨isAbsent, some v, none⟩ where
  document _ same := Option.some.inj same ▸ fit
  entries _ none := nomatch none

theorem Members.IsMapTo.putIfAny {m : Members Draft} (map : m.IsMapTo (Value.IsMemberWith P)) (key : Text)
    {document? : Option Draft} (fit : ∀ v, document? = some v → P v) :
    (m.putIfAny key document?).IsMapTo (Value.IsMemberWith P) := by
  rw [Members.putIfAny.eq_def]
  split
  · next v =>
    split
    · next finite => exact map.insert key ⟨finite, fit v rfl⟩
    · exact map
  · exact map

namespace Entry

variable {entries : List Entry} {m m' : Members Draft}

theorem isMapTo_of_putAll (give : Give P entries) (map : m.IsMapTo (Value.IsMemberWith P))
    (ok : putAll entries m = .ok m') : m'.IsMapTo (Value.IsMemberWith P) := by
  induction entries generalizing m with
  | nil => exact Except.ok.inj ok ▸ map
  | cons entry rest ih =>
    obtain ⟨first, others⟩ := List.forall_mem_cons.mp give
    rw [putAll] at ok
    split at ok
    · exact ih others map ok
    · obtain ⟨key, -, ok⟩ := Fault.bind_eq_ok.mp ok
      split at ok
      · exact ih others (map.erase key) ok
      · next v has =>
        obtain ⟨_, finite, ok⟩ := Fault.bind_eq_ok.mp ok
        exact ih others (map.insert key ⟨finite, first v has⟩) ok

theorem isMapTo_of_putPossible (give : Give P entries) (map : m.IsMapTo (Value.IsMemberWith P))
    (ok : putPossible entries m = .ok m') : m'.IsMapTo (Value.IsMemberWith P) := by
  induction entries generalizing m with
  | nil => exact Except.ok.inj ok ▸ map
  | cons entry rest ih =>
    obtain ⟨first, others⟩ := List.forall_mem_cons.mp give
    rw [putPossible] at ok
    split at ok
    · exact ih others map ok
    · obtain ⟨key, -, ok⟩ := Fault.bind_eq_ok.mp ok
      exact ih others (map.putIfAny key first) ok

end Entry

namespace UserObject

variable {u : UserObject Digest} {m : Members Draft}

theorem mem_values_of_accessors {α : Type} {u : UserObject α} {accessor : Text × α} (found : accessor ∈ u.accessors) :
    accessor.2 ∈ u.values := by
  obtain ⟨name, -, found⟩ := List.mem_filterMap.mp found
  split at found <;> cases found
  next means => exact mem_values_of_attribute? means List.mem_cons_self

theorem isMapTo_ofAccessors (give : ∀ digest ∈ u.values, digest.Gives P) :
    u.ofAccessors.IsMapTo (Value.IsMemberWith P) := by
  apply List.foldlRecOn u.accessors _ Members.isMapTo_nil
  intro m map accessor found
  split
  · exact map
  · exact map.putIfAny _ (give _ (mem_values_of_accessors found)).document

theorem give_fieldEntries (give : ∀ digest ∈ u.values, digest.Gives P) (names : List Text) :
    Entry.Give P (u.fieldEntries names) := by
  intro entry found
  obtain ⟨name, -, found⟩ := List.mem_filterMap.mp found
  split at found <;> cases found
  next means => exact (give _ (mem_values_of_attribute? means List.mem_cons_self)).document

theorem mem_values_of_call {α : Type} {u : UserObject α} {name : Text} {a : α} (ok : u.call name = .ok a) :
    a ∈ u.values := by
  rw [call] at ok
  split at ok <;> cases ok
  next means => exact mem_values_of_attribute? means List.mem_cons_self

theorem isMapTo_of_ofEntries {digest : Digest} (gives : digest.Gives P) (ok : ofEntries digest = .ok m) :
    m.IsMapTo (Value.IsMemberWith P) := by
  rw [ofEntries] at ok
  split at ok
  · next entries has => exact Entry.isMapTo_of_putPossible (gives.entries entries has) Members.isMapTo_nil ok
  · cases ok

theorem isMapTo_of_ofListing (give : ∀ digest ∈ u.values, digest.Gives P) (ok : u.ofListing = .ok m) :
    m.IsMapTo (Value.IsMemberWith P) := by
  rw [ofListing] at ok
  split at ok
  · obtain ⟨listing, called, ok⟩ := Fault.bind_eq_ok.mp ok
    split at ok
    · exact Except.ok.inj ok ▸ isMapTo_ofAccessors give
    · exact isMapTo_of_ofEntries (give listing (mem_values_of_call called)) ok
  split at ok
  · exact Entry.isMapTo_of_putPossible (give_fieldEntries give _) Members.isMapTo_nil ok
  · exact Except.ok.inj ok ▸ isMapTo_ofAccessors give

theorem isMapTo_of_reflected (give : ∀ digest ∈ u.values, digest.Gives P) (ok : u.reflected = .ok m) :
    m.IsMapTo (Value.IsMemberWith P) := by
  rw [reflected] at ok
  split at ok
  · cases ok
  · next listing gives =>
    split at ok
    · exact isMapTo_of_ofListing give ok
    · have inside : listing ∈ u.values := mem_values.mpr (.inl ⟨_, gives, List.mem_cons_self⟩)
      exact isMapTo_of_ofEntries (give listing inside) ok
  · exact isMapTo_of_ofListing give ok

end UserObject

theorem Host.give_entryDigests {view : Link → Sight} {entries : List (Host × Host)}
    (give : ∀ entry ∈ entries, ∀ v, entry.2.wrap view = some v → P v) : Entry.Give P (entryDigests view entries) := by
  rw [entryDigests_eq_map]
  exact List.forall_mem_map.mpr give

end LenientJson
