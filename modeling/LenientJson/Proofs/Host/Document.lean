import LenientJson.Proofs.Host.Digest

/-! What the documents made of host values hold. Members are checked one by one, the elements of an array are
not: the numbers that JSON lacks get into a document as elements of lists, tuples and sets, and in no other
way. `source` says which leaves stand there. -/
namespace LenientJson

variable {source : Scalar → Prop}

/-- Numbers that JSON may lack and that become elements as they are: binary64 numbers, and user objects that are leaves
as they stand. -/
def Scalar.isUnchecked : Scalar → Bool
  | float _ => true
  | foreign face => face.isLeaf
  | _ => false

/-- A leaf that can be an element: a number that JSON lacks must be one of the listed ones. -/
def Scalar.IsListed (source : Scalar → Prop) (leaf : Scalar) : Prop :=
  leaf.isAdmissible = true ∨ leaf.isUnchecked = true ∧ source leaf

namespace Value

/-- Fit to be an element. -/
def IsElement (source : Scalar → Prop) : Draft → Prop
  | .scalar leaf => leaf.IsListed source
  | _ => True

/-- At every level keys differ, members are fit to be members and elements to be elements. -/
inductive IsSound (source : Scalar → Prop) : Draft → Prop
  | scalar (leaf : Scalar) : IsSound source (.scalar leaf)
  | link (target : Link) : IsSound source (.link target)
  | object {members : Members Draft} (distinct : members.keys.Nodup) (fit : ∀ member ∈ members, member.2.IsMember)
    (sound : ∀ member ∈ members, IsSound source member.2) : IsSound source (.object members)
  | array {elements : List (Option Draft)} (fit : ∀ v, some v ∈ elements → v.IsElement source)
    (sound : ∀ v, some v ∈ elements → IsSound source v) : IsSound source (.array elements)

theorem isMember_scalar {leaf : Scalar} : IsMember (.scalar leaf) ↔ leaf.isAdmissible = true := by
  rw [IsMember, requireFinite, Scalar.requireFinite]
  split
  · next admissible => exact iff_of_true rfl admissible
  · next inadmissible => exact iff_of_false (fun ok => nomatch ok) inadmissible

theorem IsMember.isElement {v : Draft} (fit : v.IsMember) : v.IsElement source := by
  cases v with
  | scalar leaf => exact .inl (isMember_scalar.mp fit)
  | object _ | array _ | link _ => trivial

/-- A document that an object can hold. -/
def IsHeld (source : Scalar → Prop) : Draft → Prop := IsMemberWith (IsSound source)

theorem IsSound.ofMembers {members : Members Draft} (map : members.IsMapTo (IsHeld source)) :
    IsSound source (.object members) := by
  apply IsSound.object map.distinct
  · intro member inside
    exact (map.each member inside).1
  · intro member inside
    exact (map.each member inside).2

theorem IsSound.ofElements {elements : List (Option Draft)} (held : ∀ v, some v ∈ elements → v.IsHeld source) :
    IsSound source (.array elements) := by
  apply IsSound.array
  · intro v inside
    exact (held v inside).1.isElement
  · intro v inside
    exact (held v inside).2

end Value

namespace Digest

theorem gives_ofMembers {attempt : Except Fault (Members Draft)} {entries? : Option (List Entry)} {isAbsent : Bool}
    (map : ∀ m, attempt = .ok m → m.IsMapTo (Value.IsHeld source))
    (give : ∀ entries, entries? = some entries → Entry.Give (Value.IsSound source) entries) :
    Gives (Value.IsSound source) ⟨isAbsent, attempt.toOption.map .object, entries?⟩ where
  document v has := by
    obtain ⟨m, ok, rfl⟩ := Option.map_eq_some_iff.mp has
    cases attempt with
    | ok m' => exact .ofMembers (map m (Option.some.inj ok ▸ rfl))
    | error fault => cases ok
  entries := give

theorem gives_ofScalar (leaf : Scalar) : (ofScalar leaf).Gives (Value.IsSound source) := by
  rw [ofScalar.eq_def]
  split
  · next octets =>
    have octet (v : Draft) (found : some v ∈ octets.map fun octet : Nat => some (Value.scalar (.int octet))) :
        ∃ n : Nat, v = .scalar (.int n) := by
      obtain ⟨n, -, same⟩ := List.mem_map.mp found
      exact ⟨n, (Option.some.inj same).symm⟩
    apply Gives.ofDocument
    apply Value.IsSound.array <;> intro v found <;> obtain ⟨n, rfl⟩ := octet v found
    · exact .inl rfl
    · exact .scalar _
  · exact .ofDocument (.scalar _)
  · refine ⟨fun v has => ?_, fun _ none => nomatch none⟩
    obtain ⟨t, -, rfl⟩ := Option.map_eq_some_iff.mp has
    exact .scalar _
  · exact .ofDocument (.scalar _)
  · split
    · exact .ofDocument (.scalar _)
    · exact .ofDocument (.ofMembers Members.isMapTo_nil)
  · exact .ofDocument (.scalar _)

theorem gives_ofUser {u : UserObject Digest} (give : ∀ digest ∈ u.values, digest.Gives (Value.IsSound source)) :
    (ofUser u).Gives (Value.IsSound source) := by
  rw [ofUser]
  split
  · exact .ofDocument (.scalar _)
  · exact gives_ofMembers (fun m => UserObject.isMapTo_of_reflected give) fun _ none => nomatch none

end Digest

namespace Host

variable {view : Link → Sight}

/-- A value that may stand in a list: neither is it a number that is not of the source, nor are those inside. -/
structure IsElementary (source : Scalar → Prop) (h : Host) : Prop where
  draws : h.Draws source
  listed : ∀ leaf, h.leaf? = some leaf → leaf.isUnchecked = true → leaf.IsListed source

theorem isElementary_scalar {leaf : Scalar} (listed : leaf.IsListed source) : (Host.scalar leaf).IsElementary source where
  draws := draws_scalar leaf
  listed _ same _ := Option.some.inj same ▸ listed

theorem Draws.isElementary {kind : SequenceKind} {elements : List Host} (draws : (sequence kind elements).Draws source) :
    ∀ h ∈ elements, h.IsElementary source := by
  intro h inside
  refine ⟨draws.part inside, fun leaf is unchecked => ?_⟩
  exact .inr ⟨unchecked, draws leaf (.element inside is)⟩

theorem IsElementary.isElement_wrap {h : Host} (elementary : h.IsElementary source) {v : Draft}
    (wrapped : h.wrap view = some v) : v.IsElement source := by
  cases h with
  | absent => cases wrapped; exact .inl rfl
  | link target => cases wrapped; trivial
  | sequence kind elements => cases wrapped; trivial
  | mapping entries =>
    obtain ⟨m, -, rfl⟩ := Option.map_eq_some_iff.mp wrapped
    trivial
  | scalar leaf =>
    rw [wrap, digest, Digest.ofScalar.eq_def] at wrapped
    split at wrapped
    -- Here a leaf stays as it is, and of these only a float can be a number that JSON lacks.
    case h_6 _ other _ _ foreign =>
      cases wrapped
      cases leaf with
      | float d => exact elementary.listed _ rfl rfl
      | decimal d => exact (other d rfl).elim
      | foreign face => exact (foreign face rfl).elim
      | _ => exact .inl rfl
    case h_5 face =>
      split at wrapped <;> cases wrapped
      · next stays => exact elementary.listed _ rfl stays
      · trivial
    case h_3 =>
      obtain ⟨t, -, rfl⟩ := Option.map_eq_some_iff.mp wrapped
      exact .inl rfl
    all_goals cases wrapped; first | trivial | exact .inl rfl
  | user u =>
    rw [wrap, digest, Digest.ofUser] at wrapped
    split at wrapped
    · next stays =>
      cases wrapped
      exact elementary.listed _ rfl stays
    · obtain ⟨m, -, rfl⟩ := Option.map_eq_some_iff.mp wrapped
      trivial

theorem isSound_documents {elements : List Host} (elementary : ∀ h ∈ elements, h.IsElementary source)
    (give : ∀ h ∈ elements, (digest view h).Gives (Value.IsSound source)) :
    Value.IsSound source (.array (documents view elements)) := by
  rw [documents_eq_map]
  apply Value.IsSound.array <;> intro v found <;> obtain ⟨h, inside, wrapped⟩ := List.mem_map.mp found
  · exact (elementary h inside).isElement_wrap wrapped
  · exact (give h inside).document v wrapped

theorem gives_digest (h : Host) (draws : h.Draws source) : (digest view h).Gives (Value.IsSound source) := by
  -- A digest is made of the digests of the parts, through however many functions they come.
  have parts {part : Host} (inside : part ∈ h.parts) : (digest view part).Gives (Value.IsSound source) := by
    have smaller := sizeOf_lt_of_mem_parts inside
    exact gives_digest part (draws.part inside)
  match h with
  | .absent => exact .ofDocument (.scalar _)
  | .scalar leaf => exact Digest.gives_ofScalar leaf
  | .link target => exact .ofDocument (.link target)
  | .sequence kind elements =>
    rw [digest]
    exact .ofDocument (isSound_documents draws.isElementary fun _ => parts)
  | .mapping entries =>
    have give : Entry.Give (Value.IsSound source) (entryDigests view entries) :=
      give_entryDigests fun entry inside => (parts (List.mem_map_of_mem inside)).document
    rw [digest]
    exact Digest.gives_ofMembers (fun _ => Entry.isMapTo_of_putAll give Members.isMapTo_nil)
      fun _ same => Option.some.inj same ▸ give
  | .user u =>
    have give : ∀ digest ∈ (userDigest view u).values, digest.Gives (Value.IsSound source) := by
      rw [values_userDigest]
      exact List.forall_mem_map.mpr fun _ inside => parts inside
    exact Digest.gives_ofUser give
termination_by sizeOf h

/-- A value in the form in which a container holds it. -/
theorem isHeld_of_stored {h : Host} (draws : h.Draws source) {document : Option Draft}
    (ok : h.stored view = .ok document) (v : Draft) (is : document = some v) : v.IsHeld source := by
  subst is
  cases h with
  | absent => cases ok
  | link target => cases ok; exact ⟨rfl, .link target⟩
  | scalar leaf | user u =>
    obtain ⟨_, finite, ok⟩ := Fault.bind_eq_ok.mp ok
    cases ok
    exact ⟨finite, .scalar _⟩
  | sequence kind elements =>
    cases ok
    have digested : (digest view (.sequence kind elements)).Gives (Value.IsSound source) := gives_digest _ draws
    exact ⟨rfl, digested.document _ rfl⟩
  | mapping entries =>
    obtain ⟨m, put, ok⟩ := Fault.bind_eq_ok.mp ok
    cases ok
    have digested : (digest view (.mapping entries)).Gives (Value.IsSound source) := gives_digest _ draws
    exact ⟨rfl, .ofMembers (Entry.isMapTo_of_putAll (digested.entries _ rfl) Members.isMapTo_nil put)⟩

theorem isMapTo_of_objectOf {h : Host} (draws : h.Draws source) {m : Members Draft} (ok : h.objectOf view = .ok m) :
    m.IsMapTo (Value.IsHeld source) := by
  rw [objectOf.eq_def] at ok
  split at ok
  · exact Except.ok.inj ok ▸ Members.isMapTo_nil
  split at ok
  · next entries has =>
    exact Entry.isMapTo_of_putAll ((gives_digest _ draws).entries entries has) Members.isMapTo_nil ok
  · cases ok

end Host
end LenientJson
