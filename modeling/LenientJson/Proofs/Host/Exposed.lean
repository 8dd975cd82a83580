import LenientJson.Proofs.Host.Document
import LenientJson.Proofs.Host.Storable
import LenientJson.Proofs.Store.Action
import LenientJson.Store.Construct
import Mathlib.Data.List.Lex

/-! What the accessors of a user object come to. The names of its members are tried in the order of their code points; each
one that gives something which may be held puts it under its key, and the others leave no trace. So the greatest name
settles the value of a key, and the smallest one its place. -/
namespace LenientJson

theorem Text.before_iff_lt {a b : Text} : before a b = true ↔ a < b := by
  induction a generalizing b with
  | nil => cases b <;> simp [before]
  | cons c a ih =>
    cases b with
    | nil => simp [before]
    | cons d b =>
      rw [before, List.cons_lt_cons_iff]
      by_cases same : c = d <;> simp [same, ih]

namespace Members

variable {α : Type} {exposes : Text → Text → α → Prop} {m n : Members α}

/-- A key is there exactly when some name exposes it. It has the value that the greatest of its names gives, and the keys
stand in the order of their smallest names. -/
structure IsExposed (exposes : Text → Text → α → Prop) (m : Members α) : Prop where
  distinct : m.keys.Nodup
  keys : ∀ key, key ∈ m.keys ↔ ∃ name value, exposes name key value
  value : ∀ key value, m.find? key = some value ↔
    ∃ name, exposes name key value ∧ ∀ other w, exposes other key w → other ≤ name
  order : m.keys.Pairwise fun key next => ∃ name value, exposes name key value ∧
    ∀ other w, exposes other next w → name < other

/-- There is at most one such object. -/
theorem IsExposed.unique (exposed : m.IsExposed exposes) (exposed' : n.IsExposed exposes) : m = n := by
  have perm : m.keys.Perm n.keys := by
    rw [List.perm_ext_iff_of_nodup exposed.distinct exposed'.distinct]
    exact fun key => (exposed.keys key).trans (exposed'.keys key).symm
  have keys : m.keys = n.keys := by
    refine perm.eq_of_pairwise (fun key next _ _ here there => ?_) exposed.order exposed'.order
    obtain ⟨name, value, exposes, first⟩ := here
    obtain ⟨other, w, exposes', first'⟩ := there
    exact absurd (first other w exposes') (lt_asymm (first' name value exposes))
  refine eq_of_find? exposed.distinct keys fun key => Option.ext fun value => ?_
  exact (exposed.value key value).trans (exposed'.value key value).symm

section
variable (exposure : Text → Option (Text × α)) (names : List Text)

/-- One of the names gives a key this value. -/
def GivenBy (name key : Text) (value : α) : Prop := name ∈ names ∧ exposure name = some (key, value)

variable {exposure names} {last key : Text} {value : α}

theorem givenBy_concat_of_none (none : exposure last = none) :
    GivenBy exposure (names ++ [last]) = GivenBy exposure names := by
  funext name key value
  refine propext ⟨fun ⟨member, gives⟩ => ⟨?_, gives⟩, fun ⟨member, gives⟩ => ⟨List.mem_append_left _ member, gives⟩⟩
  refine (List.mem_append.mp member).resolve_right fun same => ?_
  rw [List.mem_singleton.mp same, none] at gives
  cases gives

theorem givenBy_concat (gives : exposure last = some (key, value)) {name other : Text} {w : α} :
    GivenBy exposure (names ++ [last]) name other w ↔
      GivenBy exposure names name other w ∨ name = last ∧ other = key ∧ w = value := by
  rw [GivenBy, GivenBy, List.mem_append, List.mem_singleton, or_and_right]
  refine or_congr_right (and_congr_right fun same => ?_)
  rw [same, gives, Option.some.injEq, Prod.mk.injEq, eq_comm, @eq_comm _ value]

theorem GivenBy.concat {name other : Text} {w : α} (given : GivenBy exposure names name other w) (last : Text) :
    GivenBy exposure (names ++ [last]) name other w := ⟨List.mem_append_left _ given.1, given.2⟩

theorem GivenBy.le_last {name other : Text} {w : α} (given : GivenBy exposure (names ++ [last]) name other w)
    (later : ∀ name ∈ names, name < last) : name ≤ last := by
  rcases List.mem_append.mp given.1 with old | here
  · exact (later name old).le
  · exact (List.mem_singleton.mp here).le

/-- A name before all others of a key is still before them if a name after all others is added. -/
theorem lt_of_givenBy_concat {name next : Text} (member : name ∈ names) (later : ∀ name ∈ names, name < last)
    (first : ∀ other w, GivenBy exposure names other next w → name < other) :
    ∀ other w, GivenBy exposure (names ++ [last]) other next w → name < other := by
  intro other w given
  rcases List.mem_append.mp given.1 with old | here
  · exact first other w ⟨old, given.2⟩
  · exact List.mem_singleton.mp here ▸ later name member

/-- A name after all others gives its key a new value and leaves it where it is; a new key comes last. -/
theorem IsExposed.insert (exposed : m.IsExposed (GivenBy exposure names)) (later : ∀ name ∈ names, name < last)
    (gives : exposure last = some (key, value)) :
    (m.insert key value).IsExposed (GivenBy exposure (names ++ [last])) where
  distinct := nodup_keys_insert exposed.distinct key value
  keys other := by
    have inserted : other ∈ (m.insert key value).keys ↔ other ∈ m.keys ∨ other = key := by
      rw [keys_insert]
      split
      · next there => exact (or_iff_left_of_imp fun same => same ▸ there).symm
      · rw [List.mem_append, List.mem_singleton]
    simp only [inserted, exposed.keys, givenBy_concat gives]
    constructor
    · rintro (⟨name, w, given⟩ | same)
      · exact ⟨name, w, .inl given⟩
      · exact ⟨last, value, .inr ⟨rfl, same, rfl⟩⟩
    · rintro ⟨name, w, given | ⟨-, same, -⟩⟩
      · exact .inl ⟨name, w, given⟩
      · exact .inr same
  value other w := by
    by_cases same : other = key
    · subst same
      have here : GivenBy exposure (names ++ [last]) last other value := (givenBy_concat gives).mpr (.inr ⟨rfl, rfl, rfl⟩)
      rw [find?_insert_self]
      constructor
      · intro settled
        cases settled
        exact ⟨last, here, fun name w given => given.le_last later⟩
      · rintro ⟨name, given, greatest⟩
        obtain rfl : name = last := le_antisymm (given.le_last later) (greatest last value here)
        cases gives.symm.trans given.2
        rfl
    · rw [find?_insert_of_ne same, exposed.value]
      simp only [givenBy_concat gives, same, false_and, and_false, or_false]
  order := by
    have kept : m.keys.Pairwise fun key' next => ∃ name w, GivenBy exposure (names ++ [last]) name key' w ∧
        ∀ other w, GivenBy exposure (names ++ [last]) other next w → name < other :=
      exposed.order.imp fun ⟨name, w, given, first⟩ =>
        ⟨name, w, given.concat last, lt_of_givenBy_concat given.1 later first⟩
    rw [keys_insert]
    split
    · exact kept
    · next fresh =>
      refine List.pairwise_append.mpr ⟨kept, List.pairwise_singleton _ _, fun key' there next is => ?_⟩
      obtain ⟨name, w, given⟩ := (exposed.keys key').mp there
      rw [List.mem_singleton.mp is]
      -- no name so far gives the new key
      refine ⟨name, w, given.concat last, lt_of_givenBy_concat given.1 later fun other w' given' => ?_⟩
      exact absurd ((exposed.keys key).mpr ⟨other, w', given'⟩) fresh

/-- Names that are tried in order. -/
theorem isExposed_merge (sorted : names.Pairwise (· < ·)) :
    (merge [] (names.filterMap exposure)).IsExposed (GivenBy exposure names) := by
  induction names using List.reverseRecOn with
  | nil => exact ⟨List.nodup_nil, by simp [Members.keys, merge, GivenBy], by simp [merge, find?, GivenBy], .nil⟩
  | append_singleton names last ih =>
    obtain ⟨sorted, -, later⟩ := List.pairwise_append.mp sorted
    have before := ih sorted
    rw [List.filterMap_append]
    cases gives : exposure last with
    | none => simpa [gives, givenBy_concat_of_none gives] using before
    | some entry =>
      have merged := before.insert (fun name member => later name member last List.mem_cons_self) gives
      rw [List.filterMap_cons_some gives, List.filterMap_nil, merge_concat]
      exact merged

end

end Members

def Attribute.digest (view : Link → Sight) : Attribute Host → Attribute Digest
  | .value a => .value (a.digest view)
  | .callable parameters outcome => .callable parameters (Host.outcomeDigest view outcome)
  | .fails message => .fails message

namespace UserObject

section
variable {α : Type} (u : UserObject α)

/-- The names of a user object: of its members, its fields and what is set on it. -/
def names : List Text := u.members.map Prod.fst ++ (u.fields.getD []).map Prod.fst ++ u.attributes.map Prod.fst

/-- A user object without whatever has one of some names. -/
def without (dropped : List Text) : UserObject α := { u with
  members := u.members.filter fun member => member.1 ∉ dropped
  fields := u.fields.map fun fields => fields.filter fun field => field.1 ∉ dropped
  attributes := u.attributes.filter fun entry => entry.1 ∉ dropped }

theorem mem_publicNames {name : Text} :
    name ∈ u.publicNames ↔ name ∈ u.names ∧ Text.startsWith [Symbol.underscore] name = false := by
  rw [publicNames, List.mem_mergeSort, List.mem_eraseDups, List.mem_filter, Bool.not_eq_true']
  rfl

theorem sorted_publicNames : u.publicNames.Pairwise (· < ·) := by
  have ordered {a b : Text} : (!Text.before b a) = true ↔ a ≤ b := by
    rw [Bool.not_eq_true', ← Bool.not_eq_true, Text.before_iff_lt, not_lt]
  have sorted : u.publicNames.Pairwise fun a b => (!Text.before b a) = true := by
    apply List.pairwise_mergeSort
    · intro a b c
      simpa only [ordered] using le_trans
    · intro a b
      simpa only [Bool.or_eq_true, ordered] using le_total a b
  have distinct : u.publicNames.Nodup := (List.mergeSort_perm _ _).nodup_iff.mpr (Members.nodup_eraseDups _)
  exact (sorted.and distinct).imp fun ⟨before, other⟩ => lt_of_le_of_ne (ordered.mp before) other

variable {u} in
theorem mem_names_of_attribute? {name : Text} {meaning : Attribute α} (means : u.attribute? name = some meaning) :
    name ∈ u.names := by
  by_contra absent
  simp only [names, List.mem_append, not_or] at absent
  obtain ⟨⟨ofClass, ofFields⟩, ofObject⟩ := absent
  have fields : u.fields.bind (Members.find? name) = none := by
    cases has : u.fields with
    | none => rfl
    | some fields =>
      rw [has] at ofFields
      exact Members.find?_eq_none ofFields
  rw [attribute?, Members.find?_eq_none ofClass, Members.find?_eq_none ofObject, fields] at means
  cases means

theorem attribute?_without (dropped : List Text) (name : Text) :
    (u.without dropped).attribute? name = if name ∈ dropped then none else u.attribute? name := by
  have fields : (u.without dropped).fields.bind (Members.find? name) =
      if name ∈ dropped then none else u.fields.bind (Members.find? name) := by
    cases has : u.fields with
    | none => simp [without, has]
    | some fields =>
      rw [without, has]
      exact Members.find?_filter dropped name fields
  rw [attribute?, fields]
  simp only [without, Members.find?_filter]
  by_cases gone : name ∈ dropped
  · simp [gone]
  · simp only [gone, if_false]
    rfl

end

variable (view : Link → Sight) (u : UserObject Host)

/-- A public name gives a key a value: it names an accessor without parameters, and what this gives is not absent and
has a document that is no infinite number and no NaN. -/
structure Exposes (name key : Text) (v : Draft) : Prop where
  isPublic : Text.startsWith [Symbol.underscore] name = false
  stands : accessorKey? name = some key
  gives : ∃ r, u.attribute? name = some (.callable .none (.gives r)) ∧ r ≠ .absent ∧ r.wrap view = some v
  finite : ∀ leaf, v = .scalar leaf → leaf.isAdmissible = true

/-- What the scan makes of a name. -/
def exposure? (name : Text) : Option (Text × Draft) :=
  match accessorKey? name, u.attribute? name with
  | some key, some (.callable .none (.gives r)) =>
    if r.isAbsent then none
    else (r.wrap view).bind fun v => if v.requireFinite = .ok () then some (key, v) else none
  | _, _ => none

theorem find?_memberDigests (members : List (Text × Member Host)) (name : Text) :
    Members.find? name (Host.memberDigests view members) = (Members.find? name members).map (Host.memberDigest view) := by
  rw [Host.memberDigests_eq_map, Members.find?_map]

theorem attribute?_userDigest (name : Text) :
    (Host.userDigest view u).attribute? name = (u.attribute? name).map (Attribute.digest view) := by
  have named (entries : List (Text × Host)) : Members.find? name (Host.namedDigests view entries) =
      (Members.find? name entries).map (Host.digest view) := by
    rw [Host.namedDigests_eq_map, Members.find?_map]
  have ofFields : (Host.fieldDigests view u.fields).bind (Members.find? name) =
      (u.fields.bind (Members.find? name)).map (Host.digest view) := by
    cases u.fields with
    | none => rfl
    | some fields => exact named fields
  simp only [attribute?, Host.userDigest, find?_memberDigests, named, ofFields]
  generalize Members.find? name u.members = member
  generalize Members.find? name u.attributes = onObject
  generalize u.fields.bind (Members.find? name) = declared
  cases onObject <;> cases declared <;> rcases member with _ | ⟨_ | ⟨_ | _⟩ | _⟩ <;> rfl

theorem publicNames_userDigest : (Host.userDigest view u).publicNames = u.publicNames := by
  have named (entries : List (Text × Host)) : (Host.namedDigests view entries).map Prod.fst = entries.map Prod.fst := by
    rw [Host.namedDigests_eq_map, List.map_map]
    rfl
  have ofClass : (Host.memberDigests view u.members).map Prod.fst = u.members.map Prod.fst := by
    rw [Host.memberDigests_eq_map, List.map_map]
    rfl
  have ofFields : ((Host.fieldDigests view u.fields).getD []).map Prod.fst = (u.fields.getD []).map Prod.fst := by
    cases u.fields with
    | none => rfl
    | some fields => exact named fields
  simp only [publicNames, Host.userDigest, ofClass, named, ofFields]

theorem ofAccessors_userDigest :
    (Host.userDigest view u).ofAccessors = Members.merge [] (u.publicNames.filterMap (u.exposure? view)) := by
  rw [ofAccessors, accessors, publicNames_userDigest, Members.merge, List.foldl_filterMap, List.foldl_filterMap]
  congr 1
  funext m name
  rw [attribute?_userDigest, exposure?]
  cases accessorKey? name with
  | none => rfl
  | some key =>
    cases u.attribute? name with
    | none => rfl
    | some meaning =>
      cases meaning with
      | value _ | fails _ => rfl
      | callable parameters outcome =>
        cases parameters with
        | optional | required | hidden => rfl
        | none =>
          cases outcome with
          | raises _ => rfl
          | gives r =>
            change (if (r.digest view).isAbsent then m else m.putIfAny key (r.wrap view)) = _
            rw [Host.isAbsent_digest]
            dsimp only
            cases r.isAbsent with
            | true => rfl
            | false =>
              cases r.wrap view with
              | none => rfl
              | some v => cases finite : v.requireFinite <;> simp [Members.putIfAny, finite]

theorem requireFinite_iff {v : Draft} :
    v.requireFinite = .ok () ↔ ∀ leaf, v = .scalar leaf → leaf.isAdmissible = true := by
  cases v with
  | scalar leaf =>
    refine Value.isMember_scalar.trans ⟨fun admissible other same => ?_, fun all => all leaf rfl⟩
    cases same
    exact admissible
  | object _ | array _ | link _ => exact iff_of_true rfl fun _ same => nomatch same

theorem exposure?_eq_some_iff {name key : Text} {v : Draft} (isPublic : Text.startsWith [Symbol.underscore] name = false) :
    u.exposure? view name = some (key, v) ↔ u.Exposes view name key v := by
  rw [exposure?]
  constructor
  · intro gives
    split at gives
    · next stands means =>
      split at gives
      · cases gives
      · next present =>
        obtain ⟨w, wrapped, gives⟩ := Option.bind_eq_some_iff.mp gives
        split at gives <;> cases gives
        next finite =>
          refine ⟨isPublic, stands, ⟨_, means, ?_, wrapped⟩, requireFinite_iff.mp finite⟩
          rintro rfl
          exact present rfl
    · cases gives
  · rintro ⟨-, stands, ⟨r, means, given, wrapped⟩, finite⟩
    have present : r.isAbsent = false := by
      cases r with
      | absent => exact absurd rfl given
      | _ => rfl
    rw [stands, means]
    simp [present, wrapped, requireFinite_iff.mpr finite]

theorem givenBy_publicNames : Members.GivenBy (u.exposure? view) u.publicNames = u.Exposes view := by
  funext name key v
  refine propext ⟨fun ⟨member, gives⟩ => ?_, fun exposes => ?_⟩
  · exact (exposure?_eq_some_iff view u (u.mem_publicNames.mp member).2).mp gives
  · obtain ⟨r, means, -⟩ := exposes.gives
    have member := u.mem_publicNames.mpr ⟨mem_names_of_attribute? means, exposes.isPublic⟩
    exact ⟨member, (exposure?_eq_some_iff view u exposes.isPublic).mpr exposes⟩

theorem offers_userDigest (name : Text) :
    (Host.userDigest view u).offers Digest.isAbsent name = u.offers Host.isAbsent name := by
  rw [offers, offers, attribute?_userDigest]
  simp only [Host.userDigest, find?_memberDigests]
  generalize u.attribute? name = meaning
  rcases Members.find? name u.members with _ | _ | _ | r <;> rcases meaning with _ | _ | _ | _ <;>
    simp [Host.memberDigest, Attribute.digest, Host.isAbsent_digest]

variable {u} in
/-- Nothing else is asked of an object that has no converter, does not list its members and declares no fields. -/
theorem reflected_eq (unconverted : u.converter = none)
    (unlisted : u.offers Host.isAbsent (Text.ofString "json_fields") = false) (undeclared : u.fields = none) :
    (Host.user u).reflected view = .ok (Members.merge [] (u.publicNames.filterMap (u.exposure? view))) := by
  have noConverter : (Host.userDigest view u).converter = none := by simp [Host.userDigest, unconverted, Host.converterDigest]
  have noFields : (Host.userDigest view u).fields.isSome = false := by
    simp [Host.userDigest, undeclared, Host.fieldDigests]
  rw [Host.reflected, UserObject.reflected, noConverter]
  dsimp only
  rw [ofListing, offers_userDigest, unlisted, noFields, ofAccessors_userDigest]
  rfl

variable {u} in
theorem exists_reflected (unconverted : u.converter = none)
    (unlisted : u.offers Host.isAbsent (Text.ofString "json_fields") = false) (undeclared : u.fields = none) :
    ∃ members, (Host.user u).reflected view = .ok members ∧ members.IsExposed (u.Exposes view) := by
  have exposed : (Members.merge [] (u.publicNames.filterMap (u.exposure? view))).IsExposed
      (Members.GivenBy (u.exposure? view) u.publicNames) := Members.isExposed_merge u.sorted_publicNames
  rw [givenBy_publicNames] at exposed
  exact ⟨_, reflected_eq view unconverted unlisted undeclared, exposed⟩

variable {view u} in
/-- Names that expose nothing may as well not be there. -/
theorem exposes_without {dropped : List Text} (silent : ∀ name ∈ dropped, ∀ key v, ¬ u.Exposes view name key v) :
    (u.without dropped).Exposes view = u.Exposes view := by
  funext name key v
  by_cases gone : name ∈ dropped
  · refine propext (iff_of_false (fun exposes => ?_) (silent name gone key v))
    obtain ⟨r, means, -⟩ := exposes.gives
    rw [attribute?_without, if_pos gone] at means
    cases means
  · have same : (u.without dropped).attribute? name = u.attribute? name := by
      rw [attribute?_without, if_neg gone]
    exact propext ⟨fun ⟨isPublic, stands, gives, finite⟩ => ⟨isPublic, stands, same ▸ gives, finite⟩,
      fun ⟨isPublic, stands, gives, finite⟩ => ⟨isPublic, stands, same.symm ▸ gives, finite⟩⟩

theorem offers_without (dropped : List Text) {name : Text} (unlisted : u.offers Host.isAbsent name = false) :
    (u.without dropped).offers Host.isAbsent name = false := by
  have ofClass : Members.find? name (u.without dropped).members =
      if name ∈ dropped then none else Members.find? name u.members := Members.find?_filter dropped name u.members
  by_cases gone : name ∈ dropped
  · rw [offers, attribute?_without, ofClass, if_pos gone, if_pos gone]
  · rw [offers, attribute?_without, ofClass, if_neg gone, if_neg gone]
    exact unlisted

end UserObject

namespace Action
open UserObject (Exposes)

end Action
end LenientJson
