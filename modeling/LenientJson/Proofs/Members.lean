import LenientJson.Members
import Mathlib.Data.List.Induction
import Mathlib.Data.List.Nodup

/-! Keys of ordered entries, lookups by them, and what changes of single entries keep. -/
namespace LenientJson.Members

variable {α : Type}

theorem not_mem_keys {key : Text} {m : Members α} (absent : m.find? key = none) : key ∉ m.keys := by
  induction m with
  | nil => exact List.not_mem_nil
  | cons entry rest ih =>
    obtain ⟨k, v⟩ := entry
    rw [find?] at absent
    split at absent
    · cases absent
    · next other =>
      intro member
      rcases List.mem_cons.mp member with same | member
      · exact other same.symm
      · exact ih absent member

theorem find?_eq_none {key : Text} {m : Members α} (fresh : key ∉ m.keys) : m.find? key = none := by
  induction m with
  | nil => rfl
  | cons entry rest ih =>
    obtain ⟨k, v⟩ := entry
    rw [keys, List.map_cons, List.mem_cons, not_or] at fresh
    rw [find?, if_neg (Ne.symm fresh.1)]
    exact ih fresh.2

theorem insert_of_find?_eq_none {key : Text} {m : Members α} (absent : m.find? key = none) (v : α) :
    m.insert key v = m ++ [(key, v)] := by
  induction m with
  | nil => rfl
  | cons entry rest ih =>
    obtain ⟨k, old⟩ := entry
    rw [find?] at absent
    split at absent
    · cases absent
    · next other => rw [insert, if_neg other, ih absent, List.cons_append]

theorem nodup_keys_append {key : Text} {m : Members α} (distinct : m.keys.Nodup) (fresh : key ∉ m.keys)
    (v : α) : (keys (m ++ [(key, v)])).Nodup := by
  rw [keys, List.map_append]
  exact distinct.append (List.nodup_singleton _) (List.disjoint_singleton.mpr fresh)

theorem fresh_of_nodup {key : Text} {v : α} {m rest : Members α} (distinct : (keys (m ++ (key, v) :: rest)).Nodup) :
    key ∉ m.keys := by
  rw [keys, List.map_append, List.map_cons] at distinct
  intro member
  exact (List.disjoint_of_nodup_append distinct) member List.mem_cons_self

theorem find?_append_self {key : Text} {v : α} {m rest : Members α} (fresh : key ∉ m.keys) :
    find? key (m ++ (key, v) :: rest) = some v := by
  induction m with
  | nil => rw [List.nil_append, find?, if_pos rfl]
  | cons entry m ih =>
    obtain ⟨k, w⟩ := entry
    rw [keys, List.map_cons, List.mem_cons, not_or] at fresh
    rw [List.cons_append, find?, if_neg (Ne.symm fresh.1)]
    exact ih fresh.2

theorem mem_of_find?_eq_some {key : Text} {value : α} {m : Members α} (found : m.find? key = some value) :
    (key, value) ∈ m := by
  induction m with
  | nil => cases found
  | cons entry rest ih =>
    obtain ⟨k, old⟩ := entry
    rw [find?] at found
    split at found
    · next same =>
      cases found
      exact same ▸ List.mem_cons_self
    · exact List.mem_cons_of_mem _ (ih found)

theorem find?_eq_some_iff {m : Members α} (distinct : m.keys.Nodup) {key : Text} {value : α} :
    m.find? key = some value ↔ (key, value) ∈ m := by
  refine ⟨mem_of_find?_eq_some, fun member => ?_⟩
  obtain ⟨before, after, rfl⟩ := List.append_of_mem member
  exact find?_append_self (fresh_of_nodup distinct)

theorem find?_append (key : Text) (before after : Members α) :
    find? key (before ++ after) = (find? key before).or (find? key after) := by
  induction before with
  | nil => rfl
  | cons entry before ih =>
    obtain ⟨k, value⟩ := entry
    rw [List.cons_append, find?, find?, ih]
    split <;> rfl

theorem find?_eq_of_perm {m n : Members α} (distinct : m.keys.Nodup) (perm : m.Perm n) (key : Text) :
    m.find? key = n.find? key := by
  have distinct' : n.keys.Nodup := (perm.map Prod.fst).nodup_iff.mp distinct
  ext value
  rw [find?_eq_some_iff distinct, find?_eq_some_iff distinct', perm.mem_iff]

theorem find?_reverse {m : Members α} (distinct : m.keys.Nodup) (key : Text) :
    find? key m.reverse = m.find? key :=
  (find?_eq_of_perm distinct (List.reverse_perm m).symm key).symm

theorem isSome_find?_iff {key : Text} {m : Members α} : (m.find? key).isSome = true ↔ key ∈ m.keys := by
  constructor
  · intro found
    obtain ⟨value, found⟩ := Option.isSome_iff_exists.mp found
    exact List.mem_map.mpr ⟨_, mem_of_find?_eq_some found, rfl⟩
  · intro member
    by_contra absent
    exact not_mem_keys (Option.not_isSome_iff_eq_none.mp absent) member

theorem find?_map {β : Type} (f : α → β) (key : Text) (m : Members α) :
    find? key (m.map fun entry => (entry.1, f entry.2)) = (m.find? key).map f := by
  induction m with
  | nil => rfl
  | cons entry rest ih =>
    rw [List.map_cons, find?, find?, ih]
    split <;> rfl

theorem find?_filter (dropped : List Text) (key : Text) (m : Members α) :
    find? key (m.filter fun entry => entry.1 ∉ dropped) = if key ∈ dropped then none else m.find? key := by
  induction m with
  | nil => simp [find?]
  | cons entry rest ih =>
    rw [List.filter_cons, find?]
    by_cases gone : entry.1 ∈ dropped
    · rw [if_neg (by simpa using gone), ih]
      by_cases same : entry.1 = key
      · rw [if_pos (same ▸ gone), if_pos (same ▸ gone)]
      · rw [if_neg same]
    · rw [if_pos (by simpa using gone), find?, ih]
      by_cases same : entry.1 = key
      · rw [if_pos same, if_pos same, if_neg (same ▸ gone)]
      · rw [if_neg same, if_neg same]

/-- Members are settled by their keys, in order, and by what these are mapped to. -/
theorem eq_of_find? {m n : Members α} (distinct : m.keys.Nodup) (keys : m.keys = n.keys)
    (values : ∀ key, m.find? key = n.find? key) : m = n := by
  induction m generalizing n with
  | nil => exact (List.map_eq_nil_iff.mp keys.symm).symm
  | cons entry rest ih =>
    cases n with
    | nil => cases keys
    | cons other others =>
      obtain ⟨key, value⟩ := entry
      obtain ⟨key', value'⟩ := other
      have ⟨same, keys'⟩ : key = key' ∧ Members.keys rest = Members.keys others := List.cons.inj keys
      obtain ⟨fresh, distinct⟩ := List.nodup_cons.mp distinct
      cases same
      have here := values key
      simp only [find?, if_true, Option.some.injEq] at here
      subst here
      have behind : rest = others := by
        refine ih distinct keys' fun k => ?_
        by_cases here : key = k
        · subst here
          have fresh' : key ∉ Members.keys others := keys' ▸ fresh
          rw [find?_eq_none fresh, find?_eq_none fresh']
        · simpa [find?, here] using values k
      rw [behind]

theorem erase_of_find?_eq_none {key : Text} {m : Members α} (absent : m.find? key = none) : m.erase key = m := by
  induction m with
  | nil => rfl
  | cons entry rest ih =>
    obtain ⟨k, old⟩ := entry
    rw [find?] at absent
    split at absent
    · cases absent
    · next other => rw [erase, if_neg other, ih absent]

theorem erase_sublist (key : Text) (m : Members α) : (m.erase key).Sublist m := by
  induction m with
  | nil => exact .slnil
  | cons entry rest ih =>
    obtain ⟨k, old⟩ := entry
    rw [erase]
    split
    · exact List.sublist_cons_self _ _
    · exact ih.cons_cons _

theorem find?_erase_of_ne {key other : Text} (different : other ≠ key) (m : Members α) :
    find? other (m.erase key) = m.find? other := by
  induction m with
  | nil => rfl
  | cons entry rest ih =>
    obtain ⟨k, old⟩ := entry
    rw [erase]
    split
    · next same => rw [find?, if_neg (same ▸ Ne.symm different)]
    · rw [find?, find?, ih]

theorem keys_erase (key : Text) (m : Members α) : (m.erase key).keys = m.keys.erase key := by
  induction m with
  | nil => rfl
  | cons entry rest ih =>
    obtain ⟨k, old⟩ := entry
    change keys (erase key ((k, old) :: rest)) = List.erase (k :: keys rest) key
    rw [erase, List.erase_cons]
    by_cases same : k = key
    · rw [if_pos same, if_pos (beq_iff_eq.mpr same)]
    · rw [if_neg same, if_neg (mt beq_iff_eq.mp same)]
      exact congrArg (k :: ·) ih

theorem mem_insert {key : Text} {value : α} {m : Members α} {entry : Text × α}
    (member : entry ∈ m.insert key value) : entry = (key, value) ∨ entry ∈ m := by
  induction m with
  | nil => exact .inl (List.mem_singleton.mp member)
  | cons first rest ih =>
    obtain ⟨k, old⟩ := first
    rw [insert] at member
    split at member
    · next same => exact (List.mem_cons.mp member).imp (same ▸ ·) (List.mem_cons_of_mem _)
    · rcases List.mem_cons.mp member with rfl | member
      · exact .inr List.mem_cons_self
      · exact (ih member).imp_right (List.mem_cons_of_mem _)

/-- A key that is there keeps its place. -/
theorem keys_insert_of_mem {key : Text} {m : Members α} (there : key ∈ m.keys) (value : α) :
    (m.insert key value).keys = m.keys := by
  induction m with
  | nil => cases there
  | cons entry rest ih =>
    obtain ⟨k, old⟩ := entry
    rw [insert]
    split
    · rfl
    · next other =>
      have there : key ∈ keys rest := (List.mem_cons.mp there).resolve_left fun same => other same.symm
      exact congrArg (k :: ·) (ih there)

theorem insert_ne_nil (key : Text) (value : α) (m : Members α) : m.insert key value ≠ [] := by
  cases m with
  | nil => simp [insert]
  | cons entry rest =>
    rw [insert]
    split <;> simp

theorem nodup_keys_insert {m : Members α} (distinct : m.keys.Nodup) (key : Text) (value : α) :
    (m.insert key value).keys.Nodup := by
  by_cases there : key ∈ m.keys
  · rwa [keys_insert_of_mem there]
  · rw [insert_of_find?_eq_none (find?_eq_none there)]
    exact nodup_keys_append distinct there value

theorem merge_concat (older newer : Members α) (last : Text × α) :
    merge older (newer ++ [last]) = (merge older newer).insert last.1 last.2 := by
  simp [merge, List.foldl_append]

/-- What is put in last counts. -/
theorem find?_merge (key : Text) (older newer : Members α) :
    find? key (merge older newer) = (find? key newer.reverse).or (find? key older) := by
  induction newer using List.reverseRecOn with
  | nil => rfl
  | append_singleton newer last ih =>
    rw [merge_concat, List.reverse_append, List.reverse_singleton, List.singleton_append, find?]
    split
    · next same => rw [← same, find?_insert_self, Option.some_or]
    · next other => rw [find?_insert_of_ne (Ne.symm other), ih]

theorem nodup_keys_merge {older : Members α} (distinct : older.keys.Nodup) (newer : Members α) :
    (merge older newer).keys.Nodup := by
  induction newer using List.reverseRecOn with
  | nil => exact distinct
  | append_singleton newer last ih =>
    rw [merge_concat]
    exact nodup_keys_insert ih last.1 last.2

theorem keys_insert (key : Text) (value : α) (m : Members α) :
    (m.insert key value).keys = if key ∈ m.keys then m.keys else m.keys ++ [key] := by
  split
  · next there => exact keys_insert_of_mem there value
  · next fresh =>
    rw [insert_of_find?_eq_none (find?_eq_none fresh)]
    simp [keys]

/-- Keys that are there keep their places, and new ones follow in the order in which they come. -/
theorem keys_merge (older : Members α) {newer : Members α} (distinct : newer.keys.Nodup) :
    (merge older newer).keys = older.keys ++ newer.keys.filter (· ∉ older.keys) := by
  induction newer using List.reverseRecOn with
  | nil => simp [merge, keys]
  | append_singleton newer last ih =>
    have fresh : last.1 ∉ Members.keys newer := fresh_of_nodup distinct
    have before : Members.keys (newer ++ [last]) = Members.keys newer ++ [last.1] := List.map_append
    rw [before] at distinct ⊢
    rw [merge_concat, keys_insert, ih distinct.of_append_left, List.filter_append]
    by_cases there : last.1 ∈ older.keys <;> simp [there, fresh]

theorem eraseDups_concat (keys : List Text) (key : Text) :
    (keys ++ [key]).eraseDups = if key ∈ keys then keys.eraseDups else keys.eraseDups ++ [key] := by
  rw [List.eraseDups_append]
  by_cases there : key ∈ keys <;> simp [List.removeAll, there, List.eraseDups_cons]

theorem nodup_eraseDups (keys : List Text) : keys.eraseDups.Nodup := by
  induction keys using List.reverseRecOn with
  | nil => exact List.nodup_nil
  | append_singleton keys last ih =>
    rw [eraseDups_concat]
    split
    · exact ih
    · next fresh =>
      rw [← List.mem_eraseDups] at fresh
      exact List.nodup_append'.mpr ⟨ih, List.nodup_singleton last, List.disjoint_singleton.mpr fresh⟩

theorem eraseDups_append_eraseDups (keys others : List Text) :
    (keys ++ others.eraseDups).eraseDups = (keys ++ others).eraseDups := by
  induction others using List.reverseRecOn with
  | nil => rfl
  | append_singleton others last ih =>
    rw [← List.append_assoc, eraseDups_concat (keys ++ others), eraseDups_concat others]
    by_cases there : last ∈ others
    · rw [if_pos there, if_pos (List.mem_append_right _ there), ih]
    · rw [if_neg there, ← List.append_assoc, eraseDups_concat, ih]
      simp only [List.mem_append, List.mem_eraseDups]

/-- Each key stands where it came first. -/
theorem keys_merge_of_eraseDups {older : Members α} {keys : List Text} (same : older.keys = keys.eraseDups)
    (newer : Members α) : (merge older newer).keys = (keys ++ newer.keys).eraseDups := by
  induction newer using List.reverseRecOn with
  | nil => rw [merge, List.foldl_nil, same, Members.keys, List.map_nil, List.append_nil]
  | append_singleton newer last ih =>
    have before : Members.keys (newer ++ [last]) = Members.keys newer ++ [last.1] := List.map_append
    rw [merge_concat, keys_insert, ih, before, ← List.append_assoc, eraseDups_concat]
    simp only [List.mem_eraseDups]

theorem keys_merge_nil (entries : Members α) : (merge [] entries).keys = entries.keys.eraseDups :=
  have none : Members.keys ([] : Members α) = ([] : List Text).eraseDups := rfl
  keys_merge_of_eraseDups none entries

/-- The keys differ, and what they map to satisfies `P`. -/
structure IsMapTo (P : α → Prop) (m : Members α) : Prop where
  distinct : m.keys.Nodup
  each : ∀ entry ∈ m, P entry.2

variable {P : α → Prop} {m : Members α}

theorem isMapTo_nil : IsMapTo P ([] : Members α) := ⟨List.nodup_nil, List.forall_mem_nil _⟩

theorem IsMapTo.insert (map : m.IsMapTo P) (key : Text) {value : α} (fit : P value) :
    (m.insert key value).IsMapTo P where
  distinct := nodup_keys_insert map.distinct key value
  each entry member := by
    rcases mem_insert member with rfl | member
    · exact fit
    · exact map.each entry member

theorem IsMapTo.merge (map : m.IsMapTo P) {newer : Members α} (fit : ∀ entry ∈ newer, P entry.2) :
    (m.merge newer).IsMapTo P :=
  List.foldlRecOn newer _ map fun _ map entry member => map.insert entry.1 (fit entry member)

theorem IsMapTo.erase (map : m.IsMapTo P) (key : Text) : (m.erase key).IsMapTo P where
  distinct := map.distinct.sublist ((erase_sublist key m).map _)
  each entry member := map.each entry ((erase_sublist key m).subset member)

end LenientJson.Members
