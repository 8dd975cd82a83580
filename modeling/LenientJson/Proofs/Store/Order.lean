import LenientJson.Proofs.Store.Frame

/-! The order of keys. A key keeps its place for as long as it is there, and one that comes goes last. So the keys of
an object stand in the order in which they came, whatever else has come and gone. -/
namespace LenientJson

namespace Members

variable {α : Type} {key : Option Text} {m m' : Members α}

/-- What stays as it is when the entry of a key changes, and where the key is then. -/
structure Follows (key : Option Text) (m m' : Members α) : Prop where
  others : ∀ other, some other ≠ key → m'.find? other = m.find? other
  order : m'.keys.filter (some · ≠ key) = m.keys.filter (some · ≠ key)
  stays : ∀ k, key = some k → k ∈ m.keys → k ∈ m'.keys → m'.keys = m.keys
  comes : ∀ k, key = some k → k ∉ m.keys → k ∈ m'.keys → m'.keys = m.keys ++ [k]

theorem follows_self (key : Option Text) (m : Members α) : Follows key m m where
  others _ _ := rfl
  order := rfl
  stays _ _ _ _ := rfl
  comes _ _ absent present := absurd present absent

theorem follows_insert (key : Text) (value : α) (m : Members α) : Follows (some key) m (m.insert key value) where
  others other different := find?_insert_of_ne (mt (congrArg some) different) value m
  order := by
    rw [keys_insert]
    split
    · rfl
    · rw [List.filter_append, List.filter_singleton, decide_eq_false (not_not_intro rfl)]
      exact List.append_nil _
  stays k same there _ := by
    cases same
    exact keys_insert_of_mem there value
  comes k same absent _ := by
    cases same
    rw [keys_insert, if_neg absent]

theorem follows_erase (distinct : m.keys.Nodup) (key : Text) : Follows (some key) m (m.erase key) where
  others other different := find?_erase_of_ne (mt (congrArg some) different) m
  order := by
    rw [keys_erase, distinct.erase_eq_filter, List.filter_filter]
    refine List.filter_congr fun k _ => ?_
    by_cases same : k = key <;> simp [same]
  stays k same _ there := by
    cases same
    exact absurd (keys_erase key m ▸ there) distinct.not_mem_erase
  comes k same _ there := by
    cases same
    exact absurd (keys_erase key m ▸ there) distinct.not_mem_erase

theorem Changes.follows (changes : m.Changes key m') (distinct : m.keys.Nodup) : Follows key m m' := by
  cases changes with
  | nothing key => exact follows_self key m
  | inserted key value => exact follows_insert key value m
  | erased key => exact follows_erase distinct key

/-- Keys may go, or one more comes. -/
theorem Changes.keys (changes : m.Changes key m') : m'.keys.Sublist m.keys ∨ ∃ k ∉ m.keys, m'.keys = m.keys ++ [k] := by
  cases changes with
  | nothing key => exact .inl (List.Sublist.refl _)
  | inserted key value =>
    rw [keys_insert]
    split
    · exact .inl (List.Sublist.refl _)
    · next absent => exact .inr ⟨key, absent, rfl⟩
  | erased key => exact .inl ((erase_sublist key m).map _)

theorem Changes.nodup (changes : m.Changes key m') (distinct : m.keys.Nodup) : m'.keys.Nodup := by
  obtain fewer | ⟨k, fresh, more⟩ := changes.keys
  · exact distinct.sublist fewer
  · rw [more]
    exact distinct.append (List.nodup_singleton k) (List.disjoint_singleton.mpr fresh)

end Members

namespace Store

variable {st : Store} {calls : List Call} {call : Call} {o : Nat} {key : Text} {n : Nat}

theorem run_concat (st : Store) (calls : List Call) (call : Call) :
    st.run (calls ++ [call]) = call.after (st.run calls) := by
  rw [run, List.foldl_append]
  rfl

theorem length_objects_run (st : Store) (calls : List Call) : st.objects.length ≤ (st.run calls).objects.length := by
  induction calls using List.reverseRecOn with
  | nil => exact Nat.le_refl _
  | append_singleton calls call ih =>
    rw [run_concat]
    exact Nat.le_trans ih (call.evolves_after (st.run calls)).grown

theorem changes_run_concat (there : o < st.objects.length) (calls : List Call) (call : Call) :
    ((st.run calls).membersOf o).Changes (call.keyIn o) ((st.run (calls ++ [call])).membersOf o) := by
  rw [run_concat]
  exact (call.evolves_after (st.run calls)).changes o (Nat.lt_of_lt_of_le there (st.length_objects_run calls))

theorem nodup_keys_run (there : o < st.objects.length) (distinct : (st.keys o).Nodup) (calls : List Call) :
    ((st.run calls).keys o).Nodup := by
  induction calls using List.reverseRecOn with
  | nil => exact distinct
  | append_singleton calls call ih => exact (changes_run_concat there calls call).nodup ih

/-- The key has been there since the first `n` calls, and before the last of these it was not. One that has been
there from the beginning has come with no call. -/
structure CameWith (st : Store) (calls : List Call) (o : Nat) (key : Text) (n : Nat) : Prop where
  within : n ≤ calls.length
  before : ∀ i, i + 1 = n → key ∉ (st.run (calls.take i)).keys o
  since : ∀ i, n ≤ i → i ≤ calls.length → key ∈ (st.run (calls.take i)).keys o

theorem CameWith.present (came : st.CameWith calls o key n) : key ∈ (st.run calls).keys o :=
  List.take_length (l := calls) ▸ came.since calls.length came.within (Nat.le_refl _)

theorem CameWith.le_of_cameWith {m : Nat} (came : st.CameWith calls o key m) (other : st.CameWith calls o key n) :
    n ≤ m := by
  by_contra later
  obtain ⟨i, rfl⟩ : ∃ i, n = i + 1 := Nat.exists_eq_succ_of_ne_zero (by omega)
  exact other.before i rfl (came.since i (by omega) (by have := other.within; omega))

/-- There is at most one such `n`. -/
theorem CameWith.unique {m : Nat} (came : st.CameWith calls o key m) (other : st.CameWith calls o key n) : m = n :=
  Nat.le_antisymm (other.le_of_cameWith came) (came.le_of_cameWith other)

theorem cameWith_nil (there : key ∈ st.keys o) : st.CameWith [] o key 0 where
  within := Nat.le_refl _
  before _ impossible := nomatch impossible
  since i _ _ := by
    rw [List.take_nil]
    exact there

/-- With one more call a key has come as before, unless it has gone, or it comes now. -/
theorem cameWith_concat (st : Store) (calls : List Call) (call : Call) (o : Nat) (key : Text) (n : Nat) :
    st.CameWith (calls ++ [call]) o key n ↔ key ∈ (st.run (calls ++ [call])).keys o ∧
      (st.CameWith calls o key n ∨ n = calls.length + 1 ∧ key ∉ (st.run calls).keys o) := by
  have earlier {i : Nat} (within : i ≤ calls.length) : (calls ++ [call]).take i = calls.take i :=
    List.take_append_of_le_length within
  have whole : (calls ++ [call]).length = calls.length + 1 := List.length_append
  constructor
  · intro came
    refine ⟨came.present, ?_⟩
    have within := whole ▸ came.within
    by_cases now : n = calls.length + 1
    · have absent := came.before calls.length now.symm
      rw [earlier (Nat.le_refl _), List.take_length] at absent
      exact .inr ⟨now, absent⟩
    · refine .inl ⟨by omega, fun i next => ?_, fun i since bound => ?_⟩
      · exact earlier (by omega : i ≤ calls.length) ▸ came.before i next
      · exact earlier bound ▸ came.since i since (by omega)
  · rintro ⟨present, came | ⟨rfl, absent⟩⟩
    · refine ⟨by have := came.within; omega, fun i next => ?_, fun i since bound => ?_⟩
      · have within := came.within
        rw [earlier (by omega)]
        exact came.before i next
      · by_cases within : i ≤ calls.length
        · rw [earlier within]
          exact came.since i since within
        · rw [List.take_of_length_le (by omega)]
          exact present
    · refine ⟨by omega, fun i next => ?_, fun i since bound => ?_⟩
      · rw [Nat.succ.inj next, earlier (Nat.le_refl _), List.take_length]
        exact absent
      · rw [List.take_of_length_le (by omega)]
        exact present

theorem exists_cameWith (calls : List Call) : ∀ key ∈ (st.run calls).keys o, ∃ n, st.CameWith calls o key n := by
  induction calls using List.reverseRecOn with
  | nil => exact fun key there => ⟨0, cameWith_nil there⟩
  | append_singleton calls call ih =>
    intro key present
    by_cases there : key ∈ (st.run calls).keys o
    · obtain ⟨n, came⟩ := ih key there
      exact ⟨n, (cameWith_concat ..).mpr ⟨present, .inl came⟩⟩
    · exact ⟨calls.length + 1, (cameWith_concat ..).mpr ⟨present, .inr ⟨rfl, there⟩⟩⟩

/-- The one key came before the other, or both have been there from the beginning, in this order. -/
def Precedes (st : Store) (calls : List Call) (o : Nat) (a b : Text) : Prop :=
  ∀ m n, st.CameWith calls o a m → st.CameWith calls o b n → m < n ∨ m = 0 ∧ n = 0 ∧ [a, b].Sublist (st.keys o)

theorem Precedes.concat {a b : Text} (precedes : st.Precedes calls o a b) (call : Call)
    (there : a ∈ (st.run calls).keys o) (there' : b ∈ (st.run calls).keys o) :
    st.Precedes (calls ++ [call]) o a b := by
  intro m n came came'
  obtain ⟨-, came | ⟨-, absent⟩⟩ := (cameWith_concat ..).mp came
  · obtain ⟨-, came' | ⟨-, absent⟩⟩ := (cameWith_concat ..).mp came'
    · exact precedes m n came came'
    · exact absurd there' absent
  · exact absurd there absent

/-- A key that comes now comes after those that are there. -/
theorem precedes_of_fresh {a b : Text} (call : Call) (there : a ∈ (st.run calls).keys o)
    (fresh : b ∉ (st.run calls).keys o) : st.Precedes (calls ++ [call]) o a b := by
  intro m n came came'
  obtain ⟨-, came | ⟨-, absent⟩⟩ := (cameWith_concat ..).mp came
  · obtain ⟨-, came' | ⟨rfl, -⟩⟩ := (cameWith_concat ..).mp came'
    · exact absurd came'.present fresh
    · exact .inl (Nat.lt_succ_of_le came.within)
  · exact absurd there absent

theorem pairwise_precedes (there : o < st.objects.length) (calls : List Call) :
    ((st.run calls).keys o).Pairwise (st.Precedes calls o) := by
  induction calls using List.reverseRecOn with
  | nil =>
    refine List.pairwise_iff_forall_sublist.mpr fun {a b} order m n came came' => ?_
    exact .inr ⟨Nat.le_zero.mp came.within, Nat.le_zero.mp came'.within, order⟩
  | append_singleton calls call ih =>
    have ih' : ((st.run calls).keys o).Pairwise (st.Precedes (calls ++ [call]) o) :=
      ih.imp_of_mem fun there there' precedes => precedes.concat call there there'
    obtain fewer | ⟨k, fresh, more⟩ := (changes_run_concat there calls call).keys
    · exact ih'.sublist fewer
    · change ((st.run (calls ++ [call])).membersOf o).keys.Pairwise _
      rw [more]
      refine List.pairwise_append.mpr ⟨ih', List.pairwise_singleton _ _, fun a inside b last => ?_⟩
      rw [List.mem_singleton.mp last]
      exact precedes_of_fresh call inside fresh

/-- After any calls, whether they succeed or not, one more changes the entry of its own key at most and keeps the
places of all keys that stay, and the keys are in the order in which they came the last time. -/
theorem keys_inOrder (there : o < st.objects.length) (distinct : (st.keys o).Nodup) (calls : List Call) :
    (∀ call : Call, Members.Follows (call.keyIn o) ((st.run calls).membersOf o)
      ((call.after (st.run calls)).membersOf o)) ∧
    ((st.run calls).keys o).Nodup ∧ (∀ key ∈ (st.run calls).keys o, ∃ n, st.CameWith calls o key n) ∧
      ((st.run calls).keys o).Pairwise (st.Precedes calls o) := by
  have distinct := nodup_keys_run there distinct calls
  refine ⟨fun call => ?_, distinct, exists_cameWith calls, pairwise_precedes there calls⟩
  rw [← run_concat]
  exact (changes_run_concat there calls call).follows distinct

/-- A key that has gone and comes back goes behind the one that has stayed. -/
theorem keys_inOrder_back :
    let a := Text.ofString "a"
    let b := Text.ofString "b"
    let st := (empty ⟨80, 80, 80⟩).run [.object .absent]
    let calls := [Call.put 0 (.ofText a) (.ofInt 1), .put 0 (.ofText b) (.ofInt 2), .remove 0 (.ofText a),
      .put 0 (.ofText a) (.ofInt 3)]
    0 < st.objects.length ∧ (st.keys 0).Nodup ∧ (st.run calls).keys 0 = [b, a] ∧ st.Precedes calls 0 b a := by
  intro a b st calls
  have there : 0 < st.objects.length := by decide
  have distinct : (st.keys 0).Nodup := by decide
  have present : (st.run calls).keys 0 = [b, a] := by decide
  have order := (keys_inOrder there distinct calls).2.2.2
  rw [present] at order
  exact ⟨there, distinct, present, List.rel_of_pairwise_cons order List.mem_cons_self⟩

end Store
end LenientJson
