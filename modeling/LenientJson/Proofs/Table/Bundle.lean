import LenientJson.Directory
import LenientJson.Proofs.Host.Document
import LenientJson.Proofs.Table.Dotted
import LenientJson.Proofs.Table.Properties
import LenientJson.Table.Bundle

/-! Which value a bundle shows. The most specific file settles what a key maps to, yet a key keeps the place
that the first file gave it; so an entry of a file in between that collides with it still comes
later, and hides it when the table is expanded. -/
namespace LenientJson

namespace Table
open Value (Shows)

/-- No key from this one on collides with it. -/
def Stays (key : Text) (keys : List Text) : Prop :=
  ∀ other ∈ keys.dropWhile (· ≠ key), ¬ Collide (segments key) (segments other)

variable {key : Text} {keys others : List Text}

theorem dropWhile_append_of_mem (member : key ∈ keys) :
    (keys ++ others).dropWhile (· ≠ key) = keys.dropWhile (· ≠ key) ++ others := by
  induction keys with
  | nil => cases member
  | cons first keys ih =>
    by_cases same : first = key
    · simp [same]
    · have further : key ∈ keys := (List.mem_cons.mp member).resolve_left (Ne.symm same)
      simpa [same] using ih further

theorem dropWhile_append_of_not_mem (fresh : key ∉ keys) :
    (keys ++ others).dropWhile (· ≠ key) = others.dropWhile (· ≠ key) := by
  induction keys with
  | nil => rfl
  | cons first keys ih =>
    rw [List.mem_cons, not_or] at fresh
    simpa [Ne.symm fresh.1] using ih fresh.2

theorem stays_append_of_mem (member : key ∈ keys) :
    Stays key (keys ++ others) ↔ Stays key keys ∧ ∀ other ∈ others, ¬ Collide (segments key) (segments other) := by
  rw [Stays, dropWhile_append_of_mem member, List.forall_mem_append]
  rfl

theorem stays_append_of_not_mem (fresh : key ∉ keys) : Stays key (keys ++ others) ↔ Stays key others := by
  rw [Stays, dropWhile_append_of_not_mem fresh]
  rfl

theorem stays_of_apart (apart : ∀ other ∈ keys, ¬ Collide (segments key) (segments other)) : Stays key keys :=
  fun other member => apart other ((List.dropWhile_suffix _).subset member)

theorem mem_survivors_iff {table : Table} (distinct : table.keys.Nodup) {entry : Text × Text} :
    entry ∈ survivors table ↔ entry ∈ table ∧ Stays entry.1 table.keys := by
  induction table with
  | nil => simp [survivors]
  | cons first later ih =>
    have fresh : first.1 ∉ Members.keys later := (List.nodup_cons.mp distinct).1
    have distinct' : (Members.keys later).Nodup := (List.nodup_cons.mp distinct).2
    by_cases same : entry.1 = first.1
    · have absent : entry ∉ later := fun member => fresh (same ▸ List.mem_map_of_mem member)
      have lost : entry ∉ survivors later := fun member => absent (mem_of_mem_survivors member)
      have collisions : Stays entry.1 (Members.keys (first :: later)) ↔
          ¬ ∃ other ∈ later, Collide (segments first.1) (segments other.1) := by
        simp [Stays, same, Members.keys, Collide]
      rw [survivors, collisions]
      split
      · next gone => simp [gone, lost]
      · next kept => simp [kept, absent, lost]
    · have other : entry ≠ first := fun equal => same (congrArg Prod.fst equal)
      have stays : Stays entry.1 (Members.keys (first :: later)) ↔ Stays entry.1 (Members.keys later) := by
        simp [Stays, Members.keys, Ne.symm same]
      rw [survivors, stays, List.mem_cons, or_iff_right other, ← ih distinct']
      split <;> simp [other]

/-- An expanded table shows what it maps a key to, unless a later key collides with it. -/
theorem shows_segments_iff {table : Table} (distinct : table.keys.Nodup) {key value : Text}
    (found : table.find? key = some value) :
    Shows (.object (expand table)) (segments key) value ↔ Stays key table.keys := by
  have member := Members.mem_of_find?_eq_some found
  rw [shows_expand distinct]
  constructor
  · rintro ⟨entry, survives, same, rfl⟩
    rw [segments_injective same]
    exact ((mem_survivors_iff distinct).mp survives).2
  · intro stays
    exact ⟨(key, value), (mem_survivors_iff distinct).mpr ⟨member, stays⟩, rfl, rfl⟩

end Table

namespace Bundle
open Table (segments Collide Stays)

/-- What the lines of a file say, in order. -/
def entriesOf (text : Text) : List (Text × Text) :=
  (Text.splitOn Symbol.lineFeed (Path.plainLines text)).filterMap Table.entryOf?

def keysOf (text : Text) : List Text := Members.keys (entriesOf text)

/-- The last value that a file gives a key. -/
def lastValue? (text key : Text) : Option Text := Members.find? key (entriesOf text).reverse

/-- Files put into one another, the most specific one last. -/
def overlay (texts : List Text) : Table :=
  texts.foldl (fun table text => table.merge (Members.merge [] (entriesOf text))) []

/-- Whether no two keys of a file collide. -/
def IsApart (text : Text) : Prop :=
  ∀ key ∈ keysOf text, ∀ other ∈ keysOf text, ¬ Collide (segments key) (segments other)

theorem load_eq {contents : Text → Except Fault (Option Text)} {base root : Text} {locale : Option Text}
    {found : List (Option Text)}
    (read : (candidates base locale).mapM (fun name => contents (Path.join root name)) = .ok found)
    (some : found.filterMap id ≠ []) :
    load contents base locale root = .ok (overlay (found.filterMap id)) := by
  have tables : (fun (table : Table) text => table.merge (Members.merge [] (entriesOf text))) = fun table text =>
      table.merge (Table.ofLines (Text.splitOn Symbol.lineFeed (Path.plainLines text))) := by
    funext table text
    rw [Table.ofLines_eq_merge, entriesOf]
  rw [load, read, overlay, tables]
  simp only [bind, Except.bind]

theorem loadObject_eq {contents : Text → Except Fault (Option Text)} {base root : Text} {locale : Option Text}
    {found : List (Option Text)}
    (read : (candidates base locale).mapM (fun name => contents (Path.join root name)) = .ok found)
    (some : found.filterMap id ≠ []) :
    loadObject contents base locale root = .ok (Table.expand (overlay (found.filterMap id))) := by
  rw [loadObject, load_eq read some]
  rfl

theorem overlay_concat (texts : List Text) (last : Text) :
    overlay (texts ++ [last]) = (overlay texts).merge (Members.merge [] (entriesOf last)) := by
  simp [overlay]

theorem nodup_keys_table (text : Text) : (Members.keys (Members.merge [] (entriesOf text))).Nodup :=
  have none : (Members.keys ([] : Table)).Nodup := List.nodup_nil
  Members.nodup_keys_merge none _

theorem nodup_keys_overlay (texts : List Text) : (Members.keys (overlay texts)).Nodup := by
  induction texts using List.reverseRecOn with
  | nil => exact List.nodup_nil
  | append_singleton texts last ih =>
    rw [overlay_concat]
    exact Members.nodup_keys_merge ih _

theorem mem_keys_table {key text : Text} :
    key ∈ Members.keys (Members.merge [] (entriesOf text)) ↔ key ∈ keysOf text := by
  rw [← Members.isSome_find?_iff, Members.find?_merge, Members.find?, Option.or_none, Members.isSome_find?_iff,
    keysOf, Members.keys, List.map_reverse, List.mem_reverse]
  rfl

theorem find?_overlay_append (texts : List Text) (last key : Text) :
    (overlay (texts ++ [last])).find? key = (lastValue? last key).or ((overlay texts).find? key) := by
  rw [overlay_concat, Members.find?_merge, Members.find?_reverse (nodup_keys_table last), Members.find?_merge,
    Members.find?, Option.or_none]
  rfl

theorem find?_overlay_concat {texts : List Text} {last key value : Text} (given : lastValue? last key = some value) :
    (overlay (texts ++ [last])).find? key = some value := by
  rw [find?_overlay_append, given, Option.some_or]

theorem keys_overlay_concat (texts : List Text) (last : Text) : Members.keys (overlay (texts ++ [last])) =
    Members.keys (overlay texts) ++
      (Members.keys (Members.merge [] (entriesOf last))).filter (· ∉ Members.keys (overlay texts)) := by
  rw [overlay_concat, Members.keys_merge _ (nodup_keys_table last)]

/-- The most specific file moves no key of its own, and adds none that collides with them. -/
theorem stays_overlay_concat {texts : List Text} {last key : Text} (apart : IsApart last) (member : key ∈ keysOf last) :
    Stays key (Members.keys (overlay (texts ++ [last]))) ↔
      (key ∈ Members.keys (overlay texts) → Stays key (Members.keys (overlay texts))) := by
  have harmless : ∀ other ∈ (Members.keys (Members.merge [] (entriesOf last))).filter
      (· ∉ Members.keys (overlay texts)), ¬ Collide (segments key) (segments other) :=
    fun other there => apart key member other (mem_keys_table.mp (List.mem_of_mem_filter there))
  rw [keys_overlay_concat]
  by_cases old : key ∈ Members.keys (overlay texts)
  · rw [Table.stays_append_of_mem old, and_iff_left harmless]
    exact ⟨fun stays _ => stays, fun stays => stays old⟩
  · rw [Table.stays_append_of_not_mem old]
    exact iff_of_true (Table.stays_of_apart harmless) fun there => absurd there old

theorem keys_overlay_single (text : Text) :
    Members.keys (overlay [text]) = Members.keys (Members.merge [] (entriesOf text)) := by
  have alone := keys_overlay_concat [] text
  simpa [overlay, Members.keys] using alone

/-- Whether a file for the language adds a key that collides with one of the file for all languages. -/
def Hidden (before : List Text) (key : Text) : Prop :=
  ∃ general language, before = [general, language] ∧ key ∈ keysOf general ∧
    ∃ other ∈ keysOf language, Collide (segments key) (segments other)

theorem hidden_pair {general language key : Text} : Hidden [general, language] key ↔
    key ∈ keysOf general ∧ ∃ other ∈ keysOf language, Collide (segments key) (segments other) := by
  constructor
  · rintro ⟨_, _, same, hidden⟩
    cases same
    exact hidden
  · exact fun hidden => ⟨general, language, rfl, hidden⟩

theorem stays_overlay_pair {general language key : Text} (apart : IsApart general) (apart' : IsApart language)
    (member : key ∈ Members.keys (overlay [general, language])) :
    Stays key (Members.keys (overlay [general, language])) ↔ ¬ Hidden [general, language] key := by
  have keys := keys_overlay_concat [general] language
  rw [keys_overlay_single] at keys
  have added {other : Text} : other ∈ (Members.keys (Members.merge [] (entriesOf language))).filter
      (· ∉ Members.keys (Members.merge [] (entriesOf general))) ↔ other ∈ keysOf language ∧ other ∉ keysOf general := by
    simp [mem_keys_table]
  rw [hidden_pair]
  rw [List.singleton_append] at keys
  rw [keys] at member ⊢
  by_cases old : key ∈ keysOf general
  · rw [Table.stays_append_of_mem (mem_keys_table.mpr old)]
    have first : Stays key (Members.keys (Members.merge [] (entriesOf general))) :=
      Table.stays_of_apart fun other there => apart key old other (mem_keys_table.mp there)
    simp only [first, true_and, old, added, not_exists, not_and]
    constructor
    · exact fun stays other there collides =>
        stays other ⟨there, fun there' => apart key old other there' collides⟩ collides
    · exact fun stays other there => stays other there.1
  · rw [Table.stays_append_of_not_mem (mt mem_keys_table.mp old)]
    have new := (List.mem_append.mp member).resolve_left (mt mem_keys_table.mp old)
    exact iff_of_true (Table.stays_of_apart fun other there => apart' key (added.mp new).1 other (added.mp there).1)
      fun hidden => old hidden.1

theorem stays_overlay_iff {before : List Text} (few : before.length ≤ 2) (apart : ∀ text ∈ before, IsApart text)
    {key : Text} : (key ∈ Members.keys (overlay before) → Stays key (Members.keys (overlay before))) ↔
      ¬ Hidden before key := by
  match before with
  | [] => simp [Hidden, overlay, Members.keys]
  | [general] =>
    have alone : IsApart general := apart general List.mem_cons_self
    refine iff_of_true (fun there => Table.stays_of_apart fun other member => ?_) (by simp [Hidden])
    rw [keys_overlay_single, mem_keys_table] at there member
    exact alone key there other member
  | [general, language] =>
    have stays (member : key ∈ Members.keys (overlay [general, language])) :=
      stays_overlay_pair (apart general List.mem_cons_self) (apart language (by simp)) member
    constructor
    · intro there hidden
      have member : key ∈ Members.keys (overlay [general, language]) := by
        have keys := keys_overlay_concat [general] language
        rw [List.singleton_append] at keys
        rw [keys, keys_overlay_single]
        exact List.mem_append_left _ (mem_keys_table.mpr (hidden_pair.mp hidden).1)
      exact (stays member).mp (there member) hidden
    · exact fun shown member => (stays member).mpr shown

theorem length_of_mapM {α β : Type} {f : α → Except Fault β} {names : List α} {found : List β}
    (read : names.mapM f = .ok found) : found.length = names.length := by
  induction names generalizing found with
  | nil =>
    cases read
    rfl
  | cons name names ih =>
    rw [List.mapM_cons] at read
    obtain ⟨one, -, read⟩ := Fault.bind_eq_ok.mp read
    obtain ⟨others, further, read⟩ := Fault.bind_eq_ok.mp read
    cases read
    rw [List.length_cons, List.length_cons, ih further]

theorem length_candidates_le (base : Text) (locale : Option Text) : (candidates base locale).length ≤ 3 := by
  have forms (locale : Text) : (localeForms locale).length ≤ 2 := by
    unfold localeForms
    dsimp only
    split <;> simp
  unfold candidates
  match locale with
  | none | some [] => simp
  | some (c :: rest) =>
    have more := forms (c :: rest)
    simp only [List.length_cons, List.length_map]
    omega

/-- The more specific file wins, with one exception. In a bundle of files none of which has two keys that
collide, the path of a key of the most specific file leads to the last value that the file gives it,
unless the key is in the file for all languages and collides with one in the file for the language. -/
theorem shows_loadObject (contents : Text → Except Fault (Option Text)) (base : Text) (locale : Option Text)
    (root : Text) {found : List (Option Text)} {before : List Text} {last : Text}
    (read : (candidates base locale).mapM (fun name => contents (Path.join root name)) = .ok found)
    (existing : found.filterMap id = before ++ [last]) (apart : ∀ text ∈ before ++ [last], IsApart text) :
    ∃ members, loadObject contents base locale root = .ok members ∧
      ∀ key value, lastValue? last key = some value →
        ((Value.object members).walk (segments key) = some (.scalar (.text value)) ↔ ¬ Hidden before key) := by
  have some : found.filterMap id ≠ [] := by
    rw [existing]
    simp
  have few : before.length ≤ 2 := by
    have all := length_of_mapM read
    have most := length_candidates_le base locale
    have fewer := List.length_filterMap_le id found
    rw [existing, List.length_append, List.length_singleton] at fewer
    omega
  refine ⟨_, loadObject_eq read some, fun key value given => ?_⟩
  have member : key ∈ keysOf last := by
    have there := Members.isSome_find?_iff.mp (Option.isSome_iff_exists.mpr ⟨value, given⟩)
    rwa [Members.keys, List.map_reverse, List.mem_reverse] at there
  have apartLast : IsApart last := apart last (by simp)
  rw [existing]
  change Value.Shows _ _ _ ↔ _
  have apartBefore : ∀ text ∈ before, IsApart text := fun text there => apart text (List.mem_append_left _ there)
  rw [Table.shows_segments_iff (nodup_keys_overlay _) (find?_overlay_concat given),
    stays_overlay_concat apartLast member, stays_overlay_iff few apartBefore]

/-- Three files with the key of the first one again in the last, which gives it twice. -/
theorem shows_loadObject_region : ∃ d : Directory, d = Directory.ofFiles [
      (Text.ofString "m.properties", Text.ofString "a.b=1\n"), (Text.ofString "m_en.properties", Text.ofString "a.c=2\n"),
      (Text.ofString "m_en_US.properties", Text.ofString "a.b=3\na.b=4\n")] ∧
    ∃ members, loadObject d.contents (Text.ofString "m") (some (Text.ofString "en-US")) (Text.ofString ".") = .ok members ∧
      (Value.object members).walk [[0x61], [0x62]] = some (.scalar (.text [0x34])) := by
  refine ⟨_, rfl, ?_⟩
  have read : (candidates (Text.ofString "m") (some (Text.ofString "en-US"))).mapM (fun name => (Directory.ofFiles [
      (Text.ofString "m.properties", Text.ofString "a.b=1\n"), (Text.ofString "m_en.properties", Text.ofString "a.c=2\n"),
      (Text.ofString "m_en_US.properties", Text.ofString "a.b=3\na.b=4\n")]).contents (Path.join (Text.ofString ".") name)) =
    .ok [some (Text.ofString "a.b=1\n"), some (Text.ofString "a.c=2\n"), some (Text.ofString "a.b=3\na.b=4\n")] := rfl
  have apart : ∀ text ∈ [Text.ofString "a.b=1\n", Text.ofString "a.c=2\n"] ++ [Text.ofString "a.b=3\na.b=4\n"],
      IsApart text := by
    unfold IsApart
    decide
  obtain ⟨members, loaded, shows⟩ := shows_loadObject _ _ _ _ read rfl apart
  refine ⟨members, loaded, (shows (Text.ofString "a.b") [0x34] (by decide)).mpr fun hidden => ?_⟩
  exact absurd (hidden_pair.mp hidden).2 (by decide)

/-- The key of the first file comes again in the last, but a key of the second file stands in its way. -/
theorem loadObject_hides : ∃ d : Directory, d = Directory.ofFiles [
      (Text.ofString "m.properties", Text.ofString "a=1\n"), (Text.ofString "m_en.properties", Text.ofString "a.b=2\n"),
      (Text.ofString "m_en_US.properties", Text.ofString "a=3\n")] ∧
    (∀ text ∈ [Text.ofString "a=1\n", Text.ofString "a.b=2\n", Text.ofString "a=3\n"], IsApart text) ∧
    lastValue? (Text.ofString "a=3\n") [0x61] = some [0x33] ∧
    ∃ members, loadObject d.contents (Text.ofString "m") (some (Text.ofString "en_US")) (Text.ofString ".") = .ok members ∧
      (Value.object members).walk (segments [0x61]) ≠ some (.scalar (.text [0x33])) := by
  refine ⟨_, rfl, ?_, by decide, _, rfl, ?_⟩
  · unfold IsApart
    decide
  · have other : (Value.object [([0x61], .object [([0x62], .scalar (.text [0x32]))])]).walk (segments [0x61]) =
        some (.object [([0x62], .scalar (.text [0x32]))]) := rfl
    exact fun same => nomatch other.symm.trans same

end Bundle
end LenientJson
