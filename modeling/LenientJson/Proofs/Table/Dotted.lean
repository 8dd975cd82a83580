import LenientJson.Proofs.Table.Paths
import LenientJson.Table.Properties
import Mathlib.Data.List.Induction

/-! What the expansion of dotted keys keeps. An entry takes the place of every earlier one whose path
begins or goes on where its own does, and leaves all others as they are. -/
namespace LenientJson

theorem Text.joinWith_splitOn (separator : CodePoint) (t : Text) :
    Text.joinWith [separator] (Text.splitOn separator t) = t := by
  induction t with
  | nil => rfl
  | cons c t ih =>
    rw [splitOn]
    cases pieces : splitOn separator t with
    | nil => exact absurd pieces (splitOn_ne_nil separator t)
    | cons piece rest =>
      rw [pieces] at ih
      split
      · next same =>
        rw [joinWith, ih, same]
        · rfl
        · simp
      · cases rest with
        | nil => exact congrArg (c :: ·) ih
        | cons next rest => exact congrArg (c :: ·) ih

namespace Table
open Value (Shows IsNest)

def segments (key : Text) : List Text := Text.splitOn Symbol.dot key

theorem segments_injective {key other : Text} (same : segments key = segments other) : key = other := by
  rw [← Text.joinWith_splitOn Symbol.dot key, ← Text.joinWith_splitOn Symbol.dot other]
  exact congrArg _ same

/-- One path is a proper beginning of the other. -/
def Collide (path other : List Text) : Prop := path ≠ other ∧ (path <+: other ∨ other <+: path)

instance (path other : List Text) : Decidable (Collide path other) := inferInstanceAs (Decidable (_ ∧ _))

/-- The entries that collide with no later one. -/
def survivors : Table → Table
  | [] => []
  | entry :: later =>
    if ∃ other ∈ later, Collide (segments entry.1) (segments other.1) then survivors later
    else entry :: survivors later

theorem mem_of_mem_survivors {table : Table} {entry : Text × Text} (survives : entry ∈ survivors table) :
    entry ∈ table := by
  induction table with
  | nil => exact survives
  | cons first later ih =>
    rw [survivors] at survives
    split at survives
    · exact List.mem_cons_of_mem _ (ih survives)
    · rcases List.mem_cons.mp survives with rfl | survives
      · exact List.mem_cons_self
      · exact List.mem_cons_of_mem _ (ih survives)

theorem mem_survivors_concat {table : Table} {last entry : Text × Text} : entry ∈ survivors (table ++ [last]) ↔
    entry = last ∨ entry ∈ survivors table ∧ ¬ Collide (segments entry.1) (segments last.1) := by
  induction table with
  | nil => simp [survivors]
  | cons first later ih =>
    simp only [List.cons_append, survivors, List.mem_append, List.mem_singleton, or_and_right, exists_or,
      exists_eq_left]
    by_cases gone : ∃ other ∈ later, Collide (segments first.1) (segments other.1)
    · simp only [gone, true_or, if_true, ih]
    by_cases replaced : Collide (segments first.1) (segments last.1)
    · have other (stays : ¬ Collide (segments entry.1) (segments last.1)) : entry ≠ first := by
        rintro rfl
        exact stays replaced
      simp only [gone, replaced, or_true, if_true, if_false, ih, List.mem_cons]
      tauto
    · have stays (same : entry = first) : ¬ Collide (segments entry.1) (segments last.1) := by rwa [same]
      simp only [gone, replaced, or_self, if_false, List.mem_cons, ih]
      tauto

/-- The object that a segment leads to on the way, made anew if need be. -/
def innerOf (segment : Text) (m : Members Tree) : Members Tree :=
  match m.find? segment with
  | some (.object inner) => inner
  | _ => []

theorem place_cons (v : Tree) (segment next : Text) (path : List Text) (m : Members Tree) :
    place v (segment :: next :: path) m =
      m.insert segment (.object (place v (next :: path) (innerOf segment m))) := rfl

theorem shows_innerOf {segment next : Text} {path : List Text} {m : Members Tree} {t : Text} :
    Shows (.object (innerOf segment m)) (next :: path) t ↔ Shows (.object m) (segment :: next :: path) t := by
  rw [Shows, Shows, Value.walk_cons_object segment, innerOf]
  cases found : m.find? segment with
  | none => simp [Members.find?]
  | some v =>
    cases v with
    | object inner => simp
    | scalar leaf => simp [Members.find?]
    | array elements => simp [Members.find?, Value.walk]
    | link target => cases target

theorem not_shows_nil {m : Members Tree} {t : Text} : ¬ Shows (.object m) [] t := by simp [Shows]

theorem shows_insert_self {key : Text} {v : Tree} {m : Members Tree} {path : List Text} {t : Text} :
    Shows (.object (m.insert key v)) (key :: path) t ↔ v.Shows path t := by simp [Shows]

theorem shows_insert_of_ne {key other : Text} (different : other ≠ key) {v : Tree} {m : Members Tree}
    {path : List Text} {t : Text} :
    Shows (.object (m.insert key v)) (other :: path) t ↔ Shows (.object m) (other :: path) t := by
  simp [Shows, Members.find?_insert_of_ne different]

/-- A text that is placed is shown at its path, and elsewhere what was shown before, except where the one
path begins with the other. -/
theorem shows_place {path : List Text} (some : path ≠ []) {m : Members Tree} {t s : Text} {p : List Text} :
    Shows (.object (place (.scalar (.text t)) path m)) p s ↔
      p = path ∧ s = t ∨ Shows (.object m) p s ∧ ¬ path <+: p ∧ ¬ p <+: path := by
  induction path generalizing m p with
  | nil => exact absurd rfl some
  | cons segment path ih =>
    cases p with
    | nil => simp [not_shows_nil]
    | cons first p =>
      by_cases different : first ≠ segment
      · cases path with
        | nil => simp [place, shows_insert_of_ne different, different, different.symm, List.cons_prefix_cons]
        | cons next path =>
          simp [place_cons, shows_insert_of_ne different, different, different.symm, List.cons_prefix_cons]
      · obtain rfl := not_not.mp different
        cases path with
        | nil =>
          rw [place, shows_insert_self]
          cases p <;> simp [Shows, eq_comm]
        | cons next path =>
          rw [place_cons, shows_insert_self, ih (by simp)]
          cases p with
          | nil => simp [not_shows_nil]
          | cons second p => simp [shows_innerOf, List.cons_prefix_cons]

/-! An object of nests stays one. -/

theorem place_ne_nil (v : Tree) {path : List Text} (some : path ≠ []) (m : Members Tree) : place v path m ≠ [] := by
  match path with
  | [] => exact absurd rfl some
  | [key] => exact Members.insert_ne_nil key v m
  | segment :: next :: path => exact Members.insert_ne_nil segment _ m

theorem isMapTo_innerOf {m : Members Tree} (map : m.IsMapTo IsNest) (segment : Text) :
    (innerOf segment m).IsMapTo IsNest := by
  unfold innerOf
  split
  · next inner found =>
    cases map.each _ (Members.mem_of_find?_eq_some found) with
    | object _ distinct each => exact ⟨distinct, each⟩
  · exact Members.isMapTo_nil

theorem isMapTo_place {m : Members Tree} (map : m.IsMapTo IsNest) (t : Text) (path : List Text) :
    (place (.scalar (.text t)) path m).IsMapTo IsNest := by
  induction path generalizing m with
  | nil => exact map
  | cons segment path ih =>
    cases path with
    | nil => exact map.insert segment (.text t)
    | cons next path =>
      have inside := ih (isMapTo_innerOf map segment)
      exact map.insert segment (.object (place_ne_nil _ (by simp) _) inside.distinct inside.each)

/-! Tables, by what their last entry does. -/

theorem segments_ne_nil (key : Text) : segments key ≠ [] := Text.splitOn_ne_nil Symbol.dot key

theorem expand_concat (table : Table) (last : Text × Text) :
    expand (table ++ [last]) = place (.scalar (.text last.2)) (segments last.1) (expand table) := by
  simp [expand, segments]

theorem isMapTo_expand (table : Table) : (expand table).IsMapTo IsNest := by
  induction table using List.reverseRecOn with
  | nil => exact Members.isMapTo_nil
  | append_singleton table last ih =>
    rw [expand_concat]
    exact isMapTo_place ih last.2 (segments last.1)

/-- An expanded table shows its surviving entries. -/
theorem shows_expand {table : Table} (distinct : table.keys.Nodup) {path : List Text} {t : Text} :
    Shows (.object (expand table)) path t ↔ ∃ entry ∈ survivors table, path = segments entry.1 ∧ t = entry.2 := by
  induction table using List.reverseRecOn with
  | nil => simp [expand, survivors, Value.shows_object, Members.find?]
  | append_singleton table last ih =>
    have fresh : last.1 ∉ Members.keys table := Members.fresh_of_nodup distinct
    rw [Members.keys, List.map_append] at distinct
    have apart {entry : Text × Text} (survives : entry ∈ survivors table) :
        ¬ Collide (segments entry.1) (segments last.1) ↔
          ¬ segments last.1 <+: segments entry.1 ∧ ¬ segments entry.1 <+: segments last.1 := by
      have different : segments entry.1 ≠ segments last.1 := by
        intro same
        rw [← segments_injective same] at fresh
        exact fresh (List.mem_map_of_mem (mem_of_mem_survivors survives))
      simp only [Collide, ne_eq, different, not_false_eq_true, true_and, not_or]
      exact and_comm
    rw [expand_concat, shows_place (segments_ne_nil last.1), ih distinct.of_append_left]
    simp only [mem_survivors_concat]
    constructor
    · rintro (⟨rfl, rfl⟩ | ⟨⟨entry, survives, rfl, rfl⟩, stays⟩)
      · exact ⟨last, .inl rfl, rfl, rfl⟩
      · exact ⟨entry, .inr ⟨survives, (apart survives).mpr stays⟩, rfl, rfl⟩
    · rintro ⟨entry, rfl | ⟨survives, stays⟩, rfl, rfl⟩
      · exact .inl ⟨rfl, rfl⟩
      · exact .inr ⟨⟨entry, survives, rfl, rfl⟩, (apart survives).mp stays⟩

def leafOf (entry : Text × Text) : List Text × Tree := (segments entry.1, .scalar (.text entry.2))

theorem mem_leaves_expand {table : Table} (distinct : table.keys.Nodup) (leaf : List Text × Tree) :
    leaf ∈ Value.leaves (.object (expand table)) ↔ leaf ∈ (survivors table).map leafOf := by
  obtain ⟨path, leaf⟩ := leaf
  have map := isMapTo_expand table
  rw [Value.isLaidOut_object map.distinct (fun entry member => (map.each entry member).isLaidOut) path leaf]
  simp only [shows_expand distinct, List.mem_map, leafOf, Prod.mk.injEq]
  constructor
  · rintro ⟨t, rfl, entry, survives, rfl, rfl⟩
    exact ⟨entry, survives, rfl, rfl⟩
  · rintro ⟨entry, survives, rfl, rfl⟩
    exact ⟨entry.2, rfl, entry, survives, rfl, rfl⟩

/-- Whether no path of a table begins with another one. -/
def IsPrefixFree (table : Table) : Prop :=
  ∀ key ∈ table.keys, ∀ other ∈ table.keys, segments key <+: segments other → key = other

theorem IsPrefixFree.tail {first : Text × Text} {later : Table} (free : IsPrefixFree (first :: later)) :
    IsPrefixFree later :=
  fun key member other member' => free key (List.mem_cons_of_mem _ member) other (List.mem_cons_of_mem _ member')

theorem IsPrefixFree.perm {table other : Table} (free : table.IsPrefixFree) (perm : other.Perm table) :
    other.IsPrefixFree :=
  have keys : (Members.keys other).Perm (Members.keys table) := perm.map Prod.fst
  fun key member next member' => free key (keys.mem_iff.mp member) next (keys.mem_iff.mp member')

/-- Where no path begins with another one, nothing is lost. -/
theorem mem_survivors_of_prefixFree {table : Table} (free : table.IsPrefixFree) {entry : Text × Text} :
    entry ∈ survivors table ↔ entry ∈ table := by
  refine ⟨mem_of_mem_survivors, fun member => ?_⟩
  induction table with
  | nil => exact member
  | cons first later ih =>
    have keeps : ¬ ∃ other ∈ later, Collide (segments first.1) (segments other.1) := by
      rintro ⟨other, member, different, collides⟩
      have there := List.mem_cons_of_mem first.1 (List.mem_map_of_mem (f := Prod.fst) member)
      refine different (congrArg segments ?_)
      rcases collides with begins | begins
      · exact free first.1 List.mem_cons_self other.1 there begins
      · exact (free other.1 there first.1 List.mem_cons_self begins).symm
    rw [survivors, if_neg keeps]
    exact List.mem_cons.mpr ((List.mem_cons.mp member).imp id (ih free.tail))

/-- Where no path begins with another one, the order of the entries does not matter. -/
theorem expand_of_perm {table other : Table} (distinct : table.keys.Nodup) (free : table.IsPrefixFree)
    (perm : other.Perm table) :
    Value.similar (.object (expand table)) (.object (expand other)) = .ok true ∧
      ∀ leaf, leaf ∈ Value.leaves (.object (expand other)) ↔ leaf ∈ table.map leafOf := by
  have distinct' : (Members.keys other).Nodup := (perm.map Prod.fst).nodup_iff.mpr distinct
  have survive {entry : Text × Text} : entry ∈ survivors other ↔ entry ∈ table :=
    (mem_survivors_of_prefixFree (free.perm perm)).trans perm.mem_iff
  have map := isMapTo_expand table
  constructor
  · refine Value.similar_object_of_showSame map (isMapTo_expand other) (fun path t => ?_)
      fun entry member _ nest => (map.each entry member).similar_of_showSame nest
    simp only [shows_expand distinct, shows_expand distinct', survive, mem_survivors_of_prefixFree free]
  · intro leaf
    simp only [mem_leaves_expand distinct', List.mem_map, survive]

end Table
end LenientJson
