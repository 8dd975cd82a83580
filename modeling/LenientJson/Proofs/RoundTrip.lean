import LenientJson.Proofs.Similar
import LenientJson.Proofs.Strict.Parsing
import LenientJson.Proofs.Strict.Writing

/-! Documents that are written and read again. What is written is strict JSON, and strict JSON is read with
its meaning; so it remains to compare a document with the meaning of the JSON that stands for it. The keys
are the same, a number may come back as the integer that it is, and the second text is the first. -/
namespace LenientJson
open Strict

/-! Leaves. -/

namespace Scalar

theorem content_of_units {d : Double} {n : Int} (units : d.units? = some (n * twoTo 1074)) :
    (float d).content? = some (.number n) := by
  rw [content?, Double.toRat?_of_units units, Option.map_some]

/-- Leaves that a text of strict JSON gives back: null, truth values, texts, integers of 64 bits, and finite
numbers except negative zero. -/
def Returns : Scalar → Prop
  | null | bool _ => True
  | text value => value.IsValid
  | int n => minInt64 ≤ n ∧ n ≤ maxInt64
  | float (.finite negative rank) => negative = true → 0 < rank.val
  | _ => False

theorem Returns.isShowable (leaf : Scalar) (returns : leaf.Returns) : leaf.IsShowable := by
  cases leaf with
  | null | bool | int => trivial
  | text value => exact returns
  | float value =>
    cases value with
    | finite negative rank => rfl
    | _ => cases returns
  | _ => cases returns

theorem Returns.isShort (leaf : Scalar) (returns : leaf.Returns) : leaf.IsShort := by
  cases leaf with
  | int n => exact isShort_of_int64 returns.1 returns.2
  | fraction => cases returns
  | _ => trivial

/-- What comes back for a leaf: something equal that has the same text. -/
structure ComesBack (leaf back : Scalar) : Prop where
  like : leaf.like back = .ok true
  liked : back.like leaf = .ok true
  rewritten : back.json = leaf.json

theorem like_of_content {a b : Scalar} {content : Content} (left : a.content? = some content)
    (right : b.content? = some content) : a.like b = .ok true := by
  rw [like_eq_decide left right, decide_eq_true rfl]

theorem like_self {leaf : Scalar} (returns : leaf.Returns) : leaf.like leaf = .ok true := by
  cases leaf with
  | float value =>
    cases value with
    | finite => exact like_of_content rfl rfl
    | _ => cases returns
  | null | bool | text | int => exact like_of_content rfl rfl
  | _ => cases returns

theorem comesBack {leaf : Scalar} {json : Json} (returns : leaf.Returns) (shows : leaf.Shows json) :
    ∃ back, json.meaning = .scalar back ∧ leaf.ComesBack back := by
  have same := like_self returns
  cases shows with
  | null => exact ⟨_, rfl, same, same, rfl⟩
  | bool value => exact ⟨_, rfl, same, same, rfl⟩
  | string isSpoken plain =>
    cases leaf with
    | text value =>
      cases plain
      exact ⟨_, rfl, same, same, rfl⟩
    | date | foreign => cases returns
    | _ => cases isSpoken
  | @number _ token isNumber canonical =>
    cases leaf with
    | int n =>
      obtain rfl : signedDecimalText n = token :=
        Except.ok.inj ((integerText_of_isShort (Returns.isShort _ returns)).symm.trans canonical)
      refine ⟨.int n, ?_, same, same, rfl⟩
      rw [Json.meaning, numberValue_signedDecimalText returns.1 returns.2]
    | float value =>
      cases value with
      | finite negative rank =>
        have written := canonicalNumber_float (d := .finite negative rank) rfl
        obtain rfl : shaved (Double.text (.finite negative rank)) = token := Except.ok.inj (written.symm.trans canonical)
        rw [Json.meaning]
        rcases numberValue_canonical returns with ⟨n, value, rewritten, units⟩ | value
        · rw [value]
          have content := content_of_units units
          exact ⟨.int n, rfl, like_of_content content rfl, like_of_content rfl content, rewritten.trans written.symm⟩
        · rw [value]
          exact ⟨_, rfl, same, same, rfl⟩
      | _ => cases returns
    | decimal => cases returns
    | _ => cases isNumber

end Scalar

/-! Documents. -/

namespace Value

/-- What comes back for a document: one with the same keys in the same order at every level, similar to it,
and with the same text in every layout. -/
structure ComesBack (v back : Tree) : Prop where
  skeleton : back.skeleton = v.skeleton
  similar : v.similar back = .ok true
  similar' : back.similar v = .ok true
  rewritten : ∀ l depth, write l depth back = write l depth v

def MemberComesBack (member back : Text × Tree) : Prop := member.1 = back.1 ∧ member.2.ComesBack back.2

def ElementComesBack (element back : Option Tree) : Prop :=
  ∃ value value', element = some value ∧ back = some value' ∧ value.ComesBack value'

theorem similarMembers_of_alike {mine theirs : Members Tree} (before : Members Tree)
    (alike : List.Forall₂ (fun a b : Text × Tree => a.1 = b.1 ∧ a.2.similar b.2 = .ok true) mine theirs)
    (distinct : (Members.keys (before ++ theirs)).Nodup) : similarMembers mine (before ++ theirs) = .ok true := by
  induction alike generalizing before with
  | nil => rfl
  | @cons mine theirs restMine restTheirs entry others ih =>
    obtain ⟨key, value⟩ := mine
    obtain ⟨key', value'⟩ := theirs
    obtain ⟨rfl, similar⟩ := entry
    have fresh := Members.fresh_of_nodup distinct
    have further := ih (before ++ [(key, value')]) (by rwa [List.append_assoc])
    rw [List.append_assoc] at further
    simp only [similarMembers, Members.find?_append_self fresh, similar]
    exact further

theorem similar_object {mine theirs : Members Tree}
    (alike : List.Forall₂ (fun a b : Text × Tree => a.1 = b.1 ∧ a.2.similar b.2 = .ok true) mine theirs)
    (same : Members.keys theirs = Members.keys mine) (distinct : (Members.keys theirs).Nodup) :
    similar (.object mine) (.object theirs) = .ok true := by
  have members := similarMembers_of_alike [] alike distinct
  have keys := (Members.sameKeys_iff (same ▸ distinct) distinct).mpr fun key => by rw [same]
  rw [List.nil_append] at members
  simp only [similar, keys, if_true, members]

theorem similar_array {mine theirs : List (Option Tree)} (alike : List.Forall₂ ElementsAlike mine theirs) :
    similar (.array mine) (.array theirs) = .ok true := by
  have elements := similarElements_append alike [] []
  rw [List.append_nil, List.append_nil] at elements
  rw [similar, if_pos alike.length_eq, elements]
  rfl

section Members

variable {members back : Members Tree} {l : Layout} {depth : Nat}

theorem keys_of_comesBack (entries : List.Forall₂ MemberComesBack members back) :
    Members.keys back = Members.keys members := by
  induction entries with
  | nil => rfl
  | cons entry others ih => exact congrArg₂ List.cons entry.1.symm ih

theorem memberSkeletons_of_comesBack (entries : List.Forall₂ MemberComesBack members back) :
    memberSkeletons back = memberSkeletons members := by
  induction entries with
  | nil => rfl
  | cons entry others ih => simp only [memberSkeletons, entry.1, entry.2.skeleton, ih]

theorem writeMember_of_comesBack {member back : Text × Tree} (entry : MemberComesBack member back) :
    writeMember l depth back = writeMember l depth member := by
  obtain ⟨key, value⟩ := member
  obtain ⟨key', value'⟩ := back
  obtain ⟨rfl, comesBack⟩ := entry
  simp only [writeMember, comesBack.rewritten]

theorem writeMembers_of_comesBack (entries : List.Forall₂ MemberComesBack members back) :
    writeMembers l depth back = writeMembers l depth members := by
  induction entries with
  | nil => rfl
  | cons entry others ih => simp only [writeMembers, writeMember_of_comesBack entry, ih]

theorem comesBack_object (entries : List.Forall₂ MemberComesBack members back) (distinct : (Members.keys members).Nodup) :
    ComesBack (.object members) (.object back) := by
  have keys := keys_of_comesBack entries
  constructor
  · simp only [skeleton, memberSkeletons_of_comesBack entries]
  · refine similar_object (entries.imp fun _ _ entry => ⟨entry.1, entry.2.similar⟩) keys ?_
    rwa [keys]
  · refine similar_object (List.Forall₂.flip (entries.imp fun _ _ entry => ?_)) keys.symm distinct
    exact ⟨entry.1.symm, entry.2.similar'⟩
  · intro l depth
    cases entries with
    | nil => rfl
    | cons first others =>
      cases others with
      | nil => simp only [write, first.1, first.2.rewritten]
      | cons second others =>
        simp only [write, writeMember_of_comesBack first, writeMembers_of_comesBack (.cons second others)]

end Members

section Elements

variable {elements back : List (Option Tree)} {l : Layout} {depth : Nat}

theorem elementSkeletons_of_comesBack (entries : List.Forall₂ ElementComesBack elements back) :
    elementSkeletons back = elementSkeletons elements := by
  induction entries with
  | nil => rfl
  | cons entry others ih =>
    obtain ⟨v, w, rfl, rfl, comesBack⟩ := entry
    simp only [elementSkeletons, comesBack.skeleton, ih]

theorem writeElement_of_comesBack {element back : Option Tree} (entry : ElementComesBack element back) :
    writeElement l depth back = writeElement l depth element := by
  obtain ⟨v, w, rfl, rfl, comesBack⟩ := entry
  simp only [writeElement, comesBack.rewritten]

theorem writeElements_of_comesBack (entries : List.Forall₂ ElementComesBack elements back) :
    writeElements l depth back = writeElements l depth elements := by
  induction entries with
  | nil => rfl
  | cons entry others ih => simp only [writeElements, writeElement_of_comesBack entry, ih]

theorem comesBack_array (entries : List.Forall₂ ElementComesBack elements back) :
    ComesBack (.array elements) (.array back) := by
  constructor
  · simp only [skeleton, elementSkeletons_of_comesBack entries]
  · exact similar_array (entries.imp fun _ _ ⟨v, w, left, right, entry⟩ => ⟨v, w, left, right, entry.similar⟩)
  · exact similar_array (List.Forall₂.flip (entries.imp fun _ _ ⟨v, w, left, right, entry⟩ =>
      ⟨w, v, right, left, entry.similar'⟩))
  · intro l depth
    cases entries with
    | nil => rfl
    | cons first others =>
      cases others with
      | nil => simp only [write, writeElement_of_comesBack first]
      | cons second others =>
        simp only [write, writeElement_of_comesBack first, writeElements_of_comesBack (.cons second others)]

end Elements

/-- A document that a round trip concerns: every leaf can return, no array has a gap, and the keys of each
object differ. -/
structure IsDocument (v : Tree) : Prop where
  leaves : v.Every Scalar.Returns
  full : v.IsFull
  keys : v.KeysDiffer

end Value

mutual
theorem comesBack_of_shows {v : Tree} {json : Json} (shows : Shows v json) (leaves : v.Every Scalar.Returns) (full : v.IsFull)
    (keys : v.KeysDiffer) : v.ComesBack json.meaning := by
  match shows with
  | .leaf shows =>
    obtain ⟨back, meaning, comesBack⟩ := Scalar.comesBack leaves shows
    rw [meaning]
    exact ⟨rfl, comesBack.like, comesBack.liked, fun l depth => congrArg Emission.ofExcept comesBack.rewritten⟩
  | .object inside => exact Value.comesBack_object (membersComeBack_of_shows inside leaves full keys.2) keys.1
  | .array inside => exact Value.comesBack_array (elementsComeBack_of_shows inside leaves full keys)

theorem membersComeBack_of_shows {members : List (Text × Tree)} {shown : List (Text × Json)}
    (shows : ShowsMembers members shown) (leaves : Value.EveryMember Scalar.Returns members)
    (full : Value.MembersFull members) (keys : Value.MemberKeysDiffer members) :
    List.Forall₂ Value.MemberComesBack members (Json.memberMeanings shown) := by
  match shows with
  | .nil => exact .nil
  | .cons first others =>
    exact .cons ⟨rfl, comesBack_of_shows first leaves.2.1 full.1 keys.1⟩
      (membersComeBack_of_shows others leaves.2.2 full.2 keys.2)

theorem elementsComeBack_of_shows {elements : List (Option Tree)} {shown : List Json} (shows : ShowsElements elements shown)
    (leaves : Value.EveryElement Scalar.Returns elements) (full : Value.ElementsFull elements)
    (keys : Value.ElementKeysDiffer elements) :
    List.Forall₂ Value.ElementComesBack elements (Json.elementMeanings shown) := by
  match shows with
  | .nil => exact .nil
  | .absent _ => exact absurd full id
  | .present first others =>
    exact .cons ⟨_, _, rfl, rfl, comesBack_of_shows first leaves.1 full.1 keys.1⟩
      (elementsComeBack_of_shows others leaves.2 full.2 keys.2)
end

theorem keys_of_shows {members : List (Text × Tree)} {shown : List (Text × Json)} (shows : ShowsMembers members shown) :
    shown.map Prod.fst = Members.keys members := by
  match shows with
  | .nil => rfl
  | .cons _ others => exact congrArg (List.cons _) (keys_of_shows others)

mutual
theorem keysDiffer_of_shows {v : Tree} {json : Json} (shows : Shows v json) (keys : v.KeysDiffer) : json.KeysDiffer := by
  match shows with
  | .leaf shows => cases shows <;> trivial
  | .object inside =>
    refine ⟨?_, memberKeysDiffer_of_shows inside keys.2⟩
    rw [keys_of_shows inside]
    exact keys.1
  | .array inside => exact elementKeysDiffer_of_shows inside keys

theorem memberKeysDiffer_of_shows {members : List (Text × Tree)} {shown : List (Text × Json)}
    (shows : ShowsMembers members shown) (keys : Value.MemberKeysDiffer members) : Json.MemberKeysDiffer shown := by
  match shows with
  | .nil => trivial
  | .cons first others => exact ⟨keysDiffer_of_shows first keys.1, memberKeysDiffer_of_shows others keys.2⟩

theorem elementKeysDiffer_of_shows {elements : List (Option Tree)} {shown : List Json} (shows : ShowsElements elements shown)
    (keys : Value.ElementKeysDiffer elements) : Json.ElementKeysDiffer shown := by
  match shows with
  | .nil => trivial
  | .absent others => exact ⟨trivial, elementKeysDiffer_of_shows others keys⟩
  | .present first others => exact ⟨keysDiffer_of_shows first keys.1, elementKeysDiffer_of_shows others keys.2⟩
end

namespace Value

theorem IsDocument.isShowable {v : Tree} (document : v.IsDocument) : v.Every Scalar.IsShowable :=
  Every.imp Scalar.Returns.isShowable v document.leaves

theorem IsDocument.isShort {v : Tree} (document : v.IsDocument) : v.EveryLeaf Scalar.IsShort :=
  EveryLeaf.imp Scalar.Returns.isShort v (Every.leaves v document.leaves)

theorem exists_comesBack {l : Layout} {members : Members Tree} (document : IsDocument (.object members))
    (fits : l.Fits (.object members)) :
    ∃ back, parseObject (write l 0 (.object members)).text = .ok back ∧ ComesBack (.object members) (.object back) := by
  obtain ⟨json, shows, value⟩ := exists_written document.isShowable document.isShort fits
  have differ := keysDiffer_of_shows shows document.keys
  have comesBack := comesBack_of_shows shows document.leaves document.full document.keys
  cases shows with
  | @object _ shown inside =>
    have text := isPadded_of_value value areSpaces_nil
    rw [List.append_nil] at text
    exact ⟨_, parseObject_of_strict text differ, comesBack⟩

/-- Document round trip. An object is written to its end just when the layout has room for its lines. Then
the text is parsed to an object with the same keys in the same order at every level, similar to the
original in either direction, which the same layout writes as the same text. -/
theorem write_parseObject (l : Layout) {members : Members Tree} (document : IsDocument (.object members)) :
    ((write l 0 (.object members)).fault = none ↔ l.Fits (.object members)) ∧
      (l.Fits (.object members) → ∃ back, parseObject (write l 0 (.object members)).text = .ok back ∧
        skeleton (.object back) = skeleton (.object members) ∧
        similar (.object members) (.object back) = .ok true ∧ similar (.object back) (.object members) = .ok true ∧
        write l 0 (.object back) = write l 0 (.object members)) := by
  refine ⟨(write_fault_iff_isShort document.isShowable).trans (and_iff_right document.isShort), fun fits => ?_⟩
  obtain ⟨back, parsed, comesBack⟩ := exists_comesBack document fits
  exact ⟨back, parsed, comesBack.skeleton, comesBack.similar, comesBack.similar', comesBack.rewritten l 0⟩

/-- A lone half of a surrogate pair in a key, and a number that is an integer. -/
theorem write_parseObject_surrogate : ∃ members back : Members Tree,
    members = [([0xD800], .array [some (.scalar (.bool true)),
      some (.scalar (.float (.finite true ⟨1023 * twoTo 52, by decide⟩)))])] ∧ IsDocument (.object members) ∧
      parseObject (write ⟨4, -1, 80⟩ 0 (.object members)).text = .ok back ∧
      similar (.object members) (.object back) = .ok true ∧
      write ⟨4, -1, 80⟩ 0 (.object back) = write ⟨4, -1, 80⟩ 0 (.object members) := by
  have document : IsDocument (.object [([0xD800], .array [some (.scalar (.bool true)),
      some (.scalar (.float (.finite true ⟨1023 * twoTo 52, by decide⟩)))])]) :=
    ⟨⟨by decide, ⟨trivial, fun _ => by decide, trivial⟩, trivial⟩, ⟨⟨trivial, trivial, trivial⟩, trivial⟩,
      ⟨by decide, ⟨trivial, trivial, trivial⟩, trivial⟩⟩
  obtain ⟨back, parsed, -, similar, -, same⟩ := (write_parseObject ⟨4, -1, 80⟩ document).2 (by decide)
  exact ⟨_, back, rfl, document, parsed, similar, same⟩

/-- With a margin beyond 64 bits nothing but an opening brace is written, which cannot be parsed. -/
theorem write_not_parsed :
    ∃ (l : Layout) (members : Members Tree), IsDocument (.object members) ∧
      ∀ back, parseObject (write l 0 (.object members)).text ≠ .ok back := by
  refine ⟨⟨1, minInt64 - 2, 80⟩, [([0x61], .scalar (.int 1)), ([0x62], .scalar (.int 2))], ?_, fun back parsed => ?_⟩
  · have fits : minInt64 ≤ 1 ∧ 1 ≤ maxInt64 ∧ minInt64 ≤ 2 ∧ 2 ≤ maxInt64 := by decide
    exact ⟨⟨by decide, ⟨fits.1, fits.2.1⟩, by decide, fits.2.2, trivial⟩, ⟨trivial, trivial, trivial⟩,
      ⟨by decide, trivial, trivial, trivial⟩⟩
  · obtain ⟨fault, broken⟩ : ∃ fault, parseObject [Symbol.leftBrace, Symbol.lineFeed] = .error fault := ⟨_, rfl⟩
    exact absurd (broken.symm.trans parsed) nofun

end Value
end LenientJson
