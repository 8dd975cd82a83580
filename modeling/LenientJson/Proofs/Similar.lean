import LenientJson.Similar
import LenientJson.Proofs.Context
import LenientJson.Proofs.Members
import LenientJson.Proofs.Number.Quantity

/-! Likeness as an equivalence. What counts of a number is its exact value, and of any other leaf that has a
content the leaf itself; two leaves are alike just when their contents are equal. Two objects are alike just
when every key leads to like members in both or in neither, and two arrays when their elements are alike in
order. -/
namespace LenientJson

inductive Scalar.Content
  | number (value : Rat)
  | itself (leaf : Scalar)
deriving DecidableEq

namespace Scalar

/-- Numbers that are not finite, octets and user objects have no content. -/
def content? : Scalar → Option Content
  | .int value => some (.number value)
  | .float value => value.toRat?.map .number
  | .decimal (.finite numeral) => some (.number numeral.toRat)
  | .fraction value => some (.number value)
  | .decimal _ | .bytes .. | .foreign _ => none
  | other => some (.itself other)

variable {a b leaf : Scalar} {x y : Content}

theorem isIncomparable_of_content (content : leaf.content? = some x) : leaf.isIncomparable = false := by
  cases leaf with
  | foreign => cases content
  | _ => rfl

theorem eq_of_itself {other : Scalar} (content : leaf.content? = some (.itself other)) : leaf = other := by
  unfold content? at content
  split at content <;> simp_all

theorem denotes_of_quantity {q : Quantity} (content : leaf.content? = some x) (quantity : leaf.quantity? = some q)
    (other : ∀ value, leaf ≠ .bool value) : ∃ value, x = .number value ∧ q.Denotes value := by
  cases leaf with
  | bool value => exact absurd rfl (other value)
  | int n =>
    cases content
    cases quantity
    exact ⟨n, rfl, Quantity.denotes_ofInt n⟩
  | float d =>
    obtain ⟨value, finite, rfl⟩ := Option.map_eq_some_iff.mp content
    cases quantity
    exact ⟨value, rfl, Quantity.denotes_ofDouble finite⟩
  | decimal d =>
    cases d with
    | finite numeral =>
      cases content
      cases quantity
      exact ⟨numeral.toRat, rfl, Quantity.denotes_ofDecimal numeral⟩
    | _ => cases content
  | fraction value =>
    cases content
    cases quantity
    exact ⟨value, rfl, Quantity.denotes_ofRat value⟩
  | foreign => cases content
  | _ => cases quantity

theorem itself_of_quantity (content : leaf.content? = some x) (none : leaf.quantity? = none) : x = .itself leaf := by
  cases leaf <;> simp_all [content?, quantity?]

theorem equals_eq_decide (left : a.content? = some x) (right : b.content? = some y)
    (other : ∀ value, a ≠ .bool value) (other' : ∀ value, b ≠ .bool value) : a.equals b = .ok (decide (x = y)) := by
  unfold equals
  split
  · next same =>
    subst same
    cases left
    congr 1
    refine decide_eq_decide.mpr ⟨?_, ?_⟩
    · rintro rfl
      exact Option.some.inj right
    · rintro rfl
      exact eq_of_itself right
  · rw [isIncomparable_of_content left, isIncomparable_of_content right, Bool.or_false, if_neg Bool.false_ne_true]
    split
    · next p q quantity quantity' =>
      obtain ⟨value, rfl, denotes⟩ := denotes_of_quantity left quantity other
      obtain ⟨value', rfl, denotes'⟩ := denotes_of_quantity right quantity' other'
      have same : p = q ↔ value = value' := denotes.eq_iff denotes'
      simp [equalQuantities, denotes.isFinite, denotes'.isFinite, same]
    · next quantity none =>
      obtain ⟨value, rfl, -⟩ := denotes_of_quantity left quantity other
      simp [itself_of_quantity right none]
    · next none quantity =>
      obtain ⟨value, rfl, -⟩ := denotes_of_quantity right quantity other'
      simp [itself_of_quantity left none]
    · next none none' =>
      rw [itself_of_quantity left none, itself_of_quantity right none']
      split
      · simp
      · simp
      · simp
      · cases left
      · cases left
      · next texts raws dates octets objects =>
        have apart : a ≠ b := by
          rintro rfl
          cases a with
          | text t => exact texts t t rfl rfl
          | raw json => exact raws json json rfl rfl
          | date d => exact dates d d rfl rfl
          | null => contradiction
          | bytes mutable octets => cases left
          | foreign value => cases left
          | _ => cases none
        simp [apart]

/-- Leaves that have a content are alike just when it is the same. -/
theorem like_eq_decide (left : a.content? = some x) (right : b.content? = some y) : a.like b = .ok (decide (x = y)) := by
  unfold like
  split
  · cases left
    cases right
    simp
  · next value b other =>
    have apart : x ≠ y := by
      rintro rfl
      cases left
      exact other _ (eq_of_itself right)
    simp [apart]
  · next other =>
    have apart : x ≠ y := by
      rintro rfl
      cases right
      exact other _ (eq_of_itself left)
    simp [apart]
  · next other other' _ => exact equals_eq_decide left right other other'

end Scalar

namespace Members

variable {α : Type} {mine theirs : Members α}

theorem sameKeys_iff (distinct : mine.keys.Nodup) (distinct' : theirs.keys.Nodup) :
    sameKeys mine theirs = true ↔ ∀ key, key ∈ mine.keys ↔ key ∈ theirs.keys := by
  simp only [sameKeys, Bool.and_eq_true, beq_iff_eq, List.all_eq_true, isSome_find?_iff]
  constructor
  · rintro ⟨sizes, subset⟩
    have sizes : theirs.keys.length ≤ mine.keys.length := by simp [keys, sizes]
    exact fun key => ((List.subperm_of_subset distinct subset).perm_of_length_le sizes).mem_iff
  · intro same
    have sizes := ((List.perm_ext_iff_of_nodup distinct distinct').mpr same).length_eq
    exact ⟨by simpa [keys] using sizes, fun key => (same key).mp⟩

end Members

namespace Value

/-- A document in which every leaf has a content and every element is there, as are the documents whose
comparison means something. -/
inductive IsDefinite : Tree → Prop
  | scalar {leaf : Scalar} {content : Scalar.Content} (shown : leaf.content? = some content) : IsDefinite (.scalar leaf)
  | object {members : Members Tree} (distinct : members.keys.Nodup) (each : ∀ entry ∈ members, IsDefinite entry.2) :
    IsDefinite (.object members)
  | array {elements : List (Option Tree)} (full : none ∉ elements) (each : ∀ v, some v ∈ elements → IsDefinite v) :
    IsDefinite (.array elements)

/-- What a document shows: of a leaf its content, of an object what its keys lead to, in no order, and of an
array its elements in order. -/
inductive Extension
  | leaf (content : Option Scalar.Content)
  | object (members : Text → Option Extension)
  | array (elements : List (Option Extension))

mutual
def extension : Tree → Extension
  | .scalar leaf => .leaf leaf.content?
  | .object members => .object (memberExtension members)
  | .array elements => .array (elementExtensions elements)

def memberExtension : List (Text × Tree) → Text → Option Extension
  | [], _ => none
  | (k, value) :: rest, key => if k = key then some (extension value) else memberExtension rest key

def elementExtensions : List (Option Tree) → List (Option Extension)
  | [] => []
  | none :: rest => none :: elementExtensions rest
  | some value :: rest => some (extension value) :: elementExtensions rest
end

theorem memberExtension_eq (members : Members Tree) (key : Text) :
    memberExtension members key = (members.find? key).map extension := by
  induction members with
  | nil => rfl
  | cons entry rest ih =>
    obtain ⟨k, value⟩ := entry
    rw [memberExtension, Members.find?, ih]
    split <;> rfl

theorem elementExtensions_eq (elements : List (Option Tree)) :
    elementExtensions elements = elements.map (Option.map extension) := by
  induction elements with
  | nil => rfl
  | cons element rest ih => cases element <;> simp [elementExtensions, ih]

theorem similarMembers_iff {mine theirs : Members Tree} : similarMembers mine theirs = .ok true ↔
    ∀ entry ∈ mine, ∃ other, theirs.find? entry.1 = some other ∧ entry.2.similar other = .ok true := by
  induction mine with
  | nil => simp [similarMembers]
  | cons entry rest ih =>
    obtain ⟨key, value⟩ := entry
    rw [List.forall_mem_cons, ← ih, similarMembers]
    cases theirs.find? key with
    | none => simp
    | some other =>
      cases answer : value.similar other with
      | error fault => simp [answer, bind, Except.bind]
      | ok alike => cases alike <;> simp [answer, bind, Except.bind, pure, Except.pure]

/-- Two elements that are there and alike. -/
def ElementsAlike (a b : Option Tree) : Prop := ∃ v w, a = some v ∧ b = some w ∧ v.similar w = .ok true

/-- Elements at the front that are alike settle nothing. -/
theorem similarElements_append {before before' : List (Option Tree)} (alike : List.Forall₂ ElementsAlike before before')
    (mine theirs : List (Option Tree)) :
    similarElements (before ++ mine) (before' ++ theirs) = similarElements mine theirs := by
  induction alike with
  | nil => rfl
  | cons entry others ih =>
    obtain ⟨v, w, rfl, rfl, similar⟩ := entry
    simp only [List.cons_append, similarElements, similar]
    exact ih

/-- A comparison that answers yes just when the two documents show the same. -/
def Tells (v w : Tree) : Prop := ∃ answer, v.similar w = .ok answer ∧ (answer = true ↔ v.extension = w.extension)

theorem Tells.iff {v w : Tree} (tells : Tells v w) : v.similar w = .ok true ↔ v.extension = w.extension := by
  obtain ⟨answer, similar, same⟩ := tells
  rw [similar, ← same, Except.ok.injEq]

theorem similar_object_iff {mine theirs : Members Tree} (distinct : mine.keys.Nodup) (distinct' : theirs.keys.Nodup)
    (tell : ∀ entry ∈ mine, ∀ other ∈ theirs, Tells entry.2 other.2) :
    Members.sameKeys mine theirs = true ∧ similarMembers mine theirs = .ok true ↔
      ∀ key, (mine.find? key).map extension = (theirs.find? key).map extension := by
  rw [Members.sameKeys_iff distinct distinct', similarMembers_iff]
  constructor
  · rintro ⟨same, each⟩ key
    cases found : mine.find? key with
    | none => rw [Members.find?_eq_none fun member => Members.not_mem_keys found ((same key).mpr member)]
    | some value =>
      have member := Members.mem_of_find?_eq_some found
      obtain ⟨other, found', alike⟩ := each _ member
      rw [found', Option.map_some, Option.map_some,
        (tell _ member _ (Members.mem_of_find?_eq_some found')).iff.mp alike]
  · intro each
    refine ⟨fun key => ?_, fun entry member => ?_⟩
    · rw [← Members.isSome_find?_iff, ← Members.isSome_find?_iff, ← Option.isSome_map, each key, Option.isSome_map]
    · have shown := each entry.1
      rw [(Members.find?_eq_some_iff distinct).mpr member, Option.map_some] at shown
      obtain ⟨other, found, same⟩ := Option.map_eq_some_iff.mp shown.symm
      exact ⟨other, found, (tell _ member _ (Members.mem_of_find?_eq_some found)).iff.mpr same.symm⟩

theorem tells_object {mine theirs : Members Tree} (distinct : mine.keys.Nodup) (distinct' : theirs.keys.Nodup)
    (tell : ∀ entry ∈ mine, ∀ other ∈ theirs, Tells entry.2 other.2) : Tells (.object mine) (.object theirs) := by
  have same : (Value.object mine).extension = (Value.object theirs).extension ↔
      ∀ key, (mine.find? key).map extension = (theirs.find? key).map extension := by
    simp only [extension, Extension.object.injEq, funext_iff, memberExtension_eq]
  unfold Tells
  rw [same, ← similar_object_iff distinct distinct' tell, similar]
  cases Members.sameKeys mine theirs with
  | false => simp
  | true => cases similarMembers mine theirs <;> simp

theorem similarElements_tells {mine theirs : List (Option Tree)} (full : none ∉ mine) (full' : none ∉ theirs)
    (tell : ∀ v w, some v ∈ mine → some w ∈ theirs → Tells v w) : ∃ answer, similarElements mine theirs = .ok answer ∧
      (answer = true ↔ mine.map (Option.map extension) = theirs.map (Option.map extension)) := by
  induction mine generalizing theirs with
  | nil => cases theirs <;> simp [similarElements]
  | cons element mine ih =>
    obtain ⟨there, more⟩ := not_or.mp (List.mem_cons.not.mp full)
    obtain ⟨v, rfl⟩ := Option.ne_none_iff_exists'.mp (Ne.symm there)
    cases theirs with
    | nil => simp [similarElements]
    | cons other theirs =>
      obtain ⟨there', more'⟩ := not_or.mp (List.mem_cons.not.mp full')
      obtain ⟨w, rfl⟩ := Option.ne_none_iff_exists'.mp (Ne.symm there')
      obtain ⟨answer, similar, same⟩ := tell v w List.mem_cons_self List.mem_cons_self
      simp only [similarElements, similar, bind, Except.bind, List.map_cons, List.cons.injEq, Option.map_some,
        Option.some.injEq, ← same]
      cases answer with
      | false => simp [pure, Except.pure]
      | true =>
        obtain ⟨rest, similar, same⟩ := ih more more' fun v w member member' =>
          tell v w (List.mem_cons_of_mem _ member) (List.mem_cons_of_mem _ member')
        exact ⟨rest, similar, by simpa using same⟩

theorem tells_array {mine theirs : List (Option Tree)} (full : none ∉ mine) (full' : none ∉ theirs)
    (tell : ∀ v w, some v ∈ mine → some w ∈ theirs → Tells v w) : Tells (.array mine) (.array theirs) := by
  obtain ⟨answer, similar, same⟩ := similarElements_tells full full' tell
  simp only [Tells, extension, elementExtensions_eq, Extension.array.injEq, ← same, Value.similar]
  split
  · exact ⟨answer, similar, Iff.rfl⟩
  · next sizes =>
    refine ⟨false, rfl, iff_of_false Bool.false_ne_true fun yes => sizes ?_⟩
    simpa using congrArg List.length (same.mp yes)

theorem IsDefinite.tells {v w : Tree} (definite : v.IsDefinite) (definite' : w.IsDefinite) : Tells v w := by
  induction definite generalizing w with
  | @scalar leaf content shown =>
    cases definite' with
    | scalar shown' => exact ⟨_, Scalar.like_eq_decide shown shown', by simp [extension, shown, shown']⟩
    | _ =>
      refine ⟨false, ?_, by simp [extension]⟩
      rw [similar, likeOther, Scalar.isIncomparable_of_content shown, if_neg Bool.false_ne_true]
      simp
  | object distinct each ih =>
    cases definite' with
    | object distinct' each' =>
      exact tells_object distinct distinct' fun entry member other member' => ih entry member (each' other member')
    | _ => exact ⟨false, rfl, by simp [extension]⟩
  | array full each ih =>
    cases definite' with
    | array full' each' => exact tells_array full full' fun v w member member' => ih v member (each' w member')
    | _ => exact ⟨false, rfl, by simp [extension]⟩

theorem extension_eq_of_perm {members others : Members Tree} (distinct : members.keys.Nodup)
    (perm : members.Perm others) : (Value.object members).extension = (Value.object others).extension := by
  simp only [extension, Extension.object.injEq, funext_iff, memberExtension_eq, Members.find?_eq_of_perm distinct perm,
    implies_true]

theorem Frame.extension_fill (f : Frame) {v w : Tree} (same : v.extension = w.extension) :
    (f.fill v).extension = (f.fill w).extension := by
  cases f with
  | member before key after =>
    simp only [fill, extension, Extension.object.injEq, funext_iff, memberExtension_eq, Members.find?_append, Members.find?,
      Option.map_or]
    intro other
    split <;> simp [same]
  | element before after => simp [fill, extension, elementExtensions_eq, same]

theorem Context.extension_fill (c : Context) {v w : Tree} (same : v.extension = w.extension) :
    (c.fill v).extension = (c.fill w).extension := by
  induction c with
  | nil => simpa using same
  | cons f c ih => simpa using f.extension_fill ih

theorem Frame.isDefinite_fill (f : Frame) {v w : Tree} (definite : (f.fill v).IsDefinite) :
    v.IsDefinite ∧ (w.IsDefinite → (f.fill w).IsDefinite) := by
  cases f with
  | member before key after =>
    rw [fill] at definite ⊢
    cases definite with
    | object distinct each =>
      obtain ⟨first, hole, last⟩ := by simpa only [List.forall_mem_append, List.forall_mem_cons] using each
      refine ⟨hole, fun definite' => .object (by simpa [Members.keys] using distinct) ?_⟩
      simpa only [List.forall_mem_append, List.forall_mem_cons] using ⟨first, definite', last⟩
  | element before after =>
    rw [fill] at definite ⊢
    cases definite with
    | array full each =>
      obtain ⟨first, hole, last⟩ := by simpa [or_imp, forall_and] using each
      refine ⟨hole, fun definite' => .array (by simpa using full) ?_⟩
      simpa [or_imp, forall_and] using ⟨first, definite', last⟩

theorem Context.isDefinite_fill (c : Context) {v w : Tree} (definite : (c.fill v).IsDefinite) :
    v.IsDefinite ∧ (w.IsDefinite → (c.fill w).IsDefinite) := by
  induction c with
  | nil => simpa using definite
  | cons f c ih =>
    rw [fill_cons] at definite
    obtain ⟨inner, refill⟩ := f.isDefinite_fill definite
    obtain ⟨hole, refill'⟩ := ih inner
    exact ⟨hole, fun definite' => refill (refill' definite')⟩

/-- Likeness is an equivalence that permutations of members respect, at any place within a document, and that
every place within a document respects. -/
theorem similar_equivalence :
    (∀ v : Tree, v.IsDefinite → v.similar v = .ok true) ∧
    (∀ v w : Tree, v.IsDefinite → w.IsDefinite → ∃ answer, v.similar w = .ok answer ∧ w.similar v = .ok answer) ∧
    (∀ u v w : Tree, u.IsDefinite → v.IsDefinite → w.IsDefinite →
      u.similar v = .ok true → v.similar w = .ok true → u.similar w = .ok true) ∧
    (∀ (c : Context) (members others : Members Tree), (c.fill (.object members)).IsDefinite → members.Perm others →
      (c.fill (.object members)).similar (c.fill (.object others)) = .ok true) ∧
    ∀ (c : Context) (v w : Tree), (c.fill v).IsDefinite → w.IsDefinite → v.similar w = .ok true →
      (c.fill v).similar (c.fill w) = .ok true := by
  refine ⟨fun v definite => ?_, fun v w definite definite' => ?_, fun u v w first second third similar similar' => ?_,
    fun c members others definite perm => ?_, fun c v w definite definite' similar => ?_⟩
  · exact (definite.tells definite).iff.mpr rfl
  · obtain ⟨answer, forth, same⟩ := definite.tells definite'
    obtain ⟨answer', back, same'⟩ := definite'.tells definite
    have agree : answer = answer' := Bool.eq_iff_iff.mpr (same.trans (eq_comm.trans same'.symm))
    exact ⟨answer, forth, agree ▸ back⟩
  · have shown := (first.tells second).iff.mp similar
    have shown' := (second.tells third).iff.mp similar'
    exact (first.tells third).iff.mpr (shown.trans shown')
  · obtain ⟨inner, refill⟩ := c.isDefinite_fill definite
    cases inner with
    | object distinct each =>
      have distinct' : others.keys.Nodup := (perm.map Prod.fst).nodup_iff.mp distinct
      have definite' := refill (.object distinct' fun entry member => each entry (perm.mem_iff.mpr member))
      exact (definite.tells definite').iff.mpr (c.extension_fill (extension_eq_of_perm distinct perm))
  · obtain ⟨inner, refill⟩ := c.isDefinite_fill definite
    have shown := (inner.tells definite').iff.mp similar
    exact (definite.tells (refill definite')).iff.mpr (c.extension_fill shown)

/-- An array of one object, of which a number becomes one of another kind and the members change places. -/
theorem similar_reordered :
    let one : Scalar := .decimal (.finite ⟨false, 10, -1⟩)
    let members (number : Scalar) : Members Tree := [([97], .scalar number), ([98], .scalar (.bool true))]
    let around (inner : Members Tree) : Tree := .array [some (.object inner)]
    (around (members (.int 1))).similar (around (members one).reverse) = .ok true := by
  intro one members around
  have definite {number : Scalar} {content : Scalar.Content} (shown : number.content? = some content)
      {inner : Members Tree} (perm : inner.Perm (members number)) : (around inner).IsDefinite := by
    have distinct : inner.keys.Nodup := (perm.map Prod.fst).nodup_iff.mpr (by simp [members])
    have object : (Value.object inner).IsDefinite := .object distinct fun entry member => by
      rcases List.mem_pair.mp (perm.mem_iff.mp member) with rfl | rfl
      · exact .scalar shown
      · exact .scalar rfl
    exact .array (by simp) (by simp [object])
  have first := definite (rfl : (Scalar.int 1).content? = _) (.refl _)
  have second := definite (rfl : one.content? = _) (.refl _)
  have third := definite (rfl : one.content? = _) (List.reverse_perm _)
  obtain ⟨-, -, transitive, permuted, replaced⟩ := similar_equivalence
  refine transitive _ _ _ first second third ?_ (permuted [.element [] []] _ _ second (List.reverse_perm _).symm)
  refine replaced [.element [] [], .member [] [97] [([98], .scalar (.bool true))]] _ _ first (.scalar rfl) ?_
  rw [similar, Scalar.like_eq_decide rfl rfl]
  decide

end Value
end LenientJson
