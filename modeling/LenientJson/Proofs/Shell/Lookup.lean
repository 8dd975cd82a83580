import LenientJson.Proofs.Context
import LenientJson.Proofs.Document
import LenientJson.Proofs.Members
import LenientJson.Proofs.Number.Token
import LenientJson.Shell.Session
import Mathlib.Data.List.Forall2

/-! Looking into the working object. A node stands in the document as in a context, whose frames are the steps that lead
to it. The path that names these steps finds the node, and whatever a path finds is a node to which such steps lead. -/
namespace LenientJson

namespace Text

variable {separator : CodePoint} {piece : Text}

theorem splitOn_of_notMem (apart : separator ∉ piece) : splitOn separator piece = [piece] := by
  induction piece with
  | nil => rfl
  | cons c piece ih =>
    obtain ⟨other, apart⟩ := not_or.mp (List.mem_cons.not.mp apart)
    rw [splitOn, if_neg (Ne.symm other), ih apart]

theorem splitOn_append (apart : separator ∉ piece) (t : Text) :
    splitOn separator (piece ++ separator :: t) = piece :: splitOn separator t := by
  induction piece with
  | nil => rw [List.nil_append, splitOn, if_pos rfl]
  | cons c piece ih =>
    obtain ⟨other, apart⟩ := not_or.mp (List.mem_cons.not.mp apart)
    rw [List.cons_append, splitOn, if_neg (Ne.symm other), ih apart]

/-- Pieces without the separator come apart again, if there are any; an empty piece counts. -/
theorem splitOn_joinWith {pieces : List Text} (some : pieces ≠ []) (apart : ∀ piece ∈ pieces, separator ∉ piece) :
    splitOn separator (joinWith [separator] pieces) = pieces := by
  induction pieces with
  | nil => exact absurd rfl some
  | cons piece pieces ih =>
    obtain ⟨first, others⟩ := List.forall_mem_cons.mp apart
    cases pieces with
    | nil => exact splitOn_of_notMem first
    | cons next pieces =>
      rw [joinWith, List.append_assoc, List.singleton_append, splitOn_append first, ih (List.cons_ne_nil _ _) others]
      exact List.cons_ne_nil _ _

end Text

/-! Steps, and how they are spelled. -/

inductive Step
  | key (name : Text)
  | index (i : Nat)

namespace Step

def segment : Step → Text
  | key name => name
  | index i => decimalText i

/-- Keys must not hold the separator, and no array has more elements than can be counted. -/
def IsNamed : Step → Prop
  | key name => Symbol.dot ∉ name
  | index i => (i : Int) < maxInt64

/-- A segment of a path stands for a step: for the key that it is, or for the index that it is read as. -/
def StandsFor (segment : Text) : Step → Prop
  | key name => name = segment
  | index i => readInteger? segment = some (i : Int)

theorem readInteger?_decimalText {i : Nat} (bounded : (i : Int) < maxInt64) :
    readInteger? (decimalText i) = some (i : Int) := by
  have digits := areDigits_decimalText i
  have few : (decimalText i).length ≤ digitLimit := by
    have limit : maxInt64 < tenTo digitLimit := by decide +kernel
    apply (decimalText_length_le_iff (by decide)).mpr
    omega
  have token := readInteger?_token (.inl rfl) digits
  have value := integerValue_of_signed (.inl rfl) digits
  rw [if_pos few, value, if_neg (List.cons_ne_nil _ _).symm, digitsValue_decimalText] at token
  exact token

theorem dot_notMem_segment {step : Step} (named : step.IsNamed) : Symbol.dot ∉ step.segment := by
  cases step with
  | key name => exact named
  | index i =>
    intro member
    exact absurd (decimalText_digits i _ member) (by decide)

end Step

namespace Value

def Frame.step : Frame → Step
  | .member _ key _ => .key key
  | .element before _ => .index before.length

def Context.steps (c : Context) : List Step := c.map Frame.step

theorem MemberKeysDiffer.of_mem {members : List (Text × Tree)} (differ : MemberKeysDiffer members) {key : Text} {v : Tree}
    (inside : (key, v) ∈ members) : v.KeysDiffer := by
  induction members with
  | nil => cases inside
  | cons member rest ih =>
    obtain ⟨k, w⟩ := member
    cases inside with
    | head => exact differ.1
    | tail _ inside => exact ih differ.2 inside

theorem ElementKeysDiffer.of_mem {elements : List (Option Tree)} (differ : ElementKeysDiffer elements) {v : Tree}
    (inside : some v ∈ elements) : v.KeysDiffer := by
  induction elements with
  | nil => cases inside
  | cons element rest ih =>
    cases element with
    | none => exact ih differ ((List.mem_cons.mp inside).resolve_left (Option.some_ne_none v))
    | some w =>
      cases inside with
      | head => exact differ.1
      | tail _ inside => exact ih differ.2 inside

theorem KeysDiffer.of_fill {f : Frame} {v : Tree} (differ : (f.fill v).KeysDiffer) : v.KeysDiffer := by
  cases f with
  | member before key after => exact MemberKeysDiffer.of_mem differ.2 (List.mem_append_right _ List.mem_cons_self)
  | element before after => exact ElementKeysDiffer.of_mem differ (List.mem_append_right _ List.mem_cons_self)

end Value

namespace Session
open Value

/-! Following the segments of a path. -/

theorem follow_fill_frame {f : Frame} {v : Tree} (differ : (f.fill v).KeysDiffer) (named : f.step.IsNamed)
    (path : List Text) : follow (f.fill v) (f.step.segment :: path) = follow v path := by
  cases f with
  | member before key after =>
    have found : Members.find? key (before ++ (key, v) :: after) = some v :=
      Members.find?_append_self (Members.fresh_of_nodup differ.1)
    simp only [Frame.fill, Frame.step, Step.segment, follow, found, Option.bind_some]
  | element before after =>
    have read := Step.readInteger?_decimalText named
    have found : (before ++ some v :: after)[before.length]? = some (some v) := by
      rw [List.getElem?_append_right (Nat.le_refl _), Nat.sub_self]
      rfl
    simp only [Frame.fill, Frame.step, Step.segment, follow, read, found]
    rfl

theorem follow_fill {c : Context} {v : Tree} (differ : (c.fill v).KeysDiffer) (named : ∀ step ∈ c.steps, step.IsNamed) :
    follow (c.fill v) (c.steps.map Step.segment) = some v := by
  induction c with
  | nil => simp [Context.steps, follow]
  | cons f c ih =>
    obtain ⟨first, others⟩ := List.forall_mem_cons.mp named
    rw [Context.fill_cons] at differ ⊢
    have inner := follow_fill_frame differ first ((Context.steps c).map Step.segment)
    exact inner.trans (ih differ.of_fill others)

theorem exists_fill {v node : Tree} {path : List Text} (found : follow v path = some node) :
    ∃ c : Context, v = c.fill node ∧ List.Forall₂ Step.StandsFor path (Context.steps c) := by
  induction path generalizing v with
  | nil =>
    obtain rfl : v = node := by simpa [follow] using found
    exact ⟨[], rfl, .nil⟩
  | cons segment path ih =>
    cases v with
    | scalar leaf => simp [follow] at found
    | link target => cases target
    | object members =>
      rw [follow] at found
      obtain ⟨inner, member, further⟩ := Option.bind_eq_some_iff.mp found
      obtain ⟨before, after, rfl⟩ := List.append_of_mem (Members.mem_of_find?_eq_some member)
      obtain ⟨c, rfl, steps⟩ := ih further
      exact ⟨.member before segment after :: c, rfl, .cons rfl steps⟩
    | array elements =>
      rw [follow] at found
      split at found
      · next i read =>
        obtain ⟨inner, element, found⟩ := Option.bind_eq_some_iff.mp found
        obtain ⟨bound, there⟩ := List.getElem?_eq_some_iff.mp (Option.join_eq_some_iff.mp element)
        obtain ⟨c, rfl, steps⟩ := ih found
        have split : elements = elements.take i ++ some (c.fill node) :: elements.drop (i + 1) := by
          rw [← there, List.getElem_cons_drop, List.take_append_drop]
        have length : (elements.take i).length = i := List.length_take_of_le (Nat.le_of_lt bound)
        refine ⟨.element (elements.take i) (elements.drop (i + 1)) :: c, congrArg Value.array split, .cons ?_ steps⟩
        rw [Frame.step, length]
        exact read
      · cases found

/-- The path of a node in the working object finds this node, whatever stands there, and a path finds nothing but nodes
whose steps its segments stand for, one by one. -/
theorem lookup_nodes (s : Session) (differ : (Value.object s.document).KeysDiffer) :
    (∀ (c : Context) (node : Tree), c ≠ [] → (∀ step ∈ c.steps, step.IsNamed) → .object s.document = c.fill node →
      s.lookup (Text.joinWith [Symbol.dot] (c.steps.map Step.segment)) = some node) ∧
    ∀ path, s.lookup path = none ∨ ∃ (c : Context) (node : Tree), s.lookup path = some node ∧
      .object s.document = c.fill node ∧ List.Forall₂ Step.StandsFor (Text.splitOn Symbol.dot path) c.steps := by
  constructor
  · intro c node some named document
    have segments : c.steps.map Step.segment ≠ [] := by
      rw [ne_eq, List.map_eq_nil_iff, Context.steps, List.map_eq_nil_iff]
      exact some
    have apart : ∀ segment ∈ c.steps.map Step.segment, Symbol.dot ∉ segment := by
      intro segment member
      obtain ⟨step, inside, rfl⟩ := List.mem_map.mp member
      exact Step.dot_notMem_segment (named step inside)
    rw [lookup, Text.splitOn_joinWith segments apart, document]
    rw [document] at differ
    exact follow_fill differ named
  · intro path
    cases found : s.lookup path with
    | none => exact .inl rfl
    | some node =>
      obtain ⟨c, document, steps⟩ := exists_fill found
      exact .inr ⟨c, node, rfl, document, steps⟩

/-- An empty key, the second place of an array, and a key in the object that stands there. -/
theorem lookup_nodes_nested : ∃ s : Session,
    s = ⟨Settings.standard, 80, [([], .array [some Value.null, some (.object [([0x6B], .scalar (.bool true))])])]⟩ ∧
      (Value.object s.document).KeysDiffer ∧ s.lookup (Text.ofString ".1.k") = some (.scalar (.bool true)) := by
  refine ⟨_, rfl, ?_⟩
  have differ : (Value.object [([], .array [some Value.null, some (.object [([0x6B], .scalar (.bool true))])])] : Tree).KeysDiffer := by
    simp [KeysDiffer, MemberKeysDiffer, ElementKeysDiffer, Members.keys, Value.null]
  let way : Context := [.member [] [] [], .element [some Value.null] [], .member [] [0x6B] []]
  have named : ∀ step ∈ way.steps, step.IsNamed := by
    simp [way, Context.steps, Frame.step, Step.IsNamed, maxInt64]
  exact ⟨differ, (lookup_nodes ⟨_, _, _⟩ differ).1 way _ (List.cons_ne_nil _ _) named rfl⟩

end Session
end LenientJson
