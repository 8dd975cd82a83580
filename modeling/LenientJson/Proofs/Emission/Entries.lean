import LenientJson.Host.Reflect
import LenientJson.Proofs.Breaking

/-! Containers without their kinds. Objects and arrays are written alike: a mark that opens, the entries, and a mark
that closes; only the entries of an object have names. What holds of leaves, and of a container when it holds of
everything inside, holds of every document. -/
namespace LenientJson

/-- Leaves that bring a text of their own, which is written as it is: ready-made texts, and user objects that render
themselves or that are numbers. -/
def Scalar.isReadyMade : Scalar → Bool
  | raw _ => true
  | foreign value => value.number.isSome || value.rendering.isSome
  | _ => false

/-- Where a line starts, there is nothing without lines, and else a line feed before the spaces of the indentation. -/
theorem Layout.lineStart_text (l : Layout) (depth : Nat) : (l.lineStart depth).text = [] ∧ l.hasLines = false ∨
    l.hasLines = true ∧ ∃ n, (l.lineStart depth).text = Symbol.lineFeed :: Text.spaces n ∧
      ((l.lineStart depth).fault = none → n = (l.margin + l.step * depth).toNat) := by
  unfold lineStart
  split
  · next lines =>
    refine .inr ⟨lines, ?_⟩
    cases built : indentation l.room (l.margin + l.step * depth) with
    | error fault => exact ⟨0, rfl, nofun⟩
    | ok t =>
      rw [indentation_eq built]
      exact ⟨_, rfl, fun _ => rfl⟩
  · next lines => exact .inl ⟨rfl, Bool.eq_false_iff.mpr lines⟩

theorem Layout.Spans.anti {l : Layout} {depth m n : Nat} (spans : l.Spans depth n) (le : m ≤ n) : l.Spans depth m := by
  rw [← Nat.max_eq_right le] at spans
  exact (spans_max.mp spans).1

namespace Value
open Emission

abbrev Entry := Option Text × Option Tree

def entries : Tree → List Entry
  | .scalar _ => []
  | .object members => members.map fun member => (some member.1, some member.2)
  | .array elements => elements.map fun element => (none, element)

def openingMark : Tree → CodePoint
  | .array _ => Symbol.leftBracket
  | _ => Symbol.leftBrace

def closingMark : Tree → CodePoint
  | .array _ => Symbol.rightBracket
  | _ => Symbol.rightBrace

def marks : List CodePoint :=
  [Symbol.leftBrace, Symbol.rightBrace, Symbol.leftBracket, Symbol.rightBracket, Symbol.comma]

theorem ne_of_mem_marks {c : CodePoint} (listed : c ∈ marks) :
    c ≠ Symbol.doubleQuote ∧ c ≠ Symbol.space ∧ c ≠ Symbol.lineFeed := by
  have table : ∀ c ∈ marks, c ≠ Symbol.doubleQuote ∧ c ≠ Symbol.space ∧ c ≠ Symbol.lineFeed := by decide
  exact table c listed

theorem openingMark_mem (v : Tree) : v.openingMark ∈ marks := by
  unfold openingMark
  split <;> decide

theorem closingMark_mem (v : Tree) : v.closingMark ∈ marks := by
  unfold closingMark
  split <;> decide

variable {l : Layout} {depth : Nat} {v : Tree}

mutual
/-- As an object and an array differ only in their entries, one step for both is enough. -/
theorem induct {P : Tree → Prop} (leaf : ∀ value, P (.scalar value))
    (container : ∀ v : Tree, v.isContainer = true → (∀ name u, (name, some u) ∈ v.entries → P u) → P v) : ∀ v, P v
  | .scalar value => leaf value
  | .object members => container _ rfl fun name u inside => by
    obtain ⟨member, listed, same⟩ := List.mem_map.mp inside
    cases same
    exact induct_members leaf container members member listed
  | .array elements => container _ rfl fun name u inside => by
    obtain ⟨element, listed, same⟩ := List.mem_map.mp inside
    cases same
    exact induct_elements leaf container elements u listed

theorem induct_members {P : Tree → Prop} (leaf : ∀ value, P (.scalar value))
    (container : ∀ v : Tree, v.isContainer = true → (∀ name u, (name, some u) ∈ v.entries → P u) → P v) :
    ∀ members : List (Text × Tree), ∀ member ∈ members, P member.2
  | [] => List.forall_mem_nil _
  | (_, value) :: rest =>
    List.forall_mem_cons.mpr ⟨induct leaf container value, induct_members leaf container rest⟩

theorem induct_elements {P : Tree → Prop} (leaf : ∀ value, P (.scalar value))
    (container : ∀ v : Tree, v.isContainer = true → (∀ name u, (name, some u) ∈ v.entries → P u) → P v) :
    ∀ elements : List (Option Tree), ∀ u, some u ∈ elements → P u
  | [] => fun _ => nofun
  | none :: rest => fun u inside =>
    induct_elements leaf container rest u ((List.mem_cons.mp inside).resolve_left nofun)
  | some value :: rest => fun u inside => by
    rcases List.mem_cons.mp inside with same | later
    · cases same
      exact induct leaf container value
    · exact induct_elements leaf container rest u later
end

theorem EveryLeaf.entry {p : Scalar → Prop} {name : Option Text} {u : Tree} (every : v.EveryLeaf p)
    (inside : (name, some u) ∈ v.entries) : u.EveryLeaf p := by
  cases v with
  | scalar => cases inside
  | object members =>
    obtain ⟨member, listed, same⟩ := List.mem_map.mp inside
    cases same
    exact everyMemberLeaf_iff.mp every member listed
  | array elements =>
    obtain ⟨element, listed, same⟩ := List.mem_map.mp inside
    cases same
    exact EveryElementLeaf.of_mem every listed
  | link target => cases target

theorem le_memberDepth {members : Members Tree} {member : Text × Tree} (listed : member ∈ members) :
    member.2.lineDepth ≤ memberDepth members := by
  obtain ⟨before, after, rfl⟩ := List.append_of_mem listed
  simp only [memberDepth_append, memberDepth]
  omega

theorem le_elementDepth {elements : List (Option Tree)} {u : Tree} (listed : some u ∈ elements) :
    u.lineDepth ≤ elementDepth elements := by
  obtain ⟨before, after, rfl⟩ := List.append_of_mem listed
  simp only [elementDepth_append, elementDepth]
  omega

/-- A container of several entries has its lines around those of its entries. -/
theorem exists_lineDepth (container : v.isContainer = true) :
    ∃ n, v.lineDepth = (if v.entries.length ≤ 1 then n else n + 1) ∧
      ∀ name u, (name, some u) ∈ v.entries → u.lineDepth ≤ n := by
  cases v with
  | scalar => cases container
  | object members =>
    refine ⟨memberDepth members, by simp [lineDepth, entries], fun name u inside => ?_⟩
    obtain ⟨member, listed, same⟩ := List.mem_map.mp inside
    cases same
    exact le_memberDepth listed
  | array elements =>
    refine ⟨elementDepth elements, by simp [lineDepth, entries], fun name u inside => ?_⟩
    obtain ⟨element, listed, same⟩ := List.mem_map.mp inside
    cases same
    exact le_elementDepth listed
  | link target => cases target

theorem spans_single (container : v.isContainer = true) (single : v.entries.length = 1) (spans : l.Spans depth v.lineDepth)
    {name : Option Text} {u : Tree} (inside : (name, some u) ∈ v.entries) : l.Spans depth u.lineDepth := by
  obtain ⟨n, deep, below⟩ := exists_lineDepth container
  rw [deep, if_pos (Nat.le_of_eq single)] at spans
  exact spans.anti (below name u inside)

theorem spans_several (container : v.isContainer = true) (several : 2 ≤ v.entries.length) (spans : l.Spans depth v.lineDepth) :
    (l.lineStart depth).fault = none ∧ (l.lineStart (depth + 1)).fault = none ∧
      ∀ name u, (name, some u) ∈ v.entries → l.Spans (depth + 1) u.lineDepth := by
  obtain ⟨n, deep, below⟩ := exists_lineDepth container
  rw [deep, if_neg (Nat.not_le.mpr several), Layout.spans_succ] at spans
  exact ⟨spans.1, spans.2.1, fun name u inside => spans.2.2.anti (below name u inside)⟩

/-! What is written for a container. -/

def label (l : Layout) : Option Text → Text
  | none => []
  | some key => Text.quoted key ++ l.colon

def writeEntry (l : Layout) (depth : Nat) (entry : Entry) : Emission :=
  ofText (label l entry.1) ++ writeElement l depth entry.2

/-- What an entry takes that stands on a line of its own. -/
def writeLine (l : Layout) (depth : Nat) (entry : Entry) : Emission := l.lineStart depth ++ writeEntry l depth entry

theorem writeEntry_member (member : Text × Tree) : writeEntry l depth (some member.1, some member.2) =
    ofText (Text.quoted member.1 ++ l.colon) ++ write l depth member.2 := by
  rw [writeEntry, label, writeElement]

theorem writeEntry_element (element : Option Tree) : writeEntry l depth (none, element) = writeElement l depth element := by
  rw [writeEntry, label, nil_append]

theorem write_empty (container : v.isContainer = true) (empty : v.entries = []) :
    write l depth v = ofText [v.openingMark, v.closingMark] := by
  cases v with
  | scalar => cases container
  | object members =>
    obtain rfl := List.map_eq_nil_iff.mp empty
    rfl
  | array elements =>
    obtain rfl := List.map_eq_nil_iff.mp empty
    rfl
  | link target => cases target

theorem write_single (container : v.isContainer = true) {entry : Entry} (single : v.entries = [entry]) :
    write l depth v = ofText [v.openingMark] ++ writeEntry l depth entry ++ ofText [v.closingMark] := by
  cases v with
  | scalar => cases container
  | object members =>
    obtain ⟨member, rfl, rfl⟩ := List.map_eq_singleton_iff.mp single
    rw [writeEntry_member, ← append_assoc, ofText_append_ofText]
    rfl
  | array elements =>
    obtain ⟨element, rfl, rfl⟩ := List.map_eq_singleton_iff.mp single
    rw [writeEntry_element]
    rfl
  | link target => cases target

theorem write_several (container : v.isContainer = true) (several : 2 ≤ v.entries.length) :
    write l depth v = ofText [v.openingMark] ++ joined (v.entries.map (writeLine l (depth + 1))) ++ l.lineStart depth ++
      ofText [v.closingMark] := by
  cases v with
  | scalar => cases container
  | object members =>
    have pieces : (entries (.object members)).map (writeLine l (depth + 1)) = members.map (writeMember l (depth + 1)) := by
      rw [entries, List.map_map]
      refine List.map_congr_left fun member _ => ?_
      rw [Function.comp, writeLine, writeEntry_member, ← append_assoc, writeMember]
    rw [pieces]
    exact write_object ((List.length_map _).symm ▸ several)
  | array elements =>
    have pieces : (entries (.array elements)).map (writeLine l (depth + 1)) = elements.map (writeSlot l (depth + 1)) := by
      rw [entries, List.map_map]
      refine List.map_congr_left fun element _ => ?_
      rw [Function.comp, writeLine, writeEntry_element, writeSlot]
    rw [pieces]
    exact write_array ((List.length_map _).symm ▸ several)
  | link target => cases target

end Value

namespace Host

/-- What is written for a host value. One that has no document fails before anything is written. -/
def write (view : Link → Sight) (l : Layout) (h : Host) : Emission :=
  match h.written view with
  | .ok v => v.write l 0
  | .error fault => ⟨[], some fault⟩

/-- The document of a host value, if it has one, is without ready-made texts. -/
def IsUnmade (view : Link → Sight) (h : Host) : Prop :=
  ∀ v, h.written view = .ok v → v.EveryLeaf fun leaf => leaf.isReadyMade = false

end Host
end LenientJson
