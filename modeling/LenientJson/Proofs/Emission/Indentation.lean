import LenientJson.Proofs.Emission.Entries
import LenientJson.Proofs.Emission.Outline

/-! The lines of a document. A document that is written to its end keeps the law of lines at all places, and it has one
line feed for each entry and for the closing mark of each container of several entries. -/
namespace LenientJson

namespace Value
open Emission Outline

mutual
/-- How many entries the containers of a document have, in the order in which they open. -/
def entryCounts : Tree → List Nat
  | .scalar _ => []
  | .object members => members.length :: memberCounts members
  | .array elements => elements.length :: elementCounts elements

def memberCounts : List (Text × Tree) → List Nat
  | [] => []
  | (_, value) :: rest => entryCounts value ++ memberCounts rest

def elementCounts : List (Option Tree) → List Nat
  | [] => []
  | none :: rest => elementCounts rest
  | some value :: rest => entryCounts value ++ elementCounts rest
end

def Entry.counts (e : Entry) : List Nat := e.2.elim [] entryCounts

/-- How many lines begin within containers of these numbers of entries. -/
def lineCount (counts : List Nat) : Nat := (counts.map fun n => if 2 ≤ n then n + 1 else 0).sum

theorem lineCount_cons (n : Nat) (counts : List Nat) :
    lineCount (n :: counts) = (if 2 ≤ n then n + 1 else 0) + lineCount counts := by
  simp [lineCount]

theorem lineCount_append (counts counts' : List Nat) : lineCount (counts ++ counts') = lineCount counts + lineCount counts' := by
  simp [lineCount]

variable {l : Layout} {v : Tree} {depth : Nat} {o : Outline} {t : Text} {e : Entry} {more : List Nat}

theorem memberCounts_eq (members : Members Tree) :
    memberCounts members = (entries (.object members)).flatMap Entry.counts := by
  induction members with
  | nil => rfl
  | cons member rest ih => simpa [memberCounts, entries, Entry.counts] using ih

theorem elementCounts_eq (elements : List (Option Tree)) :
    elementCounts elements = (entries (.array elements)).flatMap Entry.counts := by
  induction elements with
  | nil => rfl
  | cons element rest ih => cases element <;> simpa [elementCounts, entries, Entry.counts] using ih

theorem entryCounts_eq (container : v.isContainer = true) :
    entryCounts v = v.entries.length :: v.entries.flatMap Entry.counts := by
  cases v with
  | scalar => cases container
  | object members => simp [entryCounts, memberCounts_eq, entries]
  | array elements => simp [entryCounts, elementCounts_eq, entries]
  | link target => cases target

theorem exists_lineStart (lines : 0 < l.step) (margin : 0 ≤ l.margin) (emits : (l.lineStart depth).Emits t) :
    ∃ n : Nat, t = Symbol.lineFeed :: Text.spaces n ∧ n = l.margin + l.step * depth := by
  have nonnegative : 0 ≤ l.margin + l.step * depth := Int.add_nonneg margin (Int.mul_nonneg (Int.le_of_lt lines) (by omega))
  have hasLines : l.hasLines = true := decide_eq_true lines
  rcases l.lineStart_text depth with ⟨-, none⟩ | ⟨-, n, text, width⟩
  · rw [hasLines] at none
    cases none
  · rw [emits] at text width
    exact ⟨n, text, by rw [width rfl, Int.toNat_of_nonneg nonnegative]⟩

/-- Where a document can begin, within `depth` containers of several entries. -/
structure IsReady (o : Outline) (depth : Nat) : Prop where
  outside : o.region = .outside
  depth : wideCount o.opened = depth
  ready : o.IsWide → ¬ o.AwaitsEntry

def KeepsLines (l : Layout) (v : Tree) : Prop := ∀ {depth t o more}, (write l depth v).Emits t → IsReady o depth →
  o.coming = entryCounts v ++ more → Passes l o t more (lineCount (entryCounts v)) ∧ Opens t

theorem passes_entry (inside : ∀ u, e.2 = some u → KeepsLines l u) (emits : (writeEntry l depth e).Emits t)
    (ready : IsReady o depth) (coming : o.coming = e.counts ++ more) : Passes l o t more (lineCount e.counts) ∧ Opens t := by
  have element {o t} (emits : (writeElement l depth e.2).Emits t) (ready : IsReady o depth) (coming : o.coming = e.counts ++ more) :
      Passes l o t more (lineCount e.counts) ∧ Opens t := by
    obtain ⟨name, element⟩ := e
    cases element with
    | none =>
      obtain rfl := emits_ofText.mp emits
      obtain rfl : o.coming = more := coming
      exact passes_token ready.outside ready.ready Scalar.isToken_null
    | some u => exact inside u rfl emits ready coming
  obtain ⟨name, value⟩ := e
  cases name with
  | none =>
    rw [writeEntry, label, nil_append] at emits
    exact element emits ready coming
  | some key =>
    obtain ⟨s, u, first, second, rfl⟩ := emits_append.mp emits
    obtain rfl := emits_ofText.mp first
    have name : Passes l o (Text.quoted key ++ l.colon) o.coming (0 + 0) :=
      (passes_quoted ready.outside ready.ready key).append fun last settled => passes_colon ready.outside settled
    have whole := name.append fun last settled =>
      have ready : IsReady { o with last := last } depth := ⟨ready.outside, ready.depth, fun _ => not_awaitsEntry settled⟩
      (element second ready coming).1
    exact ⟨by simpa [label] using whole, _, _, rfl, by decide, by decide, by decide⟩

section
variable (lines : 0 < l.step) (margin : 0 ≤ l.margin)
include lines margin

theorem passes_line (inside : ∀ u, e.2 = some u → KeepsLines l u) (emits : (writeLine l depth e).Emits t)
    (outside : o.region = .outside) (wide : o.IsWide) (awaits : o.AwaitsEntry) (deep : wideCount o.opened = depth)
    (coming : o.coming = e.counts ++ more) : Passes l o t more (lineCount e.counts + 1) := by
  obtain ⟨s, u, first, second, rfl⟩ := emits_append.mp emits
  obtain ⟨n, rfl, width⟩ := exists_lineStart lines margin first
  have ready : IsReady { o with last := some Symbol.lineFeed } depth :=
    ⟨outside, deep, fun _ => not_awaitsEntry (isSettled_some (by decide))⟩
  obtain ⟨⟨last, settled, count, lays⟩, x, rest, rfl, space, feed, opens⟩ := passes_entry inside second ready coming
  refine ⟨last, settled, ?_, lays_line outside wide space feed (iff_of_false opens (not_not.mpr awaits)) ?_ lays⟩
  · simp [Text.spaces, List.count_replicate, count]
  · rw [if_neg opens, deep, width]

theorem passes_joined {es : List Entry} (inside : ∀ e' ∈ e :: es, ∀ u, e'.2 = some u → KeepsLines l u)
    (emits : (joined ((e :: es).map (writeLine l depth))).Emits t) (outside : o.region = .outside) (wide : o.IsWide)
    (awaits : o.AwaitsEntry) (deep : wideCount o.opened = depth) (coming : o.coming = (e :: es).flatMap Entry.counts ++ more) :
    Passes l o t more (lineCount ((e :: es).flatMap Entry.counts) + (e :: es).length) := by
  induction es generalizing e o t with
  | nil =>
    have here := List.forall_mem_singleton.mp inside
    rw [List.map_singleton, joined, trail, append_nil] at emits
    rw [List.flatMap_singleton] at coming ⊢
    exact passes_line lines margin here emits outside wide awaits deep coming
  | cons e' es ih =>
    obtain ⟨here, others⟩ := List.forall_mem_cons.mp inside
    have next : trail ((e' :: es).map (writeLine l depth)) = ofText [Symbol.comma] ++ joined ((e' :: es).map (writeLine l depth)) := by
      rw [List.map_cons, joined_cons, trail, append_assoc]
    rw [List.map_cons, joined_cons, next] at emits
    obtain ⟨s, u, first, second, rfl⟩ := emits_append.mp emits
    obtain ⟨mark, u, comma, further, rfl⟩ := emits_append.mp second
    obtain rfl := emits_ofText.mp comma
    rw [List.flatMap_cons, List.append_assoc] at coming
    have step (last : Option CodePoint) (coming : List Nat) : Outline.after { o with coming := coming, last := last } Symbol.comma =
        { o with coming := coming, last := some Symbol.comma } := by
      simp [Outline.after, outside, Region.after, IsOpening, IsClosing]
    have whole := (passes_line lines margin here first outside wide awaits deep coming).append fun last settled =>
      Passes.cons (fun _ => not_awaitsEntry settled) (by decide) (by decide) (step last _)
        (ih others further outside wide ⟨outside, _, rfl, .inr rfl⟩ deep rfl)
    have parts : (e :: e' :: es).flatMap Entry.counts = e.counts ++ (e' :: es).flatMap Entry.counts := List.flatMap_cons
    have count : lineCount e.counts + 1 + (lineCount ((e' :: es).flatMap Entry.counts) + (e' :: es).length) =
        lineCount ((e :: e' :: es).flatMap Entry.counts) + (e :: e' :: es).length := by
      rw [parts, lineCount_append]
      simp only [List.length_cons]
      omega
    exact count ▸ whole

end

/-! Containers. -/

theorem isOpening_openingMark (v : Tree) : IsOpening v.openingMark := by
  unfold openingMark
  split <;> decide

theorem isClosing_closingMark (v : Tree) : IsClosing v.closingMark := by
  unfold closingMark
  split <;> decide

theorem lays_openingMark (v : Tree) (ready : IsReady o depth) {n : Nat} (coming : o.coming = n :: more) :
    Lays l o [v.openingMark] ⟨.outside, more, n :: o.opened, some v.openingMark⟩ := by
  obtain ⟨quote, space, feed⟩ := ne_of_mem_marks v.openingMark_mem
  have opens := v.isOpening_openingMark
  have step : o.after v.openingMark = ⟨.outside, more, n :: o.opened, some v.openingMark⟩ := by
    simp [Outline.after, ready.outside, Region.after, opens, quote, space, coming]
  exact .cons (fun _ => isIndented_plain ready.ready feed opens.not_isClosing _) (step ▸ .nil)

theorem lays_closingMark (v : Tree) {n : Nat} {opened : List Nat} {last : Option CodePoint}
    (line : 2 ≤ n → last = some Symbol.lineFeed) :
    Lays l ⟨.outside, more, n :: opened, last⟩ [v.closingMark] ⟨.outside, more, opened, some v.closingMark⟩ := by
  obtain ⟨quote, space, feed⟩ := ne_of_mem_marks v.closingMark_mem
  have closes := v.isClosing_closingMark
  have opens : ¬ IsOpening v.closingMark := fun opens => opens.not_isClosing closes
  have step : Outline.after ⟨.outside, more, n :: opened, last⟩ v.closingMark = ⟨.outside, more, opened, some v.closingMark⟩ := by
    simp [Outline.after, Region.after, closes, opens, quote, space]
  refine .cons (fun rest => ⟨fun same => absurd same feed, fun wide awaits => ?_, fun wide _ _ => line wide⟩) (step ▸ .nil)
  obtain ⟨-, c, member, precedes⟩ := awaits
  obtain rfl : last = some Symbol.lineFeed := line wide
  cases member
  exact absurd precedes (by decide)

/-- What comes behind the opening mark, up to the closing mark, decides how a container passes. -/
theorem passes_container (v : Tree) (ready : IsReady o depth) {n k : Nat} {counts : List Nat} {inner : Text}
    (coming : o.coming = n :: (counts ++ more)) (count : inner.count Symbol.lineFeed = k)
    (within : Lays l ⟨.outside, counts ++ more, n :: o.opened, some v.openingMark⟩ inner
      ⟨.outside, more, o.opened, some v.closingMark⟩) :
    Passes l o ([v.openingMark] ++ inner) more k ∧ Opens ([v.openingMark] ++ inner) := by
  obtain ⟨-, space, feed⟩ := ne_of_mem_marks v.openingMark_mem
  have lays := (lays_openingMark v ready coming).append within
  rw [← ready.outside] at lays
  refine ⟨⟨some v.closingMark, isSettled_some v.isClosing_closingMark.not_precedesEntry, ?_, lays⟩, _, _, rfl, space, feed,
    v.isOpening_openingMark.not_isClosing⟩
  rw [List.singleton_append, List.count_cons_of_ne feed, count]

theorem passes_empty (container : v.isContainer = true) (shape : v.entries = []) (emits : (write l depth v).Emits t)
    (ready : IsReady o depth) (coming : o.coming = 0 :: ([] ++ more)) : Passes l o t more 0 ∧ Opens t := by
  rw [write_empty container shape] at emits
  obtain rfl := emits_ofText.mp emits
  refine passes_container v ready coming ?_ (lays_closingMark v (n := 0) (by omega))
  rw [List.count_cons_of_ne (ne_of_mem_marks v.closingMark_mem).2.2]
  rfl

theorem passes_single (container : v.isContainer = true) (shape : v.entries = [e]) (inside : ∀ u, e.2 = some u → KeepsLines l u)
    (emits : (write l depth v).Emits t) (ready : IsReady o depth) (coming : o.coming = 1 :: (e.counts ++ more)) :
    Passes l o t more (lineCount e.counts) ∧ Opens t := by
  rw [write_single container shape] at emits
  obtain ⟨s, u, first, last, rfl⟩ := emits_append.mp emits
  obtain ⟨s, t, opening, entry, rfl⟩ := emits_append.mp first
  obtain rfl := emits_ofText.mp opening
  obtain rfl := emits_ofText.mp last
  have start : IsReady ⟨.outside, e.counts ++ more, 1 :: o.opened, some v.openingMark⟩ depth :=
    ⟨rfl, by simpa [wideCount] using ready.depth, fun wide => by simp [IsWide] at wide⟩
  obtain ⟨⟨_, -, count, lays⟩, -⟩ := passes_entry inside entry start rfl
  rw [List.append_assoc]
  refine passes_container v ready coming ?_ (lays.append (lays_closingMark v (n := 1) (by omega)))
  simp [List.count_cons_of_ne (ne_of_mem_marks v.closingMark_mem).2.2, count]

theorem passes_several (lines : 0 < l.step) (margin : 0 ≤ l.margin) (container : v.isContainer = true) {es : List Entry}
    (shape : v.entries = e :: es) (several : 2 ≤ (e :: es).length) (inside : ∀ e' ∈ e :: es, ∀ u, e'.2 = some u → KeepsLines l u)
    (emits : (write l depth v).Emits t) (ready : IsReady o depth)
    (coming : o.coming = (e :: es).length :: ((e :: es).flatMap Entry.counts ++ more)) :
    Passes l o t more ((e :: es).length + 1 + lineCount ((e :: es).flatMap Entry.counts)) ∧ Opens t := by
  obtain ⟨-, space, feed⟩ := ne_of_mem_marks v.closingMark_mem
  have closes := v.isClosing_closingMark
  rw [write_several container (shape ▸ several), shape] at emits
  obtain ⟨s, u, first, last, rfl⟩ := emits_append.mp emits
  obtain ⟨s, t, second, line, rfl⟩ := emits_append.mp first
  obtain ⟨s, u, opening, entries, rfl⟩ := emits_append.mp second
  obtain rfl := emits_ofText.mp opening
  obtain rfl := emits_ofText.mp last
  obtain ⟨n, rfl, width⟩ := exists_lineStart lines margin line
  have deep : wideCount ((e :: es).length :: o.opened) = depth + 1 := by
    rw [← ready.depth]
    exact List.countP_cons_of_pos (decide_eq_true several)
  -- the entries, each on a line of its own
  obtain ⟨last, settled, count, lays⟩ : Passes l ⟨.outside, (e :: es).flatMap Entry.counts ++ more, (e :: es).length :: o.opened,
      some v.openingMark⟩ u more _ :=
    passes_joined lines margin inside entries rfl several ⟨rfl, _, rfl, .inl v.isOpening_openingMark⟩ deep rfl
  -- the line of the closing mark
  have wide : IsWide ⟨.outside, more, (e :: es).length :: o.opened, last⟩ := several
  have ends : Lays l ⟨.outside, more, (e :: es).length :: o.opened, last⟩
      (Symbol.lineFeed :: Text.spaces n ++ [v.closingMark]) ⟨.outside, more, o.opened, some v.closingMark⟩ := by
    refine lays_line rfl wide space feed (iff_of_true closes (not_awaitsEntry settled)) ?_ (lays_closingMark v fun _ => rfl)
    rw [if_pos closes, width, ← ready.depth]
    rfl
  rw [List.append_assoc, List.append_assoc]
  refine passes_container v ready coming ?_ (lays.append ends)
  rw [List.count_append, count]
  simp [Text.spaces, List.count_replicate, List.count_cons_of_ne feed]
  omega

theorem keepsLines (lines : 0 < l.step) (margin : 0 ≤ l.margin) (v : Tree)
    (unmade : v.EveryLeaf fun leaf => leaf.isReadyMade = false) : KeepsLines l v := by
  induction v using induct with
  | leaf value =>
    intro depth t o more emits ready coming
    rw [write, emits_ofExcept] at emits
    obtain rfl : o.coming = more := coming
    exact passes_token ready.outside ready.ready (Scalar.isToken_of_json unmade emits)
  | container v container ih =>
    intro depth t o more emits ready coming
    have inside : ∀ e ∈ v.entries, ∀ u, e.2 = some u → KeepsLines l u := by
      rintro ⟨name, element⟩ listed u rfl
      exact ih name u listed (unmade.entry listed)
    rw [entryCounts_eq container, lineCount_cons]
    rw [entryCounts_eq container] at coming
    match shape : v.entries with
    | [] =>
      rw [shape] at coming
      exact passes_empty container shape emits ready coming
    | [e] =>
      rw [shape] at coming inside
      have single : [e].flatMap Entry.counts = e.counts := List.flatMap_singleton ..
      have narrow : ¬ 2 ≤ [e].length := by simp
      rw [single] at coming ⊢
      rw [if_neg narrow, Nat.zero_add]
      exact passes_single container shape (inside e (List.mem_singleton_self e)) emits ready coming
    | e :: e' :: es =>
      rw [shape] at coming inside
      have several : 2 ≤ (e :: e' :: es).length := by simp
      rw [if_pos several]
      exact passes_several lines margin container shape several inside emits ready coming

/-- The outline before a document. -/
def outline (v : Tree) : Outline := ⟨.outside, entryCounts v, [], none⟩

/-- A document without bad leaves is written to its end just when the layout has room for the lines. Its text then keeps
the law of lines at all places, all containers are closed behind it, and it has as many line feeds as the law asks for. -/
theorem write_indented (l : Layout) (v : Tree) (unmade : v.EveryLeaf fun leaf => leaf.isReadyMade = false)
    (renders : v.compact? ≠ none) (lines : 0 < l.step) (margin : 0 ≤ l.margin) :
    ((write l 0 v).fault = none ↔ l.Fits v) ∧
    (l.Fits v →
      (∀ before c after, (write l 0 v).text = before ++ c :: after → IsIndented l (v.outline.reached before) c after) ∧
      (∃ last, v.outline.reached (write l 0 v).text = ⟨.outside, [], [], last⟩) ∧
      (write l 0 v).text.count Symbol.lineFeed = lineCount (entryCounts v)) := by
  have good : v.EveryLeaf Scalar.IsGood := not_not.mp fun bad => renders (compact?_eq_none_iff.mpr bad)
  have whole : (write l 0 v).fault = none ↔ l.Fits v := by
    rw [write_fault_iff_good]
    exact and_iff_right good
  refine ⟨whole, fun fits => ?_⟩
  have start : IsReady v.outline 0 := ⟨rfl, rfl, fun wide => by simp [IsWide, outline] at wide⟩
  obtain ⟨⟨last, -, count, lays⟩, -⟩ := keepsLines lines margin v unmade (emits_of_fault (whole.mpr fits)) start
    (List.append_nil _).symm
  refine ⟨fun before c after split => ?_, ⟨last, lays.reached⟩, count⟩
  simpa using lays.places before c after [] split

/-- An object of two, with an array of two and an array of one inside. -/
theorem write_indented_nested :
    let v : Tree := .object [([0x61], .array [none, some (.scalar (.int 1))]), ([0x62], .array [none])]
    ∀ before c after, (write ⟨2, 1, 80⟩ 0 v).text = before ++ c :: after → IsIndented ⟨2, 1, 80⟩ (v.outline.reached before) c after := by
  intro v
  exact ((write_indented ⟨2, 1, 80⟩ v ⟨⟨rfl, trivial⟩, trivial, trivial⟩ (by decide) (by decide) (by decide)).2 (by decide)).1

/-- With a step that cannot be counted nothing comes behind the first line feed. -/
theorem write_indented_breaks_off : ∃ (l : Layout) (v : Tree), v.EveryLeaf (fun leaf => leaf.isReadyMade = false) ∧
    v.compact? ≠ none ∧ 0 < l.step ∧ 0 ≤ l.margin ∧ ∃ before,
      (write l 0 v).text = before ++ Symbol.lineFeed :: [] ∧ ¬ IsIndented l (v.outline.reached before) Symbol.lineFeed [] := by
  refine ⟨⟨maxInt64 + 1, 0, 80⟩, .object [([0x61], .scalar (.int 1)), ([0x62], .scalar (.int 2))], ⟨rfl, rfl, trivial⟩, by decide,
    by decide, by decide, [Symbol.leftBrace], rfl, fun law => ?_⟩
  obtain ⟨-, -, n, x, rest, nothing, -⟩ := law.line rfl
  simp at nothing

end Value
end LenientJson
