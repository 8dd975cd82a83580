import LenientJson.Proofs.Emission.Token
import Mathlib.Data.List.Chain

/-! Emitted text inside other text. It closes no script element and holds no control character but the line feeds of the
layout, wherever its pieces meet, and whether or not the whole is written to its end. -/
namespace LenientJson

namespace Value
open Emission

/-- Properties that all pieces have of which a document is put together, and that are kept when texts are joined. -/
structure OfPieces (l : Layout) (P : Text → Prop) : Prop where
  nil : P []
  append : ∀ {s t}, P s → P t → P (s ++ t)
  token : ∀ {t}, IsToken t → P t
  mark : ∀ c ∈ marks, P [c]
  colon : P l.colon
  line : ∀ depth, P (l.lineStart depth).text

namespace OfPieces

variable {l : Layout} {P : Text → Prop} {a b : Emission}

theorem joins (pieces : OfPieces l P) (first : P a.text) (second : P b.text) : P (a ++ b).text := by
  obtain ⟨s, fault⟩ := a
  cases fault with
  | none => exact pieces.append first second
  | some fault => exact first

theorem writeEntry (pieces : OfPieces l P) {depth : Nat} {entry : Entry}
    (inside : ∀ u, entry.2 = some u → P (write l depth u).text) : P (writeEntry l depth entry).text := by
  obtain ⟨name, element⟩ := entry
  refine pieces.joins ?_ ?_
  · cases name with
    | none => exact pieces.nil
    | some key => exact pieces.append (pieces.token (.string key)) pieces.colon
  · cases element with
    | none => exact pieces.token Scalar.isToken_null
    | some u => exact inside u rfl

theorem trail (pieces : OfPieces l P) {lines : List Emission} (each : ∀ line ∈ lines, P line.text) :
    P (trail lines).text := by
  induction lines with
  | nil => exact pieces.nil
  | cons line rest ih =>
    obtain ⟨first, others⟩ := List.forall_mem_cons.mp each
    have comma : P [Symbol.comma] := pieces.mark _ (by decide)
    exact pieces.joins (pieces.joins (a := ofText [Symbol.comma]) comma first) (ih others)

theorem joined (pieces : OfPieces l P) {lines : List Emission} (each : ∀ line ∈ lines, P line.text) :
    P (joined lines).text := by
  cases lines with
  | nil => exact pieces.nil
  | cons line rest =>
    obtain ⟨first, others⟩ := List.forall_mem_cons.mp each
    exact pieces.joins first (pieces.trail others)

theorem write (pieces : OfPieces l P) (v : Tree) (unmade : v.EveryLeaf fun leaf => leaf.isReadyMade = false) (depth : Nat) :
    P (write l depth v).text := by
  induction v using induct generalizing depth with
  | leaf value =>
    rw [Value.write]
    cases written : value.json with
    | error fault => exact pieces.nil
    | ok t => exact pieces.token (Scalar.isToken_of_json unmade written)
  | container v container ih =>
    have opening : P (ofText [v.openingMark]).text := pieces.mark _ v.openingMark_mem
    have closing : P (ofText [v.closingMark]).text := pieces.mark _ v.closingMark_mem
    have entry (depth : Nat) : ∀ entry ∈ v.entries, P (Value.writeEntry l depth entry).text := by
      rintro ⟨name, element⟩ listed
      refine pieces.writeEntry fun u same => ?_
      obtain rfl : element = some u := same
      exact ih name u listed (unmade.entry listed) depth
    match shape : v.entries with
    | [] =>
      rw [write_empty container shape]
      exact pieces.append opening closing
    | [single] =>
      rw [write_single container shape]
      exact pieces.joins (pieces.joins opening (entry depth single (shape ▸ List.mem_singleton_self single))) closing
    | first :: second :: rest =>
      rw [write_several container (shape ▸ by simp)]
      refine pieces.joins (pieces.joins (pieces.joins opening (pieces.joined fun line listed => ?_)) (pieces.line depth)) closing
      obtain ⟨e, inside, rfl⟩ := List.mem_map.mp listed
      exact pieces.joins (pieces.line (depth + 1)) (entry (depth + 1) e inside)

end OfPieces
end Value

/-! The slash. -/

/-- A slash does not follow `<`. -/
def Apart (c d : CodePoint) : Prop := ¬ (c = Symbol.less ∧ d = Symbol.slash)

theorem apart_of_ne_less {c : CodePoint} (other : c ≠ Symbol.less) (d : CodePoint) : Apart c d := fun both => other both.1

theorem apart_of_ne_slash (c : CodePoint) {d : CodePoint} (other : d ≠ Symbol.slash) : Apart c d := fun both => other both.2

theorem isChain_of_ne_less {t : Text} (other : ∀ c ∈ t, c ≠ Symbol.less) : t.IsChain Apart := by
  refine List.isChain_iff_forall_rel_of_append_cons_cons.mpr fun c d before after split => apart_of_ne_less (other c ?_) d
  rw [split]
  simp

theorem isChain_cons_append {s rest : Text} (plain : ∀ c ∈ s, c ≠ Symbol.less ∧ c ≠ Symbol.slash)
    (others : ∀ y, y ≠ Symbol.less → (y :: rest).IsChain Apart) {x : CodePoint} (last : x ≠ Symbol.less) :
    (x :: (s ++ rest)).IsChain Apart := by
  induction s generalizing x with
  | nil => exact others x last
  | cons c s ih =>
    obtain ⟨⟨less, slash⟩, plain⟩ := List.forall_mem_cons.mp plain
    exact .cons_cons (apart_of_ne_slash x slash) (ih plain less)

/-- Behind a code point `x` that was written last, and that is `<` only where `<` comes before in the text itself. -/
theorem isChain_quotedBody (t : Text) (previous : Option CodePoint) {x : CodePoint}
    (last : x = Symbol.less → previous = some Symbol.less) :
    (x :: (Text.quotedBody previous t ++ [Symbol.doubleQuote])).IsChain Apart := by
  induction t generalizing previous x with
  | nil => exact .cons_cons (apart_of_ne_slash x (by decide)) (.singleton _)
  | cons c t ih =>
    rw [Text.quotedBody, List.append_assoc]
    rcases escaped_cases previous c with ⟨letter, named, same⟩ | ⟨digits, same⟩ | ⟨-, same⟩
    · rw [same]
      have further := ih (some c) fun less => congrArg some ((visible_of_escapes named).2 less)
      exact .cons_cons (apart_of_ne_slash x (by decide)) (.cons_cons (apart_of_ne_less (by decide) letter) further)
    · rw [same]
      have plain : ∀ d ∈ Symbol.letterU :: hexDigits 4 c, d ≠ Symbol.less ∧ d ≠ Symbol.slash :=
        List.forall_mem_cons.mpr ⟨by decide, fun d member => (digits.visible d member).2⟩
      have others (y : CodePoint) (other : y ≠ Symbol.less) := ih (some c) fun less => absurd less other
      exact .cons_cons (apart_of_ne_slash x (by decide)) (isChain_cons_append plain others (by decide))
    · rw [same]
      have apart : Apart x c := by
        rintro ⟨less, slash⟩
        exact (plain_of_escaped_eq same).2 slash (last less)
      exact .cons_cons apart (ih (some c) (congrArg some))

/-! Control characters. -/

/-- The code points that need an escape are line feeds outside of strings, and there are none without lines. -/
def IsControlled (l : Layout) (t : Text) : Prop :=
  ∀ before c after, t = before ++ c :: after → Text.needsHex c = true →
    c = Symbol.lineFeed ∧ l.hasLines = true ∧ Region.outside.reached before = .outside

theorem isControlled_of_visible {l : Layout} {t : Text} (visible : ∀ c ∈ t, Text.needsHex c = false) : IsControlled l t := by
  rintro before c after rfl hex
  have plain := visible c (List.mem_append_right before List.mem_cons_self)
  exact absurd (hex.symm.trans plain) (by decide)

/-- A text that is safe, that ends outside of strings, and behind which a slash is safe. -/
structure IsSafe (l : Layout) (t : Text) : Prop where
  apart : t.IsChain Apart
  last : t.getLast? ≠ some Symbol.less
  region : Region.outside.reached t = .outside
  controlled : IsControlled l t

namespace IsSafe

variable {l : Layout} {s t : Text}

theorem append (first : IsSafe l s) (second : IsSafe l t) : IsSafe l (s ++ t) where
  apart := by
    refine first.apart.append second.apart fun c last d _ => apart_of_ne_less ?_ d
    rintro rfl
    exact first.last last
  last := by
    rw [List.getLast?_append]
    cases ends : t.getLast? with
    | none => exact first.last
    | some c =>
      have other := second.last
      rwa [ends] at other
  region := by rw [Region.reached_append, first.region, second.region]
  controlled := by
    intro before c after split hex
    rcases List.append_eq_append_iff.mp split with ⟨m, rfl, later⟩ | ⟨m, rfl, earlier⟩
    · rw [Region.reached_append, first.region]
      exact second.controlled m c after later hex
    · cases m with
      | nil =>
        have here := second.controlled [] c after earlier.symm hex
        rwa [← List.append_nil before, first.region]
      | cons d m =>
        cases earlier
        exact first.controlled before c m rfl hex

theorem of_visible (apart : t.IsChain Apart) (last : t.getLast? ≠ some Symbol.less) (region : Region.outside.reached t = .outside)
    (visible : ∀ c ∈ t, Text.needsHex c = false) : IsSafe l t := ⟨apart, last, region, isControlled_of_visible visible⟩

theorem quoted (s : Text) : IsSafe l s.quoted := by
  have quote : Text.needsHex Symbol.doubleQuote = false := by decide
  refine of_visible (isChain_quotedBody s none nofun) ?_ (reached_quoted s) ?_
  · rw [Text.quoted, List.getLast?_concat]
    decide
  · exact List.forall_mem_append.mpr ⟨List.forall_mem_cons.mpr ⟨quote, visible_quotedBody none s⟩,
      List.forall_mem_singleton.mpr quote⟩

theorem word (marks : ∀ c ∈ t, IsWordMark c) : IsSafe l t := by
  have bounds (c : Nat) (member : c ∈ t) := (marks c member).bounds
  have other (c : CodePoint) (member : c ∈ t) : c ≠ Symbol.less := (bounds c member).2.2.2.1
  refine of_visible (isChain_of_ne_less other) (fun last => other _ (List.mem_of_getLast? last) rfl) (reached_word marks)
    fun c member => ?_
  refine Bool.eq_false_iff.mpr fun hex => ?_
  have := needsHex_iff.mp hex
  have := bounds c member
  omega

theorem mark {c : CodePoint} (listed : c ∈ Value.marks) : IsSafe l [c] := by
  have table : ∀ c ∈ Value.marks, c ≠ Symbol.less ∧ c ≠ Symbol.doubleQuote ∧ Text.needsHex c = false := by decide
  obtain ⟨less, quote, visible⟩ := table c listed
  refine of_visible (.singleton c) (fun last => less (Option.some.inj last)) ?_ (List.forall_mem_singleton.mpr visible)
  exact Region.reached_outside (List.forall_mem_singleton.mpr quote)

theorem line (lines : l.hasLines = true) (n : Nat) : IsSafe l (Symbol.lineFeed :: Text.spaces n) := by
  have space (c : CodePoint) (member : c ∈ Text.spaces n) : c = Symbol.space := List.eq_of_mem_replicate member
  refine ⟨isChain_of_ne_less ?_, ?_, Region.reached_outside ?_, ?_⟩
  · refine List.forall_mem_cons.mpr ⟨by decide, fun c member => ?_⟩
    rw [space c member]
    decide
  · intro last
    rcases List.mem_cons.mp (List.mem_of_getLast? last) with same | member
    · cases same
    · cases space _ member
  · refine List.forall_mem_cons.mpr ⟨by decide, fun c member => ?_⟩
    rw [space c member]
    decide
  · rintro (_ | ⟨d, before⟩) c after split hex
    · cases split
      exact ⟨rfl, lines, rfl⟩
    · have member : c ∈ Text.spaces n := (List.cons.inj split).2 ▸ List.mem_append_right before List.mem_cons_self
      rw [space c member] at hex
      cases hex

theorem pieces (l : Layout) : Value.OfPieces l (IsSafe l) where
  nil := of_visible .nil nofun rfl (List.forall_mem_nil _)
  append := append
  token token := by
    cases token with
    | string s => exact quoted s
    | word _ marks => exact word marks
  mark _ := mark
  colon := by
    unfold Layout.colon
    split <;> exact of_visible (isChain_of_ne_less (by decide)) (by decide) (by decide) (by decide)
  line depth := by
    rcases l.lineStart_text depth with ⟨none, -⟩ | ⟨lines, n, text, -⟩
    · rw [none]
      exact of_visible .nil nofun rfl (List.forall_mem_nil _)
    · rw [text]
      exact line lines n

end IsSafe

namespace Host

/-- Whatever is written for a value, in any layout, `<` never stands before a slash, no code point is from the control
and punctuation blocks, and a lower one is a line feed outside of strings, in a layout with lines. -/
theorem write_safe (view : Link → Sight) (l : Layout) (h : Host) (unmade : h.IsUnmade view) :
    (∀ before after, (h.write view l).text ≠ before ++ Symbol.less :: Symbol.slash :: after) ∧
    (∀ c ∈ (h.write view l).text, ¬ (0x80 ≤ c ∧ c ≤ 0x9F) ∧ ¬ (0x2000 ≤ c ∧ c ≤ 0x20FF)) ∧
    ∀ before c after, (h.write view l).text = before ++ c :: after → c < 0x20 →
      c = Symbol.lineFeed ∧ 0 < l.step ∧ Region.outside.reached before = .outside := by
  have safe : IsSafe l (h.write view l).text := by
    unfold write
    split
    · next v written => exact (IsSafe.pieces l).write v (unmade v written) 0
    · exact (IsSafe.pieces l).nil
  refine ⟨fun before after split => ?_, fun c member => ?_, fun before c after split low => ?_⟩
  · exact List.isChain_iff_forall_rel_of_append_cons_cons.mp safe.apart split ⟨rfl, rfl⟩
  · obtain ⟨before, after, split⟩ := List.append_of_mem member
    have block : ¬ (0x80 ≤ c ∧ c < 0xA0 ∨ 0x2000 ≤ c ∧ c < 0x2100) := fun block => by
      obtain ⟨rfl, -⟩ := safe.controlled before c after split (needsHex_iff.mpr (.inr block))
      exact absurd block (by decide)
    exact ⟨fun low => block (.inl ⟨low.1, Nat.lt_succ_of_le low.2⟩), fun high => block (.inr ⟨high.1, Nat.lt_succ_of_le high.2⟩)⟩
  · obtain ⟨feed, lines, outside⟩ := safe.controlled before c after split (needsHex_iff.mpr (.inl low))
    exact ⟨feed, of_decide_eq_true lines, outside⟩

/-- An object that has a user object whose text closes a script element, and a name and a text that hold separators. -/
theorem write_safe_script :
    let face : Foreign := ⟨0, [], .text (Text.ofString "</script>\n"), .text [], none, none, true⟩
    let view : Link → Sight := fun _ => ⟨some (.object [([Symbol.less], .scalar (.foreign face)),
      ([0x2028], .array [none, some (.scalar (.text [Symbol.less, Symbol.slash, 0x85]))])]), .ok [], []⟩
    (Host.link (.object 0)).IsUnmade view ∧ (∀ before after,
      (Host.write view ⟨2, 0, 80⟩ (.link (.object 0))).text ≠ before ++ Symbol.less :: Symbol.slash :: after) ∧
    ∀ c ∈ (Host.write view ⟨2, 0, 80⟩ (.link (.object 0))).text, ¬ (0x80 ≤ c ∧ c ≤ 0x9F) ∧ ¬ (0x2000 ≤ c ∧ c ≤ 0x20FF) := by
  intro face view
  have unmade : (Host.link (.object 0)).IsUnmade view := fun v written => by
    cases written
    exact ⟨rfl, ⟨rfl, trivial⟩, trivial⟩
  obtain ⟨slash, block, -⟩ := write_safe view ⟨2, 0, 80⟩ (.link (.object 0)) unmade
  exact ⟨unmade, slash, block⟩

/-- A user object in a list that renders nothing itself, but has an accessor for a ready-made text, and a user object that
is an integer: what they bring is written as it is, and holds a slash behind `<`. -/
theorem write_not_safe :
    (let face : Foreign := ⟨0, Text.ofString "Bean", .text [], .text [], none, none, true⟩
      let bean : UserObject Host := ⟨face, none, [(Text.ofString "getA",
        .method .none (.gives (.scalar (.raw (some (Text.ofString "</"))))))], none, []⟩
      ((Host.sequence .list [.user bean]).write (fun _ => ⟨none, .ok [], []⟩) .flat).text =
        Text.ofString "[\x7b\"a\":</\x7d]") ∧
    let face : Foreign := ⟨0, Text.ofString "Mark", .text (Text.ofString "</script>"), .text [], none,
      some ⟨.int 1, .gives (.zero false), .gives 1⟩, true⟩
    ((Host.scalar (.foreign face)).write (fun _ => ⟨none, .ok [], []⟩) .flat).text = Text.ofString "</script>" := by
  refine ⟨?_, rfl⟩
  decide +kernel

end Host
end LenientJson
