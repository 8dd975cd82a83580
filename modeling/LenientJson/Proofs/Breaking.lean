import LenientJson.Proofs.Context
import LenientJson.Proofs.Layout
import LenientJson.Proofs.Number.Canonical

/-! Where writing breaks off. Some leaves have no text; a document is written up to the first of them, and the fault
is the one of this leaf. Around any place of a document stand the same pieces whatever stands there, so that what is
written before a bad leaf is what comes before any other leaf in its place. -/
namespace LenientJson

/-- What a user object is asked for when its own text is written: a binary64 number for its literal, any other object
for its plain text. -/
def Foreign.asked (value : Foreign) : Spoken :=
  match value.kind? with
  | some (.float _) => value.literal
  | _ => value.spoken

namespace Scalar

/-- Leaves without a JSON text, and why: a number that is not finite or has too many digits, a ready-made text that is
missing or whose making fails, and a user object whose text is asked for and cannot be given. -/
inductive IsBad : Scalar → Fault → Prop
  | infinite {leaf : Scalar} (infinite : leaf.isAdmissible = false) : IsBad leaf .nonFinite
  | long {leaf : Scalar} (long : ¬ leaf.IsShort) : IsBad leaf .tooManyDigits
  | raw : IsBad (raw none) (.badRendering (Text.ofString "RawJSON(text=None)"))
  | missing {value : Foreign} {t : Text} (unnumbered : value.number = none) (rendering : value.rendering = some .missing)
    (named : value.literal = .text t) : IsBad (foreign value) (.badRendering t)
  | nameless {value : Foreign} {message : Text} (unnumbered : value.number = none)
    (rendering : value.rendering = some .missing) (nameless : value.literal = .fails message) :
    IsBad (foreign value) (.raised message)
  | fails {value : Foreign} {message : Text} (unnumbered : value.number = none)
    (rendering : value.rendering = some (.fails message)) : IsBad (foreign value) (.badRendering message)
  | unprintable {value : Foreign} {fault : Fault} (unnumbered : value.number = none)
    (rendering : value.rendering = some (.unprintable fault)) : IsBad (foreign value) fault
  | silent {value : Foreign} {message : Text} (unrendered : value.number = none → value.rendering = none)
    (finite : (foreign value).isAdmissible = true) (silent : value.asked = .fails message) :
    IsBad (foreign value) (.raised message)

def IsGood (leaf : Scalar) : Prop := ∀ fault, ¬ leaf.IsBad fault

/-- The text of a user object that does not render itself: what it is asked for, if it is finite. -/
theorem json_foreign {value : Foreign} (unrendered : value.number = none → value.rendering = none)
    (finite : (foreign value).isAdmissible = true) : ∃ f : Text → Text, (foreign value).json = value.asked.answer.map f := by
  cases numbered : value.number with
  | none =>
    refine ⟨Text.quoted, ?_⟩
    simp only [json, numbered, unrendered numbered, Foreign.asked, Foreign.kind?, Option.map_none]
  | some number =>
    have canonical : (foreign value).json = (foreign value).canonicalNumber := by simp only [json, numbered]
    have kind : value.kind? = some number.kind := by rw [Foreign.kind?, numbered, Option.map_some]
    rw [canonical, canonicalNumber, requireFinite, finite, Foreign.asked, kind]
    cases number.kind
    case int => exact ⟨id, by cases value.spoken <;> rfl⟩
    case float => exact ⟨shaved, by cases value.literal <;> rfl⟩
    all_goals exact ⟨shaved, by cases value.spoken <;> rfl⟩

theorem json_infinite {leaf : Scalar} (infinite : leaf.isAdmissible = false) : leaf.json = .error .nonFinite := by
  have refused : leaf.requireFinite = .error .nonFinite := by rw [requireFinite, infinite]; rfl
  cases leaf with
  | float | decimal =>
    simp only [json, canonicalNumber, refused]
    rfl
  | foreign value =>
    cases numbered : value.number with
    | none =>
      rw [isAdmissible, Foreign.kind?, numbered] at infinite
      cases infinite
    | some number =>
      simp only [json, numbered, canonicalNumber, refused]
      rfl
  | _ => cases infinite

theorem json_long {leaf : Scalar} (long : ¬ leaf.IsShort) : leaf.json = .error .tooManyDigits := by
  cases leaf with
  | int n => exact integerText_of_not_isShort long
  | fraction q =>
    have refused := fractionText_of_not_isShort long
    simp only [json, canonicalNumber, plain, refused]
    rfl
  | _ => exact absurd trivial long

theorem json_rendered {value : Foreign} {rendering : Rendering} (unnumbered : value.number = none)
    (renders : value.rendering = some rendering) : (foreign value).json = value.rendered rendering := by
  simp only [json, unnumbered, renders]

theorem json_eq_error_iff {leaf : Scalar} {fault : Fault} : leaf.json = .error fault ↔ leaf.IsBad fault := by
  constructor
  · intro fails
    by_cases finite : leaf.isAdmissible = true
    swap
    · rw [json_infinite (Bool.eq_false_of_not_eq_true finite)] at fails
      cases fails
      exact .infinite (Bool.eq_false_of_not_eq_true finite)
    by_cases short : leaf.IsShort
    swap
    · rw [json_long short] at fails
      cases fails
      exact .long short
    cases leaf with
    | int n => cases (integerText_of_isShort short).symm.trans fails
    | float value => cases (canonicalNumber_float finite).symm.trans fails
    | decimal value =>
      simp only [json, canonicalNumber, requireFinite, finite, if_true] at fails
      cases fails
    | fraction q =>
      obtain ⟨t, written⟩ := exists_fractionText.mpr short
      simp only [json, canonicalNumber, plain, written] at fails
      cases fails
    | raw json =>
      cases json with
      | none =>
        cases fails
        exact .raw
      | some t => cases fails
    | foreign value =>
      by_cases unrendered : value.number = none → value.rendering = none
      · obtain ⟨f, written⟩ := json_foreign unrendered finite
        rw [written] at fails
        cases asked : value.asked with
        | text t =>
          rw [asked] at fails
          cases fails
        | fails message =>
          rw [asked] at fails
          cases fails
          exact .silent unrendered finite asked
      · obtain ⟨unnumbered, rendered⟩ := Classical.not_imp.mp unrendered
        obtain ⟨rendering, renders⟩ := Option.ne_none_iff_exists'.mp rendered
        rw [json_rendered unnumbered renders] at fails
        cases rendering with
        | text t => cases fails
        | missing =>
          cases named : value.literal with
          | text t =>
            rw [Foreign.rendered, named] at fails
            cases fails
            exact .missing unnumbered renders named
          | fails message =>
            rw [Foreign.rendered, named] at fails
            cases fails
            exact .nameless unnumbered renders named
        | fails message =>
          cases fails
          exact .fails unnumbered renders
        | unprintable =>
          cases fails
          exact .unprintable unnumbered renders
    | _ => cases fails
  · intro bad
    cases bad with
    | infinite infinite => exact json_infinite infinite
    | long long => exact json_long long
    | raw => rfl
    | missing unnumbered renders named | nameless unnumbered renders named =>
      rw [json_rendered unnumbered renders, Foreign.rendered, named]
      rfl
    | fails unnumbered renders | unprintable unnumbered renders => rw [json_rendered unnumbered renders, Foreign.rendered]
    | silent unrendered finite silent =>
      obtain ⟨f, written⟩ := json_foreign unrendered finite
      rw [written, silent]
      rfl

end Scalar

namespace Emission

/-- Pieces with a comma after each. -/
def lead : List Emission → Emission
  | [] => ofText []
  | piece :: rest => piece ++ ofText [Symbol.comma] ++ lead rest

/-- Pieces with a comma before each. -/
def trail : List Emission → Emission
  | [] => ofText []
  | piece :: rest => ofText [Symbol.comma] ++ piece ++ trail rest

/-- Pieces with a comma between each two. -/
def joined : List Emission → Emission
  | [] => ofText []
  | piece :: rest => piece ++ trail rest

variable {before after : List Emission} {piece : Emission}

theorem nil_append (e : Emission) : ofText [] ++ e = e := by simp [append_eq, append, ofText]

theorem append_nil (e : Emission) : e ++ ofText [] = e := by
  obtain ⟨t, fault⟩ := e
  cases fault <;> simp [append_eq, append, ofText]

theorem joined_cons (rest : List Emission) : joined (piece :: rest) = piece ++ trail rest := by simp [joined]

theorem trail_append_cons : trail (before ++ piece :: after) = ofText [Symbol.comma] ++ joined (before ++ piece :: after) := by
  cases before <;> simp [trail, joined, append_assoc]

theorem joined_append_cons : joined (before ++ piece :: after) = lead before ++ (piece ++ trail after) := by
  induction before with
  | nil => simp [joined, lead, nil_append]
  | cons first before ih => rw [List.cons_append, joined_cons, trail_append_cons, ih, lead, append_assoc, append_assoc]

theorem lead_fault_iff {pieces : List Emission} : (lead pieces).fault = none ↔ (trail pieces).fault = none := by
  induction pieces with
  | nil => simp [lead, trail]
  | cons piece rest ih => simp only [lead, trail, fault_append, ih, and_comm]

end Emission

namespace Value
open Emission Layout

variable {l : Layout} {depth : Nat}

theorem writeMembers_eq (members : Members Tree) :
    writeMembers l depth members = trail (members.map (writeMember l depth)) := by
  induction members with
  | nil => simp [writeMembers, trail]
  | cons entry rest ih => simp [writeMembers, trail, ih]

/-- What an element takes that stands on a line of its own. -/
def writeSlot (l : Layout) (depth : Nat) (element : Option Tree) : Emission :=
  l.lineStart depth ++ writeElement l depth element

theorem writeElements_eq (elements : List (Option Tree)) :
    writeElements l depth elements = trail (elements.map (writeSlot l depth)) := by
  induction elements with
  | nil => simp [writeElements, trail]
  | cons element rest ih => simp [writeElements, trail, writeSlot, ih, append_assoc]

theorem write_object {members : Members Tree} (several : 2 ≤ members.length) : write l depth (.object members) =
    ofText [Symbol.leftBrace] ++ joined (members.map (writeMember l (depth + 1))) ++ l.lineStart depth ++
      ofText [Symbol.rightBrace] := by
  match members, several with
  | first :: second :: rest, _ => simp only [write, writeMembers_eq, List.map_cons, joined_cons, append_assoc]

theorem write_array {elements : List (Option Tree)} (several : 2 ≤ elements.length) : write l depth (.array elements) =
    ofText [Symbol.leftBracket] ++ joined (elements.map (writeSlot l (depth + 1))) ++ l.lineStart depth ++
      ofText [Symbol.rightBracket] := by
  match elements, several with
  | first :: second :: rest, _ => simp only [write, writeElements_eq, List.map_cons, joined_cons, writeSlot, append_assoc]

theorem memberDepth_append (before after : Members Tree) :
    memberDepth (before ++ after) = max (memberDepth before) (memberDepth after) := by
  induction before with
  | nil => simp [memberDepth]
  | cons entry rest ih =>
    obtain ⟨key, value⟩ := entry
    simp [memberDepth, ih, Nat.max_assoc]

theorem elementDepth_append (before after : List (Option Tree)) :
    elementDepth (before ++ after) = max (elementDepth before) (elementDepth after) := by
  induction before with
  | nil => simp [elementDepth]
  | cons element rest ih => cases element <;> simp [elementDepth, ih, Nat.max_assoc]

/-- All leaves before the hole are good. -/
def Frame.IsClear : Frame → Prop
  | member before _ _ => EveryMemberLeaf Scalar.IsGood before
  | element before _ => EveryElementLeaf Scalar.IsGood before

def Context.IsClear (c : Context) : Prop := ∀ f ∈ c, f.IsClear

theorem hasText_eq : HasText = Scalar.IsGood := by
  funext leaf
  simp only [HasText, Scalar.IsGood, ← Scalar.json_eq_error_iff]
  cases leaf.json <;> simp

/-- What is written around a hole does not depend on what stands there. With nothing but good leaves before the
hole, and with room for the lines, what comes before it is written to its end. -/
def Surrounds (l : Layout) (depth : Nat) (fill : Tree → Tree) (clear : Prop) (before after : Emission) (inner : Nat) : Prop :=
  ∀ v, write l depth (fill v) = before ++ (write l inner v ++ after) ∧
    (clear → l.Spans depth (fill v).lineDepth → before.fault = none ∧ l.Spans inner v.lineDepth)

theorem surrounds_single {fill : Tree → Tree} {clear : Prop} {mark mark' : Text}
    (written : ∀ v, write l depth (fill v) = ofText mark ++ write l depth v ++ ofText mark')
    (deep : ∀ v, (fill v).lineDepth = v.lineDepth) :
    Surrounds l depth fill clear (ofText mark) (ofText mark') depth := fun v => by
  rw [written, deep, append_assoc]
  exact ⟨rfl, fun _ spans => ⟨ofText_fault mark, spans⟩⟩

theorem surrounds_several {fill : Tree → Tree} {clear : Prop} {mark mark' : Text} {start : Emission}
    {before after : List Emission} {m n : Nat}
    (written : ∀ v, write l depth (fill v) = ofText mark ++ joined (before ++ (start ++ write l (depth + 1) v) :: after) ++
      l.lineStart depth ++ ofText mark')
    (deep : ∀ v, (fill v).lineDepth = max m (max v.lineDepth n) + 1)
    (whole : clear → (l.lineStart (depth + 1)).fault = none → l.Spans (depth + 1) m →
      (trail before).fault = none ∧ start.fault = none) :
    Surrounds l depth fill clear (ofText mark ++ lead before ++ start)
      (trail after ++ l.lineStart depth ++ ofText mark') (depth + 1) := fun v => by
  constructor
  · simp only [written, joined_append_cons, append_assoc]
  · intro clear spans
    rw [deep, spans_succ, spans_max, spans_max] at spans
    obtain ⟨-, room, outer, inner, -⟩ := spans
    obtain ⟨pieces, start⟩ := whole clear room outer
    exact ⟨by simp only [fault_append, ofText_fault, lead_fault_iff, pieces, start, true_and], inner⟩

theorem surrounds_member (before : Members Tree) (key : Text) (after : Members Tree) :
    ∃ opening closing inner, Surrounds l depth (Frame.fill (.member before key after)) (Frame.IsClear (.member before key after))
      opening closing inner := by
  by_cases single : before = [] ∧ after = []
  · obtain ⟨rfl, rfl⟩ := single
    exact ⟨ofText (Symbol.leftBrace :: Text.quoted key ++ l.colon), ofText [Symbol.rightBrace], depth,
      surrounds_single (fun v => by simp only [Frame.fill, List.nil_append, write]) (lineDepth_single key)⟩
  · have several (v : Tree) : 2 ≤ (before ++ (key, v) :: after).length := by
      have others : before.length + after.length ≠ 0 := by simpa using single
      rw [List.length_append, List.length_cons]
      omega
    refine ⟨ofText [Symbol.leftBrace] ++ lead (before.map (writeMember l (depth + 1))) ++
        (l.lineStart (depth + 1) ++ ofText (Text.quoted key ++ l.colon)),
      trail (after.map (writeMember l (depth + 1))) ++ l.lineStart depth ++ ofText [Symbol.rightBrace], depth + 1,
      surrounds_several (m := memberDepth before) (n := memberDepth after) (fun v => ?_) (fun v => ?_)
        fun clear room spans => ?_⟩
    · rw [Frame.fill, write_object (several v), List.map_append, List.map_cons, writeMember]
    · rw [Frame.fill, lineDepth, if_neg (by have := several v; omega), memberDepth_append, memberDepth]
    · rw [Frame.IsClear, ← hasText_eq] at clear
      rw [← writeMembers_eq, writeMembers_fault_iff]
      exact ⟨⟨clear, fun _ => room, spans⟩, by simp only [fault_append, room, ofText_fault, and_self]⟩

theorem surrounds_element (before after : List (Option Tree)) :
    ∃ opening closing inner, Surrounds l depth (Frame.fill (.element before after)) (Frame.IsClear (.element before after))
      opening closing inner := by
  by_cases single : before = [] ∧ after = []
  · obtain ⟨rfl, rfl⟩ := single
    exact ⟨ofText [Symbol.leftBracket], ofText [Symbol.rightBracket], depth,
      surrounds_single (fun v => by simp only [Frame.fill, List.nil_append, write, writeElement]) fun v => Nat.max_zero _⟩
  · have several (v : Tree) : 2 ≤ (before ++ some v :: after).length := by
      have others : before.length + after.length ≠ 0 := by simpa using single
      rw [List.length_append, List.length_cons]
      omega
    refine ⟨ofText [Symbol.leftBracket] ++ lead (before.map (writeSlot l (depth + 1))) ++ l.lineStart (depth + 1),
      trail (after.map (writeSlot l (depth + 1))) ++ l.lineStart depth ++ ofText [Symbol.rightBracket], depth + 1,
      surrounds_several (m := elementDepth before) (n := elementDepth after) (fun v => ?_) (fun v => ?_)
        fun clear room spans => ?_⟩
    · rw [Frame.fill, write_array (several v), List.map_append, List.map_cons, writeSlot, writeElement]
    · rw [Frame.fill, lineDepth, if_neg (by have := several v; omega), elementDepth_append, elementDepth]
    · rw [Frame.IsClear, ← hasText_eq] at clear
      rw [← writeElements_eq, writeElements_fault_iff]
      exact ⟨⟨clear, fun _ => room, spans⟩, room⟩

theorem Frame.exists_surroundings (f : Frame) (l : Layout) (depth : Nat) :
    ∃ before after inner, Surrounds l depth f.fill f.IsClear before after inner := by
  cases f with
  | member before key after => exact surrounds_member before key after
  | element before after => exact surrounds_element before after

theorem Context.exists_surroundings (c : Context) (l : Layout) (depth : Nat) :
    ∃ before after inner, Surrounds l depth c.fill c.IsClear before after inner := by
  induction c generalizing depth with
  | nil => exact ⟨ofText [], ofText [], depth, surrounds_single (by simp [nil_append, append_nil]) (by simp)⟩
  | cons f c ih =>
    -- The hole of the outer frame is filled with the whole of the inner context.
    obtain ⟨before, after, inner, outside⟩ := f.exists_surroundings l depth
    obtain ⟨before', after', inner', inside⟩ := ih inner
    refine ⟨before ++ before', after' ++ after, inner', fun v => ⟨?_, fun clear spans => ?_⟩⟩
    · rw [fill_cons, (outside _).1, (inside v).1]
      simp only [append_assoc]
    · rw [fill_cons] at spans
      obtain ⟨clear, clears⟩ := List.forall_mem_cons.mp clear
      obtain ⟨whole, spans⟩ := (outside _).2 clear spans
      obtain ⟨whole', spans⟩ := (inside v).2 clears spans
      exact ⟨fault_append.mpr ⟨whole, whole'⟩, spans⟩

/-- The first bad leaf of a document, by what stands around it and by its fault. -/
def BreaksAt (v : Tree) (c : Context) (fault : Fault) : Prop :=
  ∃ leaf, v = c.fill (.scalar leaf) ∧ leaf.IsBad fault ∧ c.IsClear

mutual
theorem exists_breaksAt : ∀ v : Tree, ¬ v.EveryLeaf Scalar.IsGood → ∃ c fault, v.BreaksAt c fault
  | .scalar leaf, bad => by
    obtain ⟨fault, bad⟩ := not_forall_not.mp bad
    exact ⟨[], fault, leaf, by simp, bad, List.forall_mem_nil _⟩
  | .object members, bad => by
    obtain ⟨before, key, v, after, rfl, good, c, fault, leaf, rfl, bad, clear⟩ := exists_member_breaksAt members bad
    exact ⟨.member before key after :: c, fault, leaf, by simp [Frame.fill], bad, List.forall_mem_cons.mpr ⟨good, clear⟩⟩
  | .array elements, bad => by
    obtain ⟨before, v, after, rfl, good, c, fault, leaf, rfl, bad, clear⟩ := exists_element_breaksAt elements bad
    exact ⟨.element before after :: c, fault, leaf, by simp [Frame.fill], bad, List.forall_mem_cons.mpr ⟨good, clear⟩⟩

theorem exists_member_breaksAt : ∀ members : List (Text × Tree), ¬ EveryMemberLeaf Scalar.IsGood members →
    ∃ before key v after, members = before ++ (key, v) :: after ∧ EveryMemberLeaf Scalar.IsGood before ∧
      ∃ c fault, BreaksAt v c fault
  | [], bad => absurd trivial bad
  | (key, v) :: rest, bad => by
    by_cases good : v.EveryLeaf Scalar.IsGood
    · obtain ⟨before, key', v', after, rfl, clear, breaks⟩ := exists_member_breaksAt rest fun every => bad ⟨good, every⟩
      exact ⟨(key, v) :: before, key', v', after, rfl, ⟨good, clear⟩, breaks⟩
    · exact ⟨[], key, v, rest, rfl, trivial, exists_breaksAt v good⟩

theorem exists_element_breaksAt : ∀ elements : List (Option Tree), ¬ EveryElementLeaf Scalar.IsGood elements →
    ∃ before v after, elements = before ++ some v :: after ∧ EveryElementLeaf Scalar.IsGood before ∧
      ∃ c fault, BreaksAt v c fault
  | [], bad => absurd trivial bad
  | none :: rest, bad => by
    obtain ⟨before, v, after, rfl, clear, breaks⟩ := exists_element_breaksAt rest bad
    exact ⟨none :: before, v, after, rfl, clear, breaks⟩
  | some v :: rest, bad => by
    by_cases good : v.EveryLeaf Scalar.IsGood
    · obtain ⟨before, v', after, rfl, clear, breaks⟩ := exists_element_breaksAt rest fun every => bad ⟨good, every⟩
      exact ⟨some v :: before, v', after, rfl, ⟨good, clear⟩, breaks⟩
    · exact ⟨[], v, rest, rfl, trivial, exists_breaksAt v good⟩
end

theorem ofExcept_of_isBad {leaf : Scalar} {fault : Fault} (bad : leaf.IsBad fault) (after : Emission) :
    ofExcept leaf.json ++ after = ⟨[], some fault⟩ := by
  rw [Scalar.json_eq_error_iff.mpr bad]
  rfl

theorem BreaksAt.fault_ne_none {v : Tree} {c : Context} {fault : Fault} (breaks : v.BreaksAt c fault) (l : Layout) :
    (write l 0 v).fault ≠ none := by
  obtain ⟨leaf, rfl, bad, -⟩ := breaks
  obtain ⟨before, after, inner, around⟩ := c.exists_surroundings l 0
  rw [(around _).1, write, ofExcept_of_isBad bad]
  exact fun whole => nomatch (fault_append.mp whole).2

theorem every_isGood_iff {v : Tree} : v.EveryLeaf Scalar.IsGood ↔ ∀ c fault, ¬ v.BreaksAt c fault := by
  constructor
  · intro good c fault breaks
    rw [← hasText_eq] at good
    exact breaks.fault_ne_none .flat (write_fault_eq_none_iff.mpr ⟨good, .inl rfl⟩)
  · intro never
    refine Classical.byContradiction fun bad => ?_
    obtain ⟨c, fault, breaks⟩ := exists_breaksAt v bad
    exact never c fault breaks

theorem write_fault_iff_good {l : Layout} {v : Tree} :
    (write l 0 v).fault = none ↔ v.EveryLeaf Scalar.IsGood ∧ l.Fits v := by
  rw [write_fault_eq_none_iff, hasText_eq]

theorem BreaksAt.write {l : Layout} {v : Tree} {c : Context} {fault : Fault} (breaks : v.BreaksAt c fault) (fits : l.Fits v) :
    ∃ before after, write l 0 v = ⟨before, some fault⟩ ∧
      ∀ other : Scalar, write l 0 (c.fill (.scalar other)) = ofText before ++ (ofExcept other.json ++ after) := by
  obtain ⟨leaf, rfl, bad, clear⟩ := breaks
  obtain ⟨before, after, inner, around⟩ := c.exists_surroundings l 0
  obtain ⟨whole, -⟩ := (around _).2 clear (fits_iff_spans.mp fits)
  have opening : before = ofText before.text := emits_of_fault whole
  refine ⟨before.text, after, ?_, fun other => ?_⟩
  · rw [(around _).1, Value.write, ofExcept_of_isBad bad, opening]
    simp [append_eq, append, ofText]
  · rw [(around _).1, Value.write, ← opening]

theorem compact?_eq_none_iff {v : Tree} : v.compact? = none ↔ ¬ v.EveryLeaf Scalar.IsGood := by
  have fits : Layout.Fits .flat v := .inl rfl
  rw [← and_iff_left fits (a := v.EveryLeaf Scalar.IsGood), ← write_fault_iff_good, compact?, render, complete]
  cases (Value.write .flat 0 v).fault <;> simp [Except.toOption]

/-- Writing goes through just when every leaf is good and the layout has room for the lines. Else, with room for
the lines, the fault is the one of the first bad leaf, and what is written is the text before it, whatever leaf
takes its place. Without lines there is always room. -/
theorem write_breaks (v : Tree) :
    (∀ l : Layout, (write l 0 v).fault = none ↔ v.EveryLeaf Scalar.IsGood ∧ l.Fits v) ∧
    (¬ v.EveryLeaf Scalar.IsGood ↔ ∃ c fault, v.BreaksAt c fault) ∧
    (∀ (l : Layout) (c : Context) (fault : Fault), l.Fits v → v.BreaksAt c fault →
      ∃ before after, write l 0 v = ⟨before, some fault⟩ ∧
        ∀ other : Scalar, write l 0 (c.fill (.scalar other)) = ofText before ++ (ofExcept other.json ++ after)) ∧
    (v.compact? = none ↔ ¬ v.EveryLeaf Scalar.IsGood) := by
  refine ⟨fun l => write_fault_iff_good, ?_, fun l c fault fits breaks => breaks.write fits, compact?_eq_none_iff⟩
  simp only [every_isGood_iff, not_forall, not_not]

/-- An array of a number and of a ready-made text that is missing. -/
theorem write_breaks_missing : ∃ before after,
    write ⟨2, 0, 80⟩ 0 (.array [some (.scalar (.int 1)), some (.scalar (.raw none))]) =
      ⟨before, some (.badRendering (Text.ofString "RawJSON(text=None)"))⟩ ∧
    ∀ other : Scalar, write ⟨2, 0, 80⟩ 0 (.array [some (.scalar (.int 1)), some (.scalar other)]) =
      ofText before ++ (ofExcept other.json ++ after) := by
  obtain ⟨-, -, breaks, -⟩ := write_breaks (.array [some (.scalar (.int 1)), some (.scalar (.raw none))])
  have one : Scalar.IsGood (.int 1) := hasText_eq ▸ ⟨[0x31], rfl⟩
  have clear : Context.IsClear [.element [some (.scalar (.int 1))] []] := List.forall_mem_singleton.mpr ⟨one, trivial⟩
  exact breaks ⟨2, 0, 80⟩ [.element [some (.scalar (.int 1))] []] _ (by decide) ⟨.raw none, rfl, .raw, clear⟩

/-- With good leaves only, the writer breaks off at a margin that cannot be counted. -/
theorem write_good_breaks_off :
    ∃ (l : Layout) (v : Tree), v.EveryLeaf Scalar.IsGood ∧ (write l 0 v).fault = some .tooLarge := by
  have good (n : Int) (short : IsShort n) : Scalar.IsGood (.int n) := hasText_eq ▸ ⟨_, integerText_of_isShort short⟩
  exact ⟨⟨1, minInt64 - 2, 80⟩, .object [([0x61], .scalar (.int 1)), ([0x62], .scalar (.int 2))],
    ⟨good 1 (by decide), good 2 (by decide), trivial⟩, rfl⟩

end Value
end LenientJson
