import LenientJson.Proofs.Layout
import LenientJson.Proofs.Strict.Leaf

/-! What is written is strict JSON. A document that is written to its end is one value of the grammar, and
its derivation has the shape of the document: members and elements in the same order, one token for each
leaf. The layout only decides on the white space, which stands before an entry or a closing mark. -/
namespace LenientJson.Strict
open Emission Value

mutual
/-- The strict JSON that stands for a document. -/
inductive Shows : Tree → Json → Prop
  | leaf {leaf json} (shows : leaf.Shows json) : Shows (.scalar leaf) json
  | object {members shown} (inside : ShowsMembers members shown) : Shows (.object members) (.object shown)
  | array {elements shown} (inside : ShowsElements elements shown) : Shows (.array elements) (.array shown)

inductive ShowsMembers : List (Text × Tree) → List (Text × Json) → Prop
  | nil : ShowsMembers [] []
  | cons {key value json rest shown} (first : Shows value json) (others : ShowsMembers rest shown) :
      ShowsMembers ((key, value) :: rest) ((key, json) :: shown)

inductive ShowsElements : List (Option Tree) → List Json → Prop
  | nil : ShowsElements [] []
  | absent {rest shown} (others : ShowsElements rest shown) : ShowsElements (none :: rest) (.null :: shown)
  | present {value json rest shown} (first : Shows value json) (others : ShowsElements rest shown) :
      ShowsElements (some value :: rest) (json :: shown)
end

variable {l : Layout} {depth : Nat}

theorem areSpaces_nil : AreSpaces [] := List.forall_mem_nil _

theorem exists_colon (l : Layout) : ∃ pad, l.colon = Symbol.colon :: pad ∧ AreSpaces pad := by
  unfold Layout.colon
  split
  · exact ⟨[Symbol.space], rfl, by decide⟩
  · exact ⟨[], rfl, areSpaces_nil⟩

theorem isPadded_of_value {t w : Text} {json : Json} (value : IsValue t json) (blank : AreSpaces w) :
    IsPadded (t ++ w) json := .mk areSpaces_nil value blank

theorem isMember_written {before key t w : Text} {json : Json} (blank : AreSpaces before) (valid : key.IsValid)
    (value : IsValue t json) (blank' : AreSpaces w) :
    IsMember (before ++ (Text.quoted key ++ l.colon ++ t) ++ w) (key, json) := by
  obtain ⟨pad, colon, spaces⟩ := exists_colon l
  have member := IsMember.mk blank (isString_quoted valid) areSpaces_nil (.mk spaces value blank')
  rw [colon]
  simpa only [List.append_assoc, List.append_nil, List.cons_append, List.nil_append] using member

/-- What a writer writes to its end is one value that stands for `json`. -/
def WritesValue (write : Layout → Nat → Emission) (json : Json) : Prop :=
  ∀ l depth t, (write l depth).Emits t → IsValue t json

/-- Members are written after a comma each, up to white space. -/
def WritesMembers (members : List (Text × Tree)) (shown : List (Text × Json)) : Prop :=
  members ≠ [] → ∀ l depth t w, (writeMembers l depth members).Emits t → AreSpaces w →
    ∃ u, t = Symbol.comma :: u ∧ IsMembers (u ++ w) shown

/-- Elements are written after a comma each, up to white space. -/
def WritesElements (elements : List (Option Tree)) (shown : List Json) : Prop :=
  elements ≠ [] → ∀ l depth t w, (writeElements l depth elements).Emits t → AreSpaces w →
    ∃ u, t = Symbol.comma :: u ∧ IsElements (u ++ w) shown

theorem writesValue_leaf {leaf : Scalar} {json : Json} {u : Text} (written : leaf.json = .ok u) (value : IsValue u json) :
    WritesValue (fun l depth => write l depth (.scalar leaf)) json := by
  intro l depth t emits
  obtain rfl : u = t := Except.ok.inj (written.symm.trans (emits_ofExcept.mp emits))
  exact value

theorem writesValue_absent : WritesValue (fun l depth => writeElement l depth none) .null := by
  intro l depth t emits
  obtain rfl := emits_ofText.mp emits
  exact .null

theorem writesMembers_cons {key : Text} {value : Tree} {json : Json} {rest : List (Text × Tree)}
    {shown : List (Text × Json)} (valid : key.IsValid) (first : WritesValue (fun l depth => write l depth value) json)
    (same : ShowsMembers rest shown) (others : WritesMembers rest shown) :
    WritesMembers ((key, value) :: rest) ((key, json) :: shown) := by
  intro _ l depth t w emits blank
  simp only [writeMembers, writeMember, emits_append, emits_ofText] at emits
  obtain ⟨_, u, ⟨_, _, rfl, ⟨_, inner, ⟨before, _, line, rfl, rfl⟩, inside, rfl⟩, rfl⟩, emits, rfl⟩ := emits
  have blank' := Layout.areSpaces_of_lineStart line
  have value := first l depth inner inside
  refine ⟨before ++ (Text.quoted key ++ l.colon) ++ inner ++ u, rfl, ?_⟩
  cases same with
  | nil =>
    obtain rfl := emits_ofText.mp emits
    have member := isMember_written (l := l) blank' valid value blank
    rw [List.append_nil, List.append_assoc before]
    exact .last member
  | cons head tail =>
    obtain ⟨u, rfl, further⟩ := others (List.cons_ne_nil _ _) l depth _ w emits blank
    have member := isMember_written (l := l) blank' valid value areSpaces_nil
    rw [List.append_nil] at member
    rw [List.append_assoc before, List.append_assoc _ _ w]
    exact .more member further

theorem writesElements_cons {element : Option Tree} {json : Json} {rest : List (Option Tree)} {shown : List Json}
    (first : WritesValue (fun l depth => writeElement l depth element) json) (same : ShowsElements rest shown)
    (others : WritesElements rest shown) : WritesElements (element :: rest) (json :: shown) := by
  intro _ l depth t w emits blank
  simp only [writeElements, emits_append, emits_ofText] at emits
  obtain ⟨_, u, ⟨_, inner, ⟨_, before, rfl, line, rfl⟩, inside, rfl⟩, emits, rfl⟩ := emits
  have blank' := Layout.areSpaces_of_lineStart line
  have value := first l depth inner inside
  refine ⟨before ++ inner ++ u, rfl, ?_⟩
  have last : rest = [] → IsElements (before ++ inner ++ u ++ w) (json :: shown) := by
    rintro rfl
    obtain rfl := emits_ofText.mp emits
    cases same
    rw [List.append_nil]
    exact .last (.mk blank' value blank)
  have more (some : rest ≠ []) : IsElements (before ++ inner ++ u ++ w) (json :: shown) := by
    obtain ⟨u, rfl, further⟩ := others some l depth _ w emits blank
    have element := IsPadded.mk blank' value areSpaces_nil
    rw [List.append_nil] at element
    rw [List.append_assoc _ _ w]
    exact .more element further
  by_cases none : rest = []
  · exact last none
  · exact more none

theorem writesValue_member {key : Text} {value : Tree} {json : Json} (valid : key.IsValid)
    (inside : WritesValue (fun l depth => write l depth value) json) :
    WritesValue (fun l depth => write l depth (.object [(key, value)])) (.object [(key, json)]) := by
  intro l depth t emits
  simp only [write, emits_append, emits_ofText] at emits
  obtain ⟨_, _, ⟨_, inner, rfl, emits, rfl⟩, rfl, rfl⟩ := emits
  have member := isMember_written (l := l) areSpaces_nil valid (inside l depth inner emits) areSpaces_nil
  rw [List.append_nil, List.nil_append] at member
  have object := IsValue.object (.last member)
  rwa [← List.cons_append, ← List.cons_append] at object

theorem writesValue_members {first second : Text × Tree} {rest : List (Text × Tree)} {shown : List (Text × Json)}
    (inside : WritesMembers (first :: second :: rest) shown) :
    WritesValue (fun l depth => write l depth (.object (first :: second :: rest))) (.object shown) := by
  intro l depth t emits
  simp only [write, emits_append, emits_ofText] at emits
  obtain ⟨_, _, ⟨_, w, ⟨_, others, ⟨_, member, rfl, emits, rfl⟩, emits', rfl⟩, line, rfl⟩, rfl, rfl⟩ := emits
  have whole : (writeMembers l (depth + 1) (first :: second :: rest)).Emits ([Symbol.comma] ++ member ++ others) :=
    ((emits_ofText.mpr rfl).append emits).append emits'
  obtain ⟨u, split, members⟩ := inside (List.cons_ne_nil _ _) l _ _ w whole (Layout.areSpaces_of_lineStart line)
  obtain rfl : member ++ others = u := (List.cons.inj split).2
  have object := IsValue.object members
  simpa only [List.append_assoc, List.cons_append, List.nil_append] using object

theorem writesValue_element {element : Option Tree} {json : Json}
    (inside : WritesValue (fun l depth => writeElement l depth element) json) :
    WritesValue (fun l depth => write l depth (.array [element])) (.array [json]) := by
  intro l depth t emits
  simp only [write, emits_append, emits_ofText] at emits
  obtain ⟨_, _, ⟨_, inner, rfl, emits, rfl⟩, rfl, rfl⟩ := emits
  have element := IsPadded.mk areSpaces_nil (inside l depth inner emits) areSpaces_nil
  rw [List.append_nil] at element
  exact .array (.last element)

theorem writesValue_elements {first second : Option Tree} {rest : List (Option Tree)} {shown : List Json}
    (inside : WritesElements (first :: second :: rest) shown) :
    WritesValue (fun l depth => write l depth (.array (first :: second :: rest))) (.array shown) := by
  intro l depth t emits
  simp only [write, emits_append, emits_ofText] at emits
  obtain ⟨_, _, ⟨_, w, ⟨_, others, ⟨_, element, ⟨_, before, rfl, line', rfl⟩, emits, rfl⟩, emits', rfl⟩, line, rfl⟩, rfl, rfl⟩ :=
    emits
  have whole : (writeElements l (depth + 1) (first :: second :: rest)).Emits ([Symbol.comma] ++ before ++ element ++ others) :=
    (((emits_ofText.mpr rfl).append line').append emits).append emits'
  obtain ⟨u, split, elements⟩ := inside (List.cons_ne_nil _ _) l _ _ w whole (Layout.areSpaces_of_lineStart line)
  obtain rfl : before ++ element ++ others = u := (List.cons.inj split).2
  have array := IsValue.array elements
  simpa only [List.append_assoc, List.cons_append, List.nil_append] using array

mutual
theorem exists_shows : ∀ v : Tree, v.Every Scalar.IsShowable → v.EveryLeaf Scalar.IsShort →
    ∃ json, Shows v json ∧ WritesValue (fun l depth => write l depth v) json
  | .scalar leaf, showable, short => by
    obtain ⟨json, u, shows, written, value⟩ := Scalar.exists_shows showable short
    exact ⟨json, .leaf shows, writesValue_leaf written value⟩
  | .object [], _, _ => by
    refine ⟨.object [], .object .nil, fun l depth t emits => ?_⟩
    obtain rfl := emits_ofText.mp emits
    exact .emptyObject areSpaces_nil
  | .object [(key, value)], ⟨valid, every, _⟩, ⟨short, _⟩ => by
    obtain ⟨json, shows, written⟩ := exists_shows value every short
    exact ⟨_, .object (.cons shows .nil), writesValue_member valid written⟩
  | .object (first :: second :: rest), every, short => by
    obtain ⟨shown, shows, written⟩ := exists_showsMembers (first :: second :: rest) every short
    exact ⟨_, .object shows, writesValue_members written⟩
  | .array [], _, _ => by
    refine ⟨.array [], .array .nil, fun l depth t emits => ?_⟩
    obtain rfl := emits_ofText.mp emits
    exact .emptyArray areSpaces_nil
  | .array [none], _, _ => ⟨_, .array (.absent .nil), writesValue_element writesValue_absent⟩
  | .array [some value], ⟨every, _⟩, ⟨short, _⟩ => by
    obtain ⟨json, shows, written⟩ := exists_shows value every short
    exact ⟨_, .array (.present shows .nil), writesValue_element written⟩
  | .array (first :: second :: rest), every, short => by
    obtain ⟨shown, shows, written⟩ := exists_showsElements (first :: second :: rest) every short
    exact ⟨_, .array shows, writesValue_elements written⟩

theorem exists_showsMembers : ∀ members : List (Text × Tree), EveryMember Scalar.IsShowable members →
    EveryMemberLeaf Scalar.IsShort members → ∃ shown, ShowsMembers members shown ∧ WritesMembers members shown
  | [], _, _ => ⟨[], .nil, fun some => absurd rfl some⟩
  | (key, value) :: rest, ⟨valid, head, every⟩, ⟨short, shorts⟩ => by
    obtain ⟨json, shows, written⟩ := exists_shows value head short
    obtain ⟨shown, others, written'⟩ := exists_showsMembers rest every shorts
    exact ⟨_, .cons shows others, writesMembers_cons valid written others written'⟩

theorem exists_showsElements : ∀ elements : List (Option Tree), EveryElement Scalar.IsShowable elements →
    EveryElementLeaf Scalar.IsShort elements → ∃ shown, ShowsElements elements shown ∧ WritesElements elements shown
  | [], _, _ => ⟨[], .nil, fun some => absurd rfl some⟩
  | none :: rest, every, shorts => by
    obtain ⟨shown, others, written⟩ := exists_showsElements rest every shorts
    exact ⟨_, .absent others, writesElements_cons writesValue_absent others written⟩
  | some value :: rest, ⟨head, every⟩, ⟨short, shorts⟩ => by
    obtain ⟨json, shows, written⟩ := exists_shows value head short
    obtain ⟨shown, others, written'⟩ := exists_showsElements rest every shorts
    exact ⟨_, .present shows others, writesElements_cons written others written'⟩
end

theorem hasText_iff_isShort (leaf : Scalar) (showable : leaf.IsShowable) : HasText leaf ↔ leaf.IsShort := by
  constructor
  · rintro ⟨t, text⟩
    cases leaf with
    | int n =>
      by_contra long
      cases (integerText_of_not_isShort long).symm.trans text
    | fraction => cases showable
    | _ => trivial
  · intro short
    obtain ⟨_, u, _, written, _⟩ := Scalar.exists_shows showable short
    exact ⟨u, written⟩

variable {v : Tree}

theorem write_fault_iff_isShort (showable : v.Every Scalar.IsShowable) :
    (write l 0 v).fault = none ↔ v.EveryLeaf Scalar.IsShort ∧ l.Fits v := by
  rw [write_fault_eq_none_iff, EveryLeaf.congr hasText_iff_isShort (Every.leaves v showable)]

theorem exists_written (showable : v.Every Scalar.IsShowable) (short : v.EveryLeaf Scalar.IsShort) (fits : l.Fits v) :
    ∃ json, Shows v json ∧ IsValue (write l 0 v).text json := by
  obtain ⟨json, shows, writes⟩ := exists_shows v showable short
  have whole := (write_fault_iff_isShort showable).mpr ⟨short, fits⟩
  exact ⟨json, shows, writes l 0 _ (emits_of_fault whole)⟩

/-- Emission is strict JSON. For every document of showable leaves and every layout, writing goes through
just when no integer has more digits than are written and the layout has room for the lines of the document,
and then the text is one value of the strict grammar whose derivation mirrors the document. -/
theorem write_strict (l : Layout) (showable : v.Every Scalar.IsShowable) :
    ((write l 0 v).fault = none ↔ v.EveryLeaf Scalar.IsShort ∧ l.Fits v) ∧
      (v.EveryLeaf Scalar.IsShort → l.Fits v → ∃ json, Shows v json ∧ IsValue (write l 0 v).text json) :=
  ⟨write_fault_iff_isShort showable, exists_written showable⟩

/-- A placeholder, an escape and a nested object, two spaces for each level. -/
theorem write_strict_nested :
    ∃ json, Shows (.array [none, some (.object [([0x22], .scalar (.int (-5)))])]) json ∧
      IsValue (write ⟨2, 0, 80⟩ 0 (.array [none, some (.object [([0x22], .scalar (.int (-5)))])])).text json := by
  have showable : Every Scalar.IsShowable (.array [none, some (.object [([0x22], .scalar (.int (-5)))])]) :=
    ⟨⟨by decide, trivial, trivial⟩, trivial⟩
  have short : EveryLeaf Scalar.IsShort (.array [none, some (.object [([0x22], .scalar (.int (-5)))])]) :=
    ⟨⟨(by decide : IsShort (-5)), trivial⟩, trivial⟩
  exact (write_strict ⟨2, 0, 80⟩ showable).2 short (by decide)

theorem not_isValue_open (json : Json) : ¬ IsValue [Symbol.leftBrace, Symbol.lineFeed] json := by
  intro value
  generalize same : [Symbol.leftBrace, Symbol.lineFeed] = t at value
  cases value with
  | null => exact absurd same (by decide)
  | bool value => cases value <;> exact absurd same (by decide)
  | number isNumber =>
    obtain ⟨c, u, split, lead⟩ := isNumber.head
    obtain rfl : Symbol.leftBrace = c := (List.cons.inj (same.trans split)).1
    exact absurd lead (by decide)
  | string isString =>
    cases isString with
    | mk _ => exact absurd (List.cons.inj same).1 (by decide)
  | emptyArray | array => exact absurd (List.cons.inj same).1 (by decide)
  | @emptyObject inside _ | @object inside _ _ =>
    have last := congrArg List.getLast? same
    rw [List.getLast?_concat] at last
    exact absurd last (by decide)

/-- A margin beyond 64 bits cannot be counted: the writer breaks off in the first line, and what it has
written is no value. -/
theorem write_breaks_off :
    ∃ (l : Layout) (v : Tree), v.Every Scalar.IsShowable ∧ (write l 0 v).fault = some .tooLarge ∧
      ∀ json, ¬ IsValue (write l 0 v).text json := by
  refine ⟨⟨1, minInt64 - 2, 80⟩, .object [([0x61], .scalar (.int 1)), ([0x62], .scalar (.int 2))], ?_, ?_, ?_⟩
  · exact ⟨by decide, trivial, by decide, trivial, trivial⟩
  · rfl
  · exact not_isValue_open

end LenientJson.Strict
