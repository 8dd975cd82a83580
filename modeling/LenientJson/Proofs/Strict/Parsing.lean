import LenientJson.Proofs.Lenient.Parsing
import LenientJson.Proofs.Strict.Token

/-! The lenient grammar contains strict JSON with its meaning. A strict derivation becomes a lenient one
step by step; only a word takes more of the text than it has in strict JSON, namely the spaces behind
it, so what follows a value is given up to white space. -/
namespace LenientJson.Strict
open Lenient

namespace Json

mutual
def source : Json → Source
  | .null => .leaf .null
  | .bool value => .leaf (.bool value)
  | .number token => .leaf (numberValue token)
  | .string value => .leaf (.text value)
  | .array elements => .array (elementSources elements)
  | .object members => .object (memberSources members)

def elementSources : List Json → List Source
  | [] => []
  | element :: rest => element.source :: elementSources rest

def memberSources : List (Text × Json) → List (Source × Source)
  | [] => []
  | (key, value) :: rest => (.leaf (.text key), value.source) :: memberSources rest
end

mutual
theorem meaning_source (json : Json) : json.source.meaning = json.meaning := by
  cases json with
  | array elements => rw [source, Source.meaning, slotMeanings_elementSources elements, meaning]
  | object members => rw [source, Source.meaning, memberMeanings_memberSources members, meaning]
  | _ => rfl

theorem slotMeanings_elementSources (elements : List Json) :
    Source.slotMeanings (elementSources elements) = elementMeanings elements := by
  cases elements with
  | nil => rfl
  | cons element rest =>
    rw [elementSources, Source.slotMeanings, meaning_source element, slotMeanings_elementSources rest, elementMeanings]

theorem memberMeanings_memberSources (members : List (Text × Json)) :
    Source.memberMeanings (memberSources members) = memberMeanings members := by
  cases members with
  | nil => rfl
  | cons member rest =>
    rw [memberSources, Source.memberMeanings, meaning_source member.2, memberMeanings_memberSources rest, memberMeanings]
    rfl
end

theorem keys_memberMeanings (members : List (Text × Json)) : (memberMeanings members).keys = members.map Prod.fst := by
  induction members with
  | nil => rfl
  | cons member rest ih => rw [memberMeanings, Members.keys, List.map_cons, List.map_cons, ← ih, Members.keys]

mutual
theorem keysDiffer_source (json : Json) (differ : json.KeysDiffer) : json.source.KeysDiffer := by
  cases json with
  | array elements => exact keysDiffer_elementSources elements differ
  | object members =>
    rw [source, Source.KeysDiffer, memberMeanings_memberSources, keys_memberMeanings]
    exact ⟨differ.1, keysDiffer_memberSources members differ.2⟩
  | _ => trivial

theorem keysDiffer_elementSources (elements : List Json) (differ : ElementKeysDiffer elements) :
    Source.SlotKeysDiffer (elementSources elements) := by
  cases elements with
  | nil => trivial
  | cons element rest => exact ⟨keysDiffer_source element differ.1, keysDiffer_elementSources rest differ.2⟩

theorem keysDiffer_memberSources (members : List (Text × Json)) (differ : MemberKeysDiffer members) :
    Source.MemberKeysDiffer (memberSources members) := by
  cases members with
  | nil => trivial
  | cons member rest =>
    exact ⟨trivial, keysDiffer_source member.2 differ.1, keysDiffer_memberSources rest differ.2⟩
end

end Json

theorem isWord_of_name {name : Text} (known : name = Text.ofString "null" ∨ name = Text.ofString "true" ∨
    name = Text.ofString "false") : IsWord name := by
  rcases known with rfl | rfl | rfl <;> exact ⟨by decide, by decide, by decide⟩

mutual
theorem valueAt_of_strict {t : Text} {json : Json} (derived : IsValue t json) {w : Text} (blank : AreSpaces w)
    {c : CodePoint} (closes : Closes c) (u : Text) :
    ∃ rest, ValueAt (t ++ (w ++ c :: u)) json.source rest ∧ Mark c rest u := by
  have mark : Mark c (w ++ c :: u) u := blanks_of_spaces blank _
  match derived with
  | .null => exact valueAt_of_word (isWord_of_name (.inl rfl)) blank closes u
  | .bool true => exact valueAt_of_word (isWord_of_name (.inr (.inl rfl))) blank closes u
  | .bool false => exact valueAt_of_word (isWord_of_name (.inr (.inr rfl))) blank closes u
  | .number isNumber =>
    have word := valueAt_of_word (isWord_of_number isNumber) blank closes u
    rwa [inferred_token isNumber] at word
  | .string isString => exact ⟨_, valueAt_of_string isString _, mark⟩
  | @IsValue.emptyArray inside blank =>
    refine ⟨w ++ c :: u, ?_, mark⟩
    rw [List.append_assoc, List.cons_append]
    exact .array (.empty (.here _ _) (blanks_of_spaces blank _))
  | @IsValue.array inside elements elementsAt =>
    refine ⟨w ++ c :: u, ?_, mark⟩
    rw [List.append_assoc, List.cons_append]
    exact .array (.slots (.here _ _) (slotsAt_of_strict elementsAt _))
  | @IsValue.emptyObject inside blank =>
    refine ⟨w ++ c :: u, ?_, mark⟩
    rw [List.append_assoc, List.cons_append]
    exact .object (.empty (.here _ _) (blanks_of_spaces blank _))
  | @IsValue.object inside members membersAt =>
    refine ⟨w ++ c :: u, ?_, mark⟩
    rw [List.append_assoc, List.cons_append]
    exact .object (.members (.here _ _) (membersAt_of_strict membersAt _))

theorem valueAt_of_padded {t : Text} {json : Json} (derived : IsPadded t json) {c : CodePoint} (closes : Closes c)
    (u : Text) : ∃ rest, ValueAt (t ++ c :: u) json.source rest ∧ Mark c rest u := by
  match derived with
  | .mk before isValue after =>
    obtain ⟨rest, value, mark⟩ := valueAt_of_strict isValue after closes u
    rw [List.append_assoc, List.append_assoc]
    exact ⟨rest, .of_blanks (blanks_of_spaces before _) value, mark⟩

theorem slotsAt_of_strict {t : Text} {elements : List Json} (derived : IsElements t elements) (u : Text) :
    SlotsAt (t ++ Symbol.rightBracket :: u) (Json.elementSources elements) u := by
  match derived with
  | .last isElement =>
    obtain ⟨rest, value, mark⟩ := valueAt_of_padded isElement (.inr (.inr rfl)) u
    exact .last value mark
  | .more isElement others =>
    obtain ⟨rest, value, mark⟩ := valueAt_of_padded isElement (.inl rfl) (_ ++ Symbol.rightBracket :: u)
    rw [List.append_assoc]
    exact .more (.filled value) mark (slotsAt_of_strict others u)

theorem memberAt_of_strict {t : Text} {member : Text × Json} (derived : IsMember t member) {c : CodePoint}
    (closes : Closes c) (u : Text) :
    ∃ rest, MemberAt (t ++ c :: u) (.leaf (.text member.1), member.2.source) rest ∧ Mark c rest u := by
  match derived with
  | .mk before isName after isValue =>
    obtain ⟨rest, value, mark⟩ := valueAt_of_padded isValue closes u
    refine ⟨rest, ?_, mark⟩
    simp only [List.append_assoc, List.cons_append]
    exact .mk (.of_blanks (blanks_of_spaces before _) (valueAt_of_string isName _)) (blanks_of_spaces after _) value

theorem membersAt_of_strict {t : Text} {members : List (Text × Json)} (derived : IsMembers t members) (u : Text) :
    MembersAt (t ++ Symbol.rightBrace :: u) (Json.memberSources members) u := by
  match derived with
  | .last isMember =>
    obtain ⟨rest, member, mark⟩ := memberAt_of_strict isMember (.inr (.inl rfl)) u
    exact .last member mark
  | .more isMember others =>
    obtain ⟨rest, member, mark⟩ := memberAt_of_strict isMember (.inl rfl) (_ ++ Symbol.rightBrace :: u)
    rw [List.append_assoc]
    exact .more member mark (.inl rfl) (membersAt_of_strict others u)
end

theorem objectAt_of_document {t : Text} {members : List (Text × Json)} (document : IsPadded t (.object members)) :
    ∃ rest, ObjectAt t (Json.memberSources members) rest := by
  have opened {before u rest : Text} (blank : AreSpaces before)
      (object : ObjectAt (Symbol.leftBrace :: u) (Json.memberSources members) rest) :
      ObjectAt (before ++ Symbol.leftBrace :: u) (Json.memberSources members) rest := by
    have value := ValueAt.of_blanks (blanks_of_spaces blank _) (.object object)
    cases value with
    | object inside => exact inside
  cases document with
  | @mk before t after _ blank isValue _ =>
    rw [List.append_assoc]
    refine ⟨after, ?_⟩
    cases isValue with
    | emptyObject inside =>
      rw [List.append_assoc, List.cons_append]
      exact opened blank (.empty (.here _ _) (blanks_of_spaces inside _))
    | object inside =>
      rw [List.append_assoc, List.cons_append]
      exact opened blank (.members (.here _ _) (membersAt_of_strict inside _))

/-- A strict object text in which no object repeats a key is parsed, and to what it stands for. -/
theorem parseObject_of_strict {t : Text} {members : List (Text × Json)} (document : IsPadded t (.object members))
    (differ : (Json.object members).KeysDiffer) : parseObject t = .ok (Json.memberMeanings members) := by
  obtain ⟨rest, object⟩ := objectAt_of_document document
  rw [← Json.memberMeanings_memberSources]
  exact parseObject_of_objectAt object (Json.keysDiffer_source (.object members) differ)

/-- The lenient grammar contains strict JSON with its meaning: every strict object text in which no
object repeats a decoded key is parsed to the same members and elements in the same order, and a number
token is the exact integer, the nearest finite number or the text that is inferred from it. -/
theorem parseObject_document {t : Text} {members : List (Text × Json)} (document : IsPadded t (.object members))
    (differ : (Json.object members).KeysDiffer) :
    parseObject t = .ok (Json.memberMeanings members) ∧ ∀ token, IsNumber token → inferred token = numberValue token :=
  ⟨parseObject_of_strict document differ, fun _ number => inferred_token number⟩

/-- White space in every place, an escape in a key, and a number that is no integer of its own. -/
theorem parseObject_spaced : parseObject (Text.ofString " \x7b\"\\u0061\" : [ -0 ,12 ]\t\x7d\n") =
    .ok [([0x61], .array [some (.scalar (.text [0x2D, 0x30])), some (.scalar (.int 12))])] := by
  have zero : IsValue [0x2D, 0x30] (.number [0x2D, 0x30]) := .number (.mk (.inr rfl) .zero .absent .absent)
  have dozen : IsValue [0x31, 0x32] (.number [0x31, 0x32]) :=
    .number (.mk (.inl rfl) (@IsWhole.digits 0x31 [0x32] (by decide) (by decide) (by decide)) .absent .absent)
  have elements : IsElements (Text.ofString " -0 ,12 ") [.number [0x2D, 0x30], .number [0x31, 0x32]] :=
    @IsElements.more [0x20, 0x2D, 0x30, 0x20] [0x31, 0x32, 0x20] _ _ (@IsPadded.mk [0x20] _ [0x20] _ (by decide) zero (by decide))
      (.last (@IsPadded.mk [] _ [0x20] _ (by decide) dozen (by decide)))
  have name : IsString (Text.ofString "\"\\u0061\"") [0x61] :=
    @IsString.mk (Text.ofString "\\u0061") _ (.hex (x := 0) (y := 0) (z := 6) (w := 1) rfl rfl rfl rfl .nil)
  have member : IsMember (Text.ofString "\"\\u0061\" : [ -0 ,12 ]\t") ([0x61], .array [.number [0x2D, 0x30], .number [0x31, 0x32]]) :=
    @IsMember.mk [] _ [0x20] _ _ _ (by decide) name (by decide) (@IsPadded.mk [0x20] _ [0x09] _ (by decide) (.array elements) (by decide))
  have document : IsPadded (Text.ofString " \x7b\"\\u0061\" : [ -0 ,12 ]\t\x7d\n")
      (.object [([0x61], .array [.number [0x2D, 0x30], .number [0x31, 0x32]])]) :=
    @IsPadded.mk [0x20] _ [0x0A] _ (by decide) (.object (.last member)) (by decide)
  exact (parseObject_document document ⟨by decide, ⟨trivial, trivial, trivial⟩, trivial⟩).1

end LenientJson.Strict
