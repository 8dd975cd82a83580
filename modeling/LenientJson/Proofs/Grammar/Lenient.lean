import LenientJson.Parser

/-! The lenient grammar. Each judgment relates a text, what stands at its beginning, and the text
that follows; no judgment looks at a reader, except that the inside of a quoted string is taken as
the reader of string literals takes it. -/
namespace LenientJson.Lenient

/-- A value as it is written. Any value may stand as a key, and a slot left empty counts as null. -/
inductive Source
  | leaf (value : Scalar)
  | object (members : List (Source × Source))
  | array (slots : List Source)

namespace Source

mutual
def meaning : Source → Tree
  | .leaf value => .scalar value
  | .object members => .object (memberMeanings members)
  | .array slots => .array (slotMeanings slots)

/-- One entry for each written member, under the text of its key. -/
def memberMeanings : List (Source × Source) → Members Tree
  | [] => []
  | (key, value) :: rest => (key.meaning.keyText, value.meaning) :: memberMeanings rest

def slotMeanings : List Source → List (Option Tree)
  | [] => []
  | slot :: rest => some slot.meaning :: slotMeanings rest
end

mutual
/-- No object in a written value, not even one within a key, has two members with the same key
text. -/
def KeysDiffer : Source → Prop
  | .leaf _ => True
  | .object members => (memberMeanings members).keys.Nodup ∧ MemberKeysDiffer members
  | .array slots => SlotKeysDiffer slots

def MemberKeysDiffer : List (Source × Source) → Prop
  | [] => True
  | (key, value) :: rest => key.KeysDiffer ∧ value.KeysDiffer ∧ MemberKeysDiffer rest

def SlotKeysDiffer : List Source → Prop
  | [] => True
  | slot :: rest => slot.KeysDiffer ∧ SlotKeysDiffer rest
end

theorem memberMeanings_eq_map (members : List (Source × Source)) :
    memberMeanings members = members.map fun member => (member.1.meaning.keyText, member.2.meaning) := by
  induction members with
  | nil => rfl
  | cons member rest ih => rw [memberMeanings, ih, List.map_cons]

end Source

/-- Characters that end a bare word, besides those below the space. -/
def stops : List CodePoint :=
  [Symbol.comma, Symbol.colon, Symbol.rightBracket, Symbol.rightBrace, Symbol.slash,
    Symbol.backslash, Symbol.doubleQuote, Symbol.leftBracket, Symbol.leftBrace, Symbol.semicolon,
    Symbol.equals, Symbol.hash]

def IsBare (c : CodePoint) : Prop := Symbol.space ≤ c ∧ c ∉ stops

def IsQuoteMark (c : CodePoint) : Prop := c = Symbol.doubleQuote ∨ c = Symbol.singleQuote

/-- Any number of code points up to the space stand before `rest`. -/
def Blanks (t rest : Text) : Prop := ∃ blanks : Text, (∀ c ∈ blanks, c ≤ Symbol.space) ∧ t = blanks ++ rest

/-- The character `c` comes next, perhaps after blanks. -/
def Mark (c : CodePoint) (t rest : Text) : Prop := Blanks t (c :: rest)

theorem Blanks.refl (t : Text) : Blanks t t := ⟨[], List.forall_mem_nil _, rfl⟩

theorem Blanks.trans {t u rest : Text} (first : Blanks t u) (second : Blanks u rest) : Blanks t rest := by
  obtain ⟨blanks, low, rfl⟩ := first
  obtain ⟨blanks', low', rfl⟩ := second
  exact ⟨blanks ++ blanks', List.forall_mem_append.mpr ⟨low, low'⟩, (List.append_assoc ..).symm⟩

theorem Mark.here (c : CodePoint) (rest : Text) : Mark c (c :: rest) rest := .refl _

/-- The longest run of bare characters at the beginning of a text. It begins neither with a blank
nor with a quote mark. -/
structure BareRun (t run rest : Text) : Prop where
  split : t = run ++ rest
  bare : ∀ c ∈ run, IsBare c
  longest : ∀ c, rest.head? = some c → ¬ IsBare c
  unblank : ∀ c, run.head? = some c → Symbol.space < c
  unquoted : ∀ c, run.head? = some c → ¬ IsQuoteMark c

/-- Behind an opening `mark` stand the rest of a string literal, which gives `s`, and `rest`. -/
def Literal (mark : CodePoint) (t s rest : Text) : Prop :=
  ∃ place, Reader.nextString (some mark) (Tokener.ofText t) = .ok s place ∧ place.rest = rest

mutual
inductive ValueAt : Text → Source → Text → Prop
  | quoted {t mark u s rest} (blanks : Blanks t (mark :: u)) (opening : IsQuoteMark mark)
      (literal : Literal mark u s rest) : ValueAt t (.leaf (.text s)) rest
  | bare {t u run rest} (blanks : Blanks t u) (word : BareRun u run rest) (named : run.strip ≠ []) :
      ValueAt t (.leaf (inferred run.strip)) rest
  | object {t members rest} (inside : ObjectAt t members rest) : ValueAt t (.object members) rest
  | array {t slots rest} (inside : ArrayAt t slots rest) : ValueAt t (.array slots) rest

inductive ObjectAt : Text → List (Source × Source) → Text → Prop
  | empty {t u rest} (opening : Mark Symbol.leftBrace t u) (closing : Mark Symbol.rightBrace u rest) :
      ObjectAt t [] rest
  | members {t u members rest} (opening : Mark Symbol.leftBrace t u)
      (inside : MembersAt u members rest) : ObjectAt t members rest

inductive MemberAt : Text → Source × Source → Text → Prop
  | mk {t key u v value rest} (first : ValueAt t key u) (colon : Mark Symbol.colon u v)
      (second : ValueAt v value rest) : MemberAt t (key, value) rest

/-- Members up to and with the closing brace. One separator may stand before it. -/
inductive MembersAt : Text → List (Source × Source) → Text → Prop
  | last {t member u rest} (first : MemberAt t member u) (closing : Mark Symbol.rightBrace u rest) :
      MembersAt t [member] rest
  | trailing {t member u c v rest} (first : MemberAt t member u) (separator : Mark c u v)
      (separates : c = Symbol.comma ∨ c = Symbol.semicolon) (closing : Mark Symbol.rightBrace v rest) :
      MembersAt t [member] rest
  | more {t member u c v members rest} (first : MemberAt t member u) (separator : Mark c u v)
      (separates : c = Symbol.comma ∨ c = Symbol.semicolon) (others : MembersAt v members rest) :
      MembersAt t (member :: members) rest

inductive ArrayAt : Text → List Source → Text → Prop
  | empty {t u rest} (opening : Mark Symbol.leftBracket t u) (closing : Mark Symbol.rightBracket u rest) :
      ArrayAt t [] rest
  | slots {t u slots rest} (opening : Mark Symbol.leftBracket t u) (inside : SlotsAt u slots rest) :
      ArrayAt t slots rest

/-- A value, or nothing before a comma. -/
inductive SlotAt : Text → Source → Text → Prop
  | empty {t rest} (comma : Mark Symbol.comma t rest) : SlotAt t (.leaf .null) t
  | filled {t slot rest} (inside : ValueAt t slot rest) : SlotAt t slot rest

/-- Slots up to and with the closing bracket. An empty slot directly before it is dropped. -/
inductive SlotsAt : Text → List Source → Text → Prop
  | last {t slot u rest} (first : ValueAt t slot u) (closing : Mark Symbol.rightBracket u rest) :
      SlotsAt t [slot] rest
  | trailing {t slot u v rest} (first : SlotAt t slot u) (separator : Mark Symbol.comma u v)
      (closing : Mark Symbol.rightBracket v rest) : SlotsAt t [slot] rest
  | more {t slot u v slots rest} (first : SlotAt t slot u) (separator : Mark Symbol.comma u v)
      (others : SlotsAt v slots rest) : SlotsAt t (slot :: slots) rest
end

/-! How derivations begin, and blanks in front of them. -/

theorem Mark.length_lt {c : CodePoint} {t rest : Text} (mark : Mark c t rest) : rest.length < t.length := by
  obtain ⟨blanks, -, rfl⟩ := mark
  rw [List.length_append, List.length_cons]
  omega

theorem Mark.head_eq {c : CodePoint} {t rest : Text} {x : Option CodePoint} (mark : Mark c t rest)
    (head : t.head? = x) (high : ∀ d, x = some d → Symbol.space < d) : x = some c := by
  obtain ⟨blanks, low, rfl⟩ := mark
  cases blanks with
  | nil => exact head.symm
  | cons d blanks => exact absurd (low d List.mem_cons_self) (Nat.not_le.mpr (high d head.symm))

theorem BareRun.head {t run rest : Text} (word : BareRun t run rest) (named : run.strip ≠ []) :
    ∃ x u, t = x :: u ∧ Symbol.space < x ∧ IsBare x ∧ ¬ IsQuoteMark x := by
  cases run with
  | nil => exact absurd rfl named
  | cons x run =>
    exact ⟨x, run ++ rest, word.split, word.unblank x rfl, word.bare x List.mem_cons_self, word.unquoted x rfl⟩

/-- A value begins with a significant character, and with none that ends or separates entries. -/
theorem ValueAt.head {t rest : Text} {source : Source} (value : ValueAt t source rest) :
    ∃ x u, Symbol.space < x ∧ Mark x t u ∧ x ≠ Symbol.comma ∧ x ≠ Symbol.rightBrace ∧ x ≠ Symbol.rightBracket := by
  cases value with
  | @quoted _ mark u _ _ blanks opening literal =>
    refine ⟨mark, u, ?_, blanks, ?_⟩ <;> rcases opening with rfl | rfl <;> decide
  | bare blanks word named =>
    obtain ⟨x, u, rfl, high, bare, -⟩ := BareRun.head word named
    refine ⟨x, u, high, blanks, ?_, ?_, ?_⟩ <;> rintro rfl <;> exact bare.2 (by decide)
  | object inside =>
    cases inside with
    | empty opening _ => exact ⟨_, _, by decide, opening, by decide⟩
    | members opening _ => exact ⟨_, _, by decide, opening, by decide⟩
  | array inside =>
    cases inside with
    | empty opening _ => exact ⟨_, _, by decide, opening, by decide⟩
    | slots opening _ => exact ⟨_, _, by decide, opening, by decide⟩

theorem MembersAt.head {t rest : Text} {members : List (Source × Source)} (derived : MembersAt t members rest) :
    ∃ x u, Symbol.space < x ∧ Mark x t u ∧ x ≠ Symbol.comma ∧ x ≠ Symbol.rightBrace ∧ x ≠ Symbol.rightBracket := by
  have key {member : Source × Source} {u : Text} (first : MemberAt t member u) := by
    cases first with
    | mk first _ _ => exact first.head
  cases derived with
  | last first _ => exact key first
  | trailing first _ _ _ => exact key first
  | more first _ _ _ => exact key first

theorem SlotsAt.head {t rest : Text} {slots : List Source} (derived : SlotsAt t slots rest) :
    ∃ x u, Symbol.space < x ∧ Mark x t u ∧ x ≠ Symbol.rightBracket := by
  have slot {slot : Source} {u : Text} (first : SlotAt t slot u) :
      ∃ x u, Symbol.space < x ∧ Mark x t u ∧ x ≠ Symbol.rightBracket := by
    cases first with
    | empty comma => exact ⟨_, _, by decide, comma, by decide⟩
    | filled inside =>
      obtain ⟨x, u, high, mark, -, -, other⟩ := inside.head
      exact ⟨x, u, high, mark, other⟩
  cases derived with
  | last first _ => exact slot (.filled first)
  | trailing first _ _ => exact slot first
  | more first _ _ => exact slot first

theorem ObjectAt.head {t rest : Text} {members : List (Source × Source)} (object : ObjectAt t members rest) :
    ∃ u, Mark Symbol.leftBrace t u := by
  cases object with
  | empty opening _ => exact ⟨_, opening⟩
  | members opening _ => exact ⟨_, opening⟩

theorem ArrayAt.head {t rest : Text} {slots : List Source} (array : ArrayAt t slots rest) :
    ∃ u, Mark Symbol.leftBracket t u := by
  cases array with
  | empty opening _ => exact ⟨_, opening⟩
  | slots opening _ => exact ⟨_, opening⟩

theorem ValueAt.of_blanks {t u rest : Text} {source : Source} (blanks : Blanks t u)
    (value : ValueAt u source rest) : ValueAt t source rest := by
  cases value with
  | quoted more opening literal => exact .quoted (blanks.trans more) opening literal
  | bare more word named => exact .bare (blanks.trans more) word named
  | object inside =>
    cases inside with
    | empty opening closing => exact .object (.empty (blanks.trans opening) closing)
    | members opening inside => exact .object (.members (blanks.trans opening) inside)
  | array inside =>
    cases inside with
    | empty opening closing => exact .array (.empty (blanks.trans opening) closing)
    | slots opening inside => exact .array (.slots (blanks.trans opening) inside)

theorem MemberAt.of_blanks {t u rest : Text} {member : Source × Source} (blanks : Blanks t u)
    (derived : MemberAt u member rest) : MemberAt t member rest := by
  cases derived with
  | mk first colon second => exact .mk (.of_blanks blanks first) colon second

theorem MembersAt.of_blanks {t u rest : Text} {members : List (Source × Source)} (blanks : Blanks t u)
    (derived : MembersAt u members rest) : MembersAt t members rest := by
  cases derived with
  | last first closing => exact .last (.of_blanks blanks first) closing
  | trailing first separator separates closing => exact .trailing (.of_blanks blanks first) separator separates closing
  | more first separator separates others => exact .more (.of_blanks blanks first) separator separates others

theorem SlotsAt.of_blanks {t u rest : Text} {slots : List Source} (blanks : Blanks t u)
    (derived : SlotsAt u slots rest) : SlotsAt t slots rest := by
  have slotAt {slot : Source} {v : Text} (first : SlotAt u slot v) : ∃ w, SlotAt t slot w ∧ Blanks w v := by
    cases first with
    | empty comma => exact ⟨t, .empty (blanks.trans comma), blanks⟩
    | filled inside => exact ⟨v, .filled (.of_blanks blanks inside), .refl v⟩
  cases derived with
  | last first closing => exact .last (.of_blanks blanks first) closing
  | trailing first separator closing =>
    obtain ⟨w, first, before⟩ := slotAt first
    exact .trailing first (before.trans separator) closing
  | more first separator others =>
    obtain ⟨w, first, before⟩ := slotAt first
    exact .more first (before.trans separator) others

end LenientJson.Lenient
