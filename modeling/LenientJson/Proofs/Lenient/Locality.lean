import LenientJson.Proofs.Lenient.Literal
import LenientJson.Proofs.Lenient.Parsing

/-! What a complete object, array or string literal gives is settled by its own characters. Its
derivation ends where its closing mark stands, so the text behind it can be exchanged; behind a bare
word only the first character of that text matters. With this the readers give the same inside any
other text. -/
namespace LenientJson.Lenient
open Reader
open Source (memberMeanings)

/-- A judgment on what stands before `rest` holds as well for the same characters before any other
text that `fits`. -/
def Portable (fits : Text → Prop) (J : Text → Text → Prop) (t rest : Text) : Prop :=
  ∃ piece, t = piece ++ rest ∧ ∀ other, fits other → J (piece ++ other) other

/-- Texts that cannot be told apart by their first character. -/
def Alike (rest other : Text) : Prop := other.head? = rest.head?

def Anything (_ : Text) : Prop := True

section
variable {fits fits' : Text → Prop} {J K : Text → Text → Prop} {t u rest : Text}

theorem Portable.imp (portable : Portable fits J t rest) (implies : ∀ t rest, J t rest → K t rest) :
    Portable fits K t rest := by
  obtain ⟨piece, split, holds⟩ := portable
  exact ⟨piece, split, fun other fitting => implies _ _ (holds other fitting)⟩

theorem Portable.weaken (portable : Portable fits J t rest) (weaker : ∀ other, fits' other → fits other) :
    Portable fits' J t rest := by
  obtain ⟨piece, split, holds⟩ := portable
  exact ⟨piece, split, fun other fitting => holds other (weaker other fitting)⟩

theorem Portable.trans (first : Portable Anything J t u) (second : Portable fits K u rest) :
    Portable fits (fun t rest => ∃ u, J t u ∧ K u rest) t rest := by
  obtain ⟨piece, rfl, holds⟩ := first
  obtain ⟨piece', rfl, holds'⟩ := second
  refine ⟨piece ++ piece', by rw [List.append_assoc], fun other fitting => ⟨piece' ++ other, ?_, holds' other fitting⟩⟩
  rw [List.append_assoc]
  exact holds _ trivial

theorem Mark.portable {c : CodePoint} (mark : Mark c t rest) : Portable Anything (Mark c) t rest := by
  obtain ⟨blanks, low, rfl⟩ := mark
  exact ⟨blanks ++ [c], by simp, fun other _ => ⟨blanks, low, by simp⟩⟩

/-- What stands before a mark is bounded by it. -/
theorem Portable.closed {c : CodePoint} (first : Portable fits J t u) (mark : Mark c u rest)
    (fitting : ∀ u' rest', Alike u u' → Mark c u' rest' → fits u') :
    Portable Anything (fun t rest => ∃ u, J t u ∧ Mark c u rest) t rest := by
  obtain ⟨piece, rfl, holds⟩ := first
  obtain ⟨blanks, low, rfl⟩ := mark
  refine ⟨piece ++ (blanks ++ [c]), by simp, fun other _ => ⟨blanks ++ c :: other, ?_, blanks, low, rfl⟩⟩
  have alike : Alike (blanks ++ c :: rest) (blanks ++ c :: other) := by
    cases blanks <;> rfl
  simpa using holds _ (fitting _ _ alike ⟨blanks, low, rfl⟩)

end

theorem Literal.portable {mark : CodePoint} {t s rest : Text} (literal : Literal mark t s rest) :
    Portable Anything (fun t rest => Literal mark t s rest) t rest := by
  obtain ⟨closing, u, items, rfl⟩ := literal_iff.mp literal
  refine ⟨u ++ [mark], by simp, fun other _ => literal_iff.mpr ⟨closing, u, items, by simp⟩⟩

theorem BareRun.portable {t run rest : Text} (word : BareRun t run rest) :
    Portable (Alike rest) (fun t rest => BareRun t run rest) t rest :=
  ⟨run, word.split, fun _ alike => ⟨rfl, word.bare, alike ▸ word.longest, word.unblank, word.unquoted⟩⟩

theorem Blanks.portable {t u rest : Text} {J : Text → Text → Prop} {fits : Text → Prop} (blanks : Blanks t u)
    (inside : Portable fits J u rest) : Portable fits (fun t rest => ∃ u, Blanks t u ∧ J u rest) t rest := by
  obtain ⟨piece, low, rfl⟩ := blanks
  obtain ⟨piece', rfl, holds⟩ := inside
  exact ⟨piece ++ piece', by simp, fun other fitting => ⟨_, ⟨piece, low, by simp⟩, holds other fitting⟩⟩

/-- What is allowed behind a slot: an empty one is seen by the comma behind it. -/
def Separated (rest other : Text) : Prop := Alike rest other ∧ ∃ v, Mark Symbol.comma other v

mutual
theorem ValueAt.portable {t rest : Text} {source : Source} (derived : ValueAt t source rest) :
    Portable (Alike rest) (fun t rest => ValueAt t source rest) t rest := by
  match derived with
  | .quoted blanks opening literal =>
    have closed := (Mark.portable blanks).trans literal.portable
    exact (closed.imp fun _ _ ⟨_, blanks, literal⟩ => .quoted blanks opening literal).weaken fun _ _ => trivial
  | .bare blanks word named =>
    exact (blanks.portable word.portable).imp fun _ _ ⟨_, blanks, word⟩ => .bare blanks word named
  | .object inside => exact (inside.portable.imp fun _ _ => .object).weaken fun _ _ => trivial
  | .array inside => exact (inside.portable.imp fun _ _ => .array).weaken fun _ _ => trivial

theorem ObjectAt.portable {t rest : Text} {members : List (Source × Source)} (derived : ObjectAt t members rest) :
    Portable Anything (fun t rest => ObjectAt t members rest) t rest := by
  match derived with
  | .empty opening closing =>
    exact (opening.portable.trans closing.portable).imp fun _ _ ⟨_, opening, closing⟩ => .empty opening closing
  | .members opening inside =>
    exact (opening.portable.trans inside.portable).imp fun _ _ ⟨_, opening, inside⟩ => .members opening inside

theorem MemberAt.portable {t rest : Text} {member : Source × Source} (derived : MemberAt t member rest) :
    Portable (Alike rest) (fun t rest => MemberAt t member rest) t rest := by
  match derived with
  | .mk first colon second =>
    have key := first.portable.closed colon fun _ _ alike _ => alike
    exact (key.trans second.portable).imp fun _ _ ⟨_, ⟨_, first, colon⟩, second⟩ => .mk first colon second

theorem MembersAt.portable {t rest : Text} {members : List (Source × Source)} (derived : MembersAt t members rest) :
    Portable Anything (fun t rest => MembersAt t members rest) t rest := by
  match derived with
  | .last first closing =>
    have member := first.portable.closed closing fun _ _ alike _ => alike
    exact member.imp fun _ _ ⟨_, first, closing⟩ => .last first closing
  | .trailing first separator separates closing =>
    have member := first.portable.closed separator fun _ _ alike _ => alike
    exact (member.trans closing.portable).imp
      fun _ _ ⟨_, ⟨_, first, separator⟩, closing⟩ => .trailing first separator separates closing
  | .more first separator separates others =>
    have member := first.portable.closed separator fun _ _ alike _ => alike
    exact (member.trans others.portable).imp
      fun _ _ ⟨_, ⟨_, first, separator⟩, others⟩ => .more first separator separates others

theorem ArrayAt.portable {t rest : Text} {slots : List Source} (derived : ArrayAt t slots rest) :
    Portable Anything (fun t rest => ArrayAt t slots rest) t rest := by
  match derived with
  | .empty opening closing =>
    exact (opening.portable.trans closing.portable).imp fun _ _ ⟨_, opening, closing⟩ => .empty opening closing
  | .slots opening inside =>
    exact (opening.portable.trans inside.portable).imp fun _ _ ⟨_, opening, inside⟩ => .slots opening inside

theorem SlotAt.portable {t rest : Text} {slot : Source} (derived : SlotAt t slot rest) :
    Portable (Separated rest) (fun t rest => SlotAt t slot rest) t rest := by
  match derived with
  | .empty comma => exact ⟨[], rfl, fun _ ⟨_, _, comma⟩ => .empty comma⟩
  | .filled inside => exact (inside.portable.imp fun _ _ => .filled).weaken fun _ => And.left

theorem SlotsAt.portable {t rest : Text} {slots : List Source} (derived : SlotsAt t slots rest) :
    Portable Anything (fun t rest => SlotsAt t slots rest) t rest := by
  match derived with
  | .last first closing =>
    have slot := first.portable.closed closing fun _ _ alike _ => alike
    exact slot.imp fun _ _ ⟨_, first, closing⟩ => .last first closing
  | .trailing first separator closing =>
    have slot := first.portable.closed separator fun _ _ alike comma => ⟨alike, _, comma⟩
    exact (slot.trans closing.portable).imp
      fun _ _ ⟨_, ⟨_, first, separator⟩, closing⟩ => .trailing first separator closing
  | .more first separator others =>
    have slot := first.portable.closed separator fun _ _ alike comma => ⟨alike, _, comma⟩
    exact (slot.trans others.portable).imp
      fun _ _ ⟨_, ⟨_, first, separator⟩, others⟩ => .more first separator others
end

/-- Characters that open what ends at a mark of its own. -/
def Opens (c : CodePoint) : Prop := c = Symbol.leftBrace ∨ c = Symbol.leftBracket ∨ IsQuoteMark c

theorem Mark.unique {c d : CodePoint} {t u v : Text} (first : Mark c t u) (second : Mark d t v)
    (high : Symbol.space < c) (high' : Symbol.space < d) : c = d := by
  obtain ⟨_, -, reads⟩ := reads_nextClean high first
  obtain ⟨_, -, reads'⟩ := reads_nextClean high' second
  obtain ⟨m, ok⟩ := reads [] .nothing
  obtain ⟨m', ok'⟩ := reads' [] .nothing
  exact Option.some.inj (EStateM.Result.ok.inj (ok.symm.trans ok')).1

/-- A value that is no bare word is bounded by a mark of its own. -/
theorem ValueAt.portable_of_opens {t u rest : Text} {source : Source} {c : CodePoint} (derived : ValueAt t source rest)
    (opening : Mark c t u) (opens : Opens c) : Portable Anything (fun t rest => ValueAt t source rest) t rest := by
  have high : Symbol.space < c := by rcases opens with rfl | rfl | rfl | rfl <;> decide
  cases derived with
  | quoted blanks quote literal =>
    exact ((Mark.portable blanks).trans literal.portable).imp fun _ _ ⟨_, blanks, literal⟩ => .quoted blanks quote literal
  | bare blanks word named =>
    obtain ⟨x, v, rfl, high', bare, unquoted⟩ := word.head named
    cases opening.unique blanks high high'
    rcases opens with rfl | rfl | quote
    · exact absurd bare (by simp [IsBare, stops])
    · exact absurd bare (by simp [IsBare, stops])
    · exact absurd quote unquoted
  | object inside => exact inside.portable.imp fun _ _ => .object
  | array inside => exact inside.portable.imp fun _ _ => .array

/-! From derivations to the readers. -/

theorem reads_nextObject {t rest : Text} {members : List (Source × Source)} (derived : ObjectAt t members rest)
    (differ : (Source.object members).KeysDiffer) : Reads nextObject t (memberMeanings members) rest := by
  obtain ⟨piece, split, reads⟩ := object_complete derived differ (Nat.le_add_right (3 * t.length) 3)
  refine ⟨piece, split, fun consumed m => ?_⟩
  rw [nextObject, run, fuelFor, Tokener.ahead, Nat.zero_add]
  exact reads consumed m

theorem reads_nextValue {t rest : Text} {source : Source} (derived : ValueAt t source rest) (differ : source.KeysDiffer) :
    Reads nextValue t source.meaning rest := by
  have enough : 3 * t.length + 1 ≤ 3 * t.length + 3 := by omega
  obtain ⟨piece, split, reads⟩ := value_complete derived differ enough
  refine ⟨piece, split, fun consumed m => ?_⟩
  rw [nextValue, run, fuelFor, Tokener.ahead, Nat.zero_add]
  exact reads consumed m

theorem nextObject_portable {t : Text} {members : Members Tree} {place : Tokener}
    (ok : nextObject (Tokener.ofText t) = .ok members place) :
    Portable Anything (fun t rest => Reads nextObject t members rest) t place.rest := by
  obtain ⟨-, written, derived, differ, rfl⟩ := (sound _).2.1 rfl ok
  exact derived.portable.imp fun _ _ derived => reads_nextObject derived differ

theorem nextValue_portable {t u : Text} {value : Tree} {place : Tokener} {c : CodePoint}
    (ok : nextValue (Tokener.ofText t) = .ok value place) (opening : Mark c t u) (opens : Opens c) :
    Portable Anything (fun t rest => Reads nextValue t value rest) t place.rest := by
  obtain ⟨-, source, derived, differ, rfl⟩ := (sound _).1 rfl ok
  exact (derived.portable_of_opens opening opens).imp fun _ _ derived => reads_nextValue derived differ

theorem eq_of_position {here : Tokener} {p u : Text} (inside : here.before = 0) (source : here.source = p ++ u)
    (position : here.position = p.length) : here = ⟨p.reverse, u, here.memory, 0⟩ := by
  obtain ⟨consumed, rest, m, before⟩ := here
  cases inside
  have length : consumed.reverse.length = p.length := by
    rw [List.length_reverse]
    exact_mod_cast (Int.sub_zero _).symm.trans position
  obtain ⟨rfl, rfl⟩ := List.append_inj source length
  rw [List.reverse_reverse]

/-- A reader whose result can be moved gives the same behind any `p`, before any `s`, and whatever
can be given back. -/
theorem Portable.ok_of_source {α : Type} {r : Reader α} {a : α} {t : Text} {place : Tokener}
    (portable : Portable Anything (fun t rest => Reads r t a rest) t place.rest)
    (ok : r (Tokener.ofText t) = .ok a place) {n : Nat} (stops : place.position = n) {p s : Text} {here : Tokener}
    (inside : here.before = 0) (source : here.source = p ++ (t.take n ++ s)) (position : here.position = p.length) :
    ∃ place', r here = .ok a place' ∧ place'.before = 0 ∧ place'.source = here.source ∧
      place'.position = p.length + n := by
  obtain ⟨piece, split, holds⟩ := portable
  have settled (rest : Text) (consumed : List CodePoint) (m : Memory) :
      ∃ m', r ⟨consumed, piece ++ rest, m, 0⟩ = .ok a ⟨piece.reverse ++ consumed, rest, m', 0⟩ := by
    obtain ⟨piece', same, reads⟩ := holds rest trivial
    cases List.append_cancel_right same
    exact reads consumed m
  have length : piece.length = n := by
    obtain ⟨m, ok'⟩ := settled place.rest [] .nothing
    rw [Tokener.ofText, split, ok'] at ok
    rw [← (EStateM.Result.ok.inj ok).2] at stops
    have reached : piece.length = (n : Int) := by simpa [Tokener.position] using stops
    exact_mod_cast reached
  have taken : t.take n = piece := by rw [split, List.take_left' length]
  rw [taken] at source
  rw [eq_of_position inside source position]
  obtain ⟨m, ok'⟩ := settled s p.reverse here.memory
  refine ⟨_, ok', rfl, ?_, ?_⟩
  · simp [Tokener.source]
  · simp [Tokener.position, ← length, Int.add_comm]

/-- A complete object, or a value behind an opening or a quote mark, does not depend on what stands around
it: where its characters stand inside another text, the reader gives the same and stops behind
them, whatever was read before and can be given back. (A place reached at `p.length` is no place
before the beginning, so nothing is counted by `before`.) -/
theorem reading_ignores_surroundings (p t s : Text) (n : Nat) (here : Tokener) (inside : here.before = 0)
    (source : here.source = p ++ (t.take n ++ s)) (position : here.position = p.length) :
    (∀ members place, nextObject (Tokener.ofText t) = .ok members place → place.position = n →
      ∃ place', nextObject here = .ok members place' ∧ place'.before = 0 ∧ place'.source = here.source ∧
        place'.position = p.length + n) ∧
    ∀ value place c u, Mark c t u → Opens c → nextValue (Tokener.ofText t) = .ok value place → place.position = n →
      ∃ place', nextValue here = .ok value place' ∧ place'.before = 0 ∧ place'.source = here.source ∧
        place'.position = p.length + n :=
  ⟨fun _ _ ok stops => (nextObject_portable ok).ok_of_source ok stops inside source position,
    fun _ _ _ _ opening opens ok stops =>
      (nextValue_portable ok opening opens).ok_of_source ok stops inside source position⟩

/-- An array with an empty slot: first alone, before what is no value, then behind a letter that can be
given back and before a quote mark. -/
theorem reading_ignores_surroundings_array : ∃ place',
    nextValue ⟨[0x7A], Text.ofString "['b',,]\"", .character, 0⟩ =
      .ok (.array [some (.scalar (.text [0x62])), some .null]) place' ∧ place'.before = 0 ∧
      place'.source = Text.ofString "z['b',,]\"" ∧ place'.position = ([0x7A] : Text).length + (7 : Nat) := by
  have ok : nextValue (Tokener.ofText (Text.ofString "['b',,]\x7b")) =
      .ok (.array [some (.scalar (.text [0x62])), some .null])
        ⟨(Text.ofString "['b',,]").reverse, [Symbol.leftBrace], .character, 0⟩ := by cbv
  exact (reading_ignores_surroundings [0x7A] (Text.ofString "['b',,]\x7b") [0x22] 7
    ⟨[0x7A], Text.ofString "['b',,]\"", .character, 0⟩ rfl (by decide) (by decide)).2 _ _ Symbol.leftBracket _
    (.here _ _) (.inr (.inl rfl)) ok (by decide)

end LenientJson.Lenient
