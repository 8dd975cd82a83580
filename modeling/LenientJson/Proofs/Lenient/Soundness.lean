import LenientJson.Proofs.Members
import LenientJson.Proofs.Reading

/-! Soundness of the readers: whatever they give has a derivation in the lenient grammar behind it. Each
reader has a lemma for one step, which takes the others from one descent less, and the fuel is the
measure that puts the steps together. -/
namespace LenientJson.Lenient
open Reader
open Source (memberMeanings slotMeanings MemberKeysDiffer SlotKeysDiffer)

def ValueSound (fuel : Nat) : Prop := ∀ {s s' v}, s.before = 0 → value fuel s = .ok v s' →
  s'.before = 0 ∧ ∃ source, ValueAt s.rest source s'.rest ∧ source.KeysDiffer ∧ source.meaning = v

def ObjectSound (fuel : Nat) : Prop := ∀ {s s' m}, s.before = 0 → object fuel s = .ok m s' →
  s'.before = 0 ∧ ∃ members, ObjectAt s.rest members s'.rest ∧ (Source.object members).KeysDiffer ∧
    memberMeanings members = m

/-- Behind a member list stand new members, or at its beginning the closing brace. -/
def MembersSound (fuel : Nat) : Prop := ∀ {s s' read m}, s.before = 0 → (Members.keys read).Nodup →
  members fuel read s = .ok m s' → s'.before = 0 ∧ (Mark Symbol.rightBrace s.rest s'.rest ∧ m = read ∨
    ∃ members, MembersAt s.rest members s'.rest ∧ MemberKeysDiffer members ∧ m.keys.Nodup ∧
      m = read ++ memberMeanings members)

def ArraySound (fuel : Nat) : Prop := ∀ {s s' e}, s.before = 0 → array fuel s = .ok e s' →
  s'.before = 0 ∧ ∃ slots, ArrayAt s.rest slots s'.rest ∧ SlotKeysDiffer slots ∧ slotMeanings slots = e

/-- Slots are added to those read before. -/
def SlotsSound (fuel : Nat) : Prop := ∀ {s s' read e}, s.before = 0 → elements fuel read s = .ok e s' →
  s'.before = 0 ∧ ∃ slots, SlotsAt s.rest slots s'.rest ∧ SlotKeysDiffer slots ∧ e = read ++ slotMeanings slots

theorem value_sound {fuel : Nat} (objects : ObjectSound fuel) (arrays : ArraySound fuel) :
    ValueSound (fuel + 1) := by
  intro s s' v inside ok
  rw [value, valueStep] at ok
  obtain ⟨x, s₁, first, ok⟩ := bind_ok.mp ok
  have word (unquoted : ∀ c, x = some c → ¬ IsQuoteMark c)
      (ok : (bareWord x >>= fun word => pure (Value.scalar word)) s₁ = .ok v s') :
      s'.before = 0 ∧ ∃ source, ValueAt s.rest source s'.rest ∧ source.KeysDiffer ∧ source.meaning = v := by
    obtain ⟨s₂, given⟩ := exists_back inside first
    obtain ⟨before, blanks, head, high⟩ := back_ok inside first given
    obtain ⟨word, s₃, bare, ok⟩ := bind_ok.mp ok
    obtain ⟨rfl, rfl⟩ := pure_ok.mp ok
    obtain ⟨run, split, all, longest, named, rfl, after⟩ :=
      bareWord_ok before ((bind_apply (next_of_back inside first given)).trans bare)
    have heads {c} (start : run.head? = some c) : x = some c := by
      rw [← head, split, List.head?_append, start]
      rfl
    exact ⟨after, _, .bare blanks ⟨split, all, longest, fun c start => high c (heads start),
      fun c start => unquoted c (heads start)⟩ named, trivial, rfl⟩
  cases x with
  | none => exact word (by rintro _ ⟨⟩) ok
  | some c =>
    dsimp only at ok
    split at ok
    · next quote =>
      rcases nextClean_ok inside first with ⟨_, absent, -⟩ | ⟨_, consumed, rest, same, -, mark, rfl⟩
      · cases absent
      cases same
      obtain ⟨text, s₂, string, ok⟩ := bind_ok.mp ok
      obtain ⟨rfl, rfl⟩ := pure_ok.mp ok
      obtain ⟨literal, after⟩ := nextString_ok rfl string
      exact ⟨after, .leaf (.text text), .quoted mark (isQuoteMark_iff.mp quote) literal, trivial, rfl⟩
    next unquoted =>
    split at ok
    · obtain ⟨_, s₂, given, ok⟩ := bind_ok.mp ok
      obtain ⟨before, blanks, -⟩ := back_ok inside first given
      obtain ⟨m, s₃, object, ok⟩ := bind_ok.mp ok
      obtain ⟨rfl, rfl⟩ := pure_ok.mp ok
      obtain ⟨after, members, derived, differ, rfl⟩ := objects before object
      exact ⟨after, .object members, .of_blanks blanks (.object derived), differ, rfl⟩
    split at ok
    · obtain ⟨_, s₂, given, ok⟩ := bind_ok.mp ok
      obtain ⟨before, blanks, -⟩ := back_ok inside first given
      obtain ⟨e, s₃, array, ok⟩ := bind_ok.mp ok
      obtain ⟨rfl, rfl⟩ := pure_ok.mp ok
      obtain ⟨after, slots, derived, differ, rfl⟩ := arrays before array
      exact ⟨after, .array slots, .of_blanks blanks (.array derived), differ, rfl⟩
    · refine word (fun d same => ?_) ok
      cases same
      rwa [← isQuoteMark_iff]

theorem mark_of_nextClean {s s' : Tokener} {c : CodePoint} (inside : s.before = 0)
    (ok : nextClean s = .ok (some c) s') : s'.before = 0 ∧ Mark c s.rest s'.rest := by
  rcases nextClean_ok inside ok with ⟨_, absent, -⟩ | ⟨_, consumed, rest, same, -, mark, rfl⟩
  · cases absent
  · cases same
    exact ⟨rfl, mark⟩

theorem object_sound {fuel : Nat} (all : MembersSound fuel) : ObjectSound (fuel + 1) := by
  intro s s' m inside ok
  rw [Reader.object, objectStep] at ok
  obtain ⟨x, s₁, first, ok⟩ := bind_ok.mp ok
  split at ok
  case isFalse => cases ok
  next brace =>
  subst brace
  obtain ⟨before, opening⟩ := mark_of_nextClean inside first
  have start : (Members.keys ([] : Members Tree)).Nodup := List.nodup_nil
  obtain ⟨after, outcome⟩ := all before start ok
  rcases outcome with ⟨closing, rfl⟩ | ⟨members, derived, differ, distinct, rfl⟩
  · exact ⟨after, [], .empty opening closing, ⟨start, trivial⟩, rfl⟩
  · exact ⟨after, members, .members opening derived, ⟨distinct, differ⟩, rfl⟩

theorem addNew_ok {key : Text} {v : Tree} {m m' : Members Tree} {s s' : Tokener}
    (ok : lift (m.addNew key v) s = .ok m' s') : s' = s ∧ key ∉ m.keys ∧ m' = m ++ [(key, v)] := by
  rw [Members.addNew] at ok
  split at ok
  · cases ok
  · next absent =>
    cases ok
    exact ⟨rfl, Members.not_mem_keys absent, Members.insert_of_find?_eq_none absent v⟩

/-- What stands between an entry and what follows it, with whether this is another entry. -/
inductive Separation (separators : List CodePoint) (closing : CodePoint) (t : Text) : Bool → Text → Prop
  | last {rest} (closed : Mark closing t rest) : Separation separators closing t false rest
  | trailing {c u rest} (separator : Mark c t u) (separates : c ∈ separators) (closed : Mark closing u rest) :
      Separation separators closing t false rest
  | more {c u rest} (separator : Mark c t u) (separates : c ∈ separators) (blanks : Blanks u rest)
      (further : ∀ v, ¬ Mark closing rest v) : Separation separators closing t true rest

theorem separation_sound {separators : List CodePoint} {closing : CodePoint} {reason : SyntaxReason} {s s' : Tokener}
    {more : Bool} (inside : s.before = 0) (ok : separation nextClean separators closing reason s = .ok more s') :
    s'.before = 0 ∧ Separation separators closing s.rest more s'.rest := by
  rw [separation] at ok
  obtain ⟨x, s₁, first, ok⟩ := bind_ok.mp ok
  cases x with
  | none => cases ok
  | some c =>
  dsimp only at ok
  obtain ⟨before, mark⟩ := mark_of_nextClean inside first
  split at ok
  · next separates =>
    obtain ⟨y, s₂, second, ok⟩ := bind_ok.mp ok
    split at ok
    · next closed =>
      subst closed
      obtain ⟨rfl, rfl⟩ := pure_ok.mp ok
      obtain ⟨after, closed⟩ := mark_of_nextClean before second
      exact ⟨after, .trailing mark separates closed⟩
    · next further =>
      obtain ⟨_, s₃, given, ok⟩ := bind_ok.mp ok
      obtain ⟨rfl, rfl⟩ := pure_ok.mp ok
      obtain ⟨after, blanks, head, high⟩ := back_ok before second given
      exact ⟨after, .more mark separates blanks fun v closed => further (closed.head_eq head high)⟩
  split at ok
  · next closed =>
    obtain ⟨rfl, rfl⟩ := pure_ok.mp ok
    exact ⟨before, .last (closed ▸ mark)⟩
  · cases ok

theorem lift_ok {e : Except Fault Unit} {s s' : Tokener} {a : Unit} (ok : lift e s = .ok a s') : s' = s := by
  cases e <;> cases ok
  rfl

/-- A round finds the closing brace at once, or it adds a new member. -/
theorem memberRound_sound {fuel : Nat} (values : ValueSound fuel) {s s' : Tokener} {read m : Members Tree} {more : Bool}
    (inside : s.before = 0) (ok : memberRound nextClean (value fuel) read s = .ok (m, more) s') :
    s'.before = 0 ∧ (Mark Symbol.rightBrace s.rest s'.rest ∧ m = read ∧ more = false ∨
      ∃ member t, MemberAt s.rest member t ∧ member.1.KeysDiffer ∧ member.2.KeysDiffer ∧
        member.1.meaning.keyText ∉ read.keys ∧ m = read ++ [(member.1.meaning.keyText, member.2.meaning)] ∧
        Separation [Symbol.comma, Symbol.semicolon] Symbol.rightBrace t more s'.rest) := by
  rw [memberRound] at ok
  obtain ⟨x, s₁, first, ok⟩ := bind_ok.mp ok
  cases x with
  | none => cases ok
  | some c =>
  dsimp only at ok
  split at ok
  · next brace =>
    subst brace
    obtain ⟨same, rfl⟩ := pure_ok.mp ok
    cases same
    obtain ⟨after, closing⟩ := mark_of_nextClean inside first
    exact ⟨after, .inl ⟨closing, rfl, rfl⟩⟩
  obtain ⟨_, s₂, given, ok⟩ := bind_ok.mp ok
  obtain ⟨before, blanks, -⟩ := back_ok inside first given
  obtain ⟨k, s₃, key, ok⟩ := bind_ok.mp ok
  obtain ⟨before, source, keyAt, keyDiffers, rfl⟩ := values before key
  obtain ⟨y, s₄, second, ok⟩ := bind_ok.mp ok
  split at ok
  case isFalse => cases ok
  next colon =>
  subst colon
  obtain ⟨before, colon⟩ := mark_of_nextClean before second
  obtain ⟨v, s₅, item, ok⟩ := bind_ok.mp ok
  obtain ⟨before, source', itemAt, itemDiffers, rfl⟩ := values before item
  obtain ⟨m', s₆, added, ok⟩ := bind_ok.mp ok
  obtain ⟨rfl, fresh, rfl⟩ := addNew_ok added
  obtain ⟨_, s₇, finite, stored⟩ := bind_ok.mp ok
  obtain rfl := lift_ok finite
  obtain ⟨more', s₈, separation, told⟩ := bind_ok.mp stored
  obtain ⟨same, rfl⟩ := pure_ok.mp told
  cases same
  obtain ⟨after, separated⟩ := separation_sound before separation
  exact ⟨after, .inr ⟨(source, source'), _, .mk (.of_blanks blanks keyAt) colon itemAt, keyDiffers, itemDiffers, fresh, rfl,
    separated⟩⟩

theorem members_sound {fuel : Nat} (values : ValueSound fuel) (others : MembersSound fuel) :
    MembersSound (fuel + 1) := by
  intro s s' read m inside distinct ok
  rw [Reader.members, membersStep] at ok
  obtain ⟨⟨m', more⟩, s₁, round, ok⟩ := bind_ok.mp ok
  obtain ⟨before, ⟨closing, rfl, rfl⟩ | ⟨member, t, derived, keyDiffers, itemDiffers, fresh, rfl, separated⟩⟩ :=
    memberRound_sound values inside round
  · obtain ⟨rfl, rfl⟩ := pure_ok.mp ok
    exact ⟨before, .inl ⟨closing, rfl⟩⟩
  have distinct' := Members.nodup_keys_append distinct fresh member.2.meaning
  have single : MemberKeysDiffer [member] := ⟨keyDiffers, itemDiffers, trivial⟩
  cases separated with
  | last closing =>
    obtain ⟨rfl, rfl⟩ := pure_ok.mp ok
    exact ⟨before, .inr ⟨_, .last derived closing, single, distinct', rfl⟩⟩
  | trailing separator separates closing =>
    obtain ⟨rfl, rfl⟩ := pure_ok.mp ok
    exact ⟨before, .inr ⟨_, .trailing derived separator (List.mem_pair.mp separates) closing, single, distinct', rfl⟩⟩
  | more separator separates blanks further =>
    obtain ⟨after, ⟨closing, -⟩ | ⟨rest, derived', differ, distinct, rfl⟩⟩ := others before distinct' ok
    · exact absurd closing (further _)
    · refine ⟨after, .inr ⟨member :: rest, .more derived separator (List.mem_pair.mp separates) (.of_blanks blanks derived'),
        ⟨keyDiffers, itemDiffers, differ⟩, distinct, ?_⟩⟩
      rw [List.append_assoc]
      rfl

theorem array_sound {fuel : Nat} (all : SlotsSound fuel) : ArraySound (fuel + 1) := by
  intro s s' e inside ok
  rw [Reader.array, arrayStep] at ok
  obtain ⟨x, s₁, first, ok⟩ := bind_ok.mp ok
  split at ok
  case isFalse => cases ok
  next bracket =>
  subst bracket
  obtain ⟨before, opening⟩ := mark_of_nextClean inside first
  obtain ⟨y, s₂, second, ok⟩ := bind_ok.mp ok
  split at ok
  · next bracket =>
    subst bracket
    obtain ⟨rfl, rfl⟩ := pure_ok.mp ok
    obtain ⟨after, closing⟩ := mark_of_nextClean before second
    exact ⟨after, [], .empty opening closing, trivial, rfl⟩
  · obtain ⟨_, s₃, given, ok⟩ := bind_ok.mp ok
    obtain ⟨before, blanks, -⟩ := back_ok before second given
    obtain ⟨after, slots, derived, differ, rfl⟩ := all before ok
    exact ⟨after, slots, .slots opening (.of_blanks blanks derived), differ, rfl⟩

/-- What a slot gives, read behind the character that was looked at first. A slot before a closing
bracket is not empty. -/
theorem slot_sound {fuel : Nat} (values : ValueSound fuel) {s s₁ s₂ s₃ : Tokener} {x : Option CodePoint} {v : Tree}
    (inside : s.before = 0) (first : nextClean s = .ok x s₁) (given : back s₁ = .ok () s₂)
    (ok : slotElement (value fuel) x s₂ = .ok v s₃) :
    s₃.before = 0 ∧ ∃ slot t, SlotAt s.rest slot t ∧ Blanks t s₃.rest ∧ slot.KeysDiffer ∧ slot.meaning = v ∧
      ∀ u, Mark Symbol.rightBracket s₃.rest u → ValueAt s.rest slot s₃.rest := by
  obtain ⟨before, blanks, head, high⟩ := back_ok inside first given
  rw [slotElement] at ok
  split at ok
  · next comma =>
    subst comma
    obtain ⟨rfl, rfl⟩ := pure_ok.mp ok
    obtain ⟨-, mark⟩ := mark_of_nextClean inside first
    refine ⟨before, .leaf .null, s.rest, .empty mark, blanks, trivial, rfl, fun u closing => ?_⟩
    have other := closing.head_eq head high
    exact absurd other (by decide)
  · obtain ⟨after, slot, derived, differ, rfl⟩ := values before ok
    have filled := ValueAt.of_blanks blanks derived
    exact ⟨after, slot, s₃.rest, .filled filled, .refl _, differ, rfl, fun _ _ => filled⟩

theorem slots_sound {fuel : Nat} (values : ValueSound fuel) (others : SlotsSound fuel) :
    SlotsSound (fuel + 1) := by
  intro s s' read e inside ok
  rw [elements, elementsStep, slotRound] at ok
  obtain ⟨⟨v, more⟩, s₁, round, ok⟩ := bind_ok.mp ok
  obtain ⟨x, s₂, first, round⟩ := bind_ok.mp round
  obtain ⟨_, s₃, given, round⟩ := bind_ok.mp round
  obtain ⟨v', s₄, item, round⟩ := bind_ok.mp round
  obtain ⟨before, slot, t, slotAt, blanks, differs, rfl, valueAt⟩ := slot_sound values inside first given item
  obtain ⟨_, s₅, finite, stored⟩ := bind_ok.mp round
  obtain rfl := lift_ok finite
  obtain ⟨more', s₆, separation, told⟩ := bind_ok.mp stored
  obtain ⟨same, rfl⟩ := pure_ok.mp told
  cases same
  obtain ⟨before, separated⟩ := separation_sound before separation
  cases separated with
  | last closing =>
    obtain ⟨rfl, rfl⟩ := pure_ok.mp ok
    exact ⟨before, [slot], .last (valueAt _ closing) closing, ⟨differs, trivial⟩, rfl⟩
  | trailing separator separates closing =>
    obtain ⟨rfl, rfl⟩ := pure_ok.mp ok
    cases List.mem_singleton.mp separates
    exact ⟨before, [slot], .trailing slotAt (blanks.trans separator) closing, ⟨differs, trivial⟩, rfl⟩
  | more separator separates between _ =>
    obtain ⟨after, slots, derived, differ, rfl⟩ := others before ok
    cases List.mem_singleton.mp separates
    refine ⟨after, slot :: slots, .more slotAt (blanks.trans separator) (.of_blanks between derived), ⟨differs, differ⟩, ?_⟩
    rw [List.append_assoc]
    rfl

theorem sound (fuel : Nat) :
    ValueSound fuel ∧ ObjectSound fuel ∧ MembersSound fuel ∧ ArraySound fuel ∧ SlotsSound fuel := by
  induction fuel with
  | zero =>
    refine ⟨?_, ?_, ?_, ?_, ?_⟩
    · intro s s' v inside ok
      cases ok
    · intro s s' m inside ok
      cases ok
    · intro s s' read m inside distinct ok
      cases ok
    · intro s s' e inside ok
      cases ok
    · intro s s' read e inside ok
      cases ok
  | succ fuel ih =>
    obtain ⟨values, objects, members, arrays, slots⟩ := ih
    exact ⟨value_sound objects arrays, object_sound members, members_sound values members, array_sound slots,
      slots_sound values slots⟩

end LenientJson.Lenient
