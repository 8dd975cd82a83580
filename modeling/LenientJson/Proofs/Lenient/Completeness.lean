import LenientJson.Proofs.Members
import LenientJson.Proofs.Rounds

/-! Completeness of the readers: they follow every derivation in the lenient grammar, by induction on the
derivation. The fuel asked for leaves three descents for each character ahead. -/
namespace LenientJson.Lenient
open Reader
open Source (memberMeanings slotMeanings MemberKeysDiffer SlotKeysDiffer)

theorem reads_addNew {m : Members Tree} {key : Text} (fresh : key ∉ m.keys) (v : Tree) (t : Text) :
    Reads (lift (m.addNew key v)) t (m ++ [(key, v)]) t := by
  have absent := Members.find?_eq_none fresh
  rw [Members.addNew, absent, Members.insert_of_find?_eq_none absent]
  exact reads_pure _ t

theorem ValueAt.requireFinite {t rest : Text} {source : Source} (value : ValueAt t source rest) :
    source.meaning.requireFinite = .ok () := by
  cases value with
  | quoted _ _ _ | object _ | array _ => rfl
  | bare _ _ _ => exact if_pos (isAdmissible_inferred _)

theorem passesBlanks_value (fuel : Nat) : PassesBlanks (value (fuel + 1)) := passesBlanks_nextClean _

theorem passesBlanks_object (fuel : Nat) : PassesBlanks (Reader.object (fuel + 1)) := passesBlanks_nextClean _

theorem passesBlanks_memberRound (fuel : Nat) (read : Members Tree) :
    PassesBlanks (memberRound nextClean (value fuel) read) := passesBlanks_nextClean _

theorem passesBlanks_members (fuel : Nat) (read : Members Tree) : PassesBlanks (Reader.members (fuel + 1) read) :=
  (passesBlanks_memberRound fuel read).bind _

theorem passesBlanks_array (fuel : Nat) : PassesBlanks (Reader.array (fuel + 1)) := passesBlanks_nextClean _

theorem passesBlanks_slotRound (fuel : Nat) : PassesBlanks (slotRound nextClean (value fuel)) := passesBlanks_nextClean _

theorem passesBlanks_elements (fuel : Nat) (read : List (Option Tree)) : PassesBlanks (elements (fuel + 1) read) :=
  (passesBlanks_slotRound fuel).bind _

/-! What stands between entries. -/

/-- Separators and a closing mark that cannot be taken for blanks or for one another. -/
structure AreMarks (separators : List CodePoint) (closing : CodePoint) : Prop where
  separate : ∀ c ∈ separators, Symbol.space < c
  close : Symbol.space < closing
  apart : closing ∉ separators

theorem areMarks_members : AreMarks [Symbol.comma, Symbol.semicolon] Symbol.rightBrace :=
  ⟨by decide, by decide, by decide⟩

theorem areMarks_slots : AreMarks [Symbol.comma] Symbol.rightBracket := ⟨by decide, by decide, by decide⟩

section
variable {α : Type} {separators : List CodePoint} {closing c : CodePoint} {reason : SyntaxReason} {t u rest : Text}

theorem reads_separation_last (marks : AreMarks separators closing) (closed : Mark closing t rest) :
    Reads (separation nextClean separators closing reason) t false rest := by
  refine (reads_nextClean marks.close closed).bind ?_
  simp only [marks.apart, if_false, if_true]
  exact reads_pure _ _

theorem reads_separation_trailing (marks : AreMarks separators closing) (separates : c ∈ separators)
    (separator : Mark c t u) (closed : Mark closing u rest) :
    Reads (separation nextClean separators closing reason) t false rest := by
  refine (reads_nextClean (marks.separate c separates) separator).bind ?_
  simp only [separates, if_true]
  refine (reads_nextClean marks.close closed).bind ?_
  simp only [if_true]
  exact reads_pure _ _

theorem reads_separation_more (marks : AreMarks separators closing) (separates : c ∈ separators)
    (separator : Mark c t u) {x : CodePoint} {v : Text} (high : Symbol.space < x) (mark : Mark x u v)
    (further : x ≠ closing) {k : Bool → Reader α} (passes : PassesBlanks (k true)) {a : α}
    (reads : Reads (k true) u a rest) :
    Reads (separation nextClean separators closing reason >>= k) t a rest := by
  have other : some x ≠ some closing := fun same => further (Option.some.inj same)
  rw [separation, bind_assoc]
  refine (reads_nextClean (marks.separate c separates) separator).bind ?_
  simp only [separates, if_true, bind_assoc]
  refine reads_peek high mark ?_ passes reads
  rw [if_neg other]
  rfl

/-- A value in a slot, with what stands behind it. -/
theorem reads_filled {t u rest : Text} {slot : Source} (derived : ValueAt t slot u) {fuel : Nat}
    (item : Reads (value (fuel + 1)) t slot.meaning u) {k : Tree × Bool → Reader α} {a : α}
    (reads : Reads (separation nextClean [Symbol.comma] Symbol.rightBracket .elementSeparator >>= fun more =>
      k (slot.meaning, more)) u a rest) :
    Reads (slotRound nextClean (value (fuel + 1)) >>= k) t a rest := by
  obtain ⟨x, v, high, mark, other, -⟩ := derived.head
  have another : some x ≠ some Symbol.comma := fun same => other (Option.some.inj same)
  rw [slotRound, bind_assoc]
  refine reads_peek high mark (by rw [bind_assoc, slotElement, if_neg another, bind_assoc])
    ((passesBlanks_value fuel).bind _) ?_
  refine item.bind ?_
  rw [requireFinite_bind derived.requireFinite, bind_assoc]
  exact reads

end

mutual
theorem value_complete {t rest : Text} {source : Source} (derived : ValueAt t source rest)
    (differ : source.KeysDiffer) {fuel : Nat} (enough : 3 * t.length + 1 ≤ fuel) :
    Reads (value fuel) t source.meaning rest := by
  obtain ⟨fuel, rfl⟩ : ∃ n, fuel = n + 1 := Nat.exists_eq_succ_of_ne_zero (by omega)
  rw [value, valueStep]
  match derived with
  | @ValueAt.quoted _ mark _ _ _ blanks opening literal =>
    have high : Symbol.space < mark := by rcases opening with rfl | rfl <;> decide
    refine (reads_nextClean high blanks).bind ?_
    simp only [isQuoteMark_iff.mpr opening, if_true]
    exact (reads_nextString literal).bind (reads_pure _ _)
  | .bare blanks word named =>
    obtain ⟨x, u, rfl, high, bare, unquoted⟩ := word.head named
    have brace : x ≠ Symbol.leftBrace := by
      rintro rfl
      exact bare.2 (by decide)
    have bracket : x ≠ Symbol.leftBracket := by
      rintro rfl
      exact bare.2 (by decide)
    have whole := Reads.bind (k := fun word => pure (.scalar word : Tree)) (reads_bareWord word named) (reads_pure _ _)
    rw [bind_assoc] at whole
    refine reads_again high blanks ?_ whole
    simp only [isQuoteMark_iff, unquoted, brace, bracket, if_false]
  | .object inside =>
    obtain ⟨u, opening⟩ := inside.head
    have shorter := opening.length_lt
    obtain ⟨fuel, rfl⟩ : ∃ n, fuel = n + 1 := Nat.exists_eq_succ_of_ne_zero (by omega)
    exact reads_peek (by decide) opening rfl ((passesBlanks_object fuel).bind _)
      ((object_complete inside differ (by omega)).bind (reads_pure _ _))
  | .array inside =>
    obtain ⟨u, opening⟩ := inside.head
    have shorter := opening.length_lt
    obtain ⟨fuel, rfl⟩ : ∃ n, fuel = n + 1 := Nat.exists_eq_succ_of_ne_zero (by omega)
    exact reads_peek (by decide) opening rfl ((passesBlanks_array fuel).bind _)
      ((array_complete inside differ (by omega)).bind (reads_pure _ _))

theorem object_complete {t rest : Text} {members : List (Source × Source)} (derived : ObjectAt t members rest)
    (differ : (Source.object members).KeysDiffer) {fuel : Nat} (enough : 3 * t.length ≤ fuel) :
    Reads (Reader.object fuel) t (memberMeanings members) rest := by
  obtain ⟨u, opening⟩ := derived.head
  have shorter := opening.length_lt
  obtain ⟨fuel, rfl⟩ : ∃ n, fuel = n + 2 := ⟨fuel - 2, by omega⟩
  rw [Reader.object]
  match derived with
  | .empty opening closing =>
    refine (reads_nextClean (by decide) opening).bind ?_
    simp only [if_true]
    have round : Reads (memberRound nextClean (value fuel) []) _ ([], false) rest :=
      (reads_nextClean (by decide) closing).bind (reads_pure _ _)
    exact round.bind (reads_pure _ _)
  | .members opening inside =>
    have shorter := opening.length_lt
    refine (reads_nextClean (by decide) opening).bind ?_
    simp only [if_true]
    exact members_complete inside differ.2 [] differ.1 (by omega)

theorem member_complete {t u : Text} {member : Source × Source} (derived : MemberAt t member u)
    (keyDiffers : member.1.KeysDiffer) (valueDiffers : member.2.KeysDiffer) {read : Members Tree}
    (fresh : member.1.meaning.keyText ∉ read.keys) {fuel : Nat} (enough : 3 * t.length + 1 ≤ fuel) :
    u.length < t.length ∧ ∀ (k : Members Tree × Bool → Reader (Members Tree)) (m : Members Tree) (rest : Text),
      Reads (separation nextClean [Symbol.comma, Symbol.semicolon] Symbol.rightBrace .memberSeparator >>= fun more =>
        k (read ++ [(member.1.meaning.keyText, member.2.meaning)], more)) u m rest →
        Reads (memberRound nextClean (value fuel) read >>= k) t m rest := by
  obtain ⟨fuel, rfl⟩ : ∃ n, fuel = n + 1 := Nat.exists_eq_succ_of_ne_zero (by omega)
  match derived with
  | @MemberAt.mk _ _ _ v _ _ first colon second =>
    obtain ⟨x, w, high, mark, -, other, -⟩ := first.head
    have key := value_complete first keyDiffers enough
    have shorter := key.length_le
    have shorter' := colon.length_lt
    have later : 3 * v.length + 1 ≤ fuel + 1 := by omega
    have item := value_complete second valueDiffers later
    refine ⟨by have := item.length_le; omega, fun k m rest reads => ?_⟩
    rw [memberRound, bind_assoc]
    refine reads_peek high mark (by dsimp only; rw [if_neg other, bind_assoc, bind_assoc])
      ((passesBlanks_value fuel).bind _) ?_
    refine key.bind ?_
    rw [bind_assoc]
    refine (reads_nextClean (by decide) colon).bind ?_
    simp only [if_true, bind_assoc]
    refine item.bind ((reads_addNew fresh _ u).bind ?_)
    rw [requireFinite_bind second.requireFinite]
    exact reads

theorem members_complete {t rest : Text} {members : List (Source × Source)} (derived : MembersAt t members rest)
    (differ : MemberKeysDiffer members) (read : Members Tree)
    (distinct : (Members.keys (read ++ memberMeanings members)).Nodup) {fuel : Nat} (enough : 3 * t.length + 2 ≤ fuel) :
    Reads (Reader.members fuel read) t (read ++ memberMeanings members) rest := by
  obtain ⟨fuel, rfl⟩ : ∃ n, fuel = n + 2 := ⟨fuel - 2, by omega⟩
  have inner : 3 * t.length + 1 ≤ fuel + 1 := by omega
  rw [Reader.members, membersStep]
  match derived with
  | @MembersAt.last _ (k, v) _ _ first closing =>
    obtain ⟨-, member⟩ := member_complete first differ.1 differ.2.1 (Members.fresh_of_nodup distinct) inner
    exact member _ _ _ ((reads_separation_last areMarks_members closing).bind (reads_pure _ _))
  | @MembersAt.trailing _ (k, v) _ _ _ _ first separator separates closing =>
    obtain ⟨-, member⟩ := member_complete first differ.1 differ.2.1 (Members.fresh_of_nodup distinct) inner
    exact member _ _ _ ((reads_separation_trailing areMarks_members (List.mem_pair.mpr separates) separator closing).bind
      (reads_pure _ _))
  | @MembersAt.more _ (k, v) _ _ _ members _ first separator separates others =>
    obtain ⟨shorter, member⟩ := member_complete first differ.1 differ.2.1 (Members.fresh_of_nodup distinct) inner
    have shorter' := separator.length_lt
    obtain ⟨y, w, high, mark, -, other, -⟩ := others.head
    refine member _ _ _ ?_
    refine reads_separation_more areMarks_members (List.mem_pair.mpr separates) separator high mark other
      (passesBlanks_members fuel _) ?_
    have regroup : read ++ memberMeanings ((k, v) :: members) =
      read ++ [(k.meaning.keyText, v.meaning)] ++ memberMeanings members := List.append_cons ..
    rw [regroup] at distinct ⊢
    exact members_complete others differ.2.2 _ distinct (by omega)

theorem array_complete {t rest : Text} {slots : List Source} (derived : ArrayAt t slots rest)
    (differ : SlotKeysDiffer slots) {fuel : Nat} (enough : 3 * t.length ≤ fuel) :
    Reads (Reader.array fuel) t (slotMeanings slots) rest := by
  obtain ⟨u, opening⟩ := derived.head
  have shorter := opening.length_lt
  obtain ⟨fuel, rfl⟩ : ∃ n, fuel = n + 2 := ⟨fuel - 2, by omega⟩
  rw [Reader.array]
  match derived with
  | .empty opening closing =>
    refine (reads_nextClean (by decide) opening).bind ?_
    simp only [if_true]
    refine (reads_nextClean (by decide) closing).bind ?_
    simp only [if_true]
    exact reads_pure _ _
  | .slots opening inside =>
    have shorter := opening.length_lt
    obtain ⟨x, v, high, mark, other⟩ := inside.head
    refine (reads_nextClean (by decide) opening).bind ?_
    simp only [if_true]
    have another : some x ≠ some Symbol.rightBracket := fun same => other (Option.some.inj same)
    refine reads_peek high mark (if_neg another) (passesBlanks_elements fuel []) ?_
    exact slots_complete inside differ [] (by omega)

/-- An empty slot leaves the place before its blanks, so what follows it has to pass them. -/
theorem slot_complete {t u : Text} {slot : Source} (derived : SlotAt t slot u) (differs : slot.KeysDiffer)
    {fuel : Nat} (enough : 3 * t.length + 1 ≤ fuel) :
    u.length ≤ t.length ∧ ∀ (k : Tree × Bool → Reader (List (Option Tree))) (e : List (Option Tree)) (rest : Text),
      Reads (separation nextClean [Symbol.comma] Symbol.rightBracket .elementSeparator >>= fun more =>
        k (slot.meaning, more)) u e rest →
        Reads (slotRound nextClean (value fuel) >>= k) t e rest := by
  obtain ⟨fuel, rfl⟩ : ∃ n, fuel = n + 1 := Nat.exists_eq_succ_of_ne_zero (by omega)
  have passes (v : Tree) (k : Tree × Bool → Reader (List (Option Tree))) : PassesBlanks
      (separation nextClean [Symbol.comma] Symbol.rightBracket .elementSeparator >>= fun more => k (v, more)) :=
    (passesBlanks_nextClean _).bind _
  match derived with
  | .empty comma =>
    refine ⟨Nat.le_refl _, fun k e rest reads => ?_⟩
    rw [slotRound, bind_assoc]
    refine reads_peek (by decide) comma ?_ (passes .null k) reads
    have kept : (Value.null : Tree).requireFinite = .ok () := rfl
    simp only [slotElement, if_true, bind_assoc, pure_bind, requireFinite_bind kept]
  | .filled inside =>
    have item := value_complete inside differs enough
    exact ⟨item.length_le, fun k e rest reads => reads_filled inside item reads⟩

theorem slots_complete {t rest : Text} {slots : List Source} (derived : SlotsAt t slots rest)
    (differ : SlotKeysDiffer slots) (read : List (Option Tree)) {fuel : Nat} (enough : 3 * t.length + 2 ≤ fuel) :
    Reads (elements fuel read) t (read ++ slotMeanings slots) rest := by
  obtain ⟨fuel, rfl⟩ : ∃ n, fuel = n + 2 := ⟨fuel - 2, by omega⟩
  have inner : 3 * t.length + 1 ≤ fuel + 1 := by omega
  rw [elements, elementsStep]
  match derived with
  | .last first closing =>
    have item := value_complete first differ.1 inner
    exact reads_filled first item ((reads_separation_last areMarks_slots closing).bind (reads_pure _ _))
  | .trailing first separator closing =>
    obtain ⟨-, item⟩ := slot_complete first differ.1 inner
    exact item _ _ _ ((reads_separation_trailing areMarks_slots (List.mem_singleton.mpr rfl) separator closing).bind
      (reads_pure _ _))
  | @SlotsAt.more _ slot _ _ slots _ first separator others =>
    obtain ⟨shorter, item⟩ := slot_complete first differ.1 inner
    have shorter' := separator.length_lt
    obtain ⟨x, v, high, mark, other⟩ := others.head
    refine item _ _ _ ?_
    refine reads_separation_more areMarks_slots (List.mem_singleton.mpr rfl) separator high mark other
      (passesBlanks_elements fuel _) ?_
    have regroup : read ++ slotMeanings (slot :: slots) = read ++ [some slot.meaning] ++ slotMeanings slots :=
      List.append_cons ..
    rw [regroup]
    exact slots_complete others differ.2 _ (by omega)
end

end LenientJson.Lenient
