import LenientJson.Proofs.Progress

/-! The readers of values, objects and arrays get on, and the loops over members and slots do so round by round. What
a round has read it stores as a container stores it, which checks it; the check never fails. -/
namespace LenientJson.Reader
open Tokener

variable {α β : Type} {s : Tokener}

theorem proceeds_requireFinite (inside : s.before = 0) {v : Tree} (finite : v.requireFinite = .ok ()) :
    Proceeds 0 (fun _ => True) (lift v.requireFinite) s := by
  rw [finite]
  exact proceeds_pure inside trivial

/-- A reader of values reads at least one character, and gives nothing that a container may not hold. -/
def ReadsValues (value : Reader Tree) : Prop :=
  ∀ {s}, s.before = 0 → Proceeds 1 (fun v => v.requireFinite = .ok ()) value s

theorem proceeds_separation (separators : List CodePoint) (closing : CodePoint) {reason : SyntaxReason}
    (grammatical : reason.IsGrammatical) (inside : s.before = 0) :
    Proceeds 1 (fun _ => True) (separation nextClean separators closing reason) s := by
  rw [separation]
  obtain ⟨x, s₁, -, first, -, -, onward⟩ := exists_nextClean inside
  cases x with
  | none => exact .step onward first (proceeds_fail _ onward.inside grammatical)
  | some c =>
    refine .step onward first ?_
    dsimp only
    split
    · obtain ⟨x, s₂, s₃, after, given, held, onward⟩ := exists_nextClean onward.inside
      by_cases closed : x = some closing
      · refine .step (onward.weaken (Nat.zero_le _)) after ?_
        simp only [closed, if_true]
        exact proceeds_pure onward.inside trivial
      · refine .peek after given held (by simp only [closed, if_false]; rfl) ?_
        exact proceeds_pure held.inside trivial
    split
    · exact proceeds_pure onward.inside trivial
    · exact proceeds_fail _ onward.inside grammatical

theorem proceeds_memberRound {value : Reader Tree} (values : ReadsValues value) (read : Members Tree)
    (inside : s.before = 0) : Proceeds 1 (fun _ => True) (memberRound nextClean value read) s := by
  rw [memberRound]
  obtain ⟨x, s₁, s₂, first, given, held, onward⟩ := exists_nextClean inside
  cases x with
  | none => exact .step onward first (proceeds_fail _ onward.inside trivial)
  | some c =>
    by_cases brace : c = Symbol.rightBrace
    · refine .step onward first ?_
      simp only [brace, if_true]
      exact proceeds_pure onward.inside trivial
    refine .peek first given held (by simp only [brace, if_false]; rfl) ?_
    refine (values held.inside).bind fun key s₃ lead _ => ?_
    obtain ⟨x, s₄, -, colon, -, -, onward⟩ := exists_nextClean lead.inside
    refine .step (onward.weaken (Nat.zero_le _)) colon ?_
    split
    case isFalse => exact proceeds_fail _ onward.inside trivial
    refine ((values onward.inside).weaken (Nat.zero_le _)).bind fun item s₅ lead finite => ?_
    refine (proceeds_addNew lead.inside read _ item).bind fun read s₆ lead _ => ?_
    refine (proceeds_requireFinite lead.inside finite).bind fun _ s₇ lead _ => ?_
    refine ((proceeds_separation _ _ (by trivial) lead.inside).weaken (Nat.zero_le _)).bind
      fun _ s₈ lead _ => ?_
    exact proceeds_pure lead.inside trivial

theorem proceeds_slotElement {value : Reader Tree} (values : ReadsValues value) (first : Option CodePoint)
    (inside : s.before = 0) : Proceeds 0 (fun v => v.requireFinite = .ok ()) (slotElement value first) s := by
  rw [slotElement]
  split
  · exact proceeds_pure inside rfl
  · exact (values inside).weaken (Nat.zero_le _)

theorem proceeds_slotRound {value : Reader Tree} (values : ReadsValues value) (inside : s.before = 0) :
    Proceeds 1 (fun _ => True) (slotRound nextClean value) s := by
  obtain ⟨x, s₁, s₂, first, given, held, -⟩ := exists_nextClean inside
  refine .peek first given held rfl ?_
  refine (proceeds_slotElement values x held.inside).bind fun v s₃ lead finite => ?_
  refine (proceeds_requireFinite lead.inside finite).bind fun _ s₄ lead _ => ?_
  exact (proceeds_separation _ _ (by trivial) lead.inside).bind fun _ s₅ lead _ => proceeds_pure lead.inside trivial

theorem requireFinite_bind {v : Tree} (finite : v.requireFinite = .ok ()) (k : Unit → Reader α) :
    lift v.requireFinite >>= k = k () := by
  rw [finite]
  rfl

/-! The readers of values, objects and arrays, and the two loops, by induction on the fuel. -/

/-- What the readers do with some fuel. -/
structure Progress (fuel : Nat) : Prop where
  values : ReadsValues (value fuel)
  objects : ∀ {s}, s.before = 0 → Proceeds 1 (fun _ => True) (object fuel) s
  members : ∀ {s} read, s.before = 0 → Proceeds 1 (fun _ => True) (members fuel read) s
  arrays : ∀ {s}, s.before = 0 → Proceeds 1 (fun _ => True) (array fuel) s
  elements : ∀ {s} read, s.before = 0 → Proceeds 1 (fun _ => True) (elements fuel read) s

theorem proceeds_word (inside : s.before = 0) :
    Proceeds 1 (fun v => v.requireFinite = .ok ()) (next >>= fun first => bareWord first >>= fun word =>
      pure (.scalar word : Tree)) s := by
  rw [← bind_assoc]
  refine (proceeds_bareWord inside).bind fun leaf s' lead finite => proceeds_pure lead.inside ?_
  rw [Value.requireFinite, Scalar.requireFinite, if_pos finite]

theorem readsValues_succ {fuel : Nat} (progress : Progress fuel) : ReadsValues (value (fuel + 1)) := by
  intro s inside
  rw [value, valueStep]
  obtain ⟨x, s₁, s₂, first, given, held, onward⟩ := exists_nextClean inside
  -- a word is read as if its first character had been given back
  have word : Proceeds 1 (fun v => v.requireFinite = .ok ()) (next >>= fun first => bareWord first >>= fun word =>
      pure (.scalar word : Tree)) s₂ := proceeds_word held.inside
  have again := next_of_back inside first given
  cases x with
  | none => exact .from held (by rw [bind_apply first, bind_apply again]) word
  | some c =>
    by_cases quote : isQuoteMark c
    · refine .step onward first ?_
      simp only [quote, if_true]
      exact (proceeds_nextString _ onward.inside).bind fun _ _ lead _ => proceeds_pure lead.inside rfl
    by_cases brace : c = Symbol.leftBrace
    · refine .peek first given held (by simp only [brace, if_true]; rfl) ?_
      exact (progress.objects held.inside).bind fun _ _ lead _ => proceeds_pure lead.inside rfl
    by_cases bracket : c = Symbol.leftBracket
    · refine .peek first given held (by simp only [bracket, if_true]; rfl) ?_
      exact (progress.arrays held.inside).bind fun _ _ lead _ => proceeds_pure lead.inside rfl
    refine .from held ?_ word
    rw [bind_apply first, bind_apply again]
    simp only [quote, brace, bracket, if_false]
    rfl

theorem object_proceeds {fuel : Nat} (progress : Progress fuel) (inside : s.before = 0) :
    Proceeds 1 (fun _ => True) (object (fuel + 1)) s := by
  rw [object, objectStep]
  obtain ⟨x, s₁, -, first, -, -, onward⟩ := exists_nextClean inside
  refine .step (onward.weaken (Nat.zero_le _)) first ?_
  split
  · exact progress.members [] onward.inside
  · exact proceeds_fail _ onward.inside trivial

theorem members_proceeds {fuel : Nat} (progress : Progress fuel) (read : Members Tree) (inside : s.before = 0) :
    Proceeds 1 (fun _ => True) (members (fuel + 1) read) s := by
  rw [members, membersStep]
  refine (proceeds_memberRound progress.values read inside).bind fun round s' lead _ => ?_
  obtain ⟨read, more⟩ := round
  dsimp only
  split
  · exact (progress.members read lead.inside).weaken (Nat.zero_le _)
  · exact proceeds_pure lead.inside trivial

theorem array_proceeds {fuel : Nat} (progress : Progress fuel) (inside : s.before = 0) :
    Proceeds 1 (fun _ => True) (array (fuel + 1)) s := by
  rw [array, arrayStep]
  obtain ⟨x, s₁, -, first, -, -, onward⟩ := exists_nextClean inside
  cases x with
  | none => exact .step onward first (proceeds_fail _ onward.inside trivial)
  | some c =>
    refine .step onward first ?_
    split
    · obtain ⟨y, s₂, s₃, second, given, held, onward⟩ := exists_nextClean onward.inside
      by_cases bracket : y = some Symbol.rightBracket
      · refine .step (onward.weaken (Nat.zero_le _)) second ?_
        rw [if_pos bracket]
        exact proceeds_pure onward.inside trivial
      · refine .peek second given held (if_neg bracket) ?_
        exact (progress.elements [] held.inside).weaken (Nat.zero_le _)
    · exact proceeds_fail _ onward.inside trivial

theorem elements_proceeds {fuel : Nat} (progress : Progress fuel) (read : List (Option Tree)) (inside : s.before = 0) :
    Proceeds 1 (fun _ => True) (elements (fuel + 1) read) s := by
  rw [elements, elementsStep]
  refine (proceeds_slotRound progress.values inside).bind fun round s' lead _ => ?_
  obtain ⟨element, more⟩ := round
  dsimp only
  split
  · exact (progress.elements _ lead.inside).weaken (Nat.zero_le _)
  · exact proceeds_pure lead.inside trivial

theorem progress (fuel : Nat) : Progress fuel := by
  induction fuel with
  | zero =>
    exact ⟨fun inside => proceeds_fail _ inside trivial, fun inside => proceeds_fail _ inside trivial,
      fun _ inside => proceeds_fail _ inside trivial, fun inside => proceeds_fail _ inside trivial,
      fun _ inside => proceeds_fail _ inside trivial⟩
  | succ fuel ih =>
    exact ⟨readsValues_succ ih, object_proceeds ih, members_proceeds ih, array_proceeds ih, elements_proceeds ih⟩

end LenientJson.Reader
