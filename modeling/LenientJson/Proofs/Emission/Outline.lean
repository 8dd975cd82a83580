import LenientJson.Proofs.Emission.Token

/-! The outline of emitted text. A reader who knows how many entries the containers have, in the order in which they
open, can tell at each place which of them are open there, and so where lines begin and how far they are indented. -/
namespace LenientJson

def IsOpening (c : CodePoint) : Prop := c = Symbol.leftBrace ∨ c = Symbol.leftBracket

def IsClosing (c : CodePoint) : Prop := c = Symbol.rightBrace ∨ c = Symbol.rightBracket

/-- After an opening mark or a comma an entry begins, if the container has any. -/
def PrecedesEntry (c : CodePoint) : Prop := IsOpening c ∨ c = Symbol.comma

instance (c : CodePoint) : Decidable (IsOpening c) := inferInstanceAs (Decidable (_ ∨ _))
instance (c : CodePoint) : Decidable (IsClosing c) := inferInstanceAs (Decidable (_ ∨ _))
instance (c : CodePoint) : Decidable (PrecedesEntry c) := inferInstanceAs (Decidable (_ ∨ _))

theorem IsOpening.not_isClosing {c : CodePoint} (opens : IsOpening c) : ¬ IsClosing c := by
  rcases opens with rfl | rfl <;> decide

theorem IsClosing.not_precedesEntry {c : CodePoint} (closes : IsClosing c) : ¬ PrecedesEntry c := by
  rcases closes with rfl | rfl <;> decide

/-- What is known at a place: the region, how many entries the containers have that are still to open and those that are
open, innermost first, and the last code point before the place that is no space. -/
structure Outline where
  region : Region
  coming : List Nat
  opened : List Nat
  last : Option CodePoint

namespace Outline

def after (o : Outline) (c : CodePoint) : Outline where
  region := o.region.after c
  coming := if o.region = .outside ∧ IsOpening c then o.coming.tail else o.coming
  opened :=
    if o.region = .outside ∧ IsOpening c then o.coming.headD 0 :: o.opened
    else if o.region = .outside ∧ IsClosing c then o.opened.tail
    else o.opened
  last := if c = Symbol.space then o.last else some c

def reached (o : Outline) (t : Text) : Outline := t.foldl after o

@[simp] theorem reached_nil (o : Outline) : o.reached [] = o := rfl

/-- How many open containers have several entries. -/
def wideCount (opened : List Nat) : Nat := opened.countP (2 ≤ ·)

/-- The innermost open container has several entries. -/
def IsWide (o : Outline) : Prop := 2 ≤ o.opened.headD 0

def AwaitsEntry (o : Outline) : Prop := o.region = .outside ∧ ∃ c ∈ o.last, PrecedesEntry c

/-- The law of lines at a place where `c` is next and `rest` comes behind it. In a container of several entries, and
nowhere else, lines begin: before each entry, and before the closing mark. A line is indented by as many steps as
containers of several entries are open, without the one that is closed if that comes next. -/
structure IsIndented (l : Layout) (o : Outline) (c : CodePoint) (rest : Text) : Prop where
  line : c = Symbol.lineFeed → o.region = .outside ∧ o.IsWide ∧ ∃ (n : Nat) (x : CodePoint) (rest' : Text),
    rest = Text.spaces n ++ x :: rest' ∧ x ≠ Symbol.space ∧ x ≠ Symbol.lineFeed ∧ (IsClosing x ↔ ¬ o.AwaitsEntry) ∧
    n = l.margin + l.step * wideCount (if IsClosing x then o.opened.tail else o.opened)
  entry : o.IsWide → o.AwaitsEntry → c = Symbol.lineFeed
  closing : o.IsWide → o.region = .outside → IsClosing c → o.last = some Symbol.lineFeed

/-- A text that keeps the law at all its places, whatever comes behind it, and that leads from an outline to another. -/
structure Lays (l : Layout) (o : Outline) (t : Text) (o' : Outline) : Prop where
  places : ∀ before c after rest, t = before ++ c :: after → IsIndented l (o.reached before) c (after ++ rest)
  reached : o.reached t = o'

variable {l : Layout} {o o' o'' : Outline} {c : CodePoint} {s t : Text}

namespace Lays

theorem nil : Lays l o [] o := ⟨by simp, rfl⟩

theorem cons (here : ∀ rest, IsIndented l o c (t ++ rest)) (further : Lays l (o.after c) t o') : Lays l o (c :: t) o' := by
  refine ⟨?_, further.reached⟩
  rintro (_ | ⟨d, before⟩) c' after rest split
  · cases split
    exact here rest
  · cases split
    exact further.places before c' after rest rfl

theorem append (first : Lays l o s o') (second : Lays l o' t o'') : Lays l o (s ++ t) o'' := by
  induction s generalizing o with
  | nil =>
    obtain rfl : o = o' := first.reached
    exact second
  | cons c s ih =>
    have others : Lays l (o.after c) s o' :=
      ⟨fun before c' after rest split => first.places (c :: before) c' after rest (by rw [split]; rfl), first.reached⟩
    exact .cons (fun rest => by simpa using first.places [] c s (t ++ rest) rfl) (ih others)

end Lays

/-! Places where no line is at stake. -/

def IsSettled (last : Option CodePoint) : Prop := ∀ c ∈ last, ¬ PrecedesEntry c

theorem isSettled_some (settled : ¬ PrecedesEntry c) : IsSettled (some c) := by simpa [IsSettled] using settled

theorem not_awaitsEntry (settled : IsSettled o.last) : ¬ o.AwaitsEntry := fun ⟨_, c, member, precedes⟩ => settled c member precedes

theorem isIndented_inside (inside : o.region ≠ .outside) (feed : c ≠ Symbol.lineFeed) (rest : Text) : IsIndented l o c rest where
  line same := absurd same feed
  entry _ awaits := absurd awaits.1 inside
  closing _ outside := absurd outside inside

theorem isIndented_plain (ready : o.IsWide → ¬ o.AwaitsEntry) (feed : c ≠ Symbol.lineFeed) (plain : ¬ IsClosing c) (rest : Text) :
    IsIndented l o c rest where
  line same := absurd same feed
  entry wide awaits := absurd awaits (ready wide)
  closing _ _ closes := absurd closes plain

/-- Code points that are written for leaves, names and colons, other than quotes. -/
structure IsInert (c : CodePoint) : Prop where
  feed : c ≠ Symbol.lineFeed
  quote : c ≠ Symbol.doubleQuote
  plain : ¬ IsClosing c
  settled : ¬ PrecedesEntry c

theorem after_inert (outside : o.region = .outside) (inert : IsInert c) :
    o.after c = { o with last := if c = Symbol.space then o.last else some c } := by
  have opening : ¬ IsOpening c := fun opens => inert.settled (.inl opens)
  simp [after, outside, Region.after, inert.quote, inert.plain, opening]

theorem isInert_of_isWordMark {c : Nat} (mark : IsWordMark c) : IsInert c ∧ c ≠ Symbol.space := by
  have bounds := mark.bounds
  have apart : c ≠ 0x0A ∧ c ≠ 0x22 ∧ ¬ (c = 0x7D ∨ c = 0x5D) ∧ ¬ ((c = 0x7B ∨ c = 0x5B) ∨ c = 0x2C) ∧ c ≠ 0x20 := by omega
  obtain ⟨feed, quote, plain, settled, space⟩ := apart
  exact ⟨⟨feed, quote, plain, settled⟩, space⟩

/-- A text within an entry: it keeps the law, has `k` line feeds, and leaves the open containers as they are, with
nothing that an entry follows at its end. -/
def Passes (l : Layout) (o : Outline) (t : Text) (more : List Nat) (k : Nat) : Prop :=
  ∃ last, IsSettled last ∧ t.count Symbol.lineFeed = k ∧ Lays l o t { o with coming := more, last := last }

/-- A text that can stand at the start of a line, and does not close anything. -/
def Opens (t : Text) : Prop := ∃ x rest, t = x :: rest ∧ x ≠ Symbol.space ∧ x ≠ Symbol.lineFeed ∧ ¬ IsClosing x

namespace Passes

variable {mid more : List Nat} {j k : Nat}

theorem append (first : Passes l o s mid j)
    (second : ∀ last, IsSettled last → Passes l { o with coming := mid, last := last } t more k) :
    Passes l o (s ++ t) more (j + k) := by
  obtain ⟨last, settled, count, lays⟩ := first
  obtain ⟨last', settled', count', lays'⟩ := second last settled
  exact ⟨last', settled', by rw [List.count_append, count, count'], lays.append lays'⟩

theorem cons (ready : o.IsWide → ¬ o.AwaitsEntry) (feed : c ≠ Symbol.lineFeed) (plain : ¬ IsClosing c)
    (step : o.after c = { o with last := some c }) (further : Passes l { o with last := some c } t more k) :
    Passes l o (c :: t) more k := by
  obtain ⟨last, settled, count, lays⟩ := further
  refine ⟨last, settled, ?_, .cons (fun _ => isIndented_plain ready feed plain _) (step ▸ lays)⟩
  rw [List.count_cons_of_ne feed, count]

theorem cons_inert (outside : o.region = .outside) (ready : o.IsWide → ¬ o.AwaitsEntry) (inert : IsInert c)
    (space : c ≠ Symbol.space) (further : Passes l { o with last := some c } t more k) : Passes l o (c :: t) more k := by
  have step : o.after c = { o with last := some c } := by rw [after_inert outside inert, if_neg space]
  exact cons ready inert.feed inert.plain step further

theorem inert (outside : o.region = .outside) (settled : IsSettled o.last) (each : ∀ c ∈ t, IsInert c) :
    Passes l o t o.coming 0 := by
  induction t generalizing o with
  | nil => exact ⟨o.last, settled, rfl, .nil⟩
  | cons c t ih =>
    obtain ⟨here, each⟩ := List.forall_mem_cons.mp each
    by_cases space : c = Symbol.space
    · have stays : o.after c = o := by rw [after_inert outside here, if_pos space]
      obtain ⟨last, settled', count, lays⟩ := ih outside settled each
      refine ⟨last, settled', ?_, .cons (fun _ => ?_) (stays.symm ▸ lays)⟩
      · rw [List.count_cons_of_ne here.feed, count]
      · exact isIndented_plain (fun _ => not_awaitsEntry settled) here.feed here.plain _
    · exact .cons_inert outside (fun _ => not_awaitsEntry settled) here space (ih outside (isSettled_some here.settled) each)

end Passes

/-! Tokens, colons and lines. -/

theorem exists_lays_body (body : IsBody t) (visible : Symbol.lineFeed ∉ t) (inside : o.region = .inside) :
    ∃ last, Lays l o t { o with last := last } := by
  have within : o.region ≠ .outside := by simp [inside]
  induction body generalizing o with
  | nil => exact ⟨o.last, .nil⟩
  | @plain c t quote backslash _ ih =>
    obtain ⟨here, visible⟩ := List.ne_and_not_mem_of_not_mem_cons visible
    have step : o.after c = { o with last := if c = Symbol.space then o.last else some c } := by
      simp [after, inside, Region.after, quote, backslash]
    obtain ⟨last, lays⟩ := ih (o := o.after c) visible (by simp [step, inside]) (by simp [step, within])
    rw [step] at lays
    exact ⟨last, .cons (fun _ => isIndented_inside within here.symm _) (step ▸ lays)⟩
  | @pair c t _ ih =>
    obtain ⟨mark, visible⟩ := List.ne_and_not_mem_of_not_mem_cons visible
    obtain ⟨here, visible⟩ := List.ne_and_not_mem_of_not_mem_cons visible
    have first : o.after Symbol.backslash = { o with region := .escaped, last := some Symbol.backslash } := by
      simp [after, inside, Region.after]
    have second : (o.after Symbol.backslash).after c = { o with last := if c = Symbol.space then some Symbol.backslash else some c } := by
      simp [after, inside, Region.after]
    obtain ⟨last, lays⟩ := ih (o := (o.after Symbol.backslash).after c) visible (by simp [second, inside]) (by simp [second, within])
    rw [second] at lays
    refine ⟨last, .cons (fun _ => isIndented_inside within mark.symm _) (.cons (fun _ => isIndented_inside ?_ here.symm _) (second ▸ lays))⟩
    simp [first]

theorem passes_quoted (outside : o.region = .outside) (ready : o.IsWide → ¬ o.AwaitsEntry) (s : Text) :
    Passes l o s.quoted o.coming 0 := by
  have quote : Text.needsHex Symbol.doubleQuote = false := by decide
  have visible : Symbol.lineFeed ∉ Text.quotedBody none s := fun member => by
    have plain := visible_quotedBody none s _ member
    exact absurd plain (by decide)
  have opened : o.after Symbol.doubleQuote = { o with region := .inside, last := some Symbol.doubleQuote } := by
    simp [after, outside, Region.after, IsOpening, IsClosing]
  obtain ⟨last, lays⟩ := exists_lays_body (l := l) (o := o.after Symbol.doubleQuote) (isBody_quotedBody none s) visible
    (by simp [opened])
  rw [opened] at lays
  have closed : { o with region := .inside, last := last : Outline }.after Symbol.doubleQuote =
      { o with last := some Symbol.doubleQuote } := by simp [after, outside, Region.after]
  have ends : Lays l { o with region := .inside, last := last } [Symbol.doubleQuote] { o with last := some Symbol.doubleQuote } :=
    .cons (fun _ => isIndented_inside (by simp) (by decide) _) (closed ▸ .nil)
  refine ⟨some Symbol.doubleQuote, isSettled_some (by decide), ?_, ?_⟩
  · simp [Text.quoted, List.count_eq_zero.mpr visible]
  · exact .cons (fun _ => isIndented_plain ready (by decide) (by decide) _) (opened ▸ lays.append ends)

theorem passes_token (outside : o.region = .outside) (ready : o.IsWide → ¬ o.AwaitsEntry) (token : IsToken t) :
    Passes l o t o.coming 0 ∧ Opens t := by
  cases token with
  | string s => exact ⟨passes_quoted outside ready s, _, _, rfl, by decide, by decide, by decide⟩
  | word some marks =>
    obtain ⟨c, t, rfl⟩ := List.exists_cons_of_ne_nil some
    obtain ⟨mark, marks⟩ := List.forall_mem_cons.mp marks
    obtain ⟨here, space⟩ := isInert_of_isWordMark mark
    refine ⟨.cons_inert outside ready here space ?_, c, t, rfl, space, here.feed, here.plain⟩
    exact .inert outside (isSettled_some here.settled) fun c member => (isInert_of_isWordMark (marks c member)).1

theorem passes_colon (outside : o.region = .outside) (settled : IsSettled o.last) : Passes l o l.colon o.coming 0 := by
  apply Passes.inert outside settled
  intro c member
  have listed : c = Symbol.colon ∨ c = Symbol.space := by
    unfold Layout.colon at member
    split at member <;> simp_all
  rcases listed with rfl | rfl <;> exact ⟨by decide, by decide, by decide, by decide⟩

theorem lays_spaces (outside : o.region = .outside) (settled : IsSettled o.last) (n : Nat) : Lays l o (Text.spaces n) o := by
  have inert : IsInert Symbol.space := ⟨by decide, by decide, by decide, by decide⟩
  have stays : o.after Symbol.space = o := by simp [after_inert outside inert]
  induction n with
  | zero => exact .nil
  | succ n ih => exact .cons (fun _ => isIndented_plain (fun _ => not_awaitsEntry settled) inert.feed inert.plain _) (stays.symm ▸ ih)

theorem lays_line (outside : o.region = .outside) (wide : o.IsWide) {n : Nat} {x : CodePoint} (space : x ≠ Symbol.space)
    (feed : x ≠ Symbol.lineFeed) (closes : IsClosing x ↔ ¬ o.AwaitsEntry)
    (width : n = l.margin + l.step * wideCount (if IsClosing x then o.opened.tail else o.opened))
    (further : Lays l { o with last := some Symbol.lineFeed } (x :: t) o') :
    Lays l o (Symbol.lineFeed :: Text.spaces n ++ x :: t) o' := by
  have next : o.after Symbol.lineFeed = { o with last := some Symbol.lineFeed } := by
    simp [after, outside, Region.after, IsOpening, IsClosing]
  refine .cons (fun rest => ?_) ?_
  · refine ⟨fun _ => ⟨outside, wide, n, x, t ++ rest, by simp, space, feed, closes, width⟩, fun _ _ => rfl, fun _ _ closes => ?_⟩
    exact absurd closes (by decide)
  · rw [next]
    have settled : IsSettled (some Symbol.lineFeed) := isSettled_some (by decide)
    exact (lays_spaces (o := { o with last := some Symbol.lineFeed }) outside settled n).append further

end Outline
end LenientJson
