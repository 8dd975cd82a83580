import LenientJson.Proofs.Lenient.Locality
import LenientJson.Proofs.Strict.Token

/-! Blanks beside structural characters. Where two texts differ in nothing else, their derivations are the same: what
is in front of a token is passed over, and what runs on behind a bare word is stripped. -/
namespace LenientJson.Lenient
open Reader

def structural : List CodePoint :=
  [Symbol.leftBrace, Symbol.rightBrace, Symbol.leftBracket, Symbol.rightBracket, Symbol.comma, Symbol.colon, Symbol.semicolon]

/-- Where a place of a text lies: between tokens, in a bare word, or in a quoted string that `mark` closes, and there
perhaps behind a backslash. -/
inductive Zone
  | between
  | word
  | literal (mark : CodePoint)
  | escaped (mark : CodePoint)
deriving DecidableEq

namespace Zone

/-- The zone behind a code point that does not go on with a word. -/
def entered (c : CodePoint) : Zone :=
  if isQuoteMark c then literal c else if Symbol.space < c ∧ isBare c then word else between

def after : Zone → CodePoint → Zone
  | between, c => entered c
  | word, c => if isBare c then word else entered c
  | literal mark, c => if c = Symbol.backslash then escaped mark else if c = mark then between else literal mark
  | escaped mark, _ => literal mark

def reached (z : Zone) (t : Text) : Zone := t.foldl after z

def IsOutside (z : Zone) : Prop := z = between ∨ z = word

variable {c : CodePoint}

theorem entered_blank (blank : c ≤ Symbol.space) : entered c = between := by
  have quote : ¬ IsQuoteMark c := by
    rintro (rfl | rfl) <;> exact absurd blank (by decide)
  rw [← isQuoteMark_iff] at quote
  simp [entered, quote, Nat.not_lt.mpr blank]

theorem entered_quote (quote : IsQuoteMark c) : entered c = literal c := by
  simp [entered, isQuoteMark_iff.mpr quote]

theorem entered_bare (quote : ¬ IsQuoteMark c) (high : Symbol.space < c) (bare : IsBare c) : entered c = word := by
  rw [← isQuoteMark_iff] at quote
  simp [entered, quote, high, isBare_iff.mpr bare]

theorem after_word (bare : IsBare c) : word.after c = word := by simp [after, isBare_iff.mpr bare]

theorem after_word_of_not (bare : ¬ IsBare c) : word.after c = between.after c := by
  rw [← isBare_iff] at bare
  simp [after, bare]

theorem after_structural {z : Zone} (outside : z.IsOutside) (listed : c ∈ structural) : z.after c = between := by
  have table : ∀ c ∈ structural, between.after c = between ∧ word.after c = between := by decide
  rcases outside with rfl | rfl
  · exact (table c listed).1
  · exact (table c listed).2

end Zone

theorem structural_spec {c : CodePoint} (listed : c ∈ structural) : Symbol.space < c ∧ ¬ IsBare c ∧ ¬ IsQuoteMark c := by
  have table : ∀ c ∈ structural, Symbol.space < c ∧ ¬ (isBare c = true) ∧ ¬ (isQuoteMark c = true) := by decide
  rw [← isBare_iff, ← isQuoteMark_iff]
  exact table c listed

theorem structural_of_separates {c : CodePoint} (separates : c = Symbol.comma ∨ c = Symbol.semicolon) : c ∈ structural := by
  rcases separates with rfl | rfl <;> decide

/-- The second text is the first one with blanks beside structural characters outside of quoted strings. -/
inductive Spaced : Zone → Text → Text → Prop
  | nil {z} : Spaced z [] []
  | cons {z c t t'} (further : Spaced (z.after c) t t') : Spaced z (c :: t) (c :: t')
  | mark {z c t t' w w'} (outside : z.IsOutside) (listed : c ∈ structural) (blank : ∀ d ∈ w, d ≤ Symbol.space)
      (blank' : ∀ d ∈ w', d ≤ Symbol.space) (further : Spaced .between t t') : Spaced z (c :: t) (w ++ c :: (w' ++ t'))

theorem Spaced.refl (z : Zone) (t : Text) : Spaced z t t := by
  induction t generalizing z with
  | nil => exact .nil
  | cons c t ih => exact .cons (ih _)

/-- The like, and blanks in front. -/
def Loose (t t' : Text) : Prop := ∃ u, Blanks t' u ∧ Spaced .between t u

variable {t t' u rest : Text} {z : Zone} {c mark : CodePoint}

theorem Loose.of_spaced (spaced : Spaced .between t t') : Loose t t' := ⟨t', .refl t', spaced⟩

theorem Spaced.blanks {w : Text} (low : ∀ c ∈ w, c ≤ Symbol.space) (spaced : Spaced .between (w ++ u) t') :
    ∃ u', Blanks t' u' ∧ Spaced .between u u' := by
  induction w generalizing t' with
  | nil => exact ⟨t', .refl t', spaced⟩
  | cons c w ih =>
    obtain ⟨here, low⟩ := List.forall_mem_cons.mp low
    cases spaced with
    | cons further =>
      rw [Zone.after, Zone.entered_blank here] at further
      obtain ⟨u', ⟨w', low', rfl⟩, spaced⟩ := ih low further
      exact ⟨u', ⟨c :: w', List.forall_mem_cons.mpr ⟨here, low'⟩, rfl⟩, spaced⟩
    | mark _ listed => exact absurd here (Nat.not_le.mpr (structural_spec listed).1)

theorem Loose.blanks (loose : Loose t t') (blanks : Blanks t u) : ∃ u', Blanks t' u' ∧ Spaced .between u u' := by
  obtain ⟨v, before, spaced⟩ := loose
  obtain ⟨w, low, rfl⟩ := blanks
  obtain ⟨u', further, spaced⟩ := spaced.blanks low
  exact ⟨u', before.trans further, spaced⟩

theorem Loose.marked (loose : Loose t t') (listed : c ∈ structural) (sign : Mark c t u) : ∃ u', Mark c t' u' ∧ Loose u u' := by
  obtain ⟨v, blanks, spaced⟩ := loose.blanks sign
  cases spaced with
  | cons further =>
    rw [Zone.after_structural (.inl rfl) listed] at further
    exact ⟨_, blanks, .of_spaced further⟩
  | mark _ _ blank blank' further => exact ⟨_, blanks.trans ⟨_, blank, rfl⟩, _, ⟨_, blank', rfl⟩, further⟩

/-! Quoted strings and bare words. -/

theorem Spaced.inside (spaced : Spaced z (c :: t) u) (inside : ¬ z.IsOutside) : ∃ t', u = c :: t' ∧ Spaced (z.after c) t t' := by
  cases spaced with
  | cons further => exact ⟨_, rfl, further⟩
  | mark outside => exact absurd outside inside

theorem Spaced.plain {piece : Text} (plain : ∀ c ∈ piece, c ≠ Symbol.backslash ∧ c ≠ mark)
    (spaced : Spaced (.literal mark) (piece ++ rest) u) : ∃ rest', u = piece ++ rest' ∧ Spaced (.literal mark) rest rest' := by
  induction piece generalizing u with
  | nil => exact ⟨u, rfl, spaced⟩
  | cons c piece ih =>
    obtain ⟨⟨backslash, other⟩, plain⟩ := List.forall_mem_cons.mp plain
    obtain ⟨v, rfl, further⟩ := spaced.inside (by simp [Zone.IsOutside])
    rw [Zone.after, if_neg backslash, if_neg other] at further
    obtain ⟨rest', rfl, behind⟩ := ih plain further
    exact ⟨rest', rfl, behind⟩

/-- No character of a group can be taken for the end of the string, nor for another escape. -/
theorem group_plain {digits : Text} (group : IsGroup digits c) : ∀ d ∈ digits, d ≠ Symbol.backslash ∧ ¬ IsQuoteMark d := by
  have table : isHexMark Symbol.backslash = false ∧ isHexMark Symbol.doubleQuote = false ∧ isHexMark Symbol.singleQuote = false := by
    decide
  intro d member
  have marked (ascii : d < 0x80) := group.isHexMark member ascii
  refine ⟨?_, ?_⟩
  · rintro rfl
    simp [marked (by decide)] at table
  · rintro (rfl | rfl) <;> simp [marked (by decide)] at table

theorem Spaced.literal {v s : Text} (quote : IsQuoteMark mark) (items : Items IsGroup mark v s)
    (spaced : Spaced (.literal mark) (v ++ mark :: rest) u) : ∃ rest', u = v ++ mark :: rest' ∧ Spaced .between rest rest' := by
  have closing := quote.closing.1
  induction items generalizing u with
  | nil =>
    obtain ⟨rest', rfl, further⟩ := spaced.inside (by simp [Zone.IsOutside])
    rw [Zone.after, if_neg closing, if_pos rfl] at further
    exact ⟨rest', rfl, further⟩
  | @cons t c v s item others ih =>
    rw [List.append_assoc] at spaced
    suffices item : ∃ w, u = t ++ w ∧ Spaced (.literal mark) (v ++ mark :: rest) w by
      obtain ⟨w, rfl, further⟩ := item
      obtain ⟨rest', rfl, behind⟩ := ih further
      exact ⟨rest', by simp, behind⟩
    cases item with
    | plain inside unescaped => exact spaced.plain (List.forall_mem_singleton.mpr ⟨unescaped, inside⟩)
    | letter named =>
      obtain ⟨w, rfl, first⟩ := spaced.inside (by simp [Zone.IsOutside])
      rw [Zone.after, if_pos rfl] at first
      obtain ⟨w, rfl, second⟩ := first.inside (by simp [Zone.IsOutside])
      exact ⟨w, rfl, second⟩
    | @group digits _ group =>
      obtain ⟨w, rfl, first⟩ := spaced.inside (by simp [Zone.IsOutside])
      rw [Zone.after, if_pos rfl] at first
      obtain ⟨w, rfl, second⟩ := first.inside (by simp [Zone.IsOutside])
      have plain (d : CodePoint) (member : d ∈ digits) : d ≠ Symbol.backslash ∧ d ≠ mark := by
        obtain ⟨backslash, other⟩ := group_plain group d member
        exact ⟨backslash, fun same => other (same ▸ quote)⟩
      obtain ⟨w, rfl, third⟩ := Spaced.plain plain second
      exact ⟨w, rfl, third⟩

theorem Spaced.bare {run : Text} (bare : ∀ c ∈ run, IsBare c) (spaced : Spaced .word (run ++ rest) u) :
    ∃ rest', u = run ++ rest' ∧ Spaced .word rest rest' := by
  induction run generalizing u with
  | nil => exact ⟨u, rfl, spaced⟩
  | cons c run ih =>
    obtain ⟨here, bare⟩ := List.forall_mem_cons.mp bare
    cases spaced with
    | cons further =>
      rw [Zone.after_word here] at further
      obtain ⟨rest', rfl, behind⟩ := ih bare further
      exact ⟨rest', rfl, behind⟩
    | mark _ listed => exact absurd here (structural_spec listed).2.1

/-- Behind a word, spaces in front of a structural character run on with it, up to another blank. -/
theorem Spaced.ended (spaced : Spaced .word rest u) (longest : ∀ c, rest.head? = some c → ¬ IsBare c) :
    ∃ n rest', u = Text.spaces n ++ rest' ∧ (∀ c, rest'.head? = some c → ¬ IsBare c) ∧ Loose rest rest' := by
  cases spaced with
  | nil => exact ⟨0, [], rfl, longest, .of_spaced .nil⟩
  | cons further =>
    rw [Zone.after_word_of_not (longest _ rfl)] at further
    exact ⟨0, _, rfl, longest, .of_spaced (.cons further)⟩
  | @mark _ c t t' w w' outside listed blank blank' further =>
    obtain ⟨n, v, rfl, stop⟩ := exists_spaces w
    have low : ∀ d ∈ v, d ≤ Symbol.space := (List.forall_mem_append.mp blank).2
    refine ⟨n, v ++ c :: (w' ++ t'), List.append_assoc .., fun d head => ?_, .of_spaced (.mark (.inl rfl) listed low blank' further)⟩
    cases v with
    | nil =>
      cases head
      exact (structural_spec listed).2.1
    | cons y v =>
      cases head
      have other := stop d rfl
      exact fun bare => other (Nat.le_antisymm (low d List.mem_cons_self) bare.1)

theorem Spaced.word {run : Text} (spaced : Spaced .between t t') (word : BareRun t run rest) (named : run.strip ≠ []) :
    ∃ n rest', BareRun t' (run ++ Text.spaces n) rest' ∧ Loose rest rest' := by
  obtain ⟨x, v, rfl, high, bare, unquoted⟩ := word.head named
  cases run with
  | nil => exact absurd rfl named
  | cons y run =>
    obtain ⟨rfl, rfl⟩ := List.cons.inj word.split
    cases spaced with
    | cons further =>
      rw [Zone.after, Zone.entered_bare unquoted high bare] at further
      obtain ⟨u, rfl, behind⟩ := further.bare (List.forall_mem_cons.mp word.bare).2
      obtain ⟨n, rest', rfl, longest, loose⟩ := behind.ended word.longest
      have spaces : ∀ c ∈ Text.spaces n, IsBare c := by
        intro c member
        rw [List.eq_of_mem_replicate member]
        exact ⟨Nat.le_refl _, by decide⟩
      refine ⟨n, rest', ⟨by simp, List.forall_mem_append.mpr ⟨word.bare, spaces⟩, longest, fun c head => ?_, fun c head => ?_⟩, loose⟩
      · cases head
        exact high
      · cases head
        exact unquoted
    | mark _ listed => exact absurd bare (structural_spec listed).2.1

mutual
theorem ValueAt.loose {t t' rest : Text} {source : Source} (derived : ValueAt t source rest) (loose : Loose t t') :
    ∃ rest', ValueAt t' source rest' ∧ Loose rest rest' := by
  match derived with
  | .quoted blanks opening literal =>
    obtain ⟨u, blanks', spaced⟩ := loose.blanks blanks
    obtain ⟨closing, v, items, rfl⟩ := literal_iff.mp literal
    cases spaced with
    | cons further =>
      rw [Zone.after, Zone.entered_quote opening] at further
      obtain ⟨rest', rfl, behind⟩ := further.literal opening items
      exact ⟨rest', .quoted blanks' opening (literal_iff.mpr ⟨closing, v, items, rfl⟩), .of_spaced behind⟩
    | mark _ listed => exact absurd opening (structural_spec listed).2.2
  | @ValueAt.bare _ _ run _ blanks word named =>
    obtain ⟨u, blanks', spaced⟩ := loose.blanks blanks
    obtain ⟨n, rest', word', behind⟩ := spaced.word word named
    have stripped := strip_append_spaces run n
    refine ⟨rest', ?_, behind⟩
    rw [← stripped] at named ⊢
    exact .bare blanks' word' named
  | .object inside =>
    obtain ⟨rest', inside, behind⟩ := inside.loose loose
    exact ⟨rest', .object inside, behind⟩
  | .array inside =>
    obtain ⟨rest', inside, behind⟩ := inside.loose loose
    exact ⟨rest', .array inside, behind⟩

theorem ObjectAt.loose {t t' rest : Text} {members : List (Source × Source)} (derived : ObjectAt t members rest) (loose : Loose t t') :
    ∃ rest', ObjectAt t' members rest' ∧ Loose rest rest' := by
  match derived with
  | .empty opening closing =>
    obtain ⟨u, opening, behind⟩ := loose.marked (by decide) opening
    obtain ⟨rest', closing, behind⟩ := behind.marked (by decide) closing
    exact ⟨rest', .empty opening closing, behind⟩
  | .members opening inside =>
    obtain ⟨u, opening, behind⟩ := loose.marked (by decide) opening
    obtain ⟨rest', inside, behind⟩ := inside.loose behind
    exact ⟨rest', .members opening inside, behind⟩

theorem MemberAt.loose {t t' rest : Text} {member : Source × Source} (derived : MemberAt t member rest) (loose : Loose t t') :
    ∃ rest', MemberAt t' member rest' ∧ Loose rest rest' := by
  match derived with
  | .mk first colon second =>
    obtain ⟨u, first, behind⟩ := first.loose loose
    obtain ⟨v, colon, behind⟩ := behind.marked (by decide) colon
    obtain ⟨rest', second, behind⟩ := second.loose behind
    exact ⟨rest', .mk first colon second, behind⟩

theorem MembersAt.loose {t t' rest : Text} {members : List (Source × Source)} (derived : MembersAt t members rest) (loose : Loose t t') :
    ∃ rest', MembersAt t' members rest' ∧ Loose rest rest' := by
  match derived with
  | .last first closing =>
    obtain ⟨u, first, behind⟩ := first.loose loose
    obtain ⟨rest', closing, behind⟩ := behind.marked (by decide) closing
    exact ⟨rest', .last first closing, behind⟩
  | .trailing first separator separates closing =>
    obtain ⟨u, first, behind⟩ := first.loose loose
    obtain ⟨v, separator, behind⟩ := behind.marked (structural_of_separates separates) separator
    obtain ⟨rest', closing, behind⟩ := behind.marked (by decide) closing
    exact ⟨rest', .trailing first separator separates closing, behind⟩
  | .more first separator separates others =>
    obtain ⟨u, first, behind⟩ := first.loose loose
    obtain ⟨v, separator, behind⟩ := behind.marked (structural_of_separates separates) separator
    obtain ⟨rest', others, behind⟩ := others.loose behind
    exact ⟨rest', .more first separator separates others, behind⟩

theorem ArrayAt.loose {t t' rest : Text} {slots : List Source} (derived : ArrayAt t slots rest) (loose : Loose t t') :
    ∃ rest', ArrayAt t' slots rest' ∧ Loose rest rest' := by
  match derived with
  | .empty opening closing =>
    obtain ⟨u, opening, behind⟩ := loose.marked (by decide) opening
    obtain ⟨rest', closing, behind⟩ := behind.marked (by decide) closing
    exact ⟨rest', .empty opening closing, behind⟩
  | .slots opening inside =>
    obtain ⟨u, opening, behind⟩ := loose.marked (by decide) opening
    obtain ⟨rest', inside, behind⟩ := inside.loose behind
    exact ⟨rest', .slots opening inside, behind⟩

theorem SlotAt.loose {t t' rest : Text} {slot : Source} (derived : SlotAt t slot rest) (loose : Loose t t') :
    ∃ rest', SlotAt t' slot rest' ∧ Loose rest rest' := by
  match derived with
  | .empty comma =>
    obtain ⟨u, comma, -⟩ := loose.marked (by decide) comma
    exact ⟨t', .empty comma, loose⟩
  | .filled inside =>
    obtain ⟨rest', inside, behind⟩ := inside.loose loose
    exact ⟨rest', .filled inside, behind⟩

theorem SlotsAt.loose {t t' rest : Text} {slots : List Source} (derived : SlotsAt t slots rest) (loose : Loose t t') :
    ∃ rest', SlotsAt t' slots rest' ∧ Loose rest rest' := by
  match derived with
  | .last first closing =>
    obtain ⟨u, first, behind⟩ := first.loose loose
    obtain ⟨rest', closing, behind⟩ := behind.marked (by decide) closing
    exact ⟨rest', .last first closing, behind⟩
  | .trailing first separator closing =>
    obtain ⟨u, first, behind⟩ := first.loose loose
    obtain ⟨v, separator, behind⟩ := behind.marked (by decide) separator
    obtain ⟨rest', closing, behind⟩ := behind.marked (by decide) closing
    exact ⟨rest', .trailing first separator closing, behind⟩
  | .more first separator others =>
    obtain ⟨u, first, behind⟩ := first.loose loose
    obtain ⟨v, separator, behind⟩ := behind.marked (by decide) separator
    obtain ⟨rest', others, behind⟩ := others.loose behind
    exact ⟨rest', .more first separator others, behind⟩
end

/-! One place in a text. -/

/-- Directly in front of `s` or behind `p` stands a structural character that is not inside of a quoted string. -/
def Beside (p s : Text) : Prop := ∃ c ∈ structural,
  (∃ s', s = c :: s' ∧ (Zone.between.reached p).IsOutside) ∨ ∃ p', p = p' ++ [c] ∧ (Zone.between.reached p').IsOutside

/-- Of `p ++ s` the parser leaves at least all of `s` unread. -/
def EndsWithin (p s : Text) : Prop :=
  ∃ m place, nextObject (Tokener.ofText (p ++ s)) = .ok m place ∧ s.length ≤ place.rest.length

theorem Spaced.append {p : Text} (spaced : Spaced (z.reached p) t t') : Spaced z (p ++ t) (p ++ t') := by
  induction p generalizing z with
  | nil => exact spaced
  | cons c p ih => exact .cons (ih spaced)

theorem spaced_of_beside {p s w : Text} (beside : Beside p s) (blank : ∀ c ∈ w, c ≤ Symbol.space) :
    Spaced .between (p ++ s) (p ++ w ++ s) := by
  rw [List.append_assoc]
  obtain ⟨c, listed, ⟨s, rfl, outside⟩ | ⟨p, rfl, outside⟩⟩ := beside
  · exact .append (.mark outside listed blank (List.forall_mem_nil _) (.refl _ s))
  · have marked : Spaced (Zone.between.reached p) (c :: s) ([] ++ c :: (w ++ s)) :=
      .mark outside listed (List.forall_mem_nil _) blank (.refl _ s)
    simpa using marked.append

theorem parseObject_of_endsWithin {p s : Text} {m : Members Tree} (parsed : parseObject (p ++ s) = .ok m)
    (ends : EndsWithin p s) (s' : Text) : parseObject (p ++ s') = .ok m := by
  obtain ⟨m', place, ok, unread⟩ := ends
  obtain ⟨piece, split, holds⟩ := nextObject_portable ok
  rw [parseObject, ok] at parsed
  obtain rfl : m' = m := Except.ok.inj parsed
  have shorter : piece.length ≤ p.length := by
    have lengths := congrArg List.length split
    simp only [List.length_append] at lengths
    omega
  obtain ⟨q, rfl⟩ : piece <+: p := List.prefix_of_prefix_length_le (split ▸ List.prefix_append piece _) (List.prefix_append p s) shorter
  obtain ⟨_, -, reads⟩ := holds (q ++ s') trivial
  obtain ⟨_, ok'⟩ := reads [] .nothing
  rw [List.append_assoc, parseObject, Tokener.ofText, ok']

/-- Blanks beside a structural character outside of quoted strings change nothing, nor does anything behind the object. -/
theorem parseObject_respaced {p w s : Text} {m : Members Tree} (parsed : parseObject (p ++ s) = .ok m)
    (blank : ∀ c ∈ w, c ≤ Symbol.space) (place : Beside p s ∨ EndsWithin p s) : parseObject (p ++ w ++ s) = .ok m := by
  rcases place with beside | ends
  · obtain ⟨members, rest, derived, differ, rfl⟩ := objectAt_of_parseObject parsed
    obtain ⟨rest', derived', -⟩ := derived.loose (.of_spaced (spaced_of_beside beside blank))
    exact parseObject_of_objectAt derived' differ
  · rw [List.append_assoc]
    exact parseObject_of_endsWithin parsed ends (w ++ s)

/-- A space and a line feed between a bare key and its colon; behind it there is a string that holds a comma. -/
theorem parseObject_respaced_word :
    parseObject (Text.ofString "\x7ba" ++ [Symbol.space, Symbol.lineFeed] ++ Text.ofString ":[,','];\x7d") =
      .ok [([0x61], .array [some .null, some (.scalar (.text [Symbol.comma]))])] := by
  have parsed : parseObject (Text.ofString "\x7ba" ++ Text.ofString ":[,','];\x7d") =
      .ok [([0x61], .array [some .null, some (.scalar (.text [Symbol.comma]))])] := by cbv
  have beside : Beside (Text.ofString "\x7ba") (Text.ofString ":[,','];\x7d") :=
    ⟨Symbol.colon, by decide, .inl ⟨_, rfl, .inr (by decide)⟩⟩
  exact parseObject_respaced parsed (by decide) (.inl beside)

end LenientJson.Lenient
