import LenientJson.Proofs.Lenient.Locality
import LenientJson.Proofs.Strict.Leaf
import LenientJson.Proofs.Strict.Token

/-! Quoted texts before the lenient reader. What is written for a text is a literal of items that stand for its
characters, whatever these are, so the reader gives the text back and stops behind the closing quote. -/
namespace LenientJson.Lenient
open Reader

theorem items_escaped (previous : Option CodePoint) (c : CodePoint) {t s : Text}
    (others : Items FourDigits Symbol.doubleQuote t s) :
    Items FourDigits Symbol.doubleQuote (Text.escaped previous c ++ t) (c :: s) := by
  rcases escaped_cases previous c with ⟨letter, named, same⟩ | ⟨digits, same⟩ | ⟨⟨visible, quote, backslash⟩, same⟩
  all_goals rw [same]
  · exact .cons (.letter (List.mem_cons_of_mem _ named)) others
  · exact .cons (.group digits) others
  · have inLine : ¬ (c = Symbol.lineFeed ∨ c = Symbol.carriageReturn) := by
      rintro (rfl | rfl) <;> exact absurd visible (by decide)
    exact .cons (.plain quote backslash inLine) others

theorem items_quotedBody (previous : Option CodePoint) (t : Text) :
    Items FourDigits Symbol.doubleQuote (Text.quotedBody previous t) t := by
  induction t generalizing previous with
  | nil => exact .nil
  | cons c t ih => exact items_escaped previous c (ih (some c))

theorem valueAt_quoted (t rest : Text) : ValueAt (t.quoted ++ rest) (.leaf (.text t)) rest := by
  rw [Text.quoted, List.append_assoc, List.cons_append, List.singleton_append]
  exact .quoted (.refl _) (.inl rfl) (literal_of_items (items_quotedBody none t) rest)

/-- Where a quoted text stands in any other text, the reader of values gives the text and stops behind it, whatever
was read before and can be given back. -/
theorem nextValue_quoted (p s r : Text) (here : Tokener) (inside : here.before = 0)
    (source : here.source = p ++ (s.quoted ++ r)) (position : here.position = p.length) :
    ∃ place, nextValue here = .ok (.scalar (.text s)) place ∧ place.before = 0 ∧ place.source = here.source ∧
      place.position = p.length + s.quoted.length := by
  obtain ⟨piece, split, reads⟩ := reads_nextValue (valueAt_quoted s r) trivial
  obtain rfl : s.quoted = piece := List.append_cancel_right split
  rw [eq_of_position inside source position]
  obtain ⟨m, ok⟩ := reads p.reverse here.memory
  refine ⟨_, ok, rfl, ?_, ?_⟩
  · simp [Tokener.source]
  · simp [Tokener.position, Int.add_comm]

/-- A text of a control character, half of a surrogate pair, a closing tag, both quote marks, a backslash and a dash
of the punctuation block, behind a backslash and before a quote mark. -/
theorem nextValue_quoted_tag : ∃ place,
    nextValue ⟨[0x5C], Text.quoted [0x01, 0xD800, 0x3C, 0x2F, 0x22, 0x27, 0x5C, 0x2014] ++ [0x22], .character, 0⟩ =
      .ok (.scalar (.text [0x01, 0xD800, 0x3C, 0x2F, 0x22, 0x27, 0x5C, 0x2014])) place ∧ place.before = 0 ∧
      place.source = 0x5C :: Text.quoted [0x01, 0xD800, 0x3C, 0x2F, 0x22, 0x27, 0x5C, 0x2014] ++ [0x22] ∧
      place.position = 1 + (Text.quoted [0x01, 0xD800, 0x3C, 0x2F, 0x22, 0x27, 0x5C, 0x2014]).length :=
  nextValue_quoted [0x5C] [0x01, 0xD800, 0x3C, 0x2F, 0x22, 0x27, 0x5C, 0x2014] [0x22] _ rfl rfl rfl

end LenientJson.Lenient
