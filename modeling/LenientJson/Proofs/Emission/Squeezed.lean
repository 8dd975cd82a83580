import LenientJson.Proofs.Emission.Embedding

/-! Documents in lines and on one line. Without the spaces and the line feeds outside of its strings, what is written in
lines is what is written on one line, as far as it goes, and both break off for the same reason. -/
namespace LenientJson

/-- A text without the spaces and the line feeds outside of its strings, if it begins in the given region. -/
def squeezed (r : Region) : Text → Text
  | [] => []
  | c :: t =>
    if r = .outside ∧ (c = Symbol.space ∨ c = Symbol.lineFeed) then squeezed (r.after c) t else c :: squeezed (r.after c) t

theorem squeezed_append (r : Region) (s t : Text) : squeezed r (s ++ t) = squeezed r s ++ squeezed (r.reached s) t := by
  induction s generalizing r with
  | nil => rfl
  | cons c s ih =>
    simp only [List.cons_append, squeezed, ih, Region.reached_cons]
    split <;> simp

theorem squeezed_solid {t : Text} (solid : ∀ c ∈ t, c ≠ Symbol.space ∧ c ≠ Symbol.lineFeed ∧ c ≠ Symbol.doubleQuote) :
    squeezed .outside t = t := by
  induction t with
  | nil => rfl
  | cons c t ih =>
    obtain ⟨⟨space, feed, quote⟩, solid⟩ := List.forall_mem_cons.mp solid
    simp [squeezed, Region.after, space, feed, quote, ih solid]

theorem squeezed_blank {t : Text} (blank : ∀ c ∈ t, c = Symbol.space ∨ c = Symbol.lineFeed) : squeezed .outside t = [] := by
  induction t with
  | nil => rfl
  | cons c t ih =>
    obtain ⟨here, blank⟩ := List.forall_mem_cons.mp blank
    have region : Region.outside.after c = .outside := by rcases here with rfl | rfl <;> rfl
    simp [squeezed, here, region, ih blank]

theorem IsBody.squeezed {t : Text} (body : IsBody t) : squeezed .inside t = t := by
  induction body with
  | nil => rfl
  | plain quote backslash _ ih => simp [LenientJson.squeezed, Region.after, quote, backslash, ih]
  | pair _ ih => simp [LenientJson.squeezed, Region.after, ih]

theorem IsToken.squeezed {t : Text} (token : IsToken t) : squeezed .outside t = t := by
  cases token with
  | string s =>
    have body := isBody_quotedBody none s
    simp [Text.quoted, LenientJson.squeezed, squeezed_append, Region.after, body.reached, body.squeezed]
  | word _ marks =>
    apply squeezed_solid
    intro c member
    have bounds := (marks c member).bounds
    refine ⟨?_, ?_, ?_⟩ <;> rintro rfl <;> exact absurd bounds.1 (by decide)

namespace Emission

/-- `b` is `a` without its spacing, and `a` ends outside of strings. -/
structure Squeezes (a b : Emission) : Prop where
  text : squeezed .outside a.text = b.text
  fault : a.fault = b.fault
  region : Region.outside.reached a.text = .outside

namespace Squeezes

theorem append {a b a' b' : Emission} (first : Squeezes a b) (second : Squeezes a' b') : Squeezes (a ++ a') (b ++ b') := by
  obtain ⟨s, fault⟩ := a
  obtain ⟨t, fault'⟩ := b
  obtain ⟨text, rfl : fault = fault', region⟩ := first
  cases fault with
  | some fault => exact ⟨text, rfl, region⟩
  | none =>
    simp only [append_eq, Emission.append]
    refine ⟨?_, second.fault, ?_⟩
    · rw [squeezed_append, region, text, second.text]
    · rw [Region.reached_append, region, second.region]

theorem of_token {t : Text} (token : IsToken t) : Squeezes (ofText t) (ofText t) := ⟨token.squeezed, rfl, token.reached⟩

theorem of_mark {c : CodePoint} (listed : c ∈ Value.marks) : Squeezes (ofText [c]) (ofText [c]) := by
  obtain ⟨quote, space, feed⟩ := Value.ne_of_mem_marks listed
  have solid : ∀ d ∈ [c], d ≠ Symbol.space ∧ d ≠ Symbol.lineFeed ∧ d ≠ Symbol.doubleQuote :=
    List.forall_mem_singleton.mpr ⟨space, feed, quote⟩
  exact ⟨squeezed_solid solid, rfl, Region.reached_outside fun d member => (solid d member).2.2⟩

variable {l m : Layout}

theorem colon (flat : m.hasLines = false) : Squeezes (ofText l.colon) (ofText m.colon) := by
  have plain : m.colon = [Symbol.colon] := by simp [Layout.colon, flat]
  rw [plain]
  unfold Layout.colon
  split <;> exact ⟨rfl, rfl, rfl⟩

theorem lineStart (flat : m.hasLines = false) {depth : Nat} (room : (l.lineStart depth).fault = none) (inner : Nat) :
    Squeezes (l.lineStart depth) (m.lineStart inner) := by
  have nothing : m.lineStart inner = ofText [] := by simp [Layout.lineStart, flat]
  have blank : ∀ c ∈ (l.lineStart depth).text, c = Symbol.space ∨ c = Symbol.lineFeed := by
    rcases l.lineStart_text depth with ⟨none, -⟩ | ⟨-, n, text, -⟩
    · simp [none]
    · rw [text]
      exact List.forall_mem_cons.mpr ⟨.inr rfl, fun c member => .inl (List.eq_of_mem_replicate member)⟩
  rw [nothing]
  refine ⟨squeezed_blank blank, room, Region.reached_outside fun c member => ?_⟩
  rintro rfl
  exact absurd (blank _ member) (by decide)

theorem joined {entries : List Value.Entry} {f g : Value.Entry → Emission} (each : ∀ e ∈ entries, Squeezes (f e) (g e)) :
    Squeezes (joined (entries.map f)) (joined (entries.map g)) := by
  have nothing : Squeezes (ofText []) (ofText []) := ⟨rfl, rfl, rfl⟩
  have trail (entries : List Value.Entry) (each : ∀ e ∈ entries, Squeezes (f e) (g e)) :
      Squeezes (trail (entries.map f)) (Emission.trail (entries.map g)) := by
    induction entries with
    | nil => exact nothing
    | cons e rest ih =>
      obtain ⟨first, others⟩ := List.forall_mem_cons.mp each
      exact ((of_mark (by decide)).append first).append (ih others)
  cases entries with
  | nil => exact nothing
  | cons e rest =>
    obtain ⟨first, others⟩ := List.forall_mem_cons.mp each
    exact first.append (trail rest others)

end Squeezes
end Emission

namespace Value
open Emission

variable {l m : Layout} {v : Tree}

theorem squeezes_write (flat : m.hasLines = false) (unmade : v.EveryLeaf fun leaf => leaf.isReadyMade = false) {depth : Nat}
    (room : l.Spans depth v.lineDepth) (inner : Nat) : Squeezes (write l depth v) (write m inner v) := by
  induction v using induct generalizing depth inner with
  | leaf value =>
    rw [write, write]
    cases written : value.json with
    | error fault => exact ⟨rfl, rfl, rfl⟩
    | ok t => exact .of_token (Scalar.isToken_of_json unmade written)
  | container v container ih =>
    have opening := Squeezes.of_mark v.openingMark_mem
    have closing := Squeezes.of_mark v.closingMark_mem
    have entry {depth : Nat} (inner : Nat) (room : ∀ name u, (name, some u) ∈ v.entries → l.Spans depth u.lineDepth) :
        ∀ e ∈ v.entries, Squeezes (writeEntry l depth e) (writeEntry m inner e) := by
      rintro ⟨name, element⟩ listed
      refine .append ?_ ?_
      · cases name with
        | none => exact ⟨rfl, rfl, rfl⟩
        | some key =>
          simp only [label, ← ofText_append_ofText]
          exact (Squeezes.of_token (.string key)).append (.colon flat)
      · cases element with
        | none => exact .of_token Scalar.isToken_null
        | some u => exact ih name u listed (unmade.entry listed) (room name u listed) inner
    rcases shape : v.entries with _ | ⟨single, _ | ⟨second, rest⟩⟩
    · rw [write_empty container shape, write_empty container shape]
      exact opening.append closing
    · rw [write_single container shape, write_single container shape]
      have content := entry inner (fun _ _ => spans_single container (by simp [shape]) room) single (by simp [shape])
      exact (opening.append content).append closing
    · have several : 2 ≤ v.entries.length := by simp [shape]
      obtain ⟨outer, line, room⟩ := spans_several container several room
      rw [write_several container several, write_several container several]
      have lines := Squeezes.joined fun e listed => (Squeezes.lineStart flat line (inner + 1)).append (entry (inner + 1) room e listed)
      exact ((opening.append lines).append (.lineStart flat outer inner)).append closing

end Value

namespace Host
open Emission

/-- A value is written in lines to its end just when it is written on one line to its end and the layout has room for
the lines. With room for them both break off for the same reason, if they do, and the texts differ in nothing but
spaces and line feeds outside of strings. -/
theorem write_squeezed (view : Link → Sight) (l m : Layout) (h : Host) (flat : m.step ≤ 0) (unmade : h.IsUnmade view) :
    ((h.write view l).fault = none ↔ (h.write view m).fault = none ∧ ∀ v, h.written view = .ok v → l.Fits v) ∧
    ((∀ v, h.written view = .ok v → l.Fits v) → (h.write view l).fault = (h.write view m).fault ∧
      squeezed .outside (h.write view l).text = (h.write view m).text) := by
  have flat : m.hasLines = false := decide_eq_false (Int.not_lt.mpr flat)
  unfold write
  split
  · next v written =>
    simp only [written, Except.ok.injEq, forall_eq']
    rw [Value.write_fault_eq_none_iff, Value.write_fault_eq_none_iff]
    refine ⟨?_, fun room => ?_⟩
    · have plain : m.Fits v := .inl flat
      tauto
    · have same := Value.squeezes_write flat (unmade v written) (Layout.fits_iff_spans.mp room) 0
      exact ⟨same.fault, same.text⟩
  · next fault written => simp [squeezed]

/-- A text with a space and a line feed of its own, and an array of two within an object. -/
theorem write_squeezed_nested :
    let view : Link → Sight := fun _ => ⟨some (.object [([0x61], .array [none, some (.scalar (.int 1))]),
      ([0x62], .scalar (.text [Symbol.space, Symbol.lineFeed]))]), .ok [], []⟩
    (Host.write view ⟨2, 1, 80⟩ (.link (.object 0))).fault = (Host.write view ⟨0, 7, 80⟩ (.link (.object 0))).fault ∧
    squeezed .outside (Host.write view ⟨2, 1, 80⟩ (.link (.object 0))).text =
      (Host.write view ⟨0, 7, 80⟩ (.link (.object 0))).text := by
  intro view
  have unmade : (Host.link (.object 0)).IsUnmade view := fun v written => by
    cases written
    exact ⟨⟨rfl, trivial⟩, rfl, trivial⟩
  refine (write_squeezed view ⟨2, 1, 80⟩ ⟨0, 7, 80⟩ (.link (.object 0)) (by decide) unmade).2 fun v written => ?_
  cases written
  decide

/-- At a margin that cannot be counted nothing goes on behind the first line feed. -/
theorem write_squeezed_breaks_off : ∃ (view : Link → Sight) (l : Layout) (h : Host), h.IsUnmade view ∧
    (h.write view ⟨0, l.margin, l.room⟩).fault = none ∧ (h.write view l).fault = some .tooLarge := by
  refine ⟨fun _ => ⟨some (.object [([0x61], .scalar (.int 1)), ([0x62], .scalar (.int 2))]), .ok [], []⟩,
    ⟨1, minInt64 - 2, 80⟩, .link (.object 0), ?_, rfl, rfl⟩
  intro v written
  cases written
  exact ⟨rfl, rfl, trivial⟩

end Host
end LenientJson
