import LenientJson.Proofs.Lenient.Rendering
import LenientJson.Proofs.Session
import LenientJson.Proofs.Shell.Line
import LenientJson.Shell.Process

/-! A session from its first line to the last. Whatever the lines have put into the working object can be looked at again:
no line breaks the session off, unless an indentation finds no room or a destination does not take a text. -/
namespace LenientJson

open Value (HasText EveryLeaf)

namespace Destination

theorem takes_eq_false_iff {d : Destination} {t : Text} :
    d.takes t = false ↔ d = .encoded ∧ t.any CodePoint.isSurrogate = true := by
  cases d <;> simp [takes]

/-- The lines are all written, unless one of them has failed or cannot be taken. -/
theorem writeLines_fault_iff {d : Destination} {lines : List (Except Fault Text)} :
    (∃ fault, (d.writeLines lines).fault = some fault) ↔
      (∃ fault, .error fault ∈ lines) ∨ ∃ t, .ok t ∈ lines ∧ d.takes t = false := by
  induction lines with
  | nil => simp [writeLines, Emission.ofText]
  | cons line rest ih =>
    cases line with
    | error fault => exact iff_of_true ⟨fault, rfl⟩ (.inl ⟨fault, List.mem_cons_self⟩)
    | ok t =>
      rw [writeLines, writeLine]
      cases taken : d.takes t with
      | false => exact iff_of_true ⟨_, rfl⟩ (.inr ⟨t, List.mem_cons_self, taken⟩)
      | true =>
        change (∃ fault, (d.writeLines rest).fault = some fault) ↔ _
        simp [ih, or_and_right, exists_or, taken]

end Destination

namespace Session

/-- The lines that a command prints. -/
def printed (s : Session) : Command → List (Except Fault Text)
  | .keys => s.keyLines
  | .showAll => [s.shown]
  | .inspect path => [inspection s.layout (s.lookup path)]
  | .query path => (s.lookup path).toList.map fun node => node.render .flat
  | .blank | .quit | .reset | .batch _ | .eval _ => []

/-- The node that a command prints with indentations. -/
def unfolded (s : Session) : Command → Option Tree
  | .showAll => some (.object s.document)
  | .inspect path => s.lookup path
  | .blank | .quit | .keys | .reset | .query _ | .batch _ | .eval _ => none

/-- The widest indentation of what is printed, one step for each container of several entries around the innermost one,
cannot be counted in 64 bits or finds no room. -/
def IsTooWide (s : Session) (command : Command) : Prop :=
  ∃ node, s.unfolded command = some node ∧
    (maxInt64 < s.settings.indentFactor * node.lineDepth ∨ s.room < s.settings.indentFactor * node.lineDepth)

/-- Half of a surrogate pair has to be written to an encoded destination. -/
def IsUnencodable (s : Session) (d : Destination) (command : Command) : Prop :=
  d = .encoded ∧ ∃ t, .ok t ∈ s.printed command ∧ t.any CodePoint.isSurrogate = true

variable {s : Session} {node : Tree}

/-! Whatever a session holds can be written. -/

theorem exists_render_flat (texts : node.EveryLeaf HasText) : ∃ t, node.render .flat = .ok t :=
  (Value.exists_render_iff texts).mpr (Value.fits_flat _)

theorem render_error_iff {l : Layout} (texts : node.EveryLeaf HasText) :
    (∃ fault, node.render l = .error fault) ↔ ¬ l.Fits node := by
  rw [← Value.exists_render_iff texts]
  cases node.render l with
  | ok t => exact iff_of_false (fun ⟨_, failed⟩ => nomatch failed) fun none => none ⟨t, rfl⟩
  | error fault => exact iff_of_true ⟨fault, rfl⟩ fun ⟨_, ok⟩ => nomatch ok

theorem everyLeaf_follow {path : List Text} {found : Tree} (texts : node.EveryLeaf HasText)
    (follows : follow node path = some found) : found.EveryLeaf HasText := by
  induction path generalizing node with
  | nil =>
    rw [follow] at follows
    exact Option.some.inj follows ▸ texts
  | cons segment path ih =>
    cases node with
    | scalar leaf => cases follows
    | link target => nomatch target
    | object members =>
      obtain ⟨inner, here, follows⟩ := Option.bind_eq_some_iff.mp follows
      exact ih (Value.everyMemberLeaf_iff.mp texts _ (Members.mem_of_find?_eq_some here)) follows
    | array elements =>
      rw [follow] at follows
      split at follows
      · next i _ =>
        obtain ⟨inner, here, follows⟩ := Option.bind_eq_some_iff.mp follows
        have inside : some inner ∈ elements := List.mem_of_getElem? (Option.join_eq_some_iff.mp here)
        exact ih (Value.EveryElementLeaf.of_mem texts inside) follows
      · cases follows

theorem inspection_error_iff {l : Layout} (texts : node.EveryLeaf HasText) :
    (∃ fault, inspection l (some node) = .error fault) ↔ ¬ l.Fits node := by
  have counted {v : Tree} {count : Text} (texts : v.EveryLeaf HasText) :
      (∃ fault, (do return count ++ (← v.render l) : Except Fault Text) = .error fault) ↔ ¬ l.Fits v := by
    rw [← render_error_iff texts]
    cases v.render l <;> simp [Bind.bind, Except.bind, Pure.pure, Except.pure]
  cases node with
  | link target => nomatch target
  | object members => exact counted texts
  | array elements => exact counted texts
  | scalar leaf =>
    have fits : l.Fits (.scalar leaf) := .inr (.inl rfl)
    refine iff_of_false (fun ⟨fault, failed⟩ => ?_) fun apart => apart fits
    obtain ⟨t, renders⟩ := exists_render_flat texts
    cases leaf with
    | null => cases failed
    | _ =>
      simp only [inspection, renders] at failed
      cases failed

theorem not_isTooWide {command : Command} (nothing : s.unfolded command = none) : ¬ s.IsTooWide command :=
  fun ⟨_, has, _⟩ => nomatch nothing.symm.trans has

theorem isTooWide_iff {command : Command} (shows : s.unfolded command = some node) :
    s.IsTooWide command ↔ ¬ s.layout.Fits node := by
  rw [IsTooWide, shows, layout, Value.fits_iff]
  simp only [Option.some.injEq, exists_eq_left', not_and_or, Int.not_le]

theorem keyLines_ok (texts : s.document.IsMapTo (EveryLeaf HasText)) (fault : Fault) : .error fault ∉ s.keyLines := by
  intro inside
  rw [keyLines] at inside
  split at inside
  · cases List.mem_singleton.mp inside
  · obtain ⟨member, here, failed⟩ := List.mem_map.mp inside
    obtain ⟨t, renders⟩ := exists_render_flat (texts.each member here)
    simp only [renders] at failed
    cases failed

/-- Only an indentation that finds no room keeps a line from being printed. -/
theorem error_mem_printed_iff (texts : s.document.IsMapTo (EveryLeaf HasText)) (command : Command) :
    (∃ fault, .error fault ∈ s.printed command) ↔ s.IsTooWide command := by
  have whole : EveryLeaf HasText (.object s.document) := Value.everyMemberLeaf_iff.mpr texts.each
  have found {path : Text} {node : Tree} (leads : s.lookup path = some node) : node.EveryLeaf HasText :=
    everyLeaf_follow whole leads
  cases command with
  | blank | quit | reset | batch _ | eval _ => exact iff_of_false (fun ⟨_, inside⟩ => nomatch inside) (not_isTooWide rfl)
  | keys => exact iff_of_false (fun ⟨fault, inside⟩ => keyLines_ok texts fault inside) (not_isTooWide rfl)
  | showAll =>
    rw [isTooWide_iff rfl, ← render_error_iff whole]
    simp only [printed, List.mem_singleton, shown, eq_comm]
  | inspect path =>
    simp only [printed, List.mem_singleton]
    cases leads : s.lookup path with
    | none => exact iff_of_false (fun ⟨_, failed⟩ => nomatch failed) (not_isTooWide leads)
    | some node =>
      have shows : s.unfolded (.inspect path) = some node := leads
      rw [isTooWide_iff shows, ← inspection_error_iff (found leads)]
      simp only [eq_comm]
  | query path =>
    refine iff_of_false (fun ⟨fault, inside⟩ => ?_) (not_isTooWide rfl)
    obtain ⟨node, leads, failed⟩ := List.mem_map.mp inside
    obtain ⟨t, renders⟩ := exists_render_flat (found (Option.mem_toList.mp leads))
    rw [renders] at failed
    cases failed

/-! What a command does. -/

theorem broken_answered_iff (s : Session) (d : Destination) (lines : List (Except Fault Text)) :
    (∃ fault, (s.answered d lines).standing = .broken fault) ↔
      (∃ fault, .error fault ∈ lines) ∨ ∃ t, .ok t ∈ lines ∧ d.takes t = false := by
  rw [← Destination.writeLines_fault_iff, answered]
  split
  · next whole => simp [whole]
  · next fault failed => simp [failed]

structure IsPrinted (s : Session) (d : Destination) (command : Command) (response : Response) : Prop where
  session : response.session = s
  runs : response.standing ≠ .ended
  silent : response.output.err = []
  breaks : (∃ fault, response.standing = .broken fault) ↔ s.IsTooWide command ∨ s.IsUnencodable d command

theorem isPrinted_answered (texts : s.document.IsMapTo (EveryLeaf HasText)) (d : Destination) (command : Command) :
    s.IsPrinted d command (s.answered d (s.printed command)) where
  session := by
    rw [answered]
    split <;> rfl
  runs := by
    rw [answered]
    split <;> nofun
  silent := by
    rw [answered]
    split <;> rfl
  breaks := by
    rw [broken_answered_iff, error_mem_printed_iff texts, IsUnencodable]
    simp only [Destination.takes_eq_false_iff, and_left_comm, exists_and_left]

/-- The answer to a line: what becomes of the working object, whether the session goes on, whether an error is reported,
and when the line breaks the session off. -/
structure Answers (s : Session) (d : Destination) (line : Text) (response : Response) : Prop where
  session : response.session = { s with document := handle s.document line.strip }
  ends : response.standing = .ended ↔ line.strip = Text.ofString ":q" ∨ line.strip = Text.ofString ":quit"
  reports : response.output.err = match brought line.strip with
    | some (.error fault) => Text.ofString "Error: " ++ fault.message ++ [Symbol.lineFeed]
    | some (.ok _) | none => []
  breaks : (∃ fault, response.standing = .broken fault) ↔
    s.IsTooWide (Command.ofLine line) ∨ s.IsUnencodable d (Command.ofLine line)

/-- A command that prints nothing never breaks the session off. -/
theorem not_breaks {d : Destination} {command : Command} (nothing : s.printed command = [])
    (nowhere : s.unfolded command = none) : ¬ (s.IsTooWide command ∨ s.IsUnencodable d command) := by
  rintro (wide | ⟨-, t, inside, -⟩)
  · exact not_isTooWide nowhere wide
  · rw [nothing] at inside
    cases inside

theorem answers_eval {d : Destination} {line text : Text} (is : Command.ofLine line = .eval text)
    (suits : text = line.strip ∧ ¬ IsReset line.strip ∧ ¬ IsQuiet line.strip) :
    s.Answers d line (s.obey d (.eval text)) := by
  obtain ⟨rfl, noReset, noQuiet⟩ := suits
  have plain : ¬ (IsReset line.strip ∨ IsQuiet line.strip) := not_or.mpr ⟨noReset, noQuiet⟩
  have brings : brought line.strip = some (parseObject line.strip) := if_neg plain
  have handles := handle_of_parseObject plain s.document
  have words : ¬ (line.strip = Text.ofString ":q" ∨ line.strip = Text.ofString ":quit") := by
    rintro (word | word) <;> exact noQuiet (word ▸ .inl (by decide))
  have calm : ¬ (s.IsTooWide (Command.ofLine line) ∨ s.IsUnencodable d (Command.ofLine line)) := by
    rw [is]
    exact not_breaks rfl rfl
  rw [obey, eval_eq]
  cases parsed : parseObject line.strip with
  | ok members =>
    rw [parsed] at brings handles
    exact ⟨by rw [handles], iff_of_false nofun words, by rw [brings]; rfl, iff_of_false nofun calm⟩
  | error fault =>
    rw [parsed] at brings handles
    exact ⟨by rw [handles], iff_of_false nofun words, by rw [brings]; rfl, iff_of_false nofun calm⟩

theorem answers_obey (texts : s.document.IsMapTo (EveryLeaf HasText)) (d : Destination) {line : Text}
    (single : ¬ IsBatch line.strip) : s.Answers d line (s.obey d (Command.ofLine line)) := by
  have suits : (Command.ofLine line).Suits line.strip := Command.suits_ofStripped line.strip
  have printed {command : Command} (is : Command.ofLine line = command)
      (quiet : IsQuiet line.strip ∧ ¬ (line.strip = Text.ofString ":q" ∨ line.strip = Text.ofString ":quit")) :
      s.Answers d line (s.answered d (s.printed command)) := by
    obtain ⟨session, runs, silent, breaks⟩ := isPrinted_answered texts d command
    refine ⟨?_, iff_of_false runs quiet.2, ?_, is ▸ breaks⟩
    · rw [session, handle_of_isQuiet quiet.1]
    · rw [silent, brought_of_isQuiet quiet.1]
  cases is : Command.ofLine line with
  | blank | keys | showAll | inspect path | query path =>
    rw [is] at suits
    exact printed is suits
  | quit =>
    rw [is] at suits
    have quiet : IsQuiet line.strip := by
      rcases suits with word | word <;> exact word ▸ .inl (by decide)
    refine ⟨?_, iff_of_true rfl suits, ?_, iff_of_false nofun (is ▸ not_breaks rfl rfl)⟩
    · rw [handle_of_isQuiet quiet]
      rfl
    · rw [brought_of_isQuiet quiet]
      rfl
  | reset =>
    rw [is] at suits
    have resets : IsReset line.strip := suits
    have words : ¬ (line.strip = Text.ofString ":q" ∨ line.strip = Text.ofString ":quit") := by
      rw [show line.strip = Text.ofString ":reset" from resets]
      decide
    refine ⟨?_, iff_of_false nofun words, ?_, iff_of_false nofun (is ▸ not_breaks rfl rfl)⟩
    · rw [handle, if_pos resets]
      rfl
    · rw [brought, if_pos (.inl resets)]
      rfl
  | batch file => exact absurd is (Command.ofLine_ne_batch single file)
  | eval text =>
    rw [is] at suits
    exact answers_eval is suits

/-! Whole conversations. -/

theorem isMapTo_handle {document : Members Tree} (texts : document.IsMapTo (EveryLeaf HasText)) (line : Text) :
    (handle document line).IsMapTo (EveryLeaf HasText) := by
  rw [handle]
  split
  · exact Members.isMapTo_nil
  split
  · next members brings =>
    have parsed : parseObject line = .ok members := by
      rw [brought] at brings
      split at brings
      · cases brings
      · exact Option.some.inj brings
    obtain ⟨written, rest, derived, -, rfl⟩ := Lenient.objectAt_of_parseObject parsed
    have plain : EveryLeaf Scalar.IsPlain (.object (Lenient.Source.memberMeanings written)) := derived.leaves
    exact texts.merge (Value.everyMemberLeaf_iff.mp (plain.imp Scalar.IsPlain.hasText))
  · exact texts
  · exact texts

variable {m : Type → Type} [Monad m] (read : Text → m (Except FileFault Text))

/-- A line that names no file is a command of its own, at whatever depth. -/
theorem processWithin_eq {line : Text} (single : ¬ IsBatch line.strip) (d : Destination) (depth : Nat) (s : Session) :
    processWithin read d depth s line = pure (s.obey d (Command.ofLine line)) := by
  cases depth with
  | zero =>
    rw [processWithin]
    split
    · next file is => exact absurd is (Command.ofLine_ne_batch single file)
    · rfl
  | succ depth =>
    rw [processWithin]
    split
    · next file is => exact absurd is (Command.ofLine_ne_batch single file)
    · rfl

/-- Lines given to a session one after the other, whatever becomes of each: the answers, and the session at the end. -/
def converse : Session → List (Destination × Text) → m (List Response × Session)
  | s, [] => pure ([], s)
  | s, (d, line) :: rest => do
    let response ← s.process read d line
    let (responses, last) ← converse response.session rest
    return (response :: responses, last)

theorem exists_converse_eq [LawfulMonad m] (entries : List (Destination × Text)) (s : Session)
    (texts : s.document.IsMapTo (EveryLeaf HasText)) (single : ∀ entry ∈ entries, ¬ IsBatch entry.2.strip) :
    ∃ responses, converse read s entries = pure (responses, { s with document := documentAfter s.document entries }) ∧
      responses.length = entries.length ∧ ∀ i d line response, entries[i]? = some (d, line) →
        responses[i]? = some response →
        Answers { s with document := documentAfter s.document (entries.take i) } d line response := by
  induction entries generalizing s with
  | nil => exact ⟨[], rfl, rfl, fun _ _ _ _ none => nomatch none⟩
  | cons entry rest ih =>
    obtain ⟨d, line⟩ := entry
    obtain ⟨first, others⟩ := List.forall_mem_cons.mp single
    have answer := answers_obey texts d first
    obtain ⟨responses, same, length, answers⟩ := ih { s with document := handle s.document line.strip }
      (isMapTo_handle texts line.strip) others
    refine ⟨s.obey d (Command.ofLine line) :: responses, ?_, congrArg Nat.succ length, ?_⟩
    · simp only [converse, process, processWithin_eq read first, pure_bind, answer.session, same]
      rfl
    · intro i d' line' response here replied
      cases i with
      | zero =>
        cases here
        cases replied
        exact answer
      | succ i => exact answers i d' line' response here replied

/-- Lines given to a new session, none of which names a file. -/
theorem converse_start [LawfulMonad m] (settings : Settings) (room : Nat) (entries : List (Destination × Text))
    (single : ∀ entry ∈ entries, ¬ IsBatch entry.2.strip) :
    ∃ responses, converse read (start settings room) entries = pure (responses, ⟨settings, room, documentAfter [] entries⟩) ∧
      responses.length = entries.length ∧ ∀ i d line response, entries[i]? = some (d, line) →
        responses[i]? = some response → Answers ⟨settings, room, documentAfter [] (entries.take i)⟩ d line response :=
  exists_converse_eq read entries (start settings room) Members.isMapTo_nil single

/-- An object, a text that is none, and the end. -/
theorem converse_start_short :
    let entries := [(Destination.buffer, Text.ofString "\x7b'a':''\x7d "), (.buffer, Text.ofString "a"),
      (.buffer, Text.ofString ":quit")]
    (∀ entry ∈ entries, ¬ IsBatch entry.2.strip) ∧ ∃ responses : List Response,
      converse (m := Id) (fun _ => .error .missing) (start .standard 80) entries =
        pure (responses, ⟨.standard, 80, [([0x61], .scalar (.text []))]⟩) ∧ responses.length = 3 := by
  intro entries
  have single : ∀ entry ∈ entries, ¬ IsBatch entry.2.strip := by decide
  have stripped : (Text.ofString "\x7b'a':''\x7d ").strip = Text.ofString "\x7b'a':''\x7d" := by decide
  have object : parseObject (Text.ofString "\x7b'a':''\x7d") = .ok [([0x61], .scalar (.text []))] := by cbv
  obtain ⟨fault, none⟩ : ∃ fault, parseObject (Text.ofString "a") = .error fault := ⟨_, rfl⟩
  have word : (Text.ofString "a").strip = Text.ofString "a" := by decide
  have quits : IsQuiet (Text.ofString ":quit").strip := by decide
  have document : documentAfter [] entries = [([0x61], .scalar (.text []))] := by
    simp only [entries, documentAfter, List.foldl_cons, List.foldl_nil, stripped, word]
    rw [handle_of_isQuiet quits, handle_of_parseObject (by decide), none, handle_of_parseObject (by decide), object]
    rfl
  obtain ⟨responses, same, length, -⟩ := converse_start (m := Id) (fun _ => .error .missing) .standard 80 entries single
  exact ⟨single, responses, document ▸ same, length⟩

/-- A step that cannot be counted in 64 bits breaks off a session that shows two members, whatever the room. -/
theorem converse_breaks_off : ¬ ∃ room : Nat, ∀ (settings : Settings) (entries : List (Destination × Text)),
    (∀ entry ∈ entries, ¬ IsBatch entry.2.strip) →
    ∀ response ∈ (converse (m := Id) (fun _ => .error .missing) (start settings room) entries).run.1,
      ∀ fault, response.standing ≠ .broken fault := by
  rintro ⟨room, unbroken⟩
  have object : parseObject (Text.ofString "\x7b'a':'','b':''\x7d") =
      .ok [([0x61], .scalar (.text [])), ([0x62], .scalar (.text []))] := by cbv
  let text := Text.ofString "\x7b'a':'','b':''\x7d"
  let settings : Settings := ⟨maxInt64 + 1, [], []⟩
  let s : Session := ⟨settings, room, [([0x61], .scalar (.text [])), ([0x62], .scalar (.text []))]⟩
  have reads : Command.ofLine text = .eval text := by decide
  have shows : Command.ofLine (Text.ofString ":show") = .showAll := by decide
  have first : (start settings room).obey .buffer (.eval text) = ⟨s, .nothing, .running⟩ := by
    rw [obey, eval_eq, object]
    rfl
  have second : s.obey .buffer .showAll = ⟨s, .ofOut _, .broken .tooLarge⟩ := rfl
  have never := unbroken settings [(.buffer, text), (.buffer, Text.ofString ":show")] (by decide)
  simp only [converse, process, processWithin_eq _ (show ¬ IsBatch text.strip by decide), reads, first, pure_bind,
    processWithin_eq _ (show ¬ IsBatch (Text.ofString ":show").strip by decide), shows, second] at never
  exact never _ (List.mem_cons_of_mem _ List.mem_cons_self) .tooLarge rfl

end Session
end LenientJson
