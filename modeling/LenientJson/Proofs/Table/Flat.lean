import LenientJson.Proofs.Table.Bundle

/-! What a bundle of tables comes to before it is expanded. Its keys are those of the files that exist, in the order in
which they come when the files are read from the most general to the most specific one; the most specific file that has
a key settles its value. -/
namespace LenientJson

namespace Fault
variable {α β : Type} {f : α → Except Fault β} {names : List α}

theorem mapM_eq_ok {g : α → β} (each : ∀ name ∈ names, f name = .ok (g name)) : names.mapM f = .ok (names.map g) := by
  induction names with
  | nil => rfl
  | cons name names ih =>
    have others := ih fun other member => each other (List.mem_cons_of_mem _ member)
    rw [List.mapM_cons, each name List.mem_cons_self, others]
    rfl

/-- Where only one thing can go wrong, it does not matter where it does. -/
theorem mapM_eq_error {fault : Fault} (only : ∀ name other, f name = .error other → other = fault)
    (one : ∃ name ∈ names, f name = .error fault) : names.mapM f = .error fault := by
  induction names with
  | nil =>
    obtain ⟨name, member, -⟩ := one
    cases member
  | cons name names ih =>
    rw [List.mapM_cons]
    cases here : f name with
    | error other => rw [only name other here]; rfl
    | ok value =>
      obtain ⟨bad, member, wrong⟩ := one
      have further : bad ∈ names := by
        refine (List.mem_cons.mp member).resolve_left fun same => ?_
        rw [same, here] at wrong
        cases wrong
      rw [ih ⟨bad, further, wrong⟩]
      rfl

end Fault

theorem Directory.eq_pathTooLong_of_contents {d : Directory} {path : Text} {fault : Fault}
    (wrong : d.contents path = .error fault) : fault = .pathTooLong := by
  unfold contents at wrong
  split at wrong <;> cases wrong
  rfl

theorem Text.headD_splitOn (separator : CodePoint) (t : Text) :
    (splitOn separator t).headD [] = t.takeWhile (· ≠ separator) := by
  induction t with
  | nil => rfl
  | cons c t ih =>
    rw [splitOn]
    split
    · next here => simp [here]
    · next other =>
      cases pieces : splitOn separator t with
      | nil => exact absurd pieces (splitOn_ne_nil separator t)
      | cons piece rest => simpa [other, pieces] using ih

namespace Bundle

/-- The whole locale, with underscores between its parts. -/
def underscored (locale : Text) : Text := locale.map fun c => if c = Symbol.minus then Symbol.underscore else c

/-- The first part of a locale. -/
def languageOf (locale : Text) : Text := (underscored locale).takeWhile (· ≠ Symbol.underscore)

/-- The names of the files of a bundle: for all languages, for the language of a locale and for the whole locale. -/
def fileNames (base locale : Text) : List Text :=
  let named (form : Text) := base ++ [Symbol.underscore] ++ form ++ Text.ofString ".properties"
  [base ++ Text.ofString ".properties"] ++
    (if languageOf locale = [] ∨ languageOf locale = underscored locale then [] else [named (languageOf locale)]) ++
    if locale = [] then [] else [named (underscored locale)]

theorem localeForms_eq (locale : Text) : localeForms locale =
    (if languageOf locale = [] ∨ languageOf locale = underscored locale then [] else [languageOf locale]) ++
      [underscored locale] := by
  unfold localeForms
  dsimp only
  rw [Text.headD_splitOn]
  change (if languageOf locale ≠ [] ∧ languageOf locale ≠ underscored locale then
    [languageOf locale, underscored locale] else [underscored locale]) = _
  by_cases general : languageOf locale = [] ∨ languageOf locale = underscored locale
  · rw [if_pos general, if_neg (by tauto), List.nil_append]
  · rw [if_neg general, if_pos (not_or.mp general), List.singleton_append]

theorem candidates_eq (base : Text) (locale : Option Text) : candidates base locale = fileNames base (locale.getD []) := by
  match locale with
  | none | some [] => rfl
  | some (c :: rest) =>
    unfold candidates
    dsimp only
    rw [localeForms_eq, fileNames, Option.getD_some, if_neg (List.cons_ne_nil c rest), List.map_append,
      apply_ite (List.map _)]
    rfl

/-- The texts of the files of a bundle that exist, the most specific one last. -/
def existing (d : Directory) (base : Text) (locale : Option Text) (root : Text) : List Text :=
  (fileNames base (locale.getD [])).filterMap fun name => (d.contents (Path.join root name)).toOption.join

theorem find?_overlay (texts : List Text) (key : Text) :
    (overlay texts).find? key = texts.reverse.findSome? fun text => lastValue? text key := by
  induction texts using List.reverseRecOn with
  | nil => rfl
  | append_singleton texts last ih =>
    rw [find?_overlay_append, ih, List.reverse_append, List.reverse_singleton, List.singleton_append, List.findSome?_cons]
    cases lastValue? last key <;> rfl

theorem lastValue?_eq_none_iff {text key : Text} : lastValue? text key = none ↔ key ∉ keysOf text := by
  rw [← Option.not_isSome_iff_eq_none, lastValue?, Members.isSome_find?_iff, keysOf, Members.keys, List.map_reverse,
    List.mem_reverse]
  rfl

/-- The value of a key is the last one in the last file that has it. -/
theorem find?_overlay_eq_some_iff {texts : List Text} {key value : Text} : (overlay texts).find? key = some value ↔
    ∃ before text after, texts = before ++ text :: after ∧ lastValue? text key = some value ∧
      ∀ later ∈ after, key ∉ keysOf later := by
  rw [find?_overlay, List.findSome?_eq_some_iff]
  simp only [lastValue?_eq_none_iff]
  constructor
  · rintro ⟨after, text, before, parts, given, others⟩
    refine ⟨before.reverse, text, after.reverse, ?_, given, fun later member => others later (List.mem_reverse.mp member)⟩
    rw [← texts.reverse_reverse, parts]
    simp
  · rintro ⟨before, text, after, rfl, given, others⟩
    refine ⟨after.reverse, text, before.reverse, by simp, given, fun later member => ?_⟩
    exact others later (List.mem_reverse.mp member)

theorem keys_overlay (texts : List Text) : (overlay texts).keys = (texts.flatMap keysOf).eraseDups := by
  induction texts using List.reverseRecOn with
  | nil => rfl
  | append_singleton texts last ih =>
    rw [overlay_concat, Members.keys_merge_of_eraseDups ih, Members.keys_merge_nil, Members.eraseDups_append_eraseDups,
      List.flatMap_append, List.flatMap_singleton]
    rfl

section
variable (d : Directory) (base : Text) (locale : Option Text) (root : Text)

/-- What becomes of a bundle: a path that is too long stops the search, no file at all is reported, and otherwise the
files that exist are merged. -/
structure LoadsFlat : Prop where
  tooLong : load d.contents base locale root = .error .pathTooLong ↔
    ∃ name ∈ fileNames base (locale.getD []), d.contents (Path.join root name) = .error .pathTooLong
  missing : load d.contents base locale root = .error (.bundleMissing base locale (Path.normal root)) ↔
    ∀ name ∈ fileNames base (locale.getD []), d.contents (Path.join root name) = .ok none
  loaded : (∃ table, load d.contents base locale root = .ok table) ↔ existing d base locale root ≠ [] ∧
    ∀ name ∈ fileNames base (locale.getD []), d.contents (Path.join root name) ≠ .error .pathTooLong
  keys : ∀ table, load d.contents base locale root = .ok table →
    table.keys.Nodup ∧ table.keys = ((existing d base locale root).flatMap keysOf).eraseDups
  values : ∀ table, load d.contents base locale root = .ok table → ∀ key value,
    table.find? key = some value ↔ ∃ before text after, existing d base locale root = before ++ text :: after ∧
      lastValue? text key = some value ∧ ∀ later ∈ after, key ∉ keysOf later

variable {d base locale root}

theorem load_eq_tooLong (long : ∃ name ∈ fileNames base (locale.getD []),
    d.contents (Path.join root name) = .error .pathTooLong) : load d.contents base locale root = .error .pathTooLong := by
  have read := Fault.mapM_eq_error (fun _ _ wrong => Directory.eq_pathTooLong_of_contents wrong) long
  rw [load, candidates_eq, read]
  rfl

theorem mapM_contents (short : ∀ name ∈ fileNames base (locale.getD []),
    d.contents (Path.join root name) ≠ .error .pathTooLong) :
    (candidates base locale).mapM (fun name => d.contents (Path.join root name)) =
      .ok ((fileNames base (locale.getD [])).map fun name => (d.contents (Path.join root name)).toOption.join) := by
  rw [candidates_eq]
  refine Fault.mapM_eq_ok fun name member => ?_
  cases read : d.contents (Path.join root name) with
  | error fault => exact absurd (Directory.eq_pathTooLong_of_contents read ▸ read) (short name member)
  | ok found => cases found <;> rfl

theorem load_eq_overlay (short : ∀ name ∈ fileNames base (locale.getD []),
    d.contents (Path.join root name) ≠ .error .pathTooLong) (some : existing d base locale root ≠ []) :
    load d.contents base locale root = .ok (overlay (existing d base locale root)) := by
  have found : existing d base locale root = ((fileNames base (locale.getD [])).map fun name =>
      (d.contents (Path.join root name)).toOption.join).filterMap id := by
    rw [List.filterMap_map]
    rfl
  rw [found] at some ⊢
  exact load_eq (mapM_contents short) some

theorem load_eq_missing (missing : ∀ name ∈ fileNames base (locale.getD []),
    d.contents (Path.join root name) = .ok none) :
    load d.contents base locale root = .error (.bundleMissing base locale (Path.normal root)) := by
  have nothing : ((fileNames base (locale.getD [])).map fun _ => (none : Option Text)).filterMap id = [] := by
    simp
  rw [load, candidates_eq, Fault.mapM_eq_ok missing]
  simp only [bind, Except.bind, nothing]

theorem existing_ne_nil_iff (short : ∀ name ∈ fileNames base (locale.getD []),
    d.contents (Path.join root name) ≠ .error .pathTooLong) : existing d base locale root ≠ [] ↔
      ¬ ∀ name ∈ fileNames base (locale.getD []), d.contents (Path.join root name) = .ok none := by
  rw [existing, Ne, List.filterMap_eq_nil_iff]
  refine not_congr (forall₂_congr fun name member => ?_)
  cases read : d.contents (Path.join root name) with
  | error fault => exact absurd (Directory.eq_pathTooLong_of_contents read ▸ read) (short name member)
  | ok found => cases found <;> simp [Except.toOption]

variable (d base locale root)

end

end Bundle
end LenientJson
