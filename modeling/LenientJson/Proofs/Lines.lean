import LenientJson.Proofs.Termination

/-! Lines of a text. A complaint about the syntax names its place by a line and a column, and these lead back to the
place: behind the whole lines before it, and behind as many characters of its own line as the column says. -/
namespace LenientJson

namespace Text

/-- The lines of a text, each with the line feed that ends it. What follows the last line feed, if only nothing, is a
line as well. -/
def lines : Text → List Text
  | [] => [[]]
  | c :: t =>
    if c = Symbol.lineFeed then [c] :: lines t
    else match lines t with
      | [] => [[c]]
      | line :: later => (c :: line) :: later

theorem exists_lines (t : Text) : ∃ line later, lines t = line :: later := by
  cases t with
  | nil => exact ⟨[], [], rfl⟩
  | cons c t =>
    rw [lines]
    split
    · exact ⟨[c], lines t, rfl⟩
    split
    · exact ⟨[c], [], rfl⟩
    · next line later _ => exact ⟨c :: line, later, rfl⟩

/-- Up to a place there are whole lines, one for each line feed, and the beginning of the line of the place. What has
been passed is held backwards. -/
theorem lines_append (passed : Text) {u line : Text} {later : List Text} (ahead : lines u = line :: later) :
    ∃ whole, lines (passed.reverse ++ u) = whole ++ ((passed.takeWhile (· != Symbol.lineFeed)).reverse ++ line) :: later ∧
      whole.flatten = (passed.dropWhile (· != Symbol.lineFeed)).reverse ∧
      whole.length = passed.count Symbol.lineFeed := by
  -- the character passed last is put back before the text ahead
  induction passed generalizing u line later with
  | nil => exact ⟨[], ahead, rfl, rfl⟩
  | cons c passed ih =>
    rw [List.reverse_cons, List.append_assoc, List.singleton_append]
    by_cases feed : c = Symbol.lineFeed
    · subst feed
      have next : lines (Symbol.lineFeed :: u) = [Symbol.lineFeed] :: line :: later := by
        rw [lines, if_pos rfl, ahead]
      obtain ⟨whole, split, before, count⟩ := ih next
      refine ⟨whole ++ [(passed.takeWhile (· != Symbol.lineFeed)).reverse ++ [Symbol.lineFeed]], ?_, ?_, ?_⟩
      · rw [split, List.takeWhile_cons_of_neg (by simp), List.append_assoc]
        simp only [List.reverse_nil, List.nil_append, List.singleton_append]
      · rw [List.dropWhile_cons_of_neg (by simp), List.flatten_append, before, List.flatten_singleton,
          ← List.append_assoc, ← List.reverse_append, List.takeWhile_append_dropWhile, List.reverse_cons]
      · rw [List.length_append, count, List.count_cons_self, List.length_singleton]
    · have next : lines (c :: u) = (c :: line) :: later := by
        rw [lines, if_neg feed, ahead]
      have other : (fun x => x != Symbol.lineFeed) c = true := bne_iff_ne.mpr feed
      obtain ⟨whole, split, before, count⟩ := ih next
      refine ⟨whole, ?_, ?_, ?_⟩
      · rw [split, List.takeWhile_cons_of_pos (p := (· != Symbol.lineFeed)) other, List.reverse_cons, List.append_assoc,
          List.singleton_append]
      · rw [List.dropWhile_cons_of_pos (p := (· != Symbol.lineFeed)) other, before]
      · rw [count, List.count_cons_of_ne feed]

/-- A line and a column, both counted from one, that lead to a position in a text. -/
structure PointsInto (t : Text) (position : Int) (line : Nat) (column : Int) : Prop where
  lower : 0 ≤ position
  upper : position ≤ t.length
  feeds : line = (t.take position.toNat).count Symbol.lineFeed + 1
  reached : position = ((lines t).take (line - 1)).flatten.length + (column - 1)
  first : 1 ≤ column
  last : ∃ here, (lines t)[line - 1]? = some here ∧ column ≤ here.length + 1

end Text

/-- Wherever a place lies in a text, its line and its column lead to it. -/
theorem Tokener.pointsInto {s : Tokener} (inside : s.before = 0) :
    Text.PointsInto s.source s.position s.line s.column := by
  obtain ⟨consumed, rest, m, before⟩ := s
  cases inside
  obtain ⟨first, later, ahead⟩ := Text.exists_lines rest
  obtain ⟨whole, lines, flat, count⟩ := Text.lines_append consumed ahead
  have parts : (consumed.takeWhile (· != Symbol.lineFeed)).length +
      (consumed.dropWhile (· != Symbol.lineFeed)).length = consumed.length := by
    rw [← List.length_append, List.takeWhile_append_dropWhile]
  have position : position ⟨consumed, rest, m, 0⟩ = consumed.length := Int.sub_zero _
  have line : line ⟨consumed, rest, m, 0⟩ = whole.length + 1 := congrArg (· + 1) count.symm
  have column : column ⟨consumed, rest, m, 0⟩ = (consumed.takeWhile (· != Symbol.lineFeed)).length + 1 := by
    have passed : passed ⟨consumed, rest, m, 0⟩ = consumed := rfl
    rw [Tokener.column, position, passed]
    omega
  rw [position, line, column, source]
  dsimp only
  refine ⟨by omega, ?_, ?_, ?_, by omega, ?_⟩
  · rw [List.length_append, List.length_reverse]
    omega
  · rw [Int.toNat_natCast, List.take_left' List.length_reverse, List.count_reverse, count]
  · rw [Nat.add_sub_cancel, lines, List.take_left, flat, List.length_reverse]
    omega
  · rw [Nat.add_sub_cancel, lines, List.getElem?_append_right (Nat.le_refl _), Nat.sub_self]
    refine ⟨_, rfl, ?_⟩
    rw [List.length_append, List.length_reverse]
    omega

/-- A complaint about the syntax of a text points into this text. -/
theorem parseObject_pointsInto {t : Text} {reason : SyntaxReason} {position : Int} {line : Nat} {column : Int}
    (failed : parseObject t = .error (.malformed reason position line column)) : Text.PointsInto t position line column := by
  cases Reader.complaint_of_parseObject failed with
  | malformed place inside source grammatical =>
    rw [← source]
    exact Tokener.pointsInto inside

/-- A string that is broken off by a line feed, which has been read by then. -/
theorem parseObject_pointsInto_broken :
    parseObject (Text.ofString "\x7b\n'a':'b\nc'\x7d") = .error (.malformed .unterminatedString 9 3 1) ∧
      Text.PointsInto (Text.ofString "\x7b\n'a':'b\nc'\x7d") 9 3 1 := by
  have failed : parseObject (Text.ofString "\x7b\n'a':'b\nc'\x7d") = .error (.malformed .unterminatedString 9 3 1) := by cbv
  exact ⟨failed, parseObject_pointsInto failed⟩

end LenientJson
