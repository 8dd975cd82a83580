import LenientJson.Proofs.Grammar.Lenient

/-! How readers act inside a text. What a reader gives depends only on the text ahead of the place:
neither the text already passed nor what can be given back matters. Readers are composed through
`Reads`, taken apart through `bind_ok`, and compared at two places through `Steady`. -/
namespace LenientJson.Reader
open Lenient

variable {α β : Type}

/-- With `t` ahead the reader succeeds with `a` and leaves `rest` ahead, wherever in a text it is. -/
def Reads (r : Reader α) (t : Text) (a : α) (rest : Text) : Prop :=
  ∃ piece, t = piece ++ rest ∧ ∀ consumed m, ∃ m',
    r ⟨consumed, t, m, 0⟩ = .ok a ⟨piece.reverse ++ consumed, rest, m', 0⟩

/-- With the same text ahead the reader always does the same: it succeeds everywhere alike or fails
everywhere. -/
def Steady (r : Reader α) : Prop :=
  ∀ t, (∃ a rest, Reads r t a rest) ∨ ∀ consumed m, ∃ fault s, r ⟨consumed, t, m, 0⟩ = .error fault s

/-! Readers one after another, and the moves. -/

theorem run_bind (r : Reader α) (k : α → Reader β) (s : Tokener) : (r >>= k) s =
    match r s with
    | .ok a s' => k a s'
    | .error fault s' => .error fault s' := by
  induction r generalizing s with
  | gives a => rfl
  | fails fault => rfl
  | look further ih => exact ih s s
  | make move further ih =>
    change run (make move fun answer => further answer >>= k) s = _
    rw [run, run]
    cases move.act s with
    | ok answer s' => exact ih answer s'
    | error fault s' => rfl

theorem bind_apply {r : Reader α} {k : α → Reader β} {s s' : Tokener} {a : α} (first : r s = .ok a s') :
    (r >>= k) s = k a s' := by
  rw [run_bind, first]

theorem bind_failed {r : Reader α} (k : α → Reader β) {s s' : Tokener} {fault : Fault} (failed : r s = .error fault s') :
    (r >>= k) s = .error fault s' := by
  rw [run_bind, failed]

theorem bind_congr {r r' : Reader α} {k k' : α → Reader β} {s : Tokener} (first : r s = r' s)
    (second : ∀ a s', r' s = .ok a s' → k a s' = k' a s') : (r >>= k) s = (r' >>= k') s := by
  rw [run_bind, run_bind, first]
  cases ok : r' s with
  | ok a s' => exact second a s' ok
  | error fault s' => rfl

theorem bind_ok {r : Reader α} {k : α → Reader β} {s s'' : Tokener} {b : β} :
    (r >>= k) s = .ok b s'' ↔ ∃ a s', r s = .ok a s' ∧ k a s' = .ok b s'' := by
  rw [run_bind]
  constructor
  · intro ok
    split at ok
    next a s' first => exact ⟨a, s', first, ok⟩
    next => cases ok
  · rintro ⟨a, s', first, second⟩
    simp only [first, second]

theorem bind_error {r : Reader α} {k : α → Reader β} {s s'' : Tokener} {fault : Fault} :
    (r >>= k) s = .error fault s'' ↔ r s = .error fault s'' ∨ ∃ a s', r s = .ok a s' ∧ k a s' = .error fault s'' := by
  rw [run_bind]
  cases r s with
  | ok a s' =>
    constructor
    · exact fun failed => .inr ⟨a, s', rfl, failed⟩
    · rintro (failed | ⟨_, _, same, failed⟩)
      · cases failed
      · cases same
        exact failed
  | error fault' s' => simp

instance : LawfulMonad Reader := by
  refine LawfulMonad.mk' Reader (fun r => ?_) (fun a k => rfl) (fun r k l => ?_)
  · induction r with
    | gives a => rfl
    | fails fault => rfl
    | look further ih => exact congrArg look (funext ih)
    | make move further ih => exact congrArg (make move) (funext ih)
  · induction r with
    | gives a => rfl
    | fails fault => rfl
    | look further ih => exact congrArg look (funext ih)
    | make move further ih => exact congrArg (make move) (funext ih)

theorem pure_ok {s s' : Tokener} {a b : α} : (pure a : Reader α) s = .ok b s' ↔ a = b ∧ s = s' := by
  constructor
  · rintro ⟨⟩
    exact ⟨rfl, rfl⟩
  · rintro ⟨rfl, rfl⟩
    rfl

theorem run_move (move : Tokener.Move) (s : Tokener) : (make move gives) s = move.act s := by
  rw [run]
  cases move.act s <;> rfl

@[simp] theorem next_cons (consumed : List CodePoint) (c : CodePoint) (rest : Text) (m : Memory) :
    next ⟨consumed, c :: rest, m, 0⟩ = .ok (some c) ⟨c :: consumed, rest, .character, 0⟩ := rfl

@[simp] theorem next_nil (consumed : List CodePoint) (m : Memory) :
    next ⟨consumed, [], m, 0⟩ = .ok none ⟨consumed, [], .ending, 0⟩ := rfl

/-- Inside the text the next characters are those that follow the place. -/
theorem nextMany_of_le (consumed : List CodePoint) (t : Text) (m : Memory) {n : Nat} (several : n ≠ 0)
    (fits : n ≤ t.length) : nextMany n ⟨consumed, t, m, 0⟩ =
      .ok (t.take n) ⟨(t.take n).reverse ++ consumed, t.drop n, .character, 0⟩ :=
  (run_move (.nextMany n) _).trans (Tokener.nextMany_of_le consumed t m several fits)

/-- Past the end nothing is given, and the place has moved on to the end. -/
theorem nextMany_past {n : Nat} {t : Text} (past : t.length < n) (consumed : List CodePoint) (m : Memory) :
    nextMany n ⟨consumed, t, m, 0⟩ = .error (Tokener.fault ⟨t.reverse ++ consumed, [], m, 0⟩ .substringBounds)
      ⟨t.reverse ++ consumed, [], m, 0⟩ :=
  (run_move (.nextMany n) _).trans (Tokener.nextMany_past past consumed m)

@[simp] theorem back_character (consumed : List CodePoint) (c : CodePoint) (rest : Text) :
    back ⟨c :: consumed, rest, .character, 0⟩ = .ok () ⟨consumed, c :: rest, .nothing, 0⟩ := rfl

@[simp] theorem back_ending (consumed : List CodePoint) (rest : Text) :
    back ⟨consumed, rest, .ending, 0⟩ = .ok () ⟨consumed, rest, .nothing, 0⟩ := rfl

/-! What is read wherever the text ahead is the same. -/

theorem reads_pure (a : α) (t : Text) : Reads (pure a) t a t :=
  ⟨[], rfl, fun _ m => ⟨m, rfl⟩⟩

theorem Reads.bind {r : Reader α} {k : α → Reader β} {t u rest : Text} {a : α} {b : β}
    (first : Reads r t a u) (second : Reads (k a) u b rest) : Reads (r >>= k) t b rest := by
  obtain ⟨piece, rfl, first⟩ := first
  obtain ⟨piece', rfl, second⟩ := second
  refine ⟨piece ++ piece', by rw [List.append_assoc], fun consumed m => ?_⟩
  obtain ⟨m', first⟩ := first consumed m
  obtain ⟨m'', second⟩ := second (piece.reverse ++ consumed) m'
  refine ⟨m'', ?_⟩
  rw [bind_apply first, second, List.reverse_append, List.append_assoc]

theorem Reads.length_le {r : Reader α} {t rest : Text} {a : α} (h : Reads r t a rest) :
    rest.length ≤ t.length := by
  obtain ⟨piece, rfl, -⟩ := h
  rw [List.length_append]
  omega

theorem Reads.of_ok {r : Reader α} (steady : Steady r) {consumed : List CodePoint} {t : Text} {m : Memory}
    {a : α} {s : Tokener} (ok : r ⟨consumed, t, m, 0⟩ = .ok a s) : Reads r t a s.rest ∧ s.before = 0 := by
  rcases steady t with ⟨b, rest, reads⟩ | fails
  · obtain ⟨piece, split, at_⟩ := id reads
    obtain ⟨m', here⟩ := at_ consumed m
    rw [here] at ok
    cases ok
    exact ⟨reads, rfl⟩
  · obtain ⟨fault, s', here⟩ := fails consumed m
    rw [here] at ok
    cases ok

theorem steady_pure (a : α) : Steady (pure a : Reader α) := fun t => .inl ⟨a, t, reads_pure a t⟩

theorem steady_fail (reason : SyntaxReason) : Steady (fail reason : Reader α) :=
  fun _ => .inr fun _ _ => ⟨_, _, rfl⟩

theorem Steady.bind {r : Reader α} {k : α → Reader β} (first : Steady r) (second : ∀ a, Steady (k a)) :
    Steady (r >>= k) := by
  intro t
  rcases first t with ⟨a, u, reads⟩ | fails
  · rcases second a u with ⟨b, rest, reads'⟩ | fails
    · exact .inl ⟨b, rest, reads.bind reads'⟩
    · refine .inr fun consumed m => ?_
      obtain ⟨piece, -, here⟩ := reads
      obtain ⟨m', here⟩ := here consumed m
      obtain ⟨fault, s, failed⟩ := fails (piece.reverse ++ consumed) m'
      exact ⟨fault, s, by rw [bind_apply here, failed]⟩
  · refine .inr fun consumed m => ?_
    obtain ⟨fault, s, failed⟩ := fails consumed m
    exact ⟨fault, s, bind_failed k failed⟩

theorem reads_next (c : CodePoint) (rest : Text) : Reads next (c :: rest) (some c) rest :=
  ⟨[c], rfl, fun _ _ => ⟨_, rfl⟩⟩

theorem reads_next_nil : Reads next [] none [] := ⟨[], rfl, fun _ _ => ⟨_, rfl⟩⟩

theorem steady_next : Steady next
  | [] => .inl ⟨_, _, reads_next_nil⟩
  | c :: rest => .inl ⟨_, _, reads_next c rest⟩

theorem reads_nextMany {n : Nat} (hn : n ≠ 0) {t : Text} (h : n ≤ t.length) :
    Reads (nextMany n) t (t.take n) (t.drop n) :=
  ⟨t.take n, (List.take_append_drop n t).symm, fun consumed m => ⟨_, nextMany_of_le consumed t m hn h⟩⟩

theorem steady_nextMany {n : Nat} (hn : n ≠ 0) : Steady (nextMany n) := by
  intro t
  by_cases fits : n ≤ t.length
  · exact .inl ⟨_, _, reads_nextMany hn fits⟩
  · exact .inr fun consumed m => ⟨_, _, nextMany_past (Nat.lt_of_not_le fits) consumed m⟩

/-! Blanks. The next significant character is the first one above the space. -/

private theorem isLayout_iff {c : CodePoint} : c.isLayout = true ↔ c ≤ Symbol.space := by
  simp only [CodePoint.isLayout, decide_eq_true_eq]

private theorem cleanWithin_blanks {blanks : Text} (low : ∀ c ∈ blanks, c ≤ Symbol.space) {limit : Nat}
    (enough : blanks.length ≤ limit) (consumed : List CodePoint) (m : Memory) :
    cleanWithin limit ⟨consumed, blanks, m, 0⟩ = .ok none ⟨blanks.reverse ++ consumed, [], .ending, 0⟩ := by
  induction blanks generalizing limit consumed m with
  | nil => cases limit <;> rfl
  | cons c blanks ih =>
    obtain ⟨limit, rfl⟩ : ∃ n, limit = n + 1 := Nat.exists_eq_succ_of_ne_zero (by rw [List.length_cons] at enough; omega)
    have layout : c.isLayout = true := isLayout_iff.mpr (low c List.mem_cons_self)
    rw [cleanWithin, cleanStep, bind_apply (next_cons consumed c blanks m)]
    simp only [layout, if_true]
    rw [ih (fun d member => low d (List.mem_cons_of_mem c member)) (by rw [List.length_cons] at enough; omega)]
    simp only [List.reverse_cons, List.append_assoc, List.singleton_append]

private theorem cleanWithin_mark {blanks : Text} (low : ∀ c ∈ blanks, c ≤ Symbol.space) {x : CodePoint}
    (high : Symbol.space < x) (rest : Text) {limit : Nat} (enough : blanks.length ≤ limit)
    (consumed : List CodePoint) (m : Memory) :
    cleanWithin limit ⟨consumed, blanks ++ x :: rest, m, 0⟩ =
      .ok (some x) ⟨x :: (blanks.reverse ++ consumed), rest, .character, 0⟩ := by
  induction blanks generalizing limit consumed m with
  | nil =>
    have solid : x.isLayout = false := by
      rw [Bool.eq_false_iff, ne_eq, isLayout_iff]
      exact Nat.not_le.mpr high
    cases limit with
    | zero => rfl
    | succ limit =>
      rw [List.nil_append, cleanWithin, cleanStep, bind_apply (next_cons consumed x rest m)]
      simp only [solid]
      rfl
  | cons c blanks ih =>
    obtain ⟨limit, rfl⟩ : ∃ n, limit = n + 1 := Nat.exists_eq_succ_of_ne_zero (by rw [List.length_cons] at enough; omega)
    have layout : c.isLayout = true := isLayout_iff.mpr (low c List.mem_cons_self)
    rw [List.cons_append, cleanWithin, cleanStep, bind_apply (next_cons consumed c (blanks ++ x :: rest) m)]
    simp only [layout, if_true]
    rw [ih (fun d member => low d (List.mem_cons_of_mem c member)) (by rw [List.length_cons] at enough; omega)]
    simp only [List.reverse_cons, List.append_assoc, List.singleton_append]

theorem nextClean_blanks {blanks : Text} (low : ∀ c ∈ blanks, c ≤ Symbol.space)
    (consumed : List CodePoint) (m : Memory) :
    nextClean ⟨consumed, blanks, m, 0⟩ = .ok none ⟨blanks.reverse ++ consumed, [], .ending, 0⟩ :=
  cleanWithin_blanks low (by simp only [Tokener.ahead]; omega) consumed m

theorem nextClean_mark {blanks : Text} (low : ∀ c ∈ blanks, c ≤ Symbol.space) {x : CodePoint}
    (high : Symbol.space < x) (rest : Text) (consumed : List CodePoint) (m : Memory) :
    nextClean ⟨consumed, blanks ++ x :: rest, m, 0⟩ =
      .ok (some x) ⟨x :: (blanks.reverse ++ consumed), rest, .character, 0⟩ :=
  cleanWithin_mark low high rest (by simp only [Tokener.ahead, List.length_append]; omega) consumed m

theorem nextClean_cons {x : CodePoint} (high : Symbol.space < x) (rest : Text)
    (consumed : List CodePoint) (m : Memory) :
    nextClean ⟨consumed, x :: rest, m, 0⟩ = .ok (some x) ⟨x :: consumed, rest, .character, 0⟩ :=
  nextClean_mark (List.forall_mem_nil _) high rest consumed m

/-- A text is blank as a whole, or a significant character comes next. -/
theorem blank_or_mark (t : Text) :
    (∀ c ∈ t, c ≤ Symbol.space) ∨ ∃ x rest, Symbol.space < x ∧ Mark x t rest := by
  induction t with
  | nil => exact .inl (List.forall_mem_nil _)
  | cons c t ih =>
    by_cases low : c ≤ Symbol.space
    · rcases ih with all | ⟨x, rest, high, blanks, lows, split⟩
      · exact .inl (List.forall_mem_cons.mpr ⟨low, all⟩)
      · exact .inr ⟨x, rest, high, c :: blanks, List.forall_mem_cons.mpr ⟨low, lows⟩, by rw [split]; rfl⟩
    · exact .inr ⟨c, t, Nat.lt_of_not_le low, Mark.here c t⟩

theorem reads_nextClean {x : CodePoint} (high : Symbol.space < x) {t rest : Text} (mark : Mark x t rest) :
    Reads nextClean t (some x) rest := by
  obtain ⟨blanks, low, rfl⟩ := mark
  refine ⟨blanks ++ [x], by simp only [List.append_assoc, List.singleton_append], fun consumed m => ⟨.character, ?_⟩⟩
  rw [nextClean_mark low high rest consumed m]
  simp only [List.reverse_append, List.reverse_singleton, List.cons_append, List.nil_append]

/-- What the next significant character can be, and how the place stands then. -/
theorem nextClean_ok {s s' : Tokener} {x : Option CodePoint} (inside : s.before = 0)
    (ok : nextClean s = .ok x s') :
    (∃ consumed, x = none ∧ Blanks s.rest [] ∧ s' = ⟨consumed, [], .ending, 0⟩) ∨
      ∃ c consumed rest, x = some c ∧ Symbol.space < c ∧ Mark c s.rest rest ∧
        s' = ⟨c :: consumed, rest, .character, 0⟩ := by
  obtain ⟨consumed, t, m, before⟩ := s
  cases inside
  rcases blank_or_mark t with low | ⟨c, rest, high, blanks, low, rfl⟩
  · rw [nextClean_blanks low consumed m] at ok
    cases ok
    exact .inl ⟨_, rfl, ⟨t, low, (List.append_nil t).symm⟩, rfl⟩
  · rw [nextClean_mark low high rest consumed m] at ok
    cases ok
    exact .inr ⟨c, _, rest, rfl, high, ⟨blanks, low, rfl⟩, rfl⟩

/-- What was looked at can be given back. -/
theorem exists_back {s s' : Tokener} {x : Option CodePoint} (inside : s.before = 0) (ok : nextClean s = .ok x s') :
    ∃ s'', back s' = .ok () s'' := by
  rcases nextClean_ok inside ok with ⟨_, -, -, rfl⟩ | ⟨_, _, _, -, -, -, rfl⟩ <;> exact ⟨_, rfl⟩

/-- What was looked at and given back is next, behind its blanks. -/
theorem back_ok {s s' s'' : Tokener} {x : Option CodePoint} (inside : s.before = 0)
    (first : nextClean s = .ok x s') (second : back s' = .ok () s'') :
    s''.before = 0 ∧ Blanks s.rest s''.rest ∧ s''.rest.head? = x ∧ ∀ c, x = some c → Symbol.space < c := by
  rcases nextClean_ok inside first with ⟨consumed, rfl, blank, rfl⟩ | ⟨c, consumed, rest, rfl, high, mark, rfl⟩
  · rw [back_ending] at second
    cases second
    exact ⟨rfl, blank, rfl, fun _ absent => nomatch absent⟩
  · rw [back_character] at second
    cases second
    refine ⟨rfl, mark, rfl, fun d same => ?_⟩
    cases same
    exact high

/-- What was looked at and given back is read once more. -/
theorem next_of_back {s s' s'' : Tokener} {x : Option CodePoint} (inside : s.before = 0)
    (first : nextClean s = .ok x s') (second : back s' = .ok () s'') : next s'' = .ok x s' := by
  rcases nextClean_ok inside first with ⟨consumed, rfl, -, rfl⟩ | ⟨c, consumed, rest, rfl, -, -, rfl⟩ <;>
    · cases second
      rfl

/-- A reader that does the same whether or not the blanks ahead have been passed. -/
def PassesBlanks (r : Reader α) : Prop :=
  ∀ (blanks : Text) (x : CodePoint) (rest consumed : Text) (m m' : Memory),
    (∀ c ∈ blanks, c ≤ Symbol.space) → Symbol.space < x →
      r ⟨blanks.reverse ++ consumed, x :: rest, m, 0⟩ = r ⟨consumed, blanks ++ x :: rest, m', 0⟩

theorem passesBlanks_nextClean (k : Option CodePoint → Reader α) : PassesBlanks (nextClean >>= k) := by
  intro blanks x rest consumed m m' low high
  rw [bind_apply (nextClean_cons high rest _ m), bind_apply (nextClean_mark low high rest consumed m')]

theorem PassesBlanks.bind {r : Reader α} (passes : PassesBlanks r) (k : α → Reader β) :
    PassesBlanks (r >>= k) := by
  intro blanks x rest consumed m m' low high
  rw [run_bind, run_bind, passes blanks x rest consumed m m' low high]

/-- The next significant character is read as the next one behind its blanks. -/
theorem reads_again {x : CodePoint} (high : Symbol.space < x) {t u rest : Text} (mark : Mark x t u)
    {k k' : Option CodePoint → Reader α} (same : k (some x) = k' (some x)) {a : α}
    (reads : Reads (next >>= k') (x :: u) a rest) : Reads (nextClean >>= k) t a rest := by
  obtain ⟨piece, split, reads⟩ := reads
  obtain ⟨blanks, low, rfl⟩ := mark
  refine ⟨blanks ++ piece, by rw [split, List.append_assoc], fun consumed m => ?_⟩
  obtain ⟨m', ok⟩ := reads (blanks.reverse ++ consumed) .nothing
  rw [bind_apply (next_cons _ x u _)] at ok
  refine ⟨m', ?_⟩
  rw [bind_apply (nextClean_mark low high u consumed m), same, ok, List.reverse_append, List.append_assoc]

/-- Looking at the next significant character and giving it back changes nothing. -/
theorem reads_peek {x : CodePoint} (high : Symbol.space < x) {t u rest : Text} (mark : Mark x t u)
    {k : Option CodePoint → Reader α} {r : Reader α} (after : k (some x) = back >>= fun _ => r)
    (passes : PassesBlanks r) {a : α} (reads : Reads r t a rest) : Reads (nextClean >>= k) t a rest := by
  obtain ⟨piece, split, reads⟩ := reads
  obtain ⟨blanks, low, rfl⟩ := mark
  refine ⟨piece, split, fun consumed m => ?_⟩
  obtain ⟨m', ok⟩ := reads consumed m
  refine ⟨m', ?_⟩
  rw [bind_apply (nextClean_mark low high u consumed m), after, bind_apply (back_character _ x u), ← ok]
  exact passes blanks x u consumed .nothing m low high

/-! String literals. -/

theorem steady_escape : Steady escape := by
  refine steady_next.bind fun c => ?_
  cases c with
  | none => exact steady_pure _
  | some c =>
    by_cases hex : c = Symbol.letterU
    · simp only [hex, if_true]
      exact (steady_nextMany (n := 4) (by decide)).bind fun _ => steady_pure _
    · simp only [hex, if_false]
      exact steady_pure _

theorem steady_stringWithin (mark : Option CodePoint) (limit : Nat) (read : List CodePoint) :
    Steady (stringWithin mark limit read) := by
  induction limit generalizing read with
  | zero => exact steady_fail _
  | succ limit ih =>
    refine steady_next.bind fun c => ?_
    cases c with
    | none => exact steady_fail _
    | some c =>
      dsimp only
      split
      · exact steady_fail _
      · split
        · refine steady_escape.bind fun meaning => ?_
          cases meaning with
          | none => exact steady_fail _
          | some meaning => exact ih (meaning :: read)
        · split
          · exact steady_pure _
          · exact ih (c :: read)

/-! A string literal read from its end: the mark, and before it characters and escapes. -/
section
variable {mark : Option CodePoint} {read : List CodePoint} {t u s rest : Text} {c : CodePoint}

theorem reads_stringWithin_closing (inLine : ¬ (c = Symbol.lineFeed ∨ c = Symbol.carriageReturn))
    (plain : c ≠ Symbol.backslash) (closing : some c = mark) (limit : Nat) :
    Reads (stringWithin mark (limit + 1) read) (c :: rest) read.reverse rest := by
  refine (reads_next c rest).bind ?_
  simp only [inLine, plain, closing, if_true, if_false]
  exact reads_pure _ rest

theorem reads_stringWithin_plain (inLine : ¬ (c = Symbol.lineFeed ∨ c = Symbol.carriageReturn))
    (plain : c ≠ Symbol.backslash) (inside : some c ≠ mark) {limit : Nat}
    (further : Reads (stringWithin mark limit (c :: read)) t s rest) :
    Reads (stringWithin mark (limit + 1) read) (c :: t) s rest := by
  refine (reads_next c t).bind ?_
  simp only [inLine, plain, inside, if_false]
  exact further

theorem reads_stringWithin_escaped (escaped : Reads escape t (some c) u) {limit : Nat}
    (further : Reads (stringWithin mark limit (c :: read)) u s rest) :
    Reads (stringWithin mark (limit + 1) read) (Symbol.backslash :: t) s rest :=
  (reads_next Symbol.backslash t).bind (escaped.bind further)

end

theorem nextString_apply (mark : Option CodePoint) (consumed : List CodePoint) (t : Text) (m : Memory) :
    nextString mark ⟨consumed, t, m, 0⟩ = stringWithin mark (t.length + 1) [] ⟨consumed, t, m, 0⟩ := by
  rw [nextString, run, Tokener.ahead, Nat.zero_add]

theorem steady_nextString (mark : Option CodePoint) : Steady (nextString mark) := by
  intro t
  simp only [Reads, nextString_apply]
  exact steady_stringWithin mark (t.length + 1) [] t

theorem reads_nextString {mark : CodePoint} {t s rest : Text} (literal : Literal mark t s rest) :
    Reads (nextString (some mark)) t s rest := by
  obtain ⟨place, ok, rfl⟩ := literal
  exact (Reads.of_ok (steady_nextString (some mark)) ok).1

theorem nextString_ok {mark : CodePoint} {place place' : Tokener} {s : Text} (inside : place.before = 0)
    (ok : nextString (some mark) place = .ok s place') :
    Literal mark place.rest s place'.rest ∧ place'.before = 0 := by
  obtain ⟨consumed, t, m, before⟩ := place
  cases inside
  obtain ⟨⟨piece, split, reads⟩, after⟩ := Reads.of_ok (steady_nextString (some mark)) ok
  obtain ⟨m', first⟩ := reads [] .nothing
  exact ⟨⟨_, first, rfl⟩, after⟩

theorem isQuoteMark_iff {c : CodePoint} : isQuoteMark c = true ↔ IsQuoteMark c := by
  simp only [isQuoteMark, IsQuoteMark, Bool.or_eq_true, beq_iff_eq]

/-! Bare words. -/

theorem isBare_iff {c : CodePoint} : isBare c = true ↔ IsBare c := by
  simp only [isBare, IsBare, stops, Bool.and_eq_true, decide_eq_true_eq, Bool.not_eq_true', Bool.or_eq_false_iff,
    beq_eq_false_iff_ne, List.mem_cons, List.not_mem_nil, or_false, not_or, and_assoc, ne_eq]

/-- A run is read with the character that comes first in it. -/
private theorem bareWithin_run {run rest : Text} (bare : ∀ c ∈ run, IsBare c)
    (longest : ∀ c, rest.head? = some c → ¬ IsBare c) {limit : Nat} (enough : run.length < limit)
    (read consumed : List CodePoint) (m : Memory) :
    (next >>= fun first => bareWithin limit first read) ⟨consumed, run ++ rest, m, 0⟩ =
      .ok (read.reverse ++ run) ⟨run.reverse ++ consumed, rest, .nothing, 0⟩ := by
  induction run generalizing limit read consumed m with
  | nil =>
    obtain ⟨limit, rfl⟩ : ∃ n, limit = n + 1 := Nat.exists_eq_succ_of_ne_zero (by omega)
    cases rest with
    | nil =>
      rw [List.append_nil, bind_apply (next_nil consumed m), List.append_nil]
      rfl
    | cons c rest =>
      have foreign : isBare c = false := by
        rw [Bool.eq_false_iff, ne_eq, isBare_iff]
        exact longest c rfl
      rw [List.nil_append, bind_apply (next_cons consumed c rest m), List.append_nil, bareWithin, bareStep]
      simp only [foreign]
      rfl
  | cons c run ih =>
    rw [List.length_cons] at enough
    obtain ⟨limit, rfl⟩ : ∃ n, limit = n + 1 := Nat.exists_eq_succ_of_ne_zero (by omega)
    rw [List.cons_append, bind_apply (next_cons consumed c (run ++ rest) m), bareWithin, bareStep]
    simp only [isBare_iff.mpr (bare c List.mem_cons_self), if_true]
    rw [ih (fun d member => bare d (List.mem_cons_of_mem c member)) (by omega)]
    simp only [List.reverse_cons, List.append_assoc, List.singleton_append]

theorem bareRun_apply {run rest : Text} (bare : ∀ c ∈ run, IsBare c)
    (longest : ∀ c, rest.head? = some c → ¬ IsBare c) (consumed : List CodePoint) (m : Memory) :
    (next >>= bareRun) ⟨consumed, run ++ rest, m, 0⟩ = .ok run ⟨run.reverse ++ consumed, rest, .nothing, 0⟩ := by
  have shorter : run.length < (run ++ rest).length + 1 := by
    rw [List.length_append]
    omega
  have within := bareWithin_run bare longest shorter [] consumed m
  generalize run ++ rest = t at within ⊢
  cases t with
  | nil => exact within
  | cons c t =>
    rw [bind_apply (next_cons consumed c t m)] at within ⊢
    rw [bareRun, Reader.run, Tokener.ahead, Nat.zero_add]
    exact within

/-- Every text begins with a longest run of bare characters, which may be empty. -/
theorem exists_bareRun (t : Text) :
    ∃ run rest, t = run ++ rest ∧ (∀ c ∈ run, IsBare c) ∧ ∀ c, rest.head? = some c → ¬ IsBare c := by
  induction t with
  | nil => exact ⟨[], [], rfl, List.forall_mem_nil _, fun c h => nomatch h⟩
  | cons c t ih =>
    by_cases bare : IsBare c
    · obtain ⟨run, rest, rfl, all, longest⟩ := ih
      exact ⟨c :: run, rest, rfl, List.forall_mem_cons.mpr ⟨bare, all⟩, longest⟩
    · refine ⟨[], c :: t, rfl, List.forall_mem_nil _, fun d first => ?_⟩
      cases first
      exact bare

/-- Read with its first character, a bare word is the run as a whole, from which the spaces around it are stripped. -/
theorem bareWord_apply {run rest : Text} (bare : ∀ c ∈ run, IsBare c)
    (longest : ∀ c, rest.head? = some c → ¬ IsBare c) (consumed : List CodePoint) (m : Memory) :
    (next >>= bareWord) ⟨consumed, run ++ rest, m, 0⟩ =
      (if run.strip = [] then fail .missingValue else pure (inferred run.strip) : Reader Scalar)
        ⟨run.reverse ++ consumed, rest, .nothing, 0⟩ := by
  have whole : next >>= bareWord = (next >>= bareRun) >>= fun run =>
      if run.strip = [] then fail .missingValue else pure (inferred run.strip) := (bind_assoc ..).symm
  rw [whole, bind_apply (bareRun_apply bare longest consumed m)]

theorem reads_bareWord {t run rest : Text} (word : BareRun t run rest) (named : run.strip ≠ []) :
    Reads (next >>= bareWord) t (inferred run.strip) rest := by
  refine ⟨run, word.split, fun consumed m => ⟨.nothing, ?_⟩⟩
  rw [word.split, bareWord_apply word.bare word.longest, if_neg named]
  rfl

theorem bareWord_ok {s s' : Tokener} {value : Scalar} (inside : s.before = 0)
    (ok : (next >>= bareWord) s = .ok value s') :
    ∃ run, s.rest = run ++ s'.rest ∧ (∀ c ∈ run, IsBare c) ∧ (∀ c, s'.rest.head? = some c → ¬ IsBare c) ∧
      run.strip ≠ [] ∧ value = inferred run.strip ∧ s'.before = 0 := by
  obtain ⟨consumed, t, m, before⟩ := s
  cases inside
  obtain ⟨run, rest, rfl, bare, longest⟩ := exists_bareRun t
  rw [bareWord_apply bare longest] at ok
  split at ok
  · cases ok
  · next named =>
    obtain ⟨rfl, rfl⟩ := pure_ok.mp ok
    exact ⟨run, rfl, bare, longest, named, rfl, rfl⟩

end LenientJson.Reader
