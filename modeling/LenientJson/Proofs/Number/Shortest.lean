import LenientJson.Number.Shortest
import LenientJson.Proofs.Number.Rounding

/-! The shortest text of a binary64 number. The search ends with a decimal that reads back: either on
one of the grids, where this is what is searched for, or with the exact value. Zeros at the end of its
coefficient are not written, so the digits written end in a digit other than zero. -/
namespace LenientJson.Double

theorem readsBack_of_onGrid? {rank coefficient : Nat} {exponent : Int} (found : onGrid? rank exponent = some coefficient) :
    readsBack rank coefficient exponent = true := by
  simp only [onGrid?] at found
  split at found
  · next low high =>
    split at found
    · cases found
      exact high
    · cases found
      exact low
  · next low _ =>
    cases found
    exact low
  · next high =>
    cases found
    exact high
  · cases found

theorem unitsOf_lt {rank : Nat} (bound : rank < rankCount) : unitsOf rank < twoTo 2098 := by
  rcases rank_cases rank with small | ⟨m, k, low, high, rfl⟩
  · rw [unitsOf, if_pos small]
    exact Nat.lt_trans small (twoTo_lt (by decide))
  · have shift : k ≤ 2045 := by
      refine Nat.le_of_lt_succ (Nat.lt_of_mul_lt_mul_right (a := twoTo 52) ?_)
      have count : rankCount = twoTo 52 + 2046 * twoTo 52 := by rw [rankCount]; ring
      omega
    have room : twoTo k ≤ twoTo 2045 := twoTo_le shift
    have product : twoTo 2098 = twoTo 53 * twoTo 2045 := twoTo_add 53 2045
    rw [unitsOf_shifted low high, product]
    exact Nat.mul_lt_mul_of_lt_of_le high room (twoTo_pos _)

theorem unitsOf_pos {rank : Nat} (positive : 0 < rank) : 0 < unitsOf rank := by
  rcases rank_cases rank with small | ⟨m, k, low, high, rfl⟩
  · rwa [unitsOf, if_pos small]
  · rw [unitsOf_shifted low high]
    exact Nat.mul_pos (Nat.lt_of_lt_of_le (twoTo_pos 52) low) (twoTo_pos k)

/-- The exact value of a number, written out to the last digit, reads back. -/
private theorem readsBack_exact {rank : Nat} (positive : 0 < rank) (bound : rank < rankCount) {fives : Nat}
    (total : tenTo 1074 = twoTo 1074 * fives) (least : tenTo 743 ≤ fives) :
    readsBack rank (unitsOf rank * fives) (-1074) = true := by
  have units := unitsOf_pos positive
  have most := unitsOf_lt bound
  have room : twoTo 1024 ≤ tenTo 310 := by decide +kernel
  have fivesPos : 0 < fives := Nat.lt_of_lt_of_le (tenTo_pos 743) least
  have nonzero : unitsOf rank * fives ≠ 0 := Nat.ne_of_gt (Nat.mul_pos units fivesPos)
  have short : (decimalText (unitsOf rank * fives)).length ≤ 1384 := by
    rw [decimalText_length_le_iff (by decide), show 1384 = 310 + 1074 from rfl, tenTo_add, total, ← Nat.mul_assoc]
    refine Nat.mul_lt_mul_of_lt_of_le ?_ (Nat.le_refl fives) fivesPos
    rw [show 2098 = 1024 + 1074 from rfl, twoTo_add] at most
    exact Nat.lt_of_lt_of_le most (Nat.mul_le_mul_right _ room)
  have long : 743 < (decimalText (unitsOf rank * fives)).length := by
    refine Nat.lt_of_not_le fun shorter => ?_
    rw [decimalText_length_le_iff (by decide)] at shorter
    have := Nat.le_mul_of_pos_left fives units
    omega
  refine (@readsBack_iff ⟨rank, bound⟩ _ _).mpr fun negative => ?_
  rw [ofNumeral_eq negative _ nonzero, if_neg (by omega), if_neg (by omega)]
  refine ofRatio_of_exact negative (ratioOf_pos _ _) _ ?_
  have ratio : ratioOf (unitsOf rank * fives) (-1074) = (unitsOf rank * fives, tenTo 1074) := if_neg (by decide)
  rw [ratio, total]
  ring

theorem readsBack_searchGrids {rank : Nat} (positive : 0 < rank) (bound : rank < rankCount) (count : Nat)
    (exponent : Int) :
    readsBack rank (searchGrids rank count exponent).1 (searchGrids rank count exponent).2 = true := by
  induction count generalizing exponent with
  | zero =>
    have total : tenTo 1074 = twoTo 1074 * Nat.pow 5 1074 := by decide +kernel
    have least : tenTo 743 ≤ Nat.pow 5 1074 := by decide +kernel
    rw [searchGrids]
    exact readsBack_exact positive bound total least
  | succ count ih =>
    rw [searchGrids]
    split
    · next found => exact readsBack_of_onGrid? found
    · exact ih (exponent - 1)

theorem readsBack_shortest {rank : Nat} (positive : 0 < rank) (bound : rank < rankCount) :
    readsBack rank (shortest rank).1 (shortest rank).2 = true :=
  readsBack_searchGrids positive bound 17 _

/-- Without the zeros at its end, a coefficient is a smaller one with a greater exponent. -/
theorem significantDigits_eq {coefficient : Nat} (positive : 0 < coefficient) :
    ∃ c k, coefficient = c * tenTo k ∧ c % 10 ≠ 0 ∧ significantDigits coefficient = decimalText c := by
  have last {n : Nat} {digits : Text} {c : Nat} (text : decimalText n = digits ++ [c]) (other : c ≠ 0x30) :
      significantDigits n = decimalText n := by
    have kept : ((digits ++ [c]).reverse.dropWhile (· == Symbol.zero)) = (digits ++ [c]).reverse := by
      rw [List.reverse_append, List.reverse_singleton, List.singleton_append, List.dropWhile_cons_of_neg]
      simpa using other
    rw [significantDigits, text, kept, List.reverse_reverse]
    cases digits <;> rfl
  induction coefficient using decimal_induction with
  | one d small =>
    refine ⟨d, 0, (Nat.mul_one d).symm, by omega, ?_⟩
    have text : decimalText d = [] ++ [0x30 + d] := decimalText_of_lt small
    exact last text (by omega)
  | more n d front small ih =>
    by_cases zero : d = 0
    · obtain ⟨c, k, split, nonzero, digits⟩ := ih front
      refine ⟨c, k + 1, ?_, nonzero, ?_⟩
      · rw [split, zero, tenTo_succ]
        ring
      · rw [← digits, significantDigits, significantDigits, decimalText_append front small, zero, List.reverse_append,
          List.reverse_singleton, List.singleton_append]
        rfl
    · refine ⟨10 * n + d, 0, (Nat.mul_one _).symm, by omega, ?_⟩
      exact last (decimalText_append front small) (by omega)

/-! Integers below `10 ^ 16`. Those that binary64 holds are written exactly; the others are odd, and no
search ends with one of them. -/

theorem exists_rank_of_shifted {m k : Nat} (low : twoTo 52 ≤ m) (high : m < twoTo 53) (shift : k ≤ 2045) :
    ∃ rank : Fin rankCount, unitsOf rank = m * twoTo k := by
  have count : rankCount = twoTo 52 + 2046 * twoTo 52 := by rw [rankCount]; ring
  have double : twoTo 53 = 2 * twoTo 52 := twoTo_succ 52
  have below : k * twoTo 52 ≤ 2045 * twoTo 52 := Nat.mul_le_mul_right _ shift
  exact ⟨⟨m + k * twoTo 52, by omega⟩, unitsOf_shifted low high⟩

theorem exists_rank_of_integer {n : Nat} (positive : 0 < n) (small : n < twoTo 53 ∨ n < twoTo 54 ∧ n % 2 = 0) :
    ∃ rank : Fin rankCount, unitsOf rank = n * twoTo 1074 := by
  have low := Nat.log2_self_le (Nat.ne_of_gt positive)
  have high := Nat.lt_log2_self (n := n)
  by_cases short : n < twoTo 53
  · have bits : n.log2 < 53 := (Nat.log2_lt (Nat.ne_of_gt positive)).mpr short
    obtain ⟨gap, rest⟩ : ∃ gap, n.log2 + gap = 52 := ⟨52 - n.log2, by omega⟩
    obtain ⟨rank, units⟩ := exists_rank_of_shifted (m := n * twoTo gap) (k := 1022 + n.log2) (by
      rw [← rest, twoTo_add]
      exact Nat.mul_le_mul_right _ low) (by
      rw [show 53 = n.log2 + 1 + gap by omega, twoTo_add]
      exact Nat.mul_lt_mul_of_pos_right high (twoTo_pos gap)) (by omega)
    refine ⟨rank, ?_⟩
    rw [units, Nat.mul_assoc, ← twoTo_add, show gap + (1022 + n.log2) = 1074 by omega]
  · obtain ⟨limit, even⟩ := small.resolve_left short
    have half : n = n / 2 * 2 := by omega
    have lower : twoTo 53 = 2 * twoTo 52 := twoTo_succ 52
    have upper : twoTo 54 = 2 * twoTo 53 := twoTo_succ 53
    obtain ⟨rank, units⟩ := exists_rank_of_shifted (m := n / 2) (k := 1075) (by omega) (by omega) (by omega)
    refine ⟨rank, ?_⟩
    rw [units, twoTo_succ 1074, ← Nat.mul_assoc, ← half]

theorem onGrid?_zero {rank n : Nat} (units : unitsOf rank = n * twoTo 1074) (reads : readsBack rank n 0 = true) :
    onGrid? rank 0 = some n := by
  have scale : scaleDown (unitsOf rank) (twoTo 1074) 0 = (n * twoTo 1074, twoTo 1074 * 1) := by
    have one : tenTo (Int.toNat 0) = 1 := rfl
    rw [scaleDown, if_pos (Int.le_refl 0), units, one]
  have positive := twoTo_pos 1074
  simp only [onGrid?, scale, Nat.mul_one, Nat.mul_div_cancel _ positive, Nat.mul_mod_left, reads]
  generalize twoTo 1074 = scale at positive
  cases readsBack rank (n + 1) 0 with
  | true => exact congrArg some (if_neg (by omega))
  | false => rfl

/-- The search for an integer ends with that integer or on a coarser grid. -/
theorem searchGrids_of_integer {rank n : Nat} (units : unitsOf rank = n * twoTo 1074) (reads : readsBack rank n 0 = true)
    (count place : Nat) (enough : place < count) :
    (searchGrids rank count place).2 = 0 ∧ (searchGrids rank count place).1 = n ∨ 0 < (searchGrids rank count place).2 := by
  induction count generalizing place with
  | zero => omega
  | succ count ih =>
    rw [searchGrids]
    cases place with
    | zero =>
      rw [show ((0 : Nat) : Int) = 0 from rfl, onGrid?_zero units reads]
      exact .inl ⟨rfl, rfl⟩
    | succ place =>
      split
      · exact .inr (by omega)
      · rw [show ((place + 1 : Nat) : Int) - 1 = place by omega]
        exact ih place (by omega)

theorem ofNumeral_of_small (negative : Bool) {c : Nat} (zeros : Nat) (positive : 0 < c)
    (short : zeros + (decimalText c).length ≤ 310) :
    ofNumeral ⟨negative, c, zeros⟩ = ofRatio negative (c * tenTo zeros) 1 := by
  have ratio : ratioOf c zeros = (c * tenTo zeros, 1) := if_pos (by omega)
  rw [ofNumeral_eq negative _ (Nat.ne_of_gt positive), if_neg (by omega), if_neg (by omega), ratio]

/-- An odd integer of 54 bits lies halfway between two binary64 numbers, which are even integers. -/
theorem nearestRank_of_odd {n : Nat} (low : twoTo 53 ≤ n) (high : n + 2 < twoTo 54) :
    ∃ m, twoTo 52 ≤ m ∧ m < twoTo 53 ∧ nearestRank n 1 = m + 1075 * twoTo 52 := by
  have lower : twoTo 53 = 2 * twoTo 52 := twoTo_succ 52
  have upper : twoTo 54 = 2 * twoTo 53 := twoTo_succ 53
  have shift : (n * twoTo 1074 / 1).log2 - 52 = 1075 := by
    have bits : (n * twoTo 1074).log2 = 1127 := by
      refine log2_eq ?_ ?_
      · have split : twoTo 1127 = twoTo 53 * twoTo 1074 := twoTo_add 53 1074
        rw [split]
        exact Nat.mul_le_mul_right _ low
      · have split : twoTo (1127 + 1) = twoTo 54 * twoTo 1074 := twoTo_add 54 1074
        rw [split]
        exact Nat.mul_lt_mul_of_pos_right (by omega) (twoTo_pos 1074)
    rw [Nat.div_one, bits]
  have quotient : n * twoTo 1074 / (1 * twoTo 1075) = n / 2 := by
    rw [Nat.one_mul, twoTo_succ 1074]
    exact Nat.mul_div_mul_right n 2 (twoTo_pos 1074)
  rw [nearestRank_of_shift shift, quotient]
  split
  · exact ⟨n / 2 + 1, by omega, by omega, rfl⟩
  · exact ⟨n / 2, by omega, by omega, rfl⟩

/-- No odd integer that lies between two numbers is what the search for one of them ends with. -/
theorem shortest_of_halfway {rank : Fin rankCount} {n c k zeros : Nat} (low : twoTo 53 ≤ n) (high : n + 2 < twoTo 54)
    (odd : n % 2 = 1) (nearest : nearestRank n 1 = rank) (digits : (shortest rank).1 = c * tenTo k)
    (integer : (shortest rank).2 + k = zeros) : c * tenTo zeros ≠ n := by
  intro value
  obtain ⟨m, lower, upper, same⟩ := nearestRank_of_odd low high
  have units : unitsOf rank = 2 * m * twoTo 1074 := by
    rw [← nearest, same, unitsOf_shifted lower upper, twoTo_succ 1074]
    ring
  have positive : 0 < 2 * m := by
    have := twoTo_pos 52
    omega
  have short : (decimalText (2 * m)).length ≤ 17 := by
    have room : 2 * twoTo 53 < tenTo 17 := by decide +kernel
    exact (decimalText_length_le_iff (by decide)).mpr (by omega)
  have reads : readsBack rank (2 * m) 0 = true := by
    refine readsBack_iff.mpr fun negative => ?_
    have read := ofNumeral_of_small negative 0 positive (by omega)
    rw [show ((0 : Nat) : Int) = 0 from rfl, show tenTo 0 = 1 from rfl, Nat.mul_one] at read
    rw [read]
    exact ofRatio_of_exact negative Nat.one_pos rank (by rw [units, Nat.mul_one])
  obtain ⟨place, length⟩ : ∃ place, (decimalText (2 * m)).length = place + 1 :=
    Nat.exists_eq_succ_of_ne_zero (Nat.ne_of_gt (decimalText_length_pos _))
  have lead : leadingExponent (unitsOf rank) (twoTo 1074) = place := by
    rw [leadingExponent, units, if_pos (Nat.le_mul_of_pos_left _ positive), Nat.mul_div_cancel _ (twoTo_pos 1074), length]
    omega
  have search : shortest rank = searchGrids rank 17 place := by rw [shortest, lead]
  rw [search] at digits integer
  rcases searchGrids_of_integer units reads 17 place (by omega) with ⟨exponent, coefficient⟩ | coarser
  · rw [show k = zeros by omega, coefficient] at digits
    omega
  · obtain ⟨fewer, rfl⟩ : ∃ fewer, zeros = fewer + 1 := Nat.exists_eq_succ_of_ne_zero (by omega)
    have even : n = 2 * (c * (5 * tenTo fewer)) := by
      rw [← value, tenTo_succ]
      ring
    omega

/-- A number that is written as an integer is that integer. -/
theorem unitsOf_of_integer {rank : Fin rankCount} (positive : 0 < rank.val) {c k zeros : Nat}
    (digits : (shortest rank).1 = c * tenTo k) (integer : (shortest rank).2 + k = zeros)
    (short : zeros + (decimalText c).length ≤ 16) : unitsOf rank = c * tenTo zeros * twoTo 1074 := by
  have reads := readsBack_shortest positive rank.isLt
  have read : ofNumeral ⟨false, c, zeros⟩ = .finite false rank := by
    rw [← ofNumeral_mul_tenTo false c k, ← digits, show (zeros : Int) - k = (shortest rank).2 by omega]
    exact readsBack_iff.mp reads false
  have coefficient : 0 < c := by
    refine Nat.pos_of_ne_zero fun zero => ?_
    rw [zero, ofNumeral_zero, Double.zero, Double.finite.injEq] at read
    rw [← read.2] at positive
    exact absurd positive (Nat.lt_irrefl 0)
  rw [ofNumeral_of_small false zeros coefficient (by omega)] at read
  have written : 0 < c * tenTo zeros := Nat.mul_pos coefficient (tenTo_pos zeros)
  have limit : c * tenTo zeros < tenTo 16 := by
    refine (decimalText_length_le_iff (by decide)).mp ?_
    rw [decimalText_mul_tenTo coefficient, List.length_append, List.length_replicate]
    omega
  generalize value : c * tenTo zeros = n at *
  by_cases held : n < twoTo 53 ∨ n < twoTo 54 ∧ n % 2 = 0
  · obtain ⟨rank', units⟩ := exists_rank_of_integer written held
    rw [ofRatio_of_exact false Nat.one_pos rank' (by rw [units, Nat.mul_one]), Double.finite.injEq] at read
    rw [← read.2, units]
  · have room : tenTo 16 + 2 < twoTo 54 := by decide +kernel
    have nearest : nearestRank n 1 = rank := by
      rw [ofRatio, ofRank] at read
      split at read
      · rw [Double.finite.injEq] at read
        exact congrArg Fin.val read.2
      · cases read
    exact absurd value (shortest_of_halfway (by omega) (by omega) (by omega) nearest digits integer)

end LenientJson.Double
