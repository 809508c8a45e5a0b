import RichardTest.Eipd.Cells
import Mathlib.Algebra.Order.BigOperators.Group.Finset

namespace RichardTest.Eipd

open Counter Finset

section Holes

-- An empty cell with a filled one above it.
def IsHole (brd : Board) (i j : Nat) : Prop :=
  filled brd i j = false ∧ ∃ k < brd.length, i < k ∧ filled brd k j = true

instance (brd : Board) (i j : Nat) : Decidable (IsHole brd i j) := inferInstanceAs (Decidable (_ ∧ _))

def rowHoles (brd : Board) (col i : Nat) : Nat := ∑ j ∈ range col, if IsHole brd i j then 1 else 0

-- The number of holes.
def holes (brd : Board) (col : Nat) : Nat := ∑ i ∈ range brd.length, rowHoles brd col i

theorem rowHoles_eq_zero_iff {brd : Board} {col i : Nat} : rowHoles brd col i = 0 ↔ ∀ j < col, ¬IsHole brd i j := by
  rw [rowHoles, sum_eq_zero_iff]
  simp only [mem_range, ite_eq_right_iff, one_ne_zero, imp_false]

-- No row is above the top row.
theorem rowHoles_top (brd : Board) (col : Nat) : rowHoles brd col (brd.length - 1) = 0 := by
  rw [rowHoles_eq_zero_iff]
  intro j _ hhole
  obtain ⟨-, k, hk, hlt, -⟩ := hhole
  omega

-- The bits of `p_rw | rw_hl` are the columns with a filled cell above row `i`.
theorem hlLoop_count {brd : Board} {col i : Nat} (hcol : col ≤ 32) (hi : i < brd.length) {rw_hl p_rw : Row}
    (h : ∀ j < col, (p_rw ||| rw_hl).getLsbD j = true ↔ ∃ k < brd.length, i < k ∧ filled brd k j = true)
    {hl : Nat} (hhl : hl < 2 ^ 31) :
    hlLoop brd col i rw_hl p_rw hl = count (2 ^ 31) (hl + ∑ k ∈ range i, rowHoles brd col (k + 1)) := by
  induction i generalizing rw_hl p_rw hl with
  | zero =>
      rw [range_zero, sum_empty, Nat.add_zero, count_of_lt hhl]
      rfl
  | succ i ih =>
      have hread : read brd ((i : Int) + 1) = some (brd.getD (i + 1) 0) := read_of_lt (i := i + 1) hi
      have hbit : ∀ j < col,
          (~~~brd.getD (i + 1) 0 &&& (p_rw ||| rw_hl)).getLsbD j = decide (IsHole brd (i + 1) j) := by
        intro j hj
        rw [BitVec.getLsbD_and, BitVec.getLsbD_not, decide_eq_true (show j < 32 by omega), Bool.true_and]
        rw [Bool.eq_iff_iff, Bool.and_eq_true, Bool.not_eq_true', h j hj, decide_eq_true_eq]
        rfl
      have hsum : ∑ j ∈ range col, ((~~~brd.getD (i + 1) 0 &&& (p_rw ||| rw_hl)).getLsbD j).toNat =
          rowHoles brd col (i + 1) := by
        apply sum_congr rfl
        intro j hj
        rw [hbit j (mem_range.mp hj)]
        by_cases hhole : IsHole brd (i + 1) j <;> simp [hhole]
      rw [hlLoop, hread, Option.bind_eq_bind, Option.bind_some]
      simp only [Option.bind_eq_bind]
      rw [addBits_count _ hcol hhl, hsum, sum_range_succ, Nat.add_comm (∑ k ∈ range i, _), ← Nat.add_assoc]
      apply count_bind
      intro hlt
      refine ih (by omega) ?_ hlt
      intro j hj
      rw [BitVec.getLsbD_or, hbit j hj, Bool.or_eq_true, decide_eq_true_eq]
      constructor
      · intro hor
        rcases hor with hfilled | hhole
        · exact ⟨i + 1, hi, Nat.lt_succ_self i, hfilled⟩
        · obtain ⟨-, k, hk, hlt, hfilled⟩ := hhole
          exact ⟨k, hk, by omega, hfilled⟩
      · intro habove
        obtain ⟨k, hk, hlt, hfilled⟩ := habove
        by_cases hnext : filled brd (i + 1) j = true
        · exact Or.inl hnext
        · have hne : k ≠ i + 1 := fun heq => hnext (heq ▸ hfilled)
          exact Or.inr ⟨Bool.eq_false_of_not_eq_true hnext, k, hk, by omega, hfilled⟩

-- What gt_hl counts: every row but the lowest.
theorem gtHl_count {brd : Board} (hne : brd ≠ []) {col : Nat} (hcol : col ≤ 32) :
    gtHl brd col brd.length = count (2 ^ 31) (∑ k ∈ range (brd.length - 1), rowHoles brd col (k + 1)) := by
  have hpos := List.length_pos_iff.mpr hne
  have htop := rowHoles_top brd col
  obtain ⟨n, hn⟩ : ∃ n, brd.length = n + 1 := ⟨brd.length - 1, by omega⟩
  have hread : read brd ((brd.length : Int) - 1) = some (brd.getD n 0) := by
    rw [show (brd.length : Int) - 1 = (n : Nat) by omega]
    exact read_of_lt (by omega)
  rw [gtHl, hread, Option.bind_eq_bind, Option.bind_some, hn, Nat.add_sub_cancel]
  rw [hn, Nat.add_sub_cancel] at htop
  cases n with
  | zero => rfl
  | succ n =>
      have habove : ∀ j < col, (brd.getD (n + 1) 0 ||| 0).getLsbD j = true ↔
          ∃ k < brd.length, n < k ∧ filled brd k j = true := by
        intro j _
        rw [show brd.getD (n + 1) 0 ||| 0 = brd.getD (n + 1) 0 from BitVec.or_zero]
        constructor
        · intro hfilled
          exact ⟨n + 1, by omega, Nat.lt_succ_self n, hfilled⟩
        · intro hex
          obtain ⟨k, hk, hlt, hfilled⟩ := hex
          rw [show k = n + 1 by omega] at hfilled
          exact hfilled
      rw [sum_range_succ, htop, Nat.add_zero]
      have hloop := hlLoop_count hcol (show n < brd.length by omega) habove (show 0 < 2 ^ 31 by decide)
      rw [Nat.zero_add] at hloop
      exact hloop

-- The holes of the lowest row are left out, and the count is an `int`.
theorem gtHl_right_iff (brd : Board) {col : Nat} (hcol : col ≤ 31) :
    gtHl brd col brd.length = some (holes brd col) ↔
      brd ≠ [] ∧ (∀ j < col, ¬IsHole brd 0 j) ∧ holes brd col < 2 ^ 31 := by
  by_cases hne : brd = []
  · subst hne
    exact iff_of_false (by simp [gtHl, read_of_neg]) fun h => h.1 rfl
  · have hsplit : holes brd col =
        ∑ k ∈ range (brd.length - 1), rowHoles brd col (k + 1) + rowHoles brd col 0 := by
      have hpos := List.length_pos_iff.mpr hne
      rw [holes, show brd.length = brd.length - 1 + 1 by omega, sum_range_succ', Nat.add_sub_cancel]
    rw [gtHl_count hne (by omega), count_eq_some_iff, and_iff_right hne, ← rowHoles_eq_zero_iff]
    omega

-- A hole in the middle row of three.
theorem gtHl_right_three : gtHl [1, 0, 1] 1 3 = some (holes [1, 0, 1] 1) :=
  (gtHl_right_iff [1, 0, 1] (by decide)).mpr ⟨by decide, by decide, by decide⟩

-- A filled cell on an empty one in the lowest row.
theorem gtHl_misses_lowest :
    ¬∀ (brd : Board) (col : Nat), 1 ≤ col → col ≤ 31 → gtHl brd col brd.length = some (holes brd col) := by
  intro hall
  exact absurd (hall [0, 1] 1 (by decide) (by decide)) (by decide)

end Holes

section Wells

-- An empty cell between two filled ones. The walls count as filled.
def IsWell (brd : Board) (col i j : Nat) : Prop :=
  filled brd i j = false ∧ (j = 0 ∨ filled brd i (j - 1) = true) ∧ (j + 1 = col ∨ filled brd i (j + 1) = true)

instance (brd : Board) (col i j : Nat) : Decidable (IsWell brd col i j) := inferInstanceAs (Decidable (_ ∧ _))

-- The number of empty cells directly below row `i`, one below the other.
def depth (brd : Board) (j : Nat) : Nat → Nat
  | 0 => 0
  | i + 1 => if filled brd i j then 0 else depth brd j i + 1

def well (brd : Board) (col i j : Nat) : Nat := if IsWell brd col i j then 1 + depth brd j i else 0

-- The well sum.
def wellSum (brd : Board) (col : Nat) : Nat := ∑ i ∈ range brd.length, ∑ j ∈ range col, well brd col i j

theorem well_eq_zero_iff {brd : Board} {col i j : Nat} : well brd col i j = 0 ↔ ¬IsWell brd col i j := by
  rw [well]
  split_ifs with h
  · exact iff_of_false (by omega) fun hnot => hnot h
  · exact iff_of_true rfl h

-- As the program counts it: the lowest row is not looked at.
def wallDepth (brd : Board) (j : Nat) : Nat → Nat
  | 0 => 0
  | k + 1 => if filled brd (k + 1) j then 0 else wallDepth brd j k + 1

theorem wallDepth_le (brd : Board) (j k : Nat) : wallDepth brd j k ≤ depth brd j (k + 1) := by
  induction k with
  | zero => exact Nat.zero_le _
  | succ k ih =>
      rw [wallDepth, depth]
      split_ifs
      · exact Nat.le_refl 0
      · omega

theorem wallDepth_eq_iff {brd : Board} {j k : Nat} :
    wallDepth brd j k = depth brd j (k + 1) ↔ ∃ r < k + 1, filled brd r j = true := by
  induction k with
  | zero =>
      rw [wallDepth, depth, depth]
      by_cases hfilled : filled brd 0 j
      · rw [if_pos hfilled]
        exact iff_of_true rfl ⟨0, Nat.one_pos, hfilled⟩
      · rw [if_neg hfilled]
        refine iff_of_false (by omega) fun hex => ?_
        obtain ⟨r, hr, hrow⟩ := hex
        rw [show r = 0 by omega] at hrow
        exact hfilled hrow
  | succ k ih =>
      rw [wallDepth, depth]
      by_cases hfilled : filled brd (k + 1) j
      · rw [if_pos hfilled, if_pos hfilled]
        exact iff_of_true rfl ⟨k + 1, Nat.lt_succ_self _, hfilled⟩
      · rw [if_neg hfilled, if_neg hfilled, Nat.add_right_cancel_iff, ih]
        constructor
        · intro hex
          obtain ⟨r, hr, hrow⟩ := hex
          exact ⟨r, by omega, hrow⟩
        · intro hex
          obtain ⟨r, hr, hrow⟩ := hex
          have hne : r ≠ k + 1 := fun heq => hfilled (heq ▸ hrow)
          exact ⟨r, by omega, hrow⟩

theorem wallLoop_count {brd : Board} {c k : Nat} (hc : c < 32) (hk : k < brd.length) {t : Nat} (ht : t < 2 ^ 31) :
    wallLoop brd c k t = count (2 ^ 31) (t + wallDepth brd c k) := by
  induction k generalizing t with
  | zero => exact (count_of_lt ht).symm
  | succ k ih =>
      have hread : read brd ((k : Int) + 1) = some (brd.getD (k + 1) 0) := read_of_lt (i := k + 1) hk
      rw [wallLoop, hread, Option.bind_eq_bind, Option.bind_some, wallDepth]
      by_cases hfilled : filled brd (k + 1) c = true
      · have hbit : bit (brd.getD (k + 1) 0) c ≠ 0 := by
          rw [Ne, bit_eq_zero_iff hc, ← filled, hfilled]
          decide
        rw [if_neg hbit, if_pos hfilled, Nat.add_zero, count_of_lt ht]
      · have hbit : bit (brd.getD (k + 1) 0) c = 0 :=
          (bit_eq_zero_iff hc).mpr (Bool.eq_false_of_not_eq_true hfilled)
        rw [if_pos hbit, if_neg hfilled, Nat.add_comm (wallDepth brd c k), ← Nat.add_assoc]
        exact count_bind fun hlt => ih (by omega) hlt

-- `!(row >> i) & 1` asks whether every cell from column `i` on is empty, so no right neighbour is filled.
theorem bit_of_sshiftRight_eq_zero {row : Row} {i : Nat} (h : row.sshiftRight i = 0) (hi : i + 1 < 32) :
    bit row (i + 1) = 0 := by
  have hbit : (row.sshiftRight i).getLsbD 1 = (0 : Row).getLsbD 1 := by rw [h]
  rw [BitVec.getLsbD_sshiftRight, if_pos hi] at hbit
  rw [bit_eq_zero_iff hi]
  exact hbit

theorem midLoop_eq {brd : Board} {i : Nat} (hi : i + 1 < 32) {fuel j : Nat} (hj : j ≤ brd.length - 1)
    (hfuel : j ≤ fuel) (t : Nat) : midLoop brd i fuel j t = some t := by
  induction j generalizing fuel with
  | zero => exact midLoop.eq_1 ..
  | succ j ih =>
      obtain ⟨fuel, rfl⟩ : ∃ n, fuel = n + 1 := ⟨fuel - 1, by omega⟩
      have hread : read brd ((j : Int) + 1) = some (brd.getD (j + 1) 0) := read_of_lt (i := j + 1) (by omega)
      rw [midLoop, hread, Option.bind_eq_bind, Option.bind_some, if_neg]
      · exact ih (by omega) (by omega)
      · intro hcond
        exact hcond.2.2 (bit_of_sshiftRight_eq_zero hcond.1 hi)

theorem leftRound_eq {brd : Board} {j : Nat} (hj : j < brd.length) (t : Nat) : leftRound brd j t = some t := by
  rw [leftRound, read_of_lt hj, Option.bind_eq_bind, Option.bind_some, if_neg]
  intro hcond
  exact hcond.2 (bit_of_sshiftRight_eq_zero hcond.1 (by decide))

-- What a row adds to the count: the cell at the right wall, in every row but the lowest.
def counted (brd : Board) (c : Nat) : Nat → Nat
  | 0 => 0
  | k + 1 => if IsWell brd (c + 2) (k + 1) (c + 1) then 1 + wallDepth brd (c + 1) k else 0

theorem isWell_right_iff {brd : Board} {c i : Nat} :
    IsWell brd (c + 2) i (c + 1) ↔ filled brd i (c + 1) = false ∧ filled brd i c = true := by
  rw [IsWell, Nat.add_sub_cancel]
  simp

theorem rightRound_count {brd : Board} {c k : Nat} (hc : c + 1 < 32) (hk : k + 1 < brd.length) {t : Nat}
    (ht : t < 2 ^ 31) :
    rightRound brd (c + 2) (k + 1) t = count (2 ^ 31) (t + counted brd c (k + 1)) := by
  have hcond : bit (brd.getD (k + 1) 0) (c + 1) = 0 ∧ bit (brd.getD (k + 1) 0) c ≠ 0 ↔
      IsWell brd (c + 2) (k + 1) (c + 1) := by
    rw [isWell_right_iff, bit_eq_zero_iff hc, Ne, bit_eq_zero_iff (by omega), Bool.not_eq_false]
    rfl
  rw [rightRound, read_of_lt hk, Option.bind_eq_bind, Option.bind_some, counted]
  simp only [Nat.add_sub_cancel, show c + 2 - 1 = c + 1 from rfl]
  by_cases hwell : IsWell brd (c + 2) (k + 1) (c + 1)
  · rw [if_pos (hcond.mpr hwell), if_pos hwell, ← Nat.add_assoc]
    exact count_bind fun hlt => wallLoop_count hc (by omega) hlt
  · rw [if_neg (fun h => hwell (hcond.mp h)), if_neg hwell, Nat.add_zero, count_of_lt ht]

-- Only the cells at the right wall are counted.
theorem gtWl_count (brd : Board) {c : Nat} (hc : c + 1 < 32) :
    gtWl brd (c + 2) brd.length = count (2 ^ 31) (∑ i ∈ range brd.length, counted brd c i) := by
  have hmid : upLoop (fun i => midLoop brd i brd.length (brd.length - 1)) c 1 0 = some 0 :=
    upLoop_same c 1 (fun k hk t => midLoop_eq (by omega) (Nat.le_refl _) (by omega) t) 0
  have hleft : downLoop (leftRound brd) (brd.length - 1) 0 = some 0 :=
    downLoop_same _ (fun k hk t => leftRound_eq (by omega) t) 0
  have hright : downLoop (rightRound brd (c + 2)) (brd.length - 1) 0 =
      count (2 ^ 31) (0 + ∑ k ∈ range (brd.length - 1), counted brd c (k + 1)) :=
    downLoop_count _ (fun k hk t ht => rightRound_count hc (by omega) ht) (by decide)
  have hall : ∑ i ∈ range brd.length, counted brd c i = ∑ k ∈ range (brd.length - 1), counted brd c (k + 1) := by
    cases brd.length with
    | zero => rfl
    | succ n => rw [sum_range_succ', Nat.add_sub_cancel, counted, Nat.add_zero]
  simp only [gtWl, Nat.add_sub_cancel, hmid, hleft, Option.bind_eq_bind, Option.bind_some]
  rw [hright, hall, Nat.zero_add]

theorem counted_le (brd : Board) (c i : Nat) : counted brd c i ≤ well brd (c + 2) i (c + 1) := by
  cases i with
  | zero => exact Nat.zero_le _
  | succ k =>
      have hdepth := wallDepth_le brd (c + 1) k
      rw [counted, well]
      split_ifs
      · omega
      · exact Nat.le_refl 0

-- The depth falls short by the lowest row if nothing below is filled.
theorem counted_eq_iff {brd : Board} {c i : Nat} : counted brd c i = well brd (c + 2) i (c + 1) ↔
    (IsWell brd (c + 2) i (c + 1) → ∃ r < i, filled brd r (c + 1) = true) := by
  cases i with
  | zero =>
      rw [counted, eq_comm, well_eq_zero_iff]
      simp
  | succ k =>
      rw [counted, well]
      by_cases hwell : IsWell brd (c + 2) (k + 1) (c + 1)
      · rw [if_pos hwell, if_pos hwell, Nat.add_left_cancel_iff, wallDepth_eq_iff]
        exact ⟨fun h _ => h, fun h => h hwell⟩
      · rw [if_neg hwell, if_neg hwell]
        exact iff_of_true rfl fun h => absurd h hwell

-- What a row adds is right just if the row has no well but at the right wall, and that one is not open down to
-- the lowest row.
theorem counted_eq_row_iff {brd : Board} {c i : Nat} :
    counted brd c i ≤ ∑ j ∈ range (c + 2), well brd (c + 2) i j ∧
      (counted brd c i = ∑ j ∈ range (c + 2), well brd (c + 2) i j ↔
        (∀ j < c + 1, ¬IsWell brd (c + 2) i j) ∧
          (IsWell brd (c + 2) i (c + 1) → ∃ r < i, filled brd r (c + 1) = true)) := by
  have hle := counted_le brd c i
  have hothers : ∑ j ∈ range (c + 1), well brd (c + 2) i j = 0 ↔ ∀ j < c + 1, ¬IsWell brd (c + 2) i j := by
    rw [sum_eq_zero_iff]
    simp only [mem_range, well_eq_zero_iff]
  rw [sum_range_succ, ← hothers, ← counted_eq_iff]
  omega

-- The first two loop nests never count anything, the third leaves out the lowest row, and the sum is an `int`.
theorem gtWl_right_iff (brd : Board) {col : Nat} (hlo : 2 ≤ col) (hhi : col ≤ 31) :
    gtWl brd col brd.length = some (wellSum brd col) ↔
      (∀ i < brd.length, ∀ j < col - 1, ¬IsWell brd col i j) ∧
      (∀ i < brd.length, IsWell brd col i (col - 1) → ∃ r < i, filled brd r (col - 1) = true) ∧
      wellSum brd col < 2 ^ 31 := by
  obtain ⟨c, rfl⟩ : ∃ c, col = c + 2 := ⟨col - 2, by omega⟩
  have hsum : ∑ i ∈ range brd.length, counted brd c i = wellSum brd (c + 2) ↔
      ∀ i ∈ range brd.length, counted brd c i = ∑ j ∈ range (c + 2), well brd (c + 2) i j :=
    Finset.sum_eq_sum_iff_of_le fun i _ => counted_eq_row_iff.1
  rw [gtWl_count brd (by omega), count_eq_some_iff, hsum, show c + 2 - 1 = c + 1 from rfl, ← and_assoc,
    ← forall₂_and]
  simp only [mem_range, counted_eq_row_iff.2]
  refine and_congr_right fun hrows => ?_
  have heq := hsum.mpr fun i hi => counted_eq_row_iff.2.mpr (hrows i (mem_range.mp hi))
  rw [heq]

-- A well at the right wall on a full row.
theorem gtWl_right_two : gtWl [3, 1] 2 2 = some (wellSum [3, 1] 2) :=
  (gtWl_right_iff [3, 1] (by decide) (by decide)).mpr
    ⟨by decide, by decide, by decide⟩

-- The middle column is a well of depth two.
theorem gtWl_misses_middle :
    ¬∀ (brd : Board) (col : Nat), 2 ≤ col → col ≤ 31 → gtWl brd col brd.length = some (wellSum brd col) := by
  intro hall
  exact absurd (hall [5, 5] 3 (by decide) (by decide)) (by decide)

end Wells

end RichardTest.Eipd
