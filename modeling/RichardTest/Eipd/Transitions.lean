import RichardTest.Eipd.Cells
import Mathlib.Algebra.Order.BigOperators.Group.Finset

namespace RichardTest.Eipd

open Counter Finset

section Rows

-- The `n` cells of a row from column `j`.
def cells (row : Row) (n j : Nat) : List Bool := (List.range n).map fun k => row.getLsbD (j + k)

theorem cells_zero (row : Row) (j : Nat) : cells row 0 j = [] := rfl

theorem cells_succ (row : Row) (n j : Nat) : cells row (n + 1) j = row.getLsbD j :: cells row n (j + 1) := by
  rw [cells, List.range_succ_eq_map, List.map_cons, List.map_map, Nat.add_zero, cells]
  congr 2
  funext k
  rw [Function.comp_apply, Nat.succ_eq_add_one, Nat.add_assoc, Nat.add_comm 1]

-- The neighbours in a row that differ, with a filled wall cell at both ends.
def rowTransitions (row : Row) (col : Nat) : Nat := changes (true :: cells row col 0 ++ [true])

-- The scan keeps the cell it has seen last.
theorem rwScan_count (row : Row) (n j : Nat) (hj : j + n ≤ 32) (s : Scan) (a : Bool) (ha : s.last_bit = ofCell a)
    (ht : s.t < 2 ^ 31) :
    rwScan row n j s = (count (2 ^ 31) (s.t + changes (a :: cells row n j))).map fun t =>
      { t
        last_bit := ofCell ((cells row n j).getLastD a)
        bit := if n = 0 then s.bit else ofCell ((cells row n j).getLastD a) } := by
  induction n generalizing j s a with
  | zero =>
      rw [cells_zero, changes_singleton, Nat.add_zero, count_of_lt ht, Option.map_some, if_pos rfl,
        List.getLastD_nil, ← ha]
      rfl
  | succ n ih =>
      have hnext : ∀ c : Bool, (if n = 0 then ofCell c else ofCell ((cells row n (j + 1)).getLastD c)) =
          ofCell ((cells row n (j + 1)).getLastD c) := by
        intro c
        by_cases hn : n = 0
        · subst hn
          rfl
        · rw [if_neg hn]
      rw [rwScan, bit_eq row (by omega), cells_succ, changes_cons_cons, List.getLastD_cons,
        if_neg (Nat.succ_ne_zero n), ha]
      by_cases hc : row.getLsbD j = a
      · subst hc
        rw [if_neg fun hne => hne rfl, bne_self_eq_false, Bool.toNat_false, Nat.zero_add,
          ih (j + 1) (by omega) ⟨s.t, ofCell (row.getLsbD j), ofCell (row.getLsbD j)⟩ (row.getLsbD j) rfl ht]
        simp only [hnext]
      · have hdiff : (a != row.getLsbD j).toNat = 1 := by
          rw [bne_iff_ne.mpr (Ne.symm hc)]
          rfl
        rw [if_pos (fun heq => hc (ofCell_injective.mp heq)), hdiff, ← Nat.add_assoc]
        apply count_bind_map
        intro hlt
        rw [ih (j + 1) (by omega) _ (row.getLsbD j) rfl hlt]
        simp only [hnext]

-- The shortcut for an empty row: the change at the left wall and the one at the right.
theorem rowTransitions_zero {col : Nat} (hcol : 1 ≤ col) : rowTransitions 0 col = 2 := by
  obtain ⟨n, rfl⟩ : ∃ n, col = n + 1 := ⟨col - 1, by omega⟩
  have hempty : ∀ c ∈ cells 0 n 1, c = false := by
    intro c hc
    obtain ⟨k, -, rfl⟩ := List.mem_map.mp hc
    exact BitVec.getLsbD_zero
  have hlast : (cells 0 n 1).getLastD false = false := by
    rw [List.getLastD_eq_getLast?]
    cases h : (cells 0 n 1).getLast? with
    | none => rfl
    | some c => exact hempty c (List.mem_of_getLast? h)
  have hfirst : (0 : Row).getLsbD 0 = false := rfl
  rw [rowTransitions, changes_concat, cells_succ, changes_cons_cons, List.getLastD_cons, hfirst, hlast,
    changes_eq_zero_iff.mpr hempty]
  rfl

theorem rwRound_count {brd : Board} {col i : Nat} (hlo : 1 ≤ col) (hhi : col ≤ 32) (hi : i < brd.length) (s : Scan)
    (hs : s.last_bit = 1) (ht : s.t < 2 ^ 31) :
    ∃ bit, rwRound brd col i s = (count (2 ^ 31) (s.t + rowTransitions (brd.getD i 0) col)).map fun t =>
      { t, last_bit := 1, bit } := by
  rw [rwRound, read_of_lt hi, Option.bind_eq_bind, Option.bind_some]
  by_cases hzero : brd.getD i 0 = 0
  · rw [if_pos hzero, hzero, rowTransitions_zero hlo]
    exact ⟨s.bit, Option.map_eq_bind.symm⟩
  · have hscan := rwScan_count (brd.getD i 0) col 0 (by omega) s true hs ht
    refine ⟨ofCell ((cells (brd.getD i 0) col 0).getLastD true), ?_⟩
    have hbit : (if col = 0 then s.bit else ofCell ((cells (brd.getD i 0) col 0).getLastD true)) =
        ofCell ((cells (brd.getD i 0) col 0).getLastD true) := if_neg (by omega)
    rw [if_neg hzero, hscan, hbit, rowTransitions, changes_concat, ← Nat.add_assoc]
    generalize s.t + changes (true :: cells (brd.getD i 0) col 0) = n
    generalize (cells (brd.getD i 0) col 0).getLastD true = last
    rw [Option.bind_eq_bind, Option.bind_map]
    apply count_bind_map
    intro hlt
    -- the test for the right wall
    cases last with
    | false => exact Option.map_eq_bind.symm
    | true =>
        rw [bne_self_eq_false, Bool.toNat_false, Nat.add_zero, count_of_lt hlt]
        rfl

-- The sum over the rows.
def boardRowTransitions (brd : Board) (col : Nat) : Nat :=
  ∑ i ∈ range brd.length, rowTransitions (brd.getD i 0) col

theorem rwLoop_count {brd : Board} {col : Nat} (hlo : 1 ≤ col) (hhi : col ≤ 32) (n i : Nat)
    (hn : i + n ≤ brd.length) (s : Scan) (hs : s.last_bit = 1) (ht : s.t < 2 ^ 31) :
    (rwLoop brd col n i s).map Scan.t =
      count (2 ^ 31) (s.t + ∑ k ∈ range n, rowTransitions (brd.getD (i + k) 0) col) := by
  induction n generalizing i s with
  | zero =>
      rw [range_zero, sum_empty, Nat.add_zero, count_of_lt ht]
      rfl
  | succ n ih =>
      obtain ⟨bit, hround⟩ := rwRound_count hlo hhi (show i < brd.length by omega) s hs ht
      rw [rwLoop, hround, Option.bind_eq_bind, Option.map_bind, Option.bind_map, sum_range_succ', Nat.add_zero,
        Nat.add_comm (∑ k ∈ range n, _), ← Nat.add_assoc]
      apply count_bind
      intro hlt
      have hrest := ih (i + 1) (by omega) { t := s.t + rowTransitions (brd.getD i 0) col, last_bit := 1, bit }
        rfl hlt
      simp only [Nat.add_assoc i 1, Nat.add_comm 1] at hrest
      exact hrest

theorem getRwT_count (brd : Board) {col : Nat} (hlo : 1 ≤ col) (hhi : col ≤ 31) :
    getRwT brd col brd.length = count (2 ^ 31) (boardRowTransitions brd col) := by
  have hloop := rwLoop_count hlo (show col ≤ 32 by omega) brd.length 0 (Nat.zero_add brd.length).le
    { t := 0, last_bit := 1, bit := 0 } rfl (by decide)
  simp only [Nat.zero_add] at hloop
  rw [boardRowTransitions, ← hloop, getRwT, Option.map_eq_bind]
  rfl

-- The count is right for every board for which an `int` can hold it.
theorem getRwT_right_iff (brd : Board) {col : Nat} (hlo : 1 ≤ col) (hhi : col ≤ 31) :
    getRwT brd col brd.length = some (boardRowTransitions brd col) ↔ boardRowTransitions brd col < 2 ^ 31 := by
  rw [getRwT_count brd hlo hhi, count_eq_some_iff, and_iff_right rfl]

-- Two rows, of which the second is empty.
theorem getRwT_right_two : getRwT [5, 0] 3 [5, 0].length = some (boardRowTransitions [5, 0] 3) :=
  (getRwT_right_iff [5, 0] (by decide) (by decide)).mpr (by decide)

-- 2^26 rows of 32 changes each.
theorem getRwT_overflows :
    ¬∀ (brd : Board) (col : Nat), 1 ≤ col → col ≤ 31 → brd.length < 2 ^ 31 →
      getRwT brd col brd.length = some (boardRowTransitions brd col) := by
  intro hall
  have hright := hall (List.replicate (2 ^ 26) 0x2AAAAAAA) 31 (by decide) (by decide)
    (by rw [List.length_replicate]; decide)
  have hrow : rowTransitions 0x2AAAAAAA 31 = 32 := by decide
  have hsum : boardRowTransitions (List.replicate (2 ^ 26) 0x2AAAAAAA) 31 = 2 ^ 26 * 32 := by
    rw [boardRowTransitions, List.length_replicate]
    have hconst := sum_const_nat (s := range (2 ^ 26)) (m := 32)
      (f := fun i => rowTransitions ((List.replicate (2 ^ 26) (0x2AAAAAAA : Row)).getD i 0) 31) fun i hi => by
        rw [List.getD_eq_getElem?_getD, List.getElem?_replicate_of_lt (mem_range.mp hi), Option.getD_some, hrow]
    rwa [card_range] at hconst
  rw [getRwT_count _ (by decide) (by decide), count_eq_some_iff, hsum] at hright
  exact absurd hright.2 (by decide)

end Rows

section Columns

-- The cells of a column, the lowest first.
def column (brd : Board) (j : Nat) : List Bool := brd.map (·.getLsbD j)

-- The changes of a column from the floor on, which counts as filled.
def columnTransitions (brd : Board) (j : Nat) : Nat := changes (true :: column brd j)

theorem column_length (brd : Board) (j : Nat) : (column brd j).length = brd.length := List.length_map _

theorem getD_column (brd : Board) (i j : Nat) : (column brd j).getD i false = filled brd i j := by
  rw [column, filled, List.getD_eq_getElem?_getD, List.getD_eq_getElem?_getD, List.getElem?_map]
  cases brd[i]? with
  | none => exact BitVec.getLsbD_zero.symm
  | some row => rfl

theorem drop_column {brd : Board} {k : Nat} (hk : k < brd.length) (j : Nat) :
    (column brd j).drop k = filled brd k j :: (column brd j).drop (k + 1) := by
  have hk' : k < (column brd j).length := by rwa [column_length]
  rw [List.drop_eq_getElem_cons hk', ← getD_column, List.getD_eq_getElem _ _ hk']

theorem changes_eq_sum (a : Bool) (l : List Bool) :
    changes (a :: l) = ∑ i ∈ range l.length, ((a :: l).getD i false != l.getD i false).toNat := by
  induction l generalizing a with
  | nil => rfl
  | cons c l ih =>
      rw [changes_cons_cons, ih, List.length_cons, sum_range_succ', Nat.add_comm]
      rfl

-- The scan of a column from row `k` on.
theorem colLoop_count {brd : Board} {i : Nat} (hi : i < 32) (n k : Nat)
    (hk : k + n = brd.length ∨ n = 0 ∧ brd.length ≤ k) {t : Nat} (ht : t < 2 ^ 31) (a : Bool) :
    (colLoop brd i n k t (ofCell a)).map Prod.fst = count (2 ^ 31) (t + changes (a :: (column brd i).drop k)) := by
  induction n generalizing k t a with
  | zero =>
      rw [List.drop_eq_nil_of_le (by rw [column_length]; omega), changes_singleton, Nat.add_zero, count_of_lt ht]
      rfl
  | succ n ih =>
      have hlt : k < brd.length := by omega
      have hrest : ∀ t' < 2 ^ 31,
          (colLoop brd i n ((k : Int) + 1) t' (ofCell (filled brd k i))).map Prod.fst =
            count (2 ^ 31) (t' + changes (filled brd k i :: (column brd i).drop (k + 1))) :=
        fun t' ht' => ih (k + 1) (by omega) ht' (filled brd k i)
      rw [colLoop, read_of_lt hlt, Option.bind_eq_bind, Option.bind_some, bit_eq _ hi, drop_column hlt,
        changes_cons_cons, ← filled, ← Nat.add_assoc]
      dsimp only
      by_cases hc : filled brd k i = a
      · subst hc
        rw [if_neg fun hne => hne rfl, Option.bind_eq_bind, Option.bind_some, hrest t ht, bne_self_eq_false,
          Bool.toNat_false, Nat.add_zero t]
      · have hdiff : (a != filled brd k i).toNat = 1 := by
          rw [bne_iff_ne.mpr (Ne.symm hc)]
          rfl
        rw [if_pos (fun heq => hc (ofCell_injective.mp heq)), hdiff, Option.bind_eq_bind, Option.map_bind]
        apply count_bind
        exact hrest _

-- Where the scan starts at a row of its own choice, it misses what is below it.
def scannedTransitions (brd : Board) (junk : Nat → Int) (j : Nat) : Nat :=
  changes (true :: (column brd j).drop (junk j).toNat)

theorem getColT1_count {brd : Board} {col : Nat} (hcol : col ≤ 31) {junk : Nat → Int}
    (hjunk : ∀ i < col, 0 ≤ junk i) :
    getColT1 junk brd col brd.length = count (2 ^ 31) (∑ j ∈ range col, scannedTransitions brd junk j) := by
  have hround : ∀ k < col, ∀ t < 2 ^ 31,
      (colLoop brd (0 + k) (brd.length - junk (0 + k)).toNat (junk (0 + k)) t 1).map Prod.fst =
        count (2 ^ 31) (t + scannedTransitions brd junk (0 + k)) := by
    intro k hk t ht
    rw [Nat.zero_add]
    obtain ⟨j, hj⟩ := Int.eq_ofNat_of_zero_le (hjunk k hk)
    rw [scannedTransitions, hj, Int.toNat_natCast]
    exact colLoop_count (by omega) _ j (by omega) ht true
  have hloop : getColT1 junk brd col brd.length =
      count (2 ^ 31) (0 + ∑ k ∈ range col, scannedTransitions brd junk (0 + k)) :=
    upLoop_count col 0 hround (by decide)
  simp only [Nat.zero_add] at hloop
  exact hloop

-- A start below the floor reads out of the board.
theorem getColT1_none {brd : Board} {col : Nat} {junk : Nat → Int} {i : Nat} (hi : i < col) (hneg : junk i < 0) :
    getColT1 junk brd col brd.length = none := by
  apply upLoop_none hi
  intro t
  obtain ⟨n, hn⟩ : ∃ n, (brd.length - junk (0 + i)).toNat = n + 1 :=
    ⟨(brd.length - junk (0 + i)).toNat - 1, by rw [Nat.zero_add]; omega⟩
  rw [hn, colLoop, read_of_neg (by rwa [Nat.zero_add])]
  rfl

theorem getLsbD_full {col j : Nat} (hcol : col ≤ 31) (hj : j < col) :
    (BitVec.ofNat 32 (2 ^ col - 1)).getLsbD j = true := by
  rw [BitVec.getLsbD_ofNat, Nat.testBit_two_pow_sub_one]
  simp only [hj, decide_true, Bool.and_true, decide_eq_true_eq]
  omega

-- The neighbours of a column, counted row by row.
theorem getColT_count {brd : Board} (hbrd : brd ≠ []) {col : Nat} (hcol : col ≤ 31) :
    getColT brd col brd.length (BitVec.ofNat 32 (2 ^ col - 1)) =
      count (2 ^ 31) (∑ j ∈ range col, columnTransitions brd j) := by
  have hlen : 0 < brd.length := List.length_pos_iff.mpr hbrd
  have hfirst := addBits_count (brd.getD 0 0 ^^^ BitVec.ofNat 32 (2 ^ col - 1)) (show col ≤ 32 by omega)
    (show 0 < 2 ^ 31 by decide)
  have hround : ∀ k < brd.length - 1, ∀ t < 2 ^ 31,
      (do addBits ((← read brd ((1 + k : Nat) : Int)) ^^^ (← read brd (((1 + k : Nat) : Int) - 1))) col t) =
        count (2 ^ 31) (t + ∑ j ∈ range col, (filled brd (1 + k) j != filled brd (1 + k - 1) j).toNat) := by
    intro k hk t ht
    rw [show ((1 + k : Nat) : Int) - 1 = (1 + k - 1 : Nat) by omega, read_of_lt (by omega), read_of_lt (by omega),
      Option.bind_eq_bind, Option.bind_some, Option.bind_some, addBits_count _ (by omega) ht]
    simp only [toNat_getLsbD_xor, filled]
  have hsplit : ∑ j ∈ range col, columnTransitions brd j =
      ∑ j ∈ range col, ((brd.getD 0 0 ^^^ BitVec.ofNat 32 (2 ^ col - 1)).getLsbD j).toNat +
        ∑ k ∈ range (brd.length - 1), ∑ j ∈ range col, (filled brd (1 + k) j != filled brd (1 + k - 1) j).toNat := by
    rw [sum_comm, ← sum_add_distrib]
    apply sum_congr rfl
    intro j hj
    obtain ⟨n, hn⟩ : ∃ n, brd.length = n + 1 := ⟨brd.length - 1, by omega⟩
    rw [columnTransitions, changes_eq_sum, column_length, hn, Nat.add_sub_cancel, sum_range_succ', Nat.add_comm,
      toNat_getLsbD_xor, getLsbD_full hcol (mem_range.mp hj)]
    simp only [List.getD_cons_zero, List.getD_cons_succ, getD_column, Nat.add_comm 1, Nat.add_sub_cancel]
    congr 1
    · rw [bne_comm]
      rfl
    · apply sum_congr rfl
      intro k _
      rw [bne_comm]
  rw [getColT, show (0 : Int) = (0 : Nat) from rfl, read_of_lt hlen, Option.bind_eq_bind, Option.bind_some, hfirst,
    Nat.zero_add, hsplit]
  apply count_bind
  intro hlt
  exact @upLoop_count _ _ (fun i => ∑ j ∈ range col, (filled brd i j != filled brd (i - 1) j).toNat)
    (brd.length - 1) 1 hround _ hlt

-- The two counters return one and the same number.
def Agree (junk : Nat → Int) (brd : Board) (col : Nat) : Prop :=
  ∃ t, getColT brd col brd.length (BitVec.ofNat 32 (2 ^ col - 1)) = some t ∧
    getColT1 junk brd col brd.length = some t

-- A start from which a scan misses no change of a column.
def StartsRight (column : List Bool) (j : Int) : Prop :=
  0 ≤ j ∧
    if j.toNat < column.length then (column.take (j.toNat + 1)).Pairwise fun a b => b = true → a = true
    else ∀ c ∈ column, c = true

theorem changes_drop_le (l : List Bool) (k : Nat) : changes (true :: l.drop k) ≤ changes (true :: l) := by
  by_cases hk : k < l.length
  · rw [List.drop_eq_getElem_cons hk, changes_cons_cons]
    conv_rhs => rw [← List.take_append_drop k l, List.drop_eq_getElem_cons hk, ← List.cons_append, changes_append]
    exact Nat.add_le_add_right (le_changes_concat true (l.take k) l[k]) _
  · rw [List.drop_eq_nil_of_le (Nat.not_lt.mp hk), changes_singleton]
    exact Nat.zero_le _

theorem changes_drop_eq_iff (l : List Bool) (k : Nat) :
    changes (true :: l.drop k) = changes (true :: l) ↔ StartsRight l k := by
  rw [StartsRight, and_iff_right (Int.natCast_nonneg k), Int.toNat_natCast]
  by_cases hk : k < l.length
  · rw [if_pos hk, List.take_succ_eq_append_getElem hk, ← changes_concat_eq_iff, List.drop_eq_getElem_cons hk,
      changes_cons_cons]
    conv_lhs =>
      rhs
      rw [← List.take_append_drop k l, List.drop_eq_getElem_cons hk, ← List.cons_append, changes_append]
    rw [Nat.add_right_cancel_iff, eq_comm]
  · rw [if_neg hk, List.drop_eq_nil_of_le (Nat.not_lt.mp hk), changes_singleton, eq_comm, changes_eq_zero_iff]

-- The counters agree on the boards that an `int` counts, from starts that lose nothing.
theorem agree_iff {brd : Board} (hbrd : brd ≠ []) {col : Nat} (hcol : col ≤ 30) (junk : Nat → Int) :
    Agree junk brd col ↔
      (∀ i < col, StartsRight (column brd i) (junk i)) ∧ ∑ j ∈ range col, columnTransitions brd j < 2 ^ 31 := by
  have hle : ∀ j ∈ range col, scannedTransitions brd junk j ≤ columnTransitions brd j :=
    fun j _ => changes_drop_le (column brd j) _
  have hstart : ∀ j, 0 ≤ junk j →
      (scannedTransitions brd junk j = columnTransitions brd j ↔ StartsRight (column brd j) (junk j)) := by
    intro j hj
    obtain ⟨k, hk⟩ := Int.eq_ofNat_of_zero_le hj
    rw [scannedTransitions, hk, Int.toNat_natCast]
    exact changes_drop_eq_iff (column brd j) k
  rw [Agree, getColT_count hbrd (by omega)]
  simp only [count_eq_some_iff]
  constructor
  · rintro ⟨t, ⟨rfl, hlt⟩, hjunk⟩
    have hnonneg : ∀ i < col, 0 ≤ junk i := by
      intro i hi
      by_contra hneg
      rw [getColT1_none hi (by omega)] at hjunk
      exact Option.some_ne_none _ hjunk.symm
    rw [getColT1_count (by omega) hnonneg, count_eq_some_iff] at hjunk
    refine ⟨fun i hi => ?_, hlt⟩
    exact (hstart i (hnonneg i hi)).mp ((sum_eq_sum_iff_of_le hle).mp hjunk.1 i (mem_range.mpr hi))
  · rintro ⟨hright, hlt⟩
    have hsum : ∑ j ∈ range col, scannedTransitions brd junk j = ∑ j ∈ range col, columnTransitions brd j :=
      sum_congr rfl fun j hj => (hstart j (hright j (mem_range.mp hj)).1).mpr (hright j (mem_range.mp hj))
    refine ⟨_, ⟨rfl, hlt⟩, ?_⟩
    rw [getColT1_count (by omega) fun i hi => (hright i hi).1, hsum, count_of_lt hlt]

-- The starts 0 and 1 in a board of two rows and two columns.
theorem agree_two : Agree (fun i => i) [3, 2] 2 := by
  refine (agree_iff (by decide) (by decide) _).mpr ⟨?_, by decide⟩
  simp only [StartsRight]
  decide

-- A start past the only row finds nothing to count.
theorem agree_misses_row : ¬∀ (junk : Nat → Int) (brd : Board) (col : Nat), brd ≠ [] → 1 ≤ col → col ≤ 30 →
    Agree junk brd col := by
  intro hall
  obtain ⟨t, ht, ht'⟩ := hall (fun _ => 5) [0] 1 (by decide) (by decide) (by decide)
  have hone : getColT [0] 1 1 (BitVec.ofNat 32 (2 ^ 1 - 1)) = some 1 := by decide
  have hzero : getColT1 (fun _ => 5) [0] 1 1 = some 0 := by decide
  rw [List.length_singleton, hone] at ht
  rw [List.length_singleton, hzero] at ht'
  rw [← ht'] at ht
  exact absurd ht (by decide)

end Columns

end RichardTest.Eipd
