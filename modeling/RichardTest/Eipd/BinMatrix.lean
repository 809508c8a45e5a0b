import RichardTest.CellLoop
import RichardTest.Eipd.Cells
import RichardTest.SignedWord
import Mathlib.Data.Nat.Init

namespace RichardTest.Eipd

open CellLoop

section Definitions

def getMatrix (b : List Row) (size_b col_n : Nat) (c : List (List Row)) : Option (List (List Row)) :=
  rewriteCells (fun i row => rewriteCells (fun j _ => b[i]?.map fun x => bit x j) col_n 0 row) size_b 0 c

-- `tmp += m[i][j] * pow(2, j)` from `j`, with `n` rounds left. A `tmp` that is not an `int` is a failure.
def tmpLoop (m : List (List Row)) (i : Nat) : Nat → Nat → Int → Option Int
  | 0, _, tmp => some tmp
  | n + 1, j, tmp => do
      let row ← m[i]?
      let x ← row[j]?
      let tmp ← inInt (tmp + x.toInt * 2 ^ j)
      tmpLoop m i n (j + 1) tmp

def getBin (m : List (List Row)) (row_n col_n : Nat) (b : List Row) : Option (List Row) :=
  rewriteCells (fun i _ => (tmpLoop m i col_n 0 0).map (BitVec.ofInt 32)) row_n 0 b

end Definitions

section RoundTrips

variable {col_n : Nat}

-- The row of the matrix that stands for `x`.
def bits (x : Row) (col_n : Nat) : List Row := (List.range col_n).map (bit x)

theorem map_range_getD {β : Type} (b : List Row) (f : Row → β) :
    (List.range b.length).map (fun i => f (b.getD i 0)) = b.map f := by
  apply List.ext_getElem
  · rw [List.length_map, List.length_map, List.length_range]
  · intro i _ hi
    rw [List.length_map] at hi
    rw [List.getElem_map, List.getElem_map, List.getElem_range, List.getD_eq_getElem _ _ hi]

theorem getMatrix_eq {b : List Row} {c : List (List Row)} (hlength : c.length = b.length)
    (hrows : ∀ row ∈ c, row.length = col_n) :
    getMatrix b b.length col_n c = some (b.map fun x => bits x col_n) := by
  have hround : ∀ i < c.length, ∀ row ∈ c,
      rewriteCells (fun j _ => b[i]?.map fun x => bit x j) col_n 0 row = some (bits (b.getD i 0) col_n) := by
    intro i hi row hrow
    have hread : b[i]? = some (b.getD i 0) := by
      rw [List.getElem?_eq_getElem (hlength ▸ hi), List.getD_eq_getElem _ _ (hlength ▸ hi)]
    rw [← hrows row hrow, bits]
    apply rewriteCells_eq
    intro j _ x _
    rw [hread, Option.map_some]
  have hloop := rewriteCells_eq hround
  rw [getMatrix, ← map_range_getD, ← hlength]
  exact hloop

theorem toInt_bit (x : Row) {j : Nat} (hj : j < 32) : (bit x j).toInt = (x.toNat.testBit j).toNat := by
  rw [bit_eq x hj]
  show (ofCell (x.toNat.testBit j)).toInt = _
  cases x.toNat.testBit j <;> rfl

-- Before round `j` the sum is what the lower bits of `x` are worth.
theorem tmpLoop_eq {m : List (List Row)} {i : Nat} {x : Row} (hrow : m[i]? = some (bits x col_n))
    (hcol : col_n ≤ 31) (n j : Nat) (hn : j + n = col_n) :
    tmpLoop m i n j (x.toNat % 2 ^ j : Nat) = some ((x.toNat % 2 ^ col_n : Nat) : Int) := by
  induction n generalizing j with
  | zero => rw [← hn, tmpLoop, Nat.add_zero]
  | succ n ih =>
      have hcell : (bits x col_n)[j]? = some (bit x j) := by
        rw [bits, List.getElem?_map, List.getElem?_range (by omega), Option.map_some]
      have hsum : (x.toNat % 2 ^ j : Nat) + (bit x j).toInt * 2 ^ j = (x.toNat % 2 ^ (j + 1) : Nat) := by
        rw [toInt_bit x (by omega), Nat.mod_pow_succ, ← Nat.toNat_testBit]
        push_cast
        rw [Int.mul_comm]
      have hpow : x.toNat % 2 ^ (j + 1) < 2 ^ 31 :=
        (Nat.mod_lt _ (Nat.two_pow_pos _)).trans_le (Nat.pow_le_pow_right Nat.two_pos (by omega))
      have hint : inInt (x.toNat % 2 ^ (j + 1) : Nat) = some ((x.toNat % 2 ^ (j + 1) : Nat) : Int) :=
        if_pos (by omega)
      rw [tmpLoop, hrow, Option.bind_eq_bind, Option.bind_some, hcell, Option.bind_eq_bind, Option.bind_some, hsum,
        hint]
      exact ih (j + 1) (by omega)

theorem getBin_eq {b d : List Row} (hcol : col_n ≤ 31) (hb : ∀ x ∈ b, x.toNat < 2 ^ col_n)
    (hlength : d.length = b.length) : getBin (b.map fun x => bits x col_n) b.length col_n d = some b := by
  have hround : ∀ i < d.length, ∀ y ∈ d,
      (tmpLoop (b.map fun x => bits x col_n) i col_n 0 0).map (BitVec.ofInt 32) = some (b.getD i 0) := by
    intro i hi _ _
    have hi' : i < b.length := hlength ▸ hi
    have hrow : (b.map fun x => bits x col_n)[i]? = some (bits b[i] col_n) := by
      rw [List.getElem?_map, List.getElem?_eq_getElem hi', Option.map_some]
    have htmp := tmpLoop_eq hrow hcol col_n 0 (Nat.zero_add col_n)
    rw [pow_zero, Nat.mod_one, Nat.mod_eq_of_lt (hb b[i] (List.getElem_mem hi'))] at htmp
    rw [show (0 : Int) = (0 : Nat) from rfl, htmp, Option.map_some, BitVec.ofInt_natCast, BitVec.ofNat_toNat,
      BitVec.setWidth_eq, List.getD_eq_getElem _ _ hi']
  have hloop := rewriteCells_eq hround
  have hid := map_range_getD b id
  simp only [id_eq, List.map_id] at hid
  rw [hlength, hid] at hloop
  exact hloop

-- Every row of zeros and ones stands for a number.
theorem exists_bits_eq {row : List Row} (hcol : col_n ≤ 31) (hlength : row.length = col_n)
    (hcells : ∀ x ∈ row, x = 0 ∨ x = 1) : ∃ x : Row, x.toNat < 2 ^ col_n ∧ bits x col_n = row := by
  have hlt := Nat.ofBits_lt_two_pow fun j : Fin col_n => decide (row.getD j 0 = 1)
  have htoNat : (BitVec.ofNat 32 (Nat.ofBits fun j : Fin col_n => decide (row.getD j 0 = 1))).toNat =
      Nat.ofBits fun j : Fin col_n => decide (row.getD j 0 = 1) := by
    rw [BitVec.toNat_ofNat, Nat.mod_eq_of_lt]
    exact hlt.trans_le (Nat.pow_le_pow_right Nat.two_pos (by omega))
  refine ⟨_, htoNat ▸ hlt, ?_⟩
  apply List.ext_getElem
  · rw [bits, List.length_map, List.length_range, hlength]
  · intro j _ hj
    have hj' : j < col_n := hlength ▸ hj
    have hbit : (BitVec.ofNat 32 (Nat.ofBits fun j : Fin col_n => decide (row.getD j 0 = 1))).getLsbD j =
        decide (row[j] = 1) := by
      rw [BitVec.getLsbD, htoNat, Nat.testBit_ofBits_lt _ j hj', List.getD_eq_getElem _ _ hj]
    simp only [bits, List.getElem_map, List.getElem_range]
    rw [bit_eq _ (by omega), hbit]
    obtain hzero | hone := hcells row[j] (List.getElem_mem hj)
    · rw [hzero]
      rfl
    · rw [hone]
      rfl

theorem exists_map_bits_eq {m : List (List Row)} (hcol : col_n ≤ 31)
    (hm : ∀ row ∈ m, row.length = col_n ∧ ∀ x ∈ row, x = 0 ∨ x = 1) :
    ∃ b : List Row, (∀ x ∈ b, x.toNat < 2 ^ col_n) ∧ b.map (fun x => bits x col_n) = m := by
  induction m with
  | nil => exact ⟨[], fun x hx => absurd hx List.not_mem_nil, rfl⟩
  | cons row m ih =>
      obtain ⟨hrow, hm⟩ := List.forall_mem_cons.mp hm
      obtain ⟨x, hx, hbits⟩ := exists_bits_eq hcol hrow.1 hrow.2
      obtain ⟨b, hb, hmap⟩ := ih hm
      exact ⟨x :: b, List.forall_mem_cons.mpr ⟨hx, hb⟩, by rw [List.map_cons, hbits, hmap]⟩

-- The arrays that the functions write to hold anything before.
theorem getMatrix_getBin_inverse (hcol : col_n ≤ 31) :
    (∀ (b d : List Row) (c : List (List Row)), (∀ x ∈ b, 0 ≤ x.toInt ∧ x.toInt < 2 ^ col_n) →
      c.length = b.length → (∀ row ∈ c, row.length = col_n) → d.length = b.length →
      (getMatrix b b.length col_n c).bind (fun m => getBin m b.length col_n d) = some b) ∧
    ∀ (m c : List (List Row)) (d : List Row), (∀ row ∈ m, row.length = col_n ∧ ∀ x ∈ row, x = 0 ∨ x = 1) →
      d.length = m.length → c.length = m.length → (∀ row ∈ c, row.length = col_n) →
      (getBin m m.length col_n d).bind (fun b => getMatrix b m.length col_n c) = some m := by
  constructor
  · intro b d c hb hc hrows hd
    have hsmall : ∀ x ∈ b, x.toNat < 2 ^ col_n := by
      intro x hx
      obtain ⟨hnonneg, hlt⟩ := hb x hx
      rw [BitVec.toInt_eq_toNat_of_lt (SignedWord.two_mul_toNat_lt hnonneg)] at hlt
      exact_mod_cast hlt
    rw [getMatrix_eq hc hrows, Option.bind_some, getBin_eq hcol hsmall hd]
  · intro m c d hm hd hc hrows
    obtain ⟨b, hb, rfl⟩ := exists_map_bits_eq hcol hm
    rw [List.length_map] at hd hc ⊢
    rw [getBin_eq hcol hb hd, Option.bind_some, getMatrix_eq hc hrows]

-- Two rows of three columns.
theorem getMatrix_getBin_inverse_two :
    (getMatrix [5, 2] [(5 : Row), 2].length 3 [[0, 0, 0], [0, 0, 0]]).bind
        (fun m => getBin m [(5 : Row), 2].length 3 [0, 0]) = some [5, 2] ∧
      (getBin [[1, 0, 1], [0, 1, 0]] [[(1 : Row), 0, 1], [0, 1, 0]].length 3 [0, 0]).bind
        (fun b => getMatrix b [[(1 : Row), 0, 1], [0, 1, 0]].length 3 [[0, 0, 0], [0, 0, 0]]) =
          some [[1, 0, 1], [0, 1, 0]] := by
  have hinverse := @getMatrix_getBin_inverse 3 (by decide)
  have hvalues : ∀ x ∈ [(5 : Row), 2], 0 ≤ x.toInt ∧ x.toInt < 2 ^ 3 :=
    List.forall_mem_cons.mpr ⟨by decide, List.forall_mem_singleton.mpr (by decide)⟩
  have hcells : ∀ row ∈ [[(1 : Row), 0, 1], [0, 1, 0]], row.length = 3 ∧ ∀ x ∈ row, x = 0 ∨ x = 1 := by simp
  exact ⟨hinverse.1 [5, 2] [0, 0] [[0, 0, 0], [0, 0, 0]] hvalues rfl (by decide) rfl,
    hinverse.2 [[1, 0, 1], [0, 1, 0]] [[0, 0, 0], [0, 0, 0]] [0, 0] hcells rfl rfl (by decide)⟩

end RoundTrips

end RichardTest.Eipd
