import RichardTest.Counter

namespace RichardTest.Eipd

open Counter

-- A row is an `int`, and a board its rows, the lowest first.
abbrev Row := BitVec 32
abbrev Board := List Row

-- `(row >> j) & 1`.
def bit (row : Row) (j : Nat) : Row := row.sshiftRight j &&& 1#32

-- An access outside of the array is a failure.
def read (brd : List Row) (i : Int) : Option Row := if 0 ≤ i then brd[i.toNat]? else none

-- `t += k` of an `int` that is not negative. An overflow is a failure.
def add (t k : Nat) : Option Nat := count (2 ^ 31) (t + k)

section LandingHeight

def inInt (x : Int) : Option Int := if -2 ^ 31 ≤ x ∧ x < 2 ^ 31 then some x else none

-- The loop of get_ld_h with `n` rounds left: `p_h` and `c`.
def ldLoop (pce_x : List Row) (pos_y rw_n : Int) : Nat → Int → Int → Int → Option (Int × Int)
  | 0, _, p_h, c => some (p_h, c)
  | n + 1, i, p_h, c => do
      let row ← read pce_x i
      if row ≠ 0 then ldLoop pce_x pos_y rw_n n (i + 1) p_h c
      else
        let c ← inInt (c + 1)
        let top ← inInt (rw_n - 1)
        let y ← inInt (pos_y + i)
        let height ← inInt (top - y)
        let p_h ← inInt (p_h + height)
        ldLoop pce_x pos_y rw_n n (i + 1) p_h c

-- `i` is not initialised: it starts with whatever value is there.
def getLdH (i : Int) (pce_x : List Row) (pos_y rw_n : Int) : Option Int := do
  let (p_h, c) ← ldLoop pce_x pos_y rw_n (pce_x.length - i).toNat i 0 0
  if c = 0 then none else inInt (p_h.tdiv c)

end LandingHeight

section RowTransitions

structure Scan where
  t : Nat
  last_bit : Row
  bit : Row

-- `for (int j = 0; j < col; j++)` from `j`, with `n` rounds left.
def rwScan (row : Row) : Nat → Nat → Scan → Option Scan
  | 0, _, s => some s
  | n + 1, j, s => do
      let bit := bit row j
      if bit ≠ s.last_bit then
        let t ← add s.t 1
        rwScan row n (j + 1) { t, last_bit := bit, bit }
      else rwScan row n (j + 1) { s with bit }

def rwRound (brd : Board) (col i : Nat) (s : Scan) : Option Scan := do
  let row ← read brd i
  if row = 0 then
    let t ← add s.t 2
    some { s with t, last_bit := 1 }
  else
    let s ← rwScan row col 0 s
    let t ← (if s.bit = 0 then add s.t 1 else some s.t)
    some { s with t, last_bit := 1 }

def rwLoop (brd : Board) (col : Nat) : Nat → Nat → Scan → Option Scan
  | 0, _, s => some s
  | n + 1, i, s => do
      let s ← rwRound brd col i s
      rwLoop brd col n (i + 1) s

def getRwT (brd : Board) (col rw_n : Nat) : Option Nat := do
  let s ← rwLoop brd col rw_n 0 { t := 0, last_bit := 1, bit := 0 }
  some s.t

end RowTransitions

-- `for (int j = 0; j < col; j++)` that adds bit `j` of `x`.
def addBits (x : Row) (col : Nat) : Nat → Option Nat := upLoop (fun j t => add t (bit x j).toNat) col 0

section ColumnTransitions

def getColT (brd : Board) (col rw_n : Nat) (col_max : Row) : Option Nat := do
  let t ← addBits ((← read brd 0) ^^^ col_max) col 0
  upLoop (fun i t => do addBits ((← read brd i) ^^^ (← read brd (i - 1))) col t) (rw_n - 1) 1 t

-- The inner loop of get_col_t1 with `n` rounds left: `t` and `last_bit`.
def colLoop (brd : Board) (i : Nat) : Nat → Int → Nat → Row → Option (Nat × Row)
  | 0, _, t, last_bit => some (t, last_bit)
  | n + 1, j, t, last_bit => do
      let row ← read brd j
      let bit := bit row i
      let t ← (if bit ≠ last_bit then add t 1 else some t)
      colLoop brd i n (j + 1) t bit

-- `j` is not initialised: in round `i` of the outer loop it starts with the value `junk i`.
def getColT1 (junk : Nat → Int) (brd : Board) (col rw_n : Nat) : Option Nat :=
  upLoop (fun i t => (colLoop brd i (rw_n - junk i).toNat (junk i) t 1).map Prod.fst) col 0 0

end ColumnTransitions

section Holes

-- `for (int i = ..; i > 0; i--)` of gt_hl from `i`.
def hlLoop (brd : Board) (col : Nat) : Nat → Row → Row → Nat → Option Nat
  | 0, _, _, hl => some hl
  | i + 1, rw_hl, p_rw, hl => do
      let c_rw ← read brd (i + 1)
      let rw_hl := ~~~c_rw &&& (p_rw ||| rw_hl)
      let hl ← addBits rw_hl col hl
      hlLoop brd col i rw_hl c_rw hl

def gtHl (brd : Board) (col rw_n : Nat) : Option Nat := do
  let p_rw ← read brd (rw_n - 1)
  hlLoop brd col (rw_n - 2) 0 p_rw 0

end Holes

section Wells

-- `for (int k = ..; j > 0; j--)` of the first loop nest, which counts down `j`: `j` and `wl_s`.
def innerLoop (brd : Board) (i : Nat) (k : Int) : Nat → Nat → Option (Nat × Nat)
  | 0, wl_s => some (0, wl_s)
  | j + 1, wl_s => do
      let row ← read brd k
      if bit row i = 0 then
        let wl_s ← add wl_s 1
        innerLoop brd i k j wl_s
      else some (j + 1, wl_s)

-- `for (int j = ..; j > 0; j--)` of the first loop nest from `j`. A loop that has not ended after `fuel` rounds
-- is a failure.
def midLoop (brd : Board) (i : Nat) : (fuel : Nat) → Nat → Nat → Option Nat
  | _, 0, wl_s => some wl_s
  | 0, _ + 1, _ => none
  | fuel + 1, j + 1, wl_s => do
      let row ← read brd (j + 1)
      if row.sshiftRight i = 0 ∧ bit row (i - 1) ≠ 0 ∧ bit row (i + 1) ≠ 0 then
        let wl_s ← add wl_s 1
        let (j, wl_s) ← innerLoop brd i j (j + 1) wl_s
        midLoop brd i fuel (j - 1) wl_s
      else midLoop brd i fuel j wl_s

-- `for (int k = ..; k > 0; k--)` of the other loop nests from `k`, in the column `c`.
def wallLoop (brd : Board) (c : Nat) : Nat → Nat → Option Nat
  | 0, wl_s => some wl_s
  | k + 1, wl_s => do
      let row ← read brd (k + 1)
      if bit row c = 0 then
        let wl_s ← add wl_s 1
        wallLoop brd c k wl_s
      else some wl_s

def leftRound (brd : Board) (j wl_s : Nat) : Option Nat := do
  let row ← read brd j
  if row.sshiftRight 0 = 0 ∧ bit row 1 ≠ 0 then
    let wl_s ← add wl_s 1
    wallLoop brd 0 (j - 1) wl_s
  else some wl_s

def rightRound (brd : Board) (col j wl_s : Nat) : Option Nat := do
  let row ← read brd j
  if bit row (col - 1) = 0 ∧ bit row (col - 2) ≠ 0 then
    let wl_s ← add wl_s 1
    wallLoop brd (col - 1) (j - 1) wl_s
  else some wl_s

def gtWl (brd : Board) (col rw_n : Nat) : Option Nat := do
  let wl_s ← upLoop (fun i => midLoop brd i rw_n (rw_n - 1)) (col - 2) 1 0
  let wl_s ← downLoop (leftRound brd) (rw_n - 1) wl_s
  downLoop (rightRound brd col) (rw_n - 1) wl_s

end Wells

end RichardTest.Eipd
