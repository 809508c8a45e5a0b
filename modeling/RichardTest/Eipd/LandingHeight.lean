import RichardTest.Eipd.Cells
import Mathlib.Algebra.Ring.Int.Defs

namespace RichardTest.Eipd

section LandingHeight

variable (pce_x : List Row) (pos_y rw_n : Int)

-- The rows of a piece from row `i` on that pass a test.
def rowsFrom (p : Row → Bool) (i : Nat) : List Nat :=
  (List.range' i (pce_x.length - i)).filter fun k => p (pce_x.getD k 0)

def height (i : Nat) : Int := rw_n - 1 - (pos_y + i)

-- The average height of some rows, rounded as C rounds.
def averageHeight (rows : List Nat) : Int := (rows.map (height pos_y rw_n)).sum.tdiv rows.length

def occupiedRows : List Nat := rowsFrom pce_x (· ≠ 0) 0

def emptyRows (i : Nat) : List Nat := rowsFrom pce_x (· = 0) i

variable {pce_x pos_y rw_n}

theorem inInt_eq_some {x y : Int} (h : inInt x = some y) : y = x := by
  unfold inInt at h
  split at h
  · exact (Option.some.inj h).symm
  · exact absurd h.symm (Option.some_ne_none y)

theorem emptyRows_cons {i : Nat} (hi : i < pce_x.length) :
    emptyRows pce_x i =
      if pce_x.getD i 0 = 0 then i :: emptyRows pce_x (i + 1) else emptyRows pce_x (i + 1) := by
  obtain ⟨n, hn⟩ : ∃ n, pce_x.length - i = n + 1 := ⟨pce_x.length - i - 1, by omega⟩
  have hrest : pce_x.length - (i + 1) = n := by omega
  rw [emptyRows, rowsFrom, emptyRows, rowsFrom, hn, hrest, List.range'_succ, List.filter_cons]
  simp only [decide_eq_true_eq]

theorem emptyRows_end {i : Nat} (hi : pce_x.length ≤ i) : emptyRows pce_x i = [] := by
  rw [emptyRows, rowsFrom, Nat.sub_eq_zero_of_le hi]
  rfl

-- The loop skips the occupied rows.
theorem ldLoop_eq_some {n i : Nat} (hn : n = pce_x.length - i) {p_h c p_h' c' : Int}
    (h : ldLoop pce_x pos_y rw_n n i p_h c = some (p_h', c')) :
    p_h' = p_h + ((emptyRows pce_x i).map (height pos_y rw_n)).sum ∧ c' = c + (emptyRows pce_x i).length := by
  induction n generalizing i p_h c with
  | zero =>
      obtain ⟨rfl, rfl⟩ := Prod.mk.inj (Option.some.inj h)
      rw [emptyRows_end (by omega)]
      simp
  | succ n ih =>
      have hi : i < pce_x.length := by omega
      have hrest : n = pce_x.length - (i + 1) := by omega
      rw [ldLoop, read_of_lt hi, Option.bind_eq_bind, Option.bind_some] at h
      rw [emptyRows_cons hi]
      by_cases hrow : pce_x.getD i 0 = 0
      · rw [if_neg (not_not.mpr hrow)] at h
        simp only [Option.bind_eq_bind, Option.bind_eq_some_iff] at h
        obtain ⟨c₁, hc, top, htop, y, hy, d, hd, p₁, hp, hloop⟩ := h
        obtain ⟨hsum, hlength⟩ := ih hrest hloop
        rw [inInt_eq_some htop, inInt_eq_some hy] at hd
        rw [inInt_eq_some hd] at hp
        rw [if_pos hrow, hsum, hlength, inInt_eq_some hp, inInt_eq_some hc, List.map_cons, List.sum_cons,
          List.length_cons, Nat.cast_succ, height, ← Int.add_assoc, Int.add_assoc c, Int.add_comm 1]
        exact ⟨rfl, rfl⟩
      · rw [if_pos hrow] at h
        rw [if_neg hrow]
        exact ih hrest h

-- The test is the wrong way round: what get_ld_h averages are the empty rows.
theorem getLdH_eq_some {start v : Int} (h : getLdH start pce_x pos_y rw_n = some v) :
    0 ≤ start ∧ emptyRows pce_x start.toNat ≠ [] ∧ v = averageHeight pos_y rw_n (emptyRows pce_x start.toNat) := by
  simp only [getLdH, Option.bind_eq_bind, Option.bind_eq_some_iff] at h
  obtain ⟨⟨p_h, c⟩, hloop, h⟩ := h
  have hstart : 0 ≤ start := by
    by_contra hneg
    obtain ⟨n, hn⟩ : ∃ n, (pce_x.length - start).toNat = n + 1 :=
      ⟨(pce_x.length - start).toNat - 1, by omega⟩
    rw [hn, ldLoop, read_of_neg (by omega)] at hloop
    exact Option.some_ne_none _ hloop.symm
  obtain ⟨i, rfl⟩ := Int.eq_ofNat_of_zero_le hstart
  have hrounds : (pce_x.length - (i : Int)).toNat = pce_x.length - i := by omega
  obtain ⟨hsum, hlength⟩ := ldLoop_eq_some hrounds hloop
  rw [Int.zero_add] at hsum hlength
  rw [Int.toNat_natCast]
  by_cases hc : c = 0
  · rw [if_pos hc] at h
    exact absurd h.symm (Option.some_ne_none v)
  · rw [if_neg hc] at h
    refine ⟨hstart, fun hnil => hc (by rw [hlength, hnil]; rfl), ?_⟩
    rw [inInt_eq_some h, hsum, hlength, averageHeight]

-- No piece has its landing height from every start of the loop: from -1 on the loop reads below the array.
theorem getLdH_never_right (pce_x : List Row) (pos_y rw_n : Int) :
    (∀ start v, getLdH start pce_x pos_y rw_n = some v →
      0 ≤ start ∧ emptyRows pce_x start.toNat ≠ [] ∧ v = averageHeight pos_y rw_n (emptyRows pce_x start.toNat)) ∧
    ¬∀ start, -2 ^ 31 ≤ start → start < 2 ^ 31 →
      getLdH start pce_x pos_y rw_n = some (averageHeight pos_y rw_n (occupiedRows pce_x)) := by
  refine ⟨fun start v h => getLdH_eq_some h, fun hall => ?_⟩
  have hneg := getLdH_eq_some (hall (-1) (by decide) (by decide))
  exact absurd hneg.1 (by decide)

-- The upright I piece has no empty row: even from 0 on the average is taken over nothing.
theorem getLdH_divides_by_zero : ¬∀ (pce_x : List Row) (pos_y rw_n : Int), (∃ row ∈ pce_x, row ≠ 0) →
    getLdH 0 pce_x pos_y rw_n = some (averageHeight pos_y rw_n (occupiedRows pce_x)) := by
  intro hall
  have hright := hall [2, 2, 2, 2] 0 20 ⟨2, by decide, by decide⟩
  have hnone : getLdH 0 [2, 2, 2, 2] 0 20 = none := by decide
  rw [hnone] at hright
  exact Option.some_ne_none _ hright.symm

end LandingHeight

end RichardTest.Eipd
