import Mathlib.NumberTheory.PrimeCounting
import Mathlib.Tactic.SplitIfs

namespace RichardTest.IsPrime

def INT_MAX : Nat := 2 ^ 31 - 1

-- A number below 2 leaves the function without a value.
def isprimeLoop (num i : Nat) : Option Nat :=
  if i ≤ num then
    if num % i = 0 then some (if num ≠ i then 1 else 0) else isprimeLoop num (i + 1)
  else none
termination_by num + 1 - i

def isprime (num : Nat) : Option Nat := isprimeLoop num 2

-- The loop of main with `left` primes to print. `N++` must not overflow.
def mainLoop (left N : Nat) : Option (List Nat) :=
  if left = 0 then some []
  else if N < INT_MAX then do
    let composite ← isprime N
    if composite = 0 then (mainLoop (left - 1) (N + 1)).map (N :: ·) else mainLoop left (N + 1)
  else none
termination_by INT_MAX - N

def main (count : Nat) : Option (List Nat) := mainLoop count 3

section Loop

variable {num : Nat}

-- The loop returns at the first divisor.
theorem isprimeLoop_eq (hnum : 2 ≤ num) {i : Nat} (hi : 2 ≤ i) (hle : i ≤ num.minFac) :
    isprimeLoop num i = some (if num ≠ num.minFac then 1 else 0) := by
  have hmax : num.minFac ≤ num := Nat.minFac_le (Nat.zero_lt_of_lt hnum)
  induction hn : num.minFac - i generalizing i with
  | zero =>
      obtain rfl : i = num.minFac := by omega
      rw [isprimeLoop, if_pos hmax, if_pos (Nat.mod_eq_zero_of_dvd (Nat.minFac_dvd num))]
  | succ n ih =>
      have hno : num % i ≠ 0 := fun hdvd => by
        have hfac := Nat.minFac_le_of_dvd hi (Nat.dvd_of_mod_eq_zero hdvd)
        omega
      rw [isprimeLoop, if_pos (hle.trans hmax), if_neg hno]
      exact ih (Nat.le_succ_of_le hi) (by omega) (by omega)

theorem isprime_eq (hnum : 2 ≤ num) : isprime num = some (if num.Prime then 0 else 1) := by
  rw [isprime, isprimeLoop_eq hnum le_rfl (Nat.minFac_prime (by omega)).two_le]
  by_cases hprime : num.Prime
  · rw [if_pos hprime, if_neg (not_not_intro hprime.minFac_eq.symm)]
  · rw [if_neg hprime, if_pos fun h => hprime (Nat.prime_def_minFac.mpr ⟨hnum, h.symm⟩)]

end Loop

section Printed

open Nat (nth count)

-- The numbers of the primes from `N` on that are printed.
noncomputable def numbers (left N : Nat) : List Nat :=
  (List.range left).map fun i => nth Nat.Prime (count Nat.Prime N + i)

theorem numbers_of_prime {left N : Nat} (h : N.Prime) : numbers (left + 1) N = N :: numbers left (N + 1) := by
  rw [numbers, List.range_succ_eq_map, List.map_cons, List.map_map, Nat.add_zero, Nat.nth_count h, numbers,
    Nat.count_succ, if_pos h]
  congr 1
  refine List.map_congr_left fun i _ => ?_
  rw [Function.comp_apply, Nat.add_assoc, Nat.add_comm 1 i]

theorem count_succ_of_not_prime {N : Nat} (h : ¬N.Prime) : count Nat.Prime (N + 1) = count Nat.Prime N := by
  rw [Nat.count_succ, if_neg h, Nat.add_zero]

-- The last prime to print, from `N` on.
noncomputable def last (left N : Nat) : Nat := nth Nat.Prime (count Nat.Prime N + (left - 1))

theorem le_last (left N : Nat) : N ≤ last left N := by
  by_contra hlt
  have hcount := Nat.count_monotone Nat.Prime (not_le.mp hlt)
  rw [last, Nat.count_nth_succ_of_infinite Nat.infinite_setOfPred_prime] at hcount
  omega

theorem last_of_prime {k N : Nat} (h : N.Prime) (hN : N < INT_MAX) :
    k = 0 ∨ last k (N + 1) < INT_MAX ↔ k + 1 = 0 ∨ last (k + 1) N < INT_MAX := by
  rw [last, last, Nat.count_succ, if_pos h]
  cases k with
  | zero =>
      rw [Nat.zero_add 1, Nat.sub_self, Nat.add_zero (count Nat.Prime N), Nat.nth_count h]
      exact iff_of_true (Or.inl rfl) (Or.inr hN)
  | succ k =>
      rw [Nat.add_sub_cancel, Nat.add_sub_cancel, Nat.add_assoc, Nat.add_comm 1 k]
      simp

theorem mainLoop_eq (left : Nat) {N : Nat} (hN : 2 ≤ N) :
    mainLoop left N = if left = 0 ∨ last left N < INT_MAX then some (numbers left N) else none := by
  induction hn : INT_MAX - N generalizing left N with
  | zero =>
      have hmax : ¬last left N < INT_MAX := not_lt.mpr ((Nat.le_of_sub_eq_zero hn).trans (le_last left N))
      by_cases hleft : left = 0
      · rw [mainLoop, if_pos hleft, if_pos (Or.inl hleft), hleft]
        rfl
      · rw [mainLoop, if_neg hleft, if_neg (by omega), if_neg (not_or.mpr ⟨hleft, hmax⟩)]
  | succ n ih =>
      by_cases hleft : left = 0
      · rw [mainLoop, if_pos hleft, if_pos (Or.inl hleft), hleft]
        rfl
      · obtain ⟨k, rfl⟩ := Nat.exists_eq_succ_of_ne_zero hleft
        rw [mainLoop, if_neg hleft, if_pos (by omega), isprime_eq hN, Option.bind_eq_bind, Option.bind_some]
        by_cases hprime : N.Prime
        · rw [if_pos hprime, if_pos rfl, Nat.succ_sub_one, ih k (by omega) (by omega)]
          simp only [last_of_prime hprime (show N < INT_MAX by omega), numbers_of_prime hprime]
          split_ifs <;> rfl
        · rw [if_neg hprime, if_neg (by decide), ih (k + 1) (by omega) (by omega), numbers, numbers, last, last,
            count_succ_of_not_prime hprime]

-- The primes are printed in their order, from 3 on, as long as `N` keeps below the largest int.
theorem main_eq_some_iff (count : Nat) (printed : List Nat) :
    main count = some printed ↔
      (count = 0 ∨ nth Nat.Prime count < INT_MAX) ∧
        printed = (List.range count).map fun i => nth Nat.Prime (i + 1) := by
  have hcount : Nat.count Nat.Prime 3 = 1 := by decide
  have hlast : count = 0 ∨ last count 3 < INT_MAX ↔ count = 0 ∨ nth Nat.Prime count < INT_MAX := by
    cases count with
    | zero => exact iff_of_true (Or.inl rfl) (Or.inl rfl)
    | succ count => rw [last, hcount, Nat.add_sub_cancel, Nat.add_comm 1 count]
  have hnumbers : numbers count 3 = (List.range count).map fun i => nth Nat.Prime (i + 1) := by
    rw [numbers, hcount]
    exact List.map_congr_left fun i _ => by rw [Nat.add_comm]
  rw [main, mainLoop_eq count (by decide), ← hnumbers]
  simp only [hlast]
  split_ifs with h
  · rw [Option.some.injEq, eq_comm, and_iff_right h]
  · exact iff_of_false not_false fun hp => h hp.1

end Printed

end RichardTest.IsPrime
