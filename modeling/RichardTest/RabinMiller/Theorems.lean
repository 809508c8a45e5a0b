import RichardTest.RabinMiller
import RichardTest.Paillier.Theorems
import RichardTest.OddPower

namespace RichardTest.RabinMiller

open Paillier

-- The tests of the code are congruences.
theorem isZero_sub_iff (Y c X : Int) : isZero ((Y - c) % X) = true ↔ Y ≡ c [ZMOD X] := by
  rw [isZero, decide_eq_true_eq, Int.natAbs_eq_zero]
  exact Int.emod_eq_emod_iff_emod_sub_eq_zero.symm

theorem isZero_add_one_iff (Y X : Int) : isZero ((Y + 1) % X) = true ↔ Y ≡ -1 [ZMOD X] := by
  rw [← sub_neg_eq_add]
  exact isZero_sub_iff Y (-1) X

section Split

-- Powers of two are taken off one by one.
theorem splitLoop_eq (r fuel r₀ : Nat) {m : Int} (hm : m % 2 = 1) (hfuel : r < fuel) :
    splitLoop fuel r₀ (2 ^ r * m) = some (r₀ + r, m) := by
  induction r generalizing fuel r₀ with
  | zero =>
      obtain ⟨fuel, rfl⟩ := Nat.exists_eq_add_of_lt hfuel
      rw [pow_zero, one_mul, splitLoop, if_neg (by omega)]
      rfl
  | succ r ih =>
      obtain ⟨fuel, rfl⟩ : ∃ n, fuel = n + 1 := ⟨fuel - 1, by omega⟩
      have hhalf : (2 : Int) ^ (r + 1) * m = 2 * (2 ^ r * m) := by rw [pow_succ]; ring
      rw [splitLoop, hhalf, if_pos (Int.mul_emod_right _ _), Int.mul_ediv_cancel_left _ (by norm_num),
        ih fuel (r₀ + 1) (by omega)]
      congr 2
      omega

theorem split_eq {X : Int} {r m : Nat} (hm : Odd m) (hsplit : X - 1 = 2 ^ r * m) : split X = some (r, (m : Int)) := by
  have hm1 : (m : Int) % 2 = 1 := by
    have := Nat.odd_iff.mp hm
    omega
  have hfuel : r < (X - 1).natAbs := by
    have hpow : r < 2 ^ r := Nat.lt_two_pow_self
    have hle : 2 ^ r * 1 ≤ 2 ^ r * m := Nat.mul_le_mul_left _ hm.pos
    rw [hsplit, Int.natAbs_mul, Int.natAbs_pow, Int.natAbs_natCast]
    exact lt_of_lt_of_le (by simpa using hpow) hle
  rw [split]
  generalize (X - 1).natAbs = fuel at hfuel ⊢
  rw [hsplit, splitLoop_eq r fuel 0 hm1 hfuel, Nat.zero_add]

end Split

section Round

variable {X : Int}

theorem squareLoop_iff (n : Nat) (Y : Int) :
    squareLoop X n Y = true ↔ ∃ j, 1 ≤ j ∧ j ≤ n ∧ Y ^ 2 ^ j ≡ -1 [ZMOD X] := by
  induction n generalizing Y with
  | zero =>
      refine ⟨nofun, ?_⟩
      rintro ⟨j, hj, hj0, -⟩
      omega
  | succ n ih =>
      -- squaring first shifts the exponents by one
      have hshift : ∀ j, (Y * Y % X) ^ 2 ^ j ≡ Y ^ 2 ^ (j + 1) [ZMOD X] := by
        intro j
        have hpow : (Y * Y) ^ 2 ^ j = Y ^ 2 ^ (j + 1) := by
          rw [← pow_two, ← pow_mul, pow_succ, mul_comm]
        rw [← hpow]
        exact (Int.mod_modEq _ _).pow _
      simp only [squareLoop]
      by_cases hone : isZero ((Y * Y % X + 1) % X) = true
      · rw [if_pos hone]
        refine iff_of_true rfl ⟨1, le_rfl, by omega, ?_⟩
        have hzero := hshift 0
        rw [pow_zero, pow_one] at hzero
        exact hzero.symm.trans ((isZero_add_one_iff _ X).mp hone)
      · rw [if_neg hone, ih]
        constructor
        · rintro ⟨j, hj, hjn, hY⟩
          exact ⟨j + 1, by omega, by omega, (hshift j).symm.trans hY⟩
        · rintro ⟨j, hj, hjn, hY⟩
          obtain ⟨k, rfl⟩ : ∃ k, j = k + 1 := ⟨j - 1, by omega⟩
          have hk := (hshift k).trans hY
          cases k with
          | zero =>
              rw [pow_zero, pow_one] at hk
              exact absurd ((isZero_add_one_iff _ X).mpr hk) hone
          | succ k => exact ⟨k + 1, by omega, by omega, hk⟩

-- What a pass accepts, with the squaring the textbook leaves out.
theorem witnessRound_iff (hX : 2 ≤ X) (r m : Nat) (A : Int) :
    witnessRound X r m A = true ↔
      A ^ m ≡ 1 [ZMOD X] ∨ ∃ j ≤ r, A ^ (2 ^ j * m) ≡ -1 [ZMOD X] := by
  have hpower : powerMod A m X ≡ A ^ m [ZMOD X] := by simpa using powerMod_modEq A m hX
  have hsquare : ∀ j, powerMod A m X ^ 2 ^ j ≡ A ^ (2 ^ j * m) [ZMOD X] := by
    intro j
    rw [mul_comm, pow_mul]
    exact hpower.pow _
  have hzero := hsquare 0
  rw [pow_zero, pow_one, one_mul] at hzero
  simp only [witnessRound]
  by_cases hfirst : isZero ((powerMod A m X - 1) % X) = true
  · rw [if_pos (by rw [hfirst]; rfl)]
    exact iff_of_true rfl (Or.inl (hpower.symm.trans ((isZero_sub_iff _ 1 X).mp hfirst)))
  · have hnot : ¬A ^ m ≡ 1 [ZMOD X] := fun h => hfirst ((isZero_sub_iff _ 1 X).mpr (hpower.trans h))
    rw [or_iff_right hnot]
    by_cases hsecond : isZero ((powerMod A m X + 1) % X) = true
    · rw [if_pos (by rw [hsecond, Bool.or_true])]
      refine iff_of_true rfl ⟨0, Nat.zero_le r, ?_⟩
      rw [pow_zero, one_mul]
      exact hzero.symm.trans ((isZero_add_one_iff _ X).mp hsecond)
    · rw [if_neg (by rw [Bool.or_eq_true]; exact not_or.mpr ⟨hfirst, hsecond⟩), squareLoop_iff]
      constructor
      · rintro ⟨j, -, hj, hY⟩
        exact ⟨j, hj, (hsquare j).symm.trans hY⟩
      · rintro ⟨j, hj, hY⟩
        have hYj := (hsquare j).trans hY
        refine ⟨j, ?_, hj, hYj⟩
        by_contra hj0
        rw [show j = 0 by omega, pow_zero, pow_one] at hYj
        exact hsecond ((isZero_add_one_iff _ X).mpr hYj)

-- The last squaring cannot reach -1.
theorem pow_pred_not_neg_one (hodd : Odd X) (hX : 3 ≤ X) {r m : Nat} (hsplit : X - 1 = 2 ^ r * m) (A : Int) :
    ¬A ^ (2 ^ r * m) ≡ -1 [ZMOD X] := by
  obtain ⟨n, rfl⟩ := Int.eq_ofNat_of_zero_le (show 0 ≤ X by omega)
  have hpred : 2 ^ r * m = n - 1 := by
    have : ((2 ^ r * m : Nat) : Int) = n - 1 := by
      push_cast
      exact hsplit.symm
    omega
  intro hA
  rw [hpred, ← ZMod.intCast_eq_intCast_iff] at hA
  push_cast at hA
  exact OddPower.pow_pred_ne_neg_one (by exact_mod_cast hodd) (by omega) _ hA

-- One pass of the loop is the strong probable-prime test to its base: the code finds the `r` and `m` of the
-- test, and its one squaring too many accepts nothing else.
theorem witnessRound_strong (hodd : Odd X) (hX : 3 ≤ X) {r m : Nat} (hm : Odd m) (hsplit : X - 1 = 2 ^ r * m)
    (A : Int) :
    split X = some (r, (m : Int)) ∧ (witnessRound X r m A = true ↔
      A ^ m ≡ 1 [ZMOD X] ∨ ∃ j < r, A ^ (2 ^ j * m) ≡ -1 [ZMOD X]) := by
  refine ⟨split_eq hm hsplit, (witnessRound_iff (by omega) r m A).trans (or_congr_right ?_)⟩
  constructor
  · rintro ⟨j, hj, hA⟩
    refine ⟨j, lt_of_le_of_ne hj ?_, hA⟩
    rintro rfl
    exact pow_pred_not_neg_one hodd hX hsplit A hA
  · rintro ⟨j, hj, hA⟩
    exact ⟨j, hj.le, hA⟩

-- 2 is a strong liar for 2047 = 23 * 89.
theorem witnessRound_strong_liar :
    witnessRound 2047 1 1023 2 = true ↔
      (2 : Int) ^ 1023 ≡ 1 [ZMOD 2047] ∨ ∃ j < 1, (2 : Int) ^ (2 ^ j * 1023) ≡ -1 [ZMOD 2047] :=
  (witnessRound_strong (by decide) (by norm_num) (by decide) (by norm_num) 2).2

end Round

end RichardTest.RabinMiller
