import Mathlib.FieldTheory.Finite.Basic
import Mathlib.Data.Nat.Factors
import Mathlib.Algebra.Ring.Parity

namespace RichardTest.OddPower

-- A number whose prime factors are all 1 modulo `k` is 1 modulo `k`.
theorem modEq_one_of_primes {n k : ℕ} (hn : n ≠ 0) (h : ∀ p, p.Prime → p ∣ n → p ≡ 1 [MOD k]) :
    n ≡ 1 [MOD k] := by
  have hprod : ∀ factors : List ℕ, (∀ p ∈ factors, p ≡ 1 [MOD k]) → factors.prod ≡ 1 [MOD k] := by
    intro factors hfactors
    induction factors with
    | nil => rfl
    | cons p factors ih =>
        rw [List.prod_cons]
        exact (hfactors p (by simp)).mul (ih fun q hq => hfactors q (by simp [hq]))
  rw [← Nat.prod_primeFactorsList hn]
  exact hprod _ fun p hp => h p (Nat.prime_of_mem_primeFactorsList hp) (Nat.dvd_of_mem_primeFactorsList hp)

-- Where -1 is a power with exponent `2 ^ r`, the group has an element of order `2 ^ (r + 1)`.
theorem two_pow_dvd_pred {p r : ℕ} (hp : p.Prime) (hp2 : p ≠ 2) {b : ZMod p} (hb : b ^ 2 ^ r = -1) :
    2 ^ (r + 1) ∣ p - 1 := by
  have : Fact p.Prime := ⟨hp⟩
  have hne : (-1 : ZMod p) ≠ 1 := by
    have : Fact (2 < p) := ⟨lt_of_le_of_ne hp.two_le (Ne.symm hp2)⟩
    exact ZMod.neg_one_ne_one
  have horder : orderOf b = 2 ^ (r + 1) := by
    refine orderOf_eq_prime_pow (by rwa [hb]) ?_
    rw [pow_succ, pow_mul, hb, neg_one_sq]
  have hb0 : b ≠ 0 := by
    rintro rfl
    rw [zero_pow (by positivity)] at hb
    exact neg_ne_zero.mpr one_ne_zero hb.symm
  rw [← horder]
  exact ZMod.orderOf_dvd_card_sub_one hb0

-- For an odd modulus above 1, -1 is no power with exponent `n - 1`, prime or not.
theorem pow_pred_ne_neg_one {n : ℕ} (hn : Odd n) (h3 : 3 ≤ n) (a : ZMod n) : a ^ (n - 1) ≠ -1 := by
  intro ha
  obtain ⟨r, m, hm, hsplit⟩ := Nat.exists_eq_two_pow_mul_odd (show n - 1 ≠ 0 by omega)
  have hprimes : ∀ p, p.Prime → p ∣ n → p ≡ 1 [MOD 2 ^ (r + 1)] := by
    intro p hp hpn
    have hp2 : p ≠ 2 := by
      rintro rfl
      exact (Nat.not_even_iff_odd.mpr hn) (even_iff_two_dvd.mpr hpn)
    -- the equation passes to every prime factor
    have hb : (ZMod.castHom hpn (ZMod p) a ^ m) ^ 2 ^ r = -1 := by
      rw [← pow_mul, mul_comm, ← hsplit, ← map_pow, ha, map_neg, map_one]
    exact ((Nat.modEq_iff_dvd' hp.one_le).mpr (two_pow_dvd_pred hp hp2 hb)).symm
  have hmod := modEq_one_of_primes (by omega) hprimes
  have hdvd : 2 ^ (r + 1) ∣ n - 1 := (Nat.modEq_iff_dvd' (by omega)).mp hmod.symm
  rw [hsplit, pow_succ] at hdvd
  have htwo : 2 ∣ m := Nat.dvd_of_mul_dvd_mul_left (by positivity) hdvd
  exact (Nat.not_even_iff_odd.mpr hm) (even_iff_two_dvd.mpr htwo)

-- Where 1 has no other square roots than 1 and -1, a power that comes to 1 by squaring passes through -1
-- unless it begins at 1.
theorem eq_one_or_pow_eq_neg_one {R : Type*} [CommRing R] [NoZeroDivisors R] (b : R) (r : ℕ)
    (hb : b ^ 2 ^ r = 1) : b = 1 ∨ ∃ j < r, b ^ 2 ^ j = -1 := by
  induction r with
  | zero =>
      rw [pow_zero, pow_one] at hb
      exact Or.inl hb
  | succ r ih =>
      rw [pow_succ, pow_mul, pow_two, mul_self_eq_one_iff] at hb
      rcases hb with hb | hb
      · exact (ih hb).imp_right fun ⟨j, hj, h⟩ => ⟨j, hj.trans (Nat.lt_succ_self r), h⟩
      · exact Or.inr ⟨r, Nat.lt_succ_self r, hb⟩

end RichardTest.OddPower
