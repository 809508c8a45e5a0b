import Mathlib.Algebra.BigOperators.Ring.Finset
import Mathlib.Algebra.Order.BigOperators.Group.Finset
import Mathlib.Algebra.Order.Ring.Defs
import Mathlib.Tactic.Ring
import Mathlib.Tactic.Linarith
import Mathlib.Tactic.LinearCombination

namespace RichardTest.Positional

open Finset

section Semiring

variable {R : Type*} [CommSemiring R]

-- The number written by the first `n` digits of `d` in base `b`, lowest digit first.
def value (b : R) (d : ℕ → R) (n : ℕ) : R :=
  ∑ i ∈ range n, d i * b ^ i

@[simp] theorem value_zero (b : R) (d : ℕ → R) : value b d 0 = 0 := by
  simp [value]

theorem value_succ (b : R) (d : ℕ → R) (n : ℕ) :
    value b d (n + 1) = value b d n + d n * b ^ n :=
  sum_range_succ _ n

@[simp] theorem value_one (b : R) (d : ℕ → R) : value b d 1 = d 0 := by
  simp [value]

-- Peels the lowest digit, the one a loop over the digits meets first.
theorem value_succ_low (b : R) (d : ℕ → R) (n : ℕ) :
    value b d (n + 1) = d 0 + b * value b (fun i => d (i + 1)) n := by
  simp only [value, sum_range_succ', pow_zero, mul_one, mul_sum]
  rw [add_comm]
  congr 1
  apply sum_congr rfl
  intro i _
  ring

theorem value_congr {b : R} {d e : ℕ → R} {n : ℕ} (h : ∀ i < n, d i = e i) :
    value b d n = value b e n := by
  apply sum_congr rfl
  intro i hi
  rw [h i (mem_range.mp hi)]

theorem value_add (b : R) (d : ℕ → R) (m n : ℕ) :
    value b d (m + n) = value b d m + b ^ m * value b (fun i => d (m + i)) n := by
  induction n with
  | zero => simp
  | succ n ih =>
      rw [← add_assoc, value_succ, ih, value_succ]
      ring

theorem value_eq_zero {b : R} {d : ℕ → R} {n : ℕ} (h : ∀ i < n, d i = 0) :
    value b d n = 0 := by
  apply sum_eq_zero
  intro i hi
  rw [h i (mem_range.mp hi), zero_mul]

-- Zero digits above position `m` do not change the number.
theorem value_of_zero_above {b : R} {d : ℕ → R} {m n : ℕ} (hmn : m ≤ n)
    (h : ∀ i, m ≤ i → i < n → d i = 0) : value b d n = value b d m := by
  obtain ⟨k, rfl⟩ := Nat.exists_eq_add_of_le hmn
  rw [value_add, value_eq_zero (fun i hi => h (m + i) (by omega) (by omega)), mul_zero, add_zero]

-- One digit is replaced.
theorem value_replace {b : R} {d : ℕ → R} {k n : ℕ} (hk : k < n) (x : R) :
    value b (fun i => if i = k then x else d i) n + d k * b ^ k = value b d n + x * b ^ k := by
  induction n with
  | zero => exact absurd hk (Nat.not_lt_zero k)
  | succ n ih =>
      rw [value_succ, value_succ]
      by_cases hkn : k = n
      · subst hkn
        rw [if_pos rfl, value_congr fun i hi => if_neg (Nat.ne_of_lt hi)]
        ring
      · rw [if_neg (Ne.symm hkn)]
        calc value b (fun i => if i = k then x else d i) n + d n * b ^ n + d k * b ^ k
            = (value b (fun i => if i = k then x else d i) n + d k * b ^ k) + d n * b ^ n := by ring
          _ = (value b d n + x * b ^ k) + d n * b ^ n := by rw [ih (by omega)]
          _ = value b d n + d n * b ^ n + x * b ^ k := by ring

-- Two numbers that agree above position `m` differ by what they differ below it.
theorem value_add_low_of_agree {b : R} {d e : ℕ → R} {m n : ℕ} (hmn : m ≤ n)
    (h : ∀ i, m ≤ i → i < n → d i = e i) :
    value b d n + value b e m = value b e n + value b d m := by
  obtain ⟨k, rfl⟩ := Nat.exists_eq_add_of_le hmn
  rw [value_add, value_add, value_congr (fun i hi => h (m + i) (by omega) (by omega))]
  ring

-- One step of a ripple-carry chain: the step at the lowest digit and the chain above it compose.
theorem ripple_step {b s t c₀ c₁ cn : R} {d e : ℕ → R} {n : ℕ}
    (hstep : s + b * c₁ = t + c₀)
    (hrest : value b (fun i => d (i + 1)) n + cn * b ^ n = value b (fun i => e (i + 1)) n + c₁)
    (hd : d 0 = s) (he : e 0 = t) :
    value b d (n + 1) + cn * b ^ (n + 1) = value b e (n + 1) + c₀ := by
  rw [value_succ_low, value_succ_low, hd, he, pow_succ]
  calc s + b * value b (fun i => d (i + 1)) n + cn * (b ^ n * b)
      = s + b * (value b (fun i => d (i + 1)) n + cn * b ^ n) := by ring
    _ = s + b * (value b (fun i => e (i + 1)) n + c₁) := by rw [hrest]
    _ = (s + b * c₁) + b * value b (fun i => e (i + 1)) n := by ring
    _ = t + b * value b (fun i => e (i + 1)) n + c₀ := by rw [hstep]; ring

-- A whole carry chain: each step splits the term and the incoming carry into a digit and a carry.
theorem value_carry_chain {b : R} {d t c : ℕ → R} (n : ℕ)
    (hstep : ∀ i < n, d i + b * c (i + 1) = t i + c i) :
    value b d n + c n * b ^ n = value b t n + c 0 := by
  induction n with
  | zero => simp
  | succ n ih =>
      calc value b d (n + 1) + c (n + 1) * b ^ (n + 1)
          = value b d n + (d n + b * c (n + 1)) * b ^ n := by rw [value_succ]; ring
        _ = (value b d n + c n * b ^ n) + t n * b ^ n := by rw [hstep n (by omega)]; ring
        _ = (value b t n + c 0) + t n * b ^ n := by rw [ih (fun i hi => hstep i (by omega))]
        _ = value b t (n + 1) + c 0 := by rw [value_succ]; ring

theorem value_add_digits (b : R) (d e : ℕ → R) (n : ℕ) :
    value b (fun i => d i + e i) n = value b d n + value b e n := by
  simp only [value, add_mul, sum_add_distrib]

theorem value_mul_digits (b a : R) (d : ℕ → R) (n : ℕ) :
    value b (fun i => d i * a) n = value b d n * a := by
  simp only [value, sum_mul]
  apply sum_congr rfl
  intro i _
  ring

end Semiring

section Ordered

variable {R : Type*} [CommSemiring R] [PartialOrder R] [IsOrderedRing R]

theorem value_nonneg {b : R} {d : ℕ → R} {n : ℕ} (hb : 0 ≤ b) (hd : ∀ i < n, 0 ≤ d i) :
    0 ≤ value b d n := by
  apply sum_nonneg
  intro i hi
  exact mul_nonneg (hd i (mem_range.mp hi)) (pow_nonneg hb i)

-- Digits below the base write a number below the weight of the next digit.
theorem value_add_one_le {b : R} {d : ℕ → R} {n : ℕ} (hb : 0 ≤ b)
    (hd : ∀ i < n, d i + 1 ≤ b) : value b d n + 1 ≤ b ^ n := by
  induction n with
  | zero => simp
  | succ n ih =>
      have hlow := ih (fun i hi => hd i (by omega))
      have htop := mul_le_mul_of_nonneg_right (hd n (by omega)) (pow_nonneg hb n)
      calc value b d (n + 1) + 1 = (value b d n + 1) + d n * b ^ n := by rw [value_succ]; ring
        _ ≤ b ^ n + d n * b ^ n := by gcongr
        _ = (d n + 1) * b ^ n := by ring
        _ ≤ b * b ^ n := htop
        _ = b ^ (n + 1) := by ring

-- A digit of at least one puts the number at or above the weight of that digit.
theorem pow_le_value {b : R} {d : ℕ → R} {n k : ℕ} (hb : 0 ≤ b) (hd : ∀ i < n, 0 ≤ d i)
    (hk : k < n) (hone : 1 ≤ d k) : b ^ k ≤ value b d n := by
  calc b ^ k = 1 * b ^ k := (one_mul _).symm
    _ ≤ d k * b ^ k := mul_le_mul_of_nonneg_right hone (pow_nonneg hb k)
    _ ≤ value b d n := by
      apply single_le_sum (f := fun i => d i * b ^ i) _ (mem_range.mpr hk)
      intro i hi
      exact mul_nonneg (hd i (mem_range.mp hi)) (pow_nonneg hb i)

-- The highest differing digit decides the order.
theorem value_add_one_le_of_digit {b : R} {d e : ℕ → R} {n k : ℕ} (hb : 0 ≤ b)
    (hd : ∀ i < n, d i + 1 ≤ b) (he : ∀ i < n, 0 ≤ e i) (hk : k < n)
    (hlt : d k + 1 ≤ e k) (htop : ∀ i, k < i → i < n → d i = e i) :
    value b d n + 1 ≤ value b e n := by
  obtain ⟨m, rfl⟩ : ∃ m, n = k + 1 + m := Nat.exists_eq_add_of_le hk
  have hlow := value_add_one_le (n := k) hb (fun i hi => hd i (by omega))
  have hpos := value_nonneg (n := k) hb (fun i hi => he i (by omega))
  have hhigh : value b (fun i => d (k + 1 + i)) m = value b (fun i => e (k + 1 + i)) m :=
    value_congr (fun i hi => htop (k + 1 + i) (by omega) (by omega))
  rw [value_add b d (k + 1), value_add b e (k + 1), hhigh, value_succ, value_succ]
  calc value b d k + d k * b ^ k + b ^ (k + 1) * value b (fun i => e (k + 1 + i)) m + 1
      = (value b d k + 1) + d k * b ^ k + b ^ (k + 1) * value b (fun i => e (k + 1 + i)) m := by ring
    _ ≤ b ^ k + d k * b ^ k + b ^ (k + 1) * value b (fun i => e (k + 1 + i)) m := by gcongr
    _ = (d k + 1) * b ^ k + b ^ (k + 1) * value b (fun i => e (k + 1 + i)) m := by ring
    _ ≤ e k * b ^ k + b ^ (k + 1) * value b (fun i => e (k + 1 + i)) m := by
      gcongr
    _ = 0 + e k * b ^ k + b ^ (k + 1) * value b (fun i => e (k + 1 + i)) m := by ring
    _ ≤ value b e k + e k * b ^ k + b ^ (k + 1) * value b (fun i => e (k + 1 + i)) m := by gcongr

end Ordered

section Unique

variable {R : Type*} [CommRing R] [LinearOrder R] [IsStrictOrderedRing R]

-- A number has one representation of a given length.
theorem digits_unique {b : R} {d e : ℕ → R} {n : ℕ} (hb : 0 ≤ b)
    (hd : ∀ i < n, 0 ≤ d i ∧ d i + 1 ≤ b) (he : ∀ i < n, 0 ≤ e i ∧ e i + 1 ≤ b)
    (hstep : ∀ i < n, d i < e i → d i + 1 ≤ e i) (hstep' : ∀ i < n, e i < d i → e i + 1 ≤ d i)
    (h : value b d n = value b e n) : ∀ i < n, d i = e i := by
  induction n with
  | zero => exact fun i hi => absurd hi (Nat.not_lt_zero i)
  | succ n ih =>
      have htop : d n = e n := by
        rcases lt_trichotomy (d n) (e n) with hlt | heq | hgt
        · have := value_add_one_le_of_digit (n := n + 1) hb (fun i hi => (hd i hi).2)
            (fun i hi => (he i hi).1) (Nat.lt_succ_self n) (hstep n (by omega) hlt)
            (fun i h h' => by omega)
          rw [h] at this
          exact absurd this (not_le.mpr (lt_add_one _))
        · exact heq
        · have := value_add_one_le_of_digit (n := n + 1) hb (fun i hi => (he i hi).2)
            (fun i hi => (hd i hi).1) (Nat.lt_succ_self n) (hstep' n (by omega) hgt)
            (fun i h h' => by omega)
          rw [h] at this
          exact absurd this (not_le.mpr (lt_add_one _))
      rw [value_succ, value_succ, htop, add_left_inj] at h
      have hlow := ih (fun i hi => hd i (by omega)) (fun i hi => he i (by omega))
        (fun i hi => hstep i (by omega)) (fun i hi => hstep' i (by omega)) h
      intro i hi
      by_cases hin : i = n
      · rw [hin, htop]
      · exact hlow i (by omega)

end Unique

-- The digits of an integer, computed by division, and what they leave.
theorem value_div_mod {b : ℤ} (hb : 0 ≤ b) (m : ℤ) (n : ℕ) :
    value b (fun i => m / b ^ i % b) n + b ^ n * (m / b ^ n) = m := by
  induction n with
  | zero => simp
  | succ n ih =>
      have hdiv : m / b ^ (n + 1) = m / b ^ n / b := by
        rw [pow_succ, Int.ediv_ediv_of_nonneg (pow_nonneg hb n)]
      have hmod := Int.emod_add_mul_ediv (m / b ^ n) b
      rw [value_succ, hdiv, pow_succ]
      calc value b (fun i => m / b ^ i % b) n + m / b ^ n % b * b ^ n + b ^ n * b * (m / b ^ n / b)
          = value b (fun i => m / b ^ i % b) n + b ^ n * (m / b ^ n % b + b * (m / b ^ n / b)) := by ring
        _ = m := by rw [hmod, ih]

end RichardTest.Positional
