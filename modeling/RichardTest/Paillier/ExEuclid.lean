import RichardTest.Paillier.Theorems

namespace RichardTest.Paillier

-- The coefficients have opposite signs, so their multiples add up to `b` all the time. The last clause is
-- what the first step establishes.
structure Bezout (b X U A B : Int) : Prop where
  signs : (0 ≤ X ∧ U ≤ 0) ∨ (X ≤ 0 ∧ 0 ≤ U)
  total : A * |U| + B * |X| = b
  half : B = 0 → 2 * |X| ≤ b
  order : B < A ∨ 2 ≤ B

theorem abs_sub_mul {X U Q : Int} (hQ : 0 ≤ Q) (hsigns : (0 ≤ X ∧ U ≤ 0) ∨ (X ≤ 0 ∧ 0 ≤ U)) :
    |X - Q * U| = |X| + Q * |U| := by
  rcases hsigns with ⟨hX, hU⟩ | ⟨hX, hU⟩
  · have hQU : 0 ≤ Q * -U := mul_nonneg hQ (by omega)
    rw [abs_of_nonneg hX, abs_of_nonpos hU, abs_of_nonneg (by linarith)]
    ring
  · have hQU := mul_nonneg hQ hU
    rw [abs_of_nonpos hX, abs_of_nonneg hU, abs_of_nonpos (by linarith)]
    ring

-- The last divisor is 1, and it is not the first one, so the last quotient is at least 2.
theorem Bezout.half_of_last {b X U A B : Int} (h : Bezout b X U A B) (hA : 0 ≤ A) (hB : 0 < B)
    (hgcd : Int.gcd A B = 1) (hlast : A % B = 0) : 2 * |U| ≤ b := by
  have hone : B = 1 := by
    have hdvd : (Int.gcd A B : Int) = B := (Int.gcd_eq_right_iff_dvd hB.le).mpr (Int.dvd_of_emod_eq_zero hlast)
    omega
  have hA2 : 2 ≤ A := by
    have := h.order
    omega
  have hle := mul_le_mul_of_nonneg_right hA2 (abs_nonneg U)
  have hX := mul_nonneg hB.le (abs_nonneg X)
  have := h.total
  omega

theorem Bezout.step {b X U A B : Int} (h : Bezout b X U A B) (hA : 0 ≤ A) (hB : 0 < B)
    (hgcd : Int.gcd A B = 1) : Bezout b U (X - A / B * U) B (A % B) where
  signs := by
    have hQ := Int.ediv_nonneg hA hB.le
    rcases h.signs with ⟨hX, hU⟩ | ⟨hX, hU⟩
    · have := mul_nonneg hQ (show 0 ≤ -U by omega)
      exact Or.inr ⟨hU, by linarith⟩
    · have := mul_nonneg hQ hU
      exact Or.inl ⟨hU, by linarith⟩
  total := by
    have hdiv := Int.emod_add_mul_ediv A B
    have htotal := h.total
    rw [abs_sub_mul (Int.ediv_nonneg hA hB.le) h.signs]
    linear_combination htotal + |U| * hdiv
  half := h.half_of_last hA hB hgcd
  order := Or.inl (Int.emod_lt_of_pos A hB)

theorem exEuclidLoop_half {b : Int} (fuel : Nat) (X U A B : Int) (hA : 0 ≤ A) (hB : 0 ≤ B)
    (hgcd : Int.gcd A B = 1) (h : Bezout b X U A B) {r : Int} (hrun : exEuclidLoop fuel X U A B = some r) :
    2 * |r| ≤ b := by
  induction fuel generalizing X U A B with
  | zero => cases hrun
  | succ fuel ih =>
      rw [exEuclidLoop] at hrun
      by_cases hz : B = 0
      · rw [if_neg (fun hne => (notEqual_zero hB).mp hne hz)] at hrun
        cases hrun
        exact h.half hz
      · have hpos : 0 < B := by omega
        rw [if_pos ((notEqual_zero hB).mpr hz)] at hrun
        refine ih U (X - A / B * U) B (A % B) hB (Int.emod_nonneg A hz) ?_ (h.step hA hpos hgcd) hrun
        rw [Int.gcd_comm, Int.gcd_emod]
        exact hgcd

-- ex_euclid returns the inverse, reduced, and leaves it in the object it was called on.
theorem exEuclid_inverse {a b : Int} (ha : 1 ≤ a) (hb : 2 ≤ b) (hgcd : Int.gcd a b = 1) :
    ∃ r, exEuclidMember a b = some (r, r) ∧ 0 < r ∧ r < b ∧ a * r ≡ 1 [ZMOD b] := by
  have hstart : Bezout b 1 0 a b := ⟨Or.inl ⟨by norm_num, le_rfl⟩, by simp, fun h => by omega, Or.inr hb⟩
  obtain ⟨X, hX, hmod⟩ := exEuclidLoop_spec (a := a) (b := b) (b.natAbs + 1) 1 0 a b (by omega) (by omega)
    (by omega) hgcd (by simp) (by simp)
  have hhalf := exEuclidLoop_half (b.natAbs + 1) 1 0 a b (by omega) (by omega) hgcd hstart hX
  -- zero is no inverse
  have hne : X ≠ 0 := by
    rintro rfl
    rw [mul_zero] at hmod
    have hdvd := hmod.dvd
    have := Int.le_of_dvd (by norm_num) hdvd
    omega
  obtain ⟨hlo, hhi⟩ := abs_le.mp (show |X| ≤ b / 2 by omega)
  refine ⟨if X < 0 then X + b else X, by simp [exEuclidMember, exEuclid, hX], ?_⟩
  split_ifs with hneg
  · exact ⟨by omega, by omega, inverse_add_modulus hmod⟩
  · exact ⟨by omega, by omega, hmod⟩

-- 7 * 3 = 1 modulo 10, where the coefficient is positive, and 3 * 7, where it is not.
theorem exEuclid_inverse_ten :
    (∃ r, exEuclidMember 7 10 = some (r, r) ∧ 0 < r ∧ r < 10 ∧ 7 * r ≡ 1 [ZMOD 10]) ∧
      ∃ r, exEuclidMember 3 10 = some (r, r) ∧ 0 < r ∧ r < 10 ∧ 3 * r ≡ 1 [ZMOD 10] :=
  ⟨exEuclid_inverse (by norm_num) (by norm_num) (by decide), exEuclid_inverse (by norm_num) (by norm_num) (by decide)⟩

end RichardTest.Paillier
