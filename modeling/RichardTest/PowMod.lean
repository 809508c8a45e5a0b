import Mathlib.FieldTheory.Finite.Basic

namespace RichardTest.PowMod

-- Powers modulo a product of two primes, and loops that multiply and reduce.

section Iterate

variable {α : Type} {v : α → Nat} {step : α → α} {one : α} {m n : Nat}

-- `step` multiplies the number that its argument stands for by `m` modulo `n`, as long as that number
-- is reduced.
theorem val_iterate (hone : v one = 1) (hn : 1 < n)
    (hstep : ∀ x, v x < n → v (step x) = v x * m % n) (j : Nat) :
    v (step^[j] one) = m ^ j % n := by
  induction j with
  | zero => rw [Function.iterate_zero_apply, hone, pow_zero, Nat.mod_eq_of_lt hn]
  | succ j ih =>
      have hlt : v (step^[j] one) < n := by
        rw [ih]
        exact Nat.mod_lt _ (by omega)
      rw [Function.iterate_succ_apply', hstep _ hlt, ih, Nat.mod_mul_mod, pow_succ]

end Iterate

section Primes

variable {p q : Nat}

-- Fermat's theorem for an exponent that is 1 modulo `p - 1`, and every base.
theorem pow_modEq_self_of_prime (hp : p.Prime) (m k : Nat) : m ^ ((p - 1) * k + 1) ≡ m [MOD p] := by
  have := Fact.mk hp
  rw [← ZMod.natCast_eq_natCast_iff, Nat.cast_pow]
  by_cases hm : (m : ZMod p) = 0
  · rw [hm, zero_pow (Nat.succ_ne_zero _)]
  · rw [pow_succ, pow_mul, ZMod.pow_card_sub_one_eq_one hm, one_pow, one_mul]

-- The base may share a factor with the modulus.
theorem pow_pow_modEq_self (hp : p.Prime) (hq : q.Prime) (hne : p ≠ q) {e d : Nat}
    (h : e * d % ((p - 1) * (q - 1)) = 1) (m : Nat) : (m ^ e) ^ d ≡ m [MOD p * q] := by
  have hed : e * d = (p - 1) * (q - 1) * (e * d / ((p - 1) * (q - 1))) + 1 := by
    conv_lhs => rw [← Nat.div_add_mod (e * d) ((p - 1) * (q - 1)), h]
  rw [← pow_mul, hed, ← Nat.modEq_and_modEq_iff_modEq_mul ((Nat.coprime_primes hp hq).mpr hne)]
  constructor
  · rw [mul_assoc]
    exact pow_modEq_self_of_prime hp m _
  · rw [mul_comm (p - 1), mul_assoc]
    exact pow_modEq_self_of_prime hq m _

theorem one_lt_totient (hp : p.Prime) (hq : q.Prime) (hne : p ≠ q) : 1 < (p - 1) * (q - 1) := by
  have hp2 := hp.two_le
  have hq2 := hq.two_le
  by_cases h2 : p = 2
  · rw [h2, Nat.one_mul]
    omega
  · exact (show 1 < p - 1 by omega).trans_le (Nat.le_mul_of_pos_right _ (by omega))

theorem totient_lt_mul (hp : p.Prime) (hq : q.Prime) : (p - 1) * (q - 1) < p * q :=
  Nat.mul_lt_mul_of_lt_of_le (Nat.sub_lt hp.pos Nat.one_pos) (Nat.sub_le q 1) hq.pos

end Primes

-- The totient of two primes in fixed-width arithmetic, where their product does not wrap.
theorem toNat_totient {w : Nat} {p q : BitVec w} (hp : p.toNat.Prime) (hq : q.toNat.Prime)
    (hn : p.toNat * q.toNat < 2 ^ w) : ((p - 1#w) * (q - 1#w)).toNat = (p.toNat - 1) * (q.toNat - 1) := by
  have hsub : ∀ x : BitVec w, x.toNat.Prime → (x - 1#w).toNat = x.toNat - 1 := fun x hx => by
    have hone : (1#w).toNat = 1 := Nat.mod_eq_of_lt (hx.one_lt.trans x.isLt)
    rw [BitVec.toNat_sub_of_le (by rw [BitVec.le_def, hone]; exact hx.one_lt.le), hone]
  rw [BitVec.toNat_mul, hsub p hp, hsub q hq, Nat.mod_eq_of_lt ((totient_lt_mul hp hq).trans hn)]

end RichardTest.PowMod
