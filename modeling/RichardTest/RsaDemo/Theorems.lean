import RichardTest.RsaDemo
import RichardTest.PowMod
import RichardTest.SignedWord
import Mathlib.Tactic.NormNum.Prime

namespace RichardTest.RsaDemo

-- The recursion computes the greatest common divisor.
theorem toNat_getComDiv (p q : UInt) : (getComDiv p q).toNat = Nat.gcd p.toNat q.toNat := by
  induction p, q using getComDiv.induct with
  | case1 p q b hb =>
      rw [getComDiv]
      by_cases hlt : p > q
      · have hq : q = 0#32 := by simpa only [b, dif_pos hlt] using hb
        simp only [if_pos hlt, if_pos hq]
        rw [hq, BitVec.toNat_zero, Nat.gcd_zero_right]
      · have hp : p = 0#32 := by simpa only [b, dif_neg hlt] using hb
        simp only [if_neg hlt, if_pos hp]
        rw [hp, BitVec.toNat_zero, Nat.gcd_zero_left]
  | case2 p q a b hb ih =>
      rw [getComDiv]
      by_cases hlt : p > q
      · simp only [a, b, dif_pos hlt] at hb ih
        simp only [if_pos hlt, if_neg hb]
        rw [ih, BitVec.toNat_umod, Nat.gcd_comm, ← Nat.gcd_rec, Nat.gcd_comm]
      · simp only [a, b, dif_neg hlt] at hb ih
        simp only [if_neg hlt, if_neg hb]
        rw [ih, BitVec.toNat_umod, Nat.gcd_comm, ← Nat.gcd_rec]

section Loop

variable {m n : UInt} (hn : 1 < n.toNat) (hmn : n.toNat * m.toNat ≤ 2 ^ 32)

include hn hmn

theorem toNat_flagAfter (j : Nat) : (flagAfter m n j).toNat = m.toNat ^ j % n.toNat := by
  apply PowMod.val_iterate (v := BitVec.toNat) rfl hn
  intro flag hflag
  have hlt : flag.toNat * m.toNat < 2 ^ 32 ∨ m.toNat = 0 := by
    rcases Nat.eq_zero_or_pos m.toNat with hm | hm
    · exact .inr hm
    · exact .inl ((Nat.mul_lt_mul_of_pos_right hflag hm).trans_le hmn)
  rw [BitVec.toNat_umod, BitVec.toNat_mul]
  rcases hlt with hlt | hm
  · rw [Nat.mod_eq_of_lt hlt]
  · simp [hm]

-- No product of the loop needs more than 32 bits.
theorem flagAfter_mul_lt (j : Nat) : (flagAfter m n j).toNat * m.toNat < 2 ^ 32 := by
  rw [toNat_flagAfter hn hmn]
  rcases Nat.eq_zero_or_pos m.toNat with hm | hm
  · rw [hm, Nat.mul_zero]
    exact Nat.two_pow_pos 32
  · exact (Nat.mul_lt_mul_of_pos_right (Nat.mod_lt _ (by omega)) hm).trans_le hmn

end Loop

-- The search finds an inverse of `e`, and its products do not wrap.
theorem getPrivateKey_spec {e t : UInt} (ht : 1 < t.toNat) (ht' : t.toNat < 65536) (he : e < t)
    (hcop : Nat.Coprime e.toNat t.toNat) :
    (∀ d < t, e.toNat * d.toNat < 2 ^ 32) ∧ getPrivateKey e t < t ∧
      e.toNat * (getPrivateKey e t).toNat % t.toNat = 1 := by
  have hwrap : ∀ d < t, e.toNat * d.toNat < 2 ^ 32 := by
    intro d hd
    have he' : e.toNat < 65536 := (BitVec.lt_def.mp he).trans ht'
    have hd' : d.toNat < 65536 := (BitVec.lt_def.mp hd).trans ht'
    calc e.toNat * d.toNat < 65536 * 65536 := Nat.mul_lt_mul'' he' hd'
      _ = 2 ^ 32 := rfl
  have hofNat : ∀ d < t.toNat, (BitVec.ofNat 32 d).toNat = d := fun d hd =>
    BitVec.toNat_ofNat _ _ ▸ Nat.mod_eq_of_lt (hd.trans (ht'.trans (by decide)))
  have htest : ∀ d < t.toNat, e * BitVec.ofNat 32 d % t = 1#32 ↔ e.toNat * d % t.toNat = 1 := by
    intro d hd
    have hlt := hwrap (BitVec.ofNat 32 d) (by rw [BitVec.lt_def, hofNat d hd]; exact hd)
    rw [hofNat d hd] at hlt
    rw [← BitVec.toNat_inj, BitVec.toNat_umod, BitVec.toNat_mul, hofNat d hd, Nat.mod_eq_of_lt hlt]
    rfl
  refine ⟨hwrap, ?_⟩
  rw [getPrivateKey]
  cases hfind : (List.range t.toNat).find? fun d => e * BitVec.ofNat 32 d % t = 1#32 with
  | none =>
      obtain ⟨d, hd, hone⟩ := Nat.exists_mul_mod_eq_one_of_coprime hcop ht
      have hmiss := List.find?_eq_none.mp hfind d (List.mem_range.mpr hd)
      exact absurd (decide_eq_true ((htest d hd).mpr hone)) hmiss
  | some d =>
      have hd := List.mem_range.mp (List.mem_of_find?_eq_some hfind)
      have hhit := List.find?_some hfind
      rw [decide_eq_true_eq, htest d hd] at hhit
      dsimp only
      rw [BitVec.lt_def, hofNat d hd]
      exact ⟨hd, hhit⟩

-- A character of 1..127 is its own code.
theorem toNat_signExtend_of_pos {c : SChar} (hc : 0 < c.toInt) :
    (c.signExtend 32).toNat = c.toNat ∧ c.toNat < 128 := by
  have hlt := SignedWord.two_mul_toNat_lt hc.le
  exact ⟨SignedWord.toNat_signExtend_of_small hlt (by decide), by omega⟩

section RoundTrip

variable {p q : UInt} (hn : p.toNat * q.toNat < 65536)

include hn

theorem toNat_modulus : (p * q).toNat = p.toNat * q.toNat := by
  rw [BitVec.toNat_mul, Nat.mod_eq_of_lt (by omega)]

-- The bases of both loops are small enough for their products.
theorem mul_plain_le {c : SChar} (hc : 0 < c.toInt) : (p * q).toNat * (c.signExtend 32).toNat ≤ 2 ^ 32 := by
  obtain ⟨hval, hlt⟩ := toNat_signExtend_of_pos hc
  rw [toNat_modulus hn, hval]
  exact (Nat.mul_le_mul hn.le hlt.le).trans (by decide)

variable (hn' : 128 ≤ p.toNat * q.toNat)

include hn'

theorem mul_cypher_le {e : UInt} {c : SChar} (hc : 0 < c.toInt) :
    (p * q).toNat * (flagAfter (c.signExtend 32) (p * q) e.toNat).toNat ≤ 2 ^ 32 := by
  have hpow := toNat_flagAfter (by rw [toNat_modulus hn]; omega) (mul_plain_le hn hc) e.toNat
  have hlt : (flagAfter (c.signExtend 32) (p * q) e.toNat).toNat < (p * q).toNat := by
    rw [hpow]
    exact Nat.mod_lt _ (by rw [toNat_modulus hn]; omega)
  rw [toNat_modulus hn] at hlt ⊢
  calc p.toNat * q.toNat * _ ≤ 65536 * 65536 := Nat.mul_le_mul hn.le (hlt.trans hn).le
    _ = 2 ^ 32 := rfl

theorem decrypt_encrypt_char (hp : p.toNat.Prime) (hq : q.toNat.Prime) (hne : p ≠ q) {e d : UInt}
    (hed : e.toNat * d.toNat % ((p.toNat - 1) * (q.toNat - 1)) = 1) {c : SChar} (hc : 0 < c.toInt) :
    (flagAfter (flagAfter (c.signExtend 32) (p * q) e.toNat) (p * q) d.toNat).setWidth 8 = c := by
  have hone : 1 < (p * q).toNat := by
    rw [toNat_modulus hn]
    omega
  obtain ⟨hval, hlt⟩ := toNat_signExtend_of_pos hc
  have hne' : p.toNat ≠ q.toNat := fun h => hne (BitVec.eq_of_toNat_eq h)
  have hpow : (c.toNat ^ e.toNat) ^ d.toNat % (p.toNat * q.toNat) = c.toNat := by
    rw [PowMod.pow_pow_modEq_self hp hq hne' hed c.toNat]
    exact Nat.mod_eq_of_lt (by omega)
  apply BitVec.eq_of_toNat_eq
  rw [BitVec.toNat_setWidth, toNat_flagAfter hone (mul_cypher_le hn hn' hc),
    toNat_flagAfter hone (mul_plain_le hn hc), hval, toNat_modulus hn, ← Nat.pow_mod, hpow]
  exact Nat.mod_eq_of_lt (by omega)

end RoundTrip

-- What main does with the keys it generates, for all primes that keep the modulus between the largest
-- character and 16 bits.
theorem rsa_round_trip (p q n t e d : UInt) (hp : p.toNat.Prime) (hq : q.toNat.Prime) (hne : p ≠ q)
    (hn' : 128 ≤ p.toNat * q.toNat) (hn : p.toNat * q.toNat < 65536) (hmodulus : n = p * q)
    (htotient : t = (p - 1#32) * (q - 1#32)) (he : e < t) (hcop : getComDiv e t = 1#32)
    (hkey : d = getPrivateKey e t) :
    d < t ∧ e.toNat * d.toNat % t.toNat = 1 ∧ (∀ d' < t, e.toNat * d'.toNat < 2 ^ 32) ∧
      ∀ text : List SChar, (∀ c ∈ text, 1 ≤ c.toInt) →
        (∀ c ∈ text, ∀ j < e.toNat,
          (flagAfter (c.signExtend 32) n j).toNat * (c.signExtend 32).toNat < 2 ^ 32) ∧
        (∀ x ∈ encryptDt e n text, ∀ j < d.toNat, (flagAfter x n j).toNat * x.toNat < 2 ^ 32) ∧
        decryptDt d n (encryptDt e n text) = text := by
  subst hmodulus htotient hkey
  have htot := PowMod.toNat_totient hp hq (by omega)
  have hmod := toNat_modulus hn
  have hne' : p.toNat ≠ q.toNat := fun h => hne (BitVec.eq_of_toNat_eq h)
  have hcop' : Nat.Coprime e.toNat ((p - 1#32) * (q - 1#32)).toNat := by
    rw [Nat.Coprime, ← toNat_getComDiv, hcop]
    rfl
  have hlt := PowMod.totient_lt_mul hp hq
  obtain ⟨hwrap, hd, hed⟩ := getPrivateKey_spec (by rw [htot]; exact PowMod.one_lt_totient hp hq hne')
    (by omega) he hcop'
  refine ⟨hd, hed, hwrap, ?_⟩
  intro text htext
  rw [htot] at hed
  have hone : 1 < (p * q).toNat := by omega
  refine ⟨?_, ?_, ?_⟩
  · intro c hc j _
    exact flagAfter_mul_lt hone (mul_plain_le hn (htext c hc)) j
  · intro x hx j _
    obtain ⟨c, hc, rfl⟩ := List.mem_map.mp hx
    exact flagAfter_mul_lt hone (mul_cypher_le hn hn' (htext c hc)) j
  · rw [decryptDt, encryptDt, List.map_map]
    conv_rhs => rw [← List.map_id text]
    apply List.map_congr_left
    intro c hc
    exact decrypt_encrypt_char hn hn' hp hq hne hed (htext c hc)

-- A text whose characters are divisible by the primes.
theorem rsa_round_trip_multiples :
    decryptDt (getPrivateKey 7#32 120#32) 143#32 (encryptDt 7#32 143#32 [11#8, 26#8, 104#8]) =
      [11#8, 26#8, 104#8] :=
  have hcop : getComDiv 7#32 120#32 = 1#32 := BitVec.eq_of_toNat_eq (toNat_getComDiv 7#32 120#32)
  have hkeys := rsa_round_trip 11#32 13#32 143#32 120#32 7#32 _ (by norm_num) (by norm_num) (by decide)
    (by decide) (by decide) rfl rfl (by decide) hcop rfl
  (hkeys.2.2.2 [11#8, 26#8, 104#8] (by simp)).2.2

end RichardTest.RsaDemo
