import RichardTest.RsaDeploy.Theorems
import RichardTest.RsaJava.Theorems

namespace RichardTest.RsaDeploy

open RichardTest.RsaJava (JInt JChar P Q encryptFlag encryptDt cypherHex)

section Transport

variable {behind : Nat → List Char} (hbehind : ∀ i < SIZE, ∃ c rest, behind i = c :: rest ∧ hexDigit? c = none)

include hbehind

theorem intCypher_cypherHex {cypher : List JInt} (hlen : cypher.length = SIZE) (hcypher : ∀ x ∈ cypher, 0 ≤ x.toInt) :
    intCypher (cypherHex cypher) behind = some cypher := by
  rw [intCypher, parseLoop_eq_some_iff]
  refine ⟨hlen, fun i hi => ?_⟩
  have hi' : i < cypher.length := hi.trans_eq hlen.symm
  rw [Nat.zero_add, parseInt_eq hcypher _ _ hi', (digitRun_eq_nil_iff _).mpr (hbehind i hi), Option.map_some]
  simp only [List.length_nil, pow_zero, Nat.mul_one, show digitsValue [] = 0 from rfl, Nat.add_zero]
  rw [ofInt_toLong_self, List.getElem?_eq_getElem hi']

end Transport

section Characters

theorem toNat_decryptFlag {n c d : JInt} (hn : 1 < n.toNat) (hn' : n.toNat < 2 ^ 15) (hc : c.toNat < n.toNat)
    (hd : d.toNat < 2 ^ 15) : (decryptFlag d n c).toNat = c.toNat ^ d.toNat % n.toNat := by
  have hc' : (c.signExtend 64).toNat = c.toNat := SignedWord.toNat_signExtend_of_small (by omega) (by decide)
  have hn'' : (n.signExtend 64).toNat = n.toNat := SignedWord.toNat_signExtend_of_small (by omega) (by decide)
  rw [decryptFlag, SignedWord.toNat_toInt_of_small (by omega)]
  apply PowMod.val_iterate (v := BitVec.toNat) rfl hn
  intro flag hflag
  have hprod : flag.toNat * c.toNat < 2 ^ 15 * 2 ^ 15 := Nat.mul_lt_mul'' (hflag.trans hn') (hc.trans hn')
  rw [BitVec.toNat_umod, BitVec.toNat_mul, hc', hn'', Nat.mod_eq_of_lt (hprod.trans (by decide))]

variable {e : JInt} (he : e.toNat < 2 ^ 15)

include he

-- What the program makes of a character that RSA.java has encrypted.
theorem toNat_restored (c : JChar) : ((decryptFlag D N (encryptFlag e (P * Q) c)).setWidth 8).toNat =
    c.toNat ^ (e.toNat * D.toNat) % N.toNat % 2 ^ 8 := by
  have hcypher : (encryptFlag e N c).toNat = c.toNat ^ e.toNat % N.toNat :=
    RsaJava.toNat_encryptFlag (by decide) (by decide) he c
  have hlt : (encryptFlag e N c).toNat < N.toNat := hcypher.trans_lt (Nat.mod_lt _ (by decide))
  rw [BitVec.toNat_setWidth, show P * Q = N from rfl, toNat_decryptFlag (by decide) (by decide) hlt (by decide),
    hcypher, ← Nat.pow_mod, ← pow_mul]

theorem main_cypherHex {behind : Nat → List Char}
    (hbehind : ∀ i < SIZE, ∃ c rest, behind i = c :: rest ∧ hexDigit? c = none) {text : List JChar}
    (hlen : text.length = SIZE) : main (cypherHex (encryptDt e (P * Q) text)) behind =
      some (text.map fun c => (decryptFlag D N (encryptFlag e (P * Q) c)).setWidth 8) := by
  have hnonneg : ∀ x ∈ encryptDt e (P * Q) text, 0 ≤ x.toInt := by
    intro x hx
    obtain ⟨c, -, rfl⟩ := List.mem_map.mp hx
    have hcypher : (encryptFlag e N c).toNat = c.toNat ^ e.toNat % N.toNat :=
      RsaJava.toNat_encryptFlag (by decide) (by decide) he c
    have hlt : (encryptFlag e N c).toNat < 4171 := hcypher.trans_lt (Nat.mod_lt _ (by decide))
    rw [show P * Q = N from rfl, BitVec.toInt_eq_toNat_of_lt (by omega)]
    exact Int.natCast_nonneg _
  rw [main, intCypher_cypherHex hbehind (by rw [encryptDt, List.length_map, hlen]) hnonneg, Option.map_some, dec,
    decryptDt, encryptDt, List.map_map]
  rfl

end Characters

section Exponent

-- 672 is the least common multiple of `P - 1` and `Q - 1`.
theorem pow_modEq_self {k : Nat} (hk : k % 672 = 1) (m : Nat) : m ^ k ≡ m [MOD 97 * 43] := by
  rw [← Nat.div_add_mod k 672, hk, ← Nat.modEq_and_modEq_iff_modEq_mul (by decide)]
  constructor
  · rw [show 672 = (97 - 1) * 7 from rfl, mul_assoc]
    exact PowMod.pow_modEq_self_of_prime (by norm_num) m _
  · rw [show 672 = (43 - 1) * 16 from rfl, mul_assoc]
    exact PowMod.pow_modEq_self_of_prime (by norm_num) m _

-- The powers of 29 modulo 4171 come round only after 672 steps, and their low bytes tell 29 from the others.
theorem pow_29_low (k : Nat) (h : 29 ^ k % 4171 % 256 = 29) : k % 672 = 1 := by
  have hperiod : 29 ^ 672 ≡ 1 [MOD 4171] := by decide +kernel
  have hk : 29 ^ k ≡ 29 ^ (k % 672) [MOD 4171] := by
    conv_lhs => rw [← Nat.div_add_mod k 672, pow_add, pow_mul]
    have hrounds := (hperiod.pow (k / 672)).mul_right (29 ^ (k % 672))
    rwa [one_pow, one_mul] at hrounds
  rw [hk] at h
  have hall : ∀ j < 672, 29 ^ j % 4171 % 256 = 29 → j = 1 := by decide +kernel
  exact hall _ (Nat.mod_lt k (by decide)) h

end Exponent

-- The text of both programs.
def dt : List JChar := "test1test2test3test4".toList.map fun c => BitVec.ofNat 16 c.toNat

theorem dt_ascii : dt.all fun c => c.toNat < 2 ^ 7 := by decide

end RichardTest.RsaDeploy
