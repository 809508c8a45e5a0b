import RichardTest.RsaJava
import RichardTest.PowMod
import RichardTest.SignedWord
import Mathlib.Tactic.NormNum.Prime

namespace RichardTest.RsaJava

open RichardTest.SignedWord

section Loop

-- Either loop, as long as its products have no sign bit: by induction the flag is the reduced power.
theorem toNat_iterate_srem {w : Nat} {m n u : BitVec w} (hone : u.toNat = 1) (hn : 1 < n.toNat)
    (hn' : 2 * n.toNat < 2 ^ w) (j : Nat) (hfit : ∀ i < j, 2 * (m.toNat ^ i % n.toNat * m.toNat) < 2 ^ w) :
    ((fun flag : BitVec w => (flag * m).srem n)^[j] u).toNat = m.toNat ^ j % n.toNat := by
  induction j with
  | zero => rw [Function.iterate_zero_apply, hone, pow_zero, Nat.mod_eq_of_lt hn]
  | succ j ih =>
      have hflag := ih fun i hi => hfit i (hi.trans (Nat.lt_succ_self j))
      have hprod := hfit j (Nat.lt_succ_self j)
      rw [Function.iterate_succ_apply', toNat_mul_srem (by rw [hflag]; exact hprod) hn', hflag, Nat.mod_mul_mod,
        pow_succ]

-- A bound on the modulus and the base that does for every number of rounds.
theorem mod_mul_lt {n m b : Nat} (hn : 0 < n) (h : 2 * (n * m) < b) (x : Nat) : 2 * (x % n * m) < b :=
  (Nat.mul_le_mul_left 2 (Nat.mul_le_mul_right m (Nat.mod_lt x hn).le)).trans_lt h

end Loop

section Keys

variable {P Q : JInt} (hP : P.toNat.Prime) (hQ : Q.toNat.Prime) (hn : P.toNat * Q.toNat < 2 ^ 15)

include hP hQ hn

theorem toNat_totient : ((P - 1#32) * (Q - 1#32)).toNat = (P.toNat - 1) * (Q.toNat - 1) ∧
    (P.toNat - 1) * (Q.toNat - 1) < 2 ^ 15 := by
  have hlt := PowMod.totient_lt_mul hP hQ
  exact ⟨PowMod.toNat_totient hP hQ (by omega), by omega⟩

theorem getRandom_lt (hne : P ≠ Q) {rs : List JInt} {e : JInt} (he : getRandom P Q rs = some e) :
    e.toNat < (P.toNat - 1) * (Q.toNat - 1) := by
  obtain ⟨htot, hsmall⟩ := toNat_totient hP hQ hn
  have hpos := PowMod.one_lt_totient hP hQ (fun h => hne (BitVec.eq_of_toNat_eq h))
  induction rs with
  | nil => cases he
  | cons r rs ih =>
      rw [getRandom] at he
      dsimp only at he
      split_ifs at he with hneg hcop
      · exact ih he
      · obtain rfl := Option.some.inj he
        have hr : 2 * r.toNat < 2 ^ 32 := by
          rw [BitVec.slt_iff_toInt_lt, BitVec.toInt_zero] at hneg
          exact two_mul_toNat_lt (by omega)
        rw [srem_eq_umod hr (by omega), BitVec.toNat_umod, htot]
        exact Nat.mod_lt _ (by omega)
      · exact ih he

theorem getPrivateKey_inverse {e d : JInt} (he : e.toNat < (P.toNat - 1) * (Q.toNat - 1))
    (hd : getPrivateKey e (((P - 1#32) * (Q - 1#32)).signExtend 64) = .ok d) :
    d.toNat < (P.toNat - 1) * (Q.toNat - 1) ∧
      e.toNat * d.toNat % ((P.toNat - 1) * (Q.toNat - 1)) = 1 := by
  obtain ⟨htot, hsmall⟩ := toNat_totient hP hQ hn
  have ht : (((P - 1#32) * (Q - 1#32)).signExtend 64).toNat = (P.toNat - 1) * (Q.toNat - 1) := by
    rw [toNat_signExtend_of_small (by omega) (by decide), htot]
  rw [getPrivateKey, toNat_toInt_of_small (by omega), ht] at hd
  split at hd
  · rename_i k hfind
    obtain rfl := Except.ok.inj hd
    have hk := List.mem_range.mp (List.mem_of_find?_eq_some hfind)
    have hkey : (BitVec.ofNat 32 k).toNat = k := by
      rw [BitVec.toNat_ofNat, Nat.mod_eq_of_lt (by omega)]
    have hprod : (e * BitVec.ofNat 32 k).toNat = e.toNat * k := by
      have hlt : e.toNat * k < 2 ^ 15 * 2 ^ 15 := Nat.mul_lt_mul'' (by omega) (by omega)
      rw [BitVec.toNat_mul, hkey, Nat.mod_eq_of_lt (by omega)]
    have hlt : e.toNat * k < 2 ^ 15 * 2 ^ 15 := Nat.mul_lt_mul'' (by omega) (by omega)
    have hext := toNat_signExtend_of_small (v := 64) (x := e * BitVec.ofNat 32 k) (by omega) (by decide)
    have hhit := List.find?_some hfind
    rw [decide_eq_true_eq, srem_eq_umod (by omega) (by omega)] at hhit
    have hone := congrArg BitVec.toNat hhit
    rw [BitVec.toNat_umod, hext, hprod, ht] at hone
    rw [hkey]
    exact ⟨hk, hone⟩
  · cases hd

end Keys

section Flags

variable {n : JInt} (hn : 1 < n.toNat) (hn' : n.toNat < 2 ^ 15)

include hn hn'

-- A character has 16 bits and the modulus 15, so that the products of ints keep their sign bit clear.
theorem toNat_encryptFlag {e : JInt} (he : e.toNat < 2 ^ 15) (c : JChar) :
    (encryptFlag e n c).toNat = c.toNat ^ e.toNat % n.toNat := by
  have hc : (c.setWidth 32).toNat = c.toNat := by
    rw [BitVec.toNat_setWidth, Nat.mod_eq_of_lt (c.isLt.trans (by decide))]
  have hmul : n.toNat * c.toNat < 2 ^ 15 * 2 ^ 16 := Nat.mul_lt_mul'' hn' c.isLt
  have hflag := toNat_iterate_srem (m := c.setWidth 32) (u := 1#32) rfl hn (by omega) e.toInt.toNat
    fun _ _ => mod_mul_lt (by omega) (by rw [hc]; omega) _
  rw [hc, toNat_toInt_of_small (by omega)] at hflag
  rw [encryptFlag, toNat_toInt_of_small (by omega), hflag]

theorem toNat_decryptFlag {d c : JInt} (hd : d.toNat < 2 ^ 15) (hc : c.toNat < n.toNat) :
    (decryptFlag d n c).toNat = c.toNat ^ d.toNat % n.toNat := by
  have hc' : (c.signExtend 64).toNat = c.toNat := toNat_signExtend_of_small (by omega) (by decide)
  have hn'' : (n.signExtend 64).toNat = n.toNat := toNat_signExtend_of_small (by omega) (by decide)
  have hmul : n.toNat * c.toNat < 2 ^ 15 * 2 ^ 15 := Nat.mul_lt_mul'' hn' (by omega)
  have hflag := toNat_iterate_srem (m := c.signExtend 64) (n := n.signExtend 64) (u := 1#64) rfl
    (by omega) (by omega) d.toInt.toNat fun _ _ => mod_mul_lt (by omega) (by rw [hn'', hc']; omega) _
  rw [hc', hn'', toNat_toInt_of_small (by omega)] at hflag
  rw [decryptFlag, toNat_toInt_of_small (by omega), hflag]

end Flags

section RoundTrip

variable {P Q : JInt} (hP : P.toNat.Prime) (hQ : Q.toNat.Prime) (hne : P ≠ Q)
  (hn : P.toNat * Q.toNat < 2 ^ 15) {e d : JInt} (he : e.toNat < 2 ^ 15) (hd : d.toNat < 2 ^ 15)
  (hed : e.toNat * d.toNat % ((P.toNat - 1) * (Q.toNat - 1)) = 1)

include hP hQ hne hn he hd hed

-- What comes back is the character modulo `n`.
theorem decrypt_encrypt_char (c : JChar) :
    ((decryptFlag d (P * Q) (encryptFlag e (P * Q) c)).setWidth 16).toNat = c.toNat % (P.toNat * Q.toNat) := by
  have hmod : (P * Q).toNat = P.toNat * Q.toNat := by rw [BitVec.toNat_mul, Nat.mod_eq_of_lt (by omega)]
  have hone : 1 < (P * Q).toNat := by
    rw [hmod]
    exact Nat.one_lt_mul_iff.mpr ⟨hP.pos, hQ.pos, .inl hP.one_lt⟩
  have hsmall : (P * Q).toNat < 2 ^ 15 := by omega
  have hcypher := toNat_encryptFlag hone hsmall he c
  have hplain := toNat_decryptFlag hone hsmall hd (hcypher.trans_lt (Nat.mod_lt _ (by omega)))
  have hpow := PowMod.pow_pow_modEq_self hP hQ (fun h => hne (BitVec.eq_of_toNat_eq h)) hed c.toNat
  rw [BitVec.toNat_setWidth, hplain, hcypher, ← Nat.pow_mod, hmod, hpow]
  exact Nat.mod_eq_of_lt ((Nat.mod_le _ _).trans_lt c.isLt)

theorem decryptDt_encryptDt_iff (text : List JChar) :
    decryptDt d (P * Q) (encryptDt e (P * Q) text) = text ↔ ∀ c ∈ text, c.toNat < P.toNat * Q.toNat := by
  have hpos : 0 < P.toNat * Q.toNat := Nat.mul_pos hP.pos hQ.pos
  rw [decryptDt, encryptDt, List.map_map]
  conv_lhs => rhs; rw [← List.map_id text]
  rw [List.map_inj_left]
  refine forall₂_congr fun c _ => ?_
  rw [← BitVec.toNat_inj, Function.comp_apply, decrypt_encrypt_char hP hQ hne hn he hd hed, id_eq]
  exact Nat.mod_eq_iff_lt hpos.ne'

end RoundTrip

theorem generateKeys_ok {P Q e d : JInt} {rs : List JInt} (h : generateKeys P Q rs = some (.ok (e, d))) :
    getRandom P Q rs = some e ∧ getPrivateKey e (((P - 1#32) * (Q - 1#32)).signExtend 64) = .ok d := by
  rw [generateKeys] at h
  split at h
  · cases h
  · obtain ⟨e', he, hd⟩ := Option.map_eq_some_iff.mp h
    cases hkey : getPrivateKey e' (((P - 1#32) * (Q - 1#32)).signExtend 64) with
    | error m =>
        rw [hkey] at hd
        cases hd
    | ok d' =>
        rw [hkey] at hd
        cases hd
        exact ⟨he, hkey⟩

-- The text comes back exactly when its characters lie below the modulus.
theorem rsa_text_restored_iff (P Q : JInt) (hP : P.toNat.Prime) (hQ : Q.toNat.Prime) (hne : P ≠ Q)
    (hn : P.toNat * Q.toNat < 2 ^ 15) (rs : List JInt) (e d : JInt)
    (hkeys : generateKeys P Q rs = some (.ok (e, d))) (text : List JChar) :
    decryptDt d (P * Q) (encryptDt e (P * Q) text) = text ↔ ∀ c ∈ text, c.toNat < P.toNat * Q.toNat := by
  obtain ⟨he, hd⟩ := generateKeys_ok hkeys
  have hsmall := (toNat_totient hP hQ hn).2
  have he' := getRandom_lt hP hQ hn hne he
  obtain ⟨hd', hed⟩ := getPrivateKey_inverse hP hQ hn he' hd
  exact decryptDt_encryptDt_iff hP hQ hne hn (by omega) (by omega) hed text

-- The primes of the class and an ASCII text.
theorem rsa_text_restored_ascii :
    decryptDt 1613#32 (97#32 * 43#32) (encryptDt 5#32 (97#32 * 43#32) [0x74#16, 0x65#16]) =
      [0x74#16, 0x65#16] :=
  (rsa_text_restored_iff 97#32 43#32 (by norm_num) (by norm_num) (by decide) (by decide) [5#32] 5#32 1613#32
    (by decide +kernel) _).mpr (by simp)

-- The same keys and the character U+4E2D, which is above 97 * 43.
theorem rsa_text_lost_wide :
    ¬ ∀ (P Q : JInt), P.toNat.Prime → Q.toNat.Prime → P ≠ Q → P.toNat * Q.toNat < 2 ^ 15 →
      ∀ (rs : List JInt) (e d : JInt), generateKeys P Q rs = some (.ok (e, d)) →
      ∀ text : List JChar, decryptDt d (P * Q) (encryptDt e (P * Q) text) = text := by
  intro h
  have hP : (97#32).toNat.Prime := by norm_num
  have hQ : (43#32).toNat.Prime := by norm_num
  have hwide := h 97#32 43#32 hP hQ (by decide) (by decide) [5#32] 5#32 1613#32 (by decide +kernel) [0x4E2D#16]
  rw [decryptDt_encryptDt_iff hP hQ (by decide) (by decide) (by decide) (by decide) (by decide)] at hwide
  exact absurd (hwide 0x4E2D#16 List.mem_cons_self) (by decide)

end RichardTest.RsaJava
