import RichardTest.RsaDemo.Theorems
import Mathlib.Data.List.TakeWhile

namespace RichardTest.RsaDemo

-- `return 1` where no number below `s` divides it.
def isPrime (s : UInt) : Bool := (List.range' 2 (s.toNat - 2)).all fun i => s % BitVec.ofNat 32 i ≠ 0#32

-- The loop over the values of rand().
def getRandom (p q : UInt) : List UInt → Option UInt
  | [] => none
  | r :: rs =>
      let t := (p - 1#32) * (q - 1#32)
      let e := r % t
      if getComDiv e t = 1#32 then some e else getRandom p q rs

-- What main prints, where `dec` ends at the first NUL.
structure Output where
  e : UInt
  d : UInt
  n : UInt
  cypher : List UInt
  dec : List SChar
deriving DecidableEq

-- With the values of rand(). `none` stands for a run that needs more of them.
def main (P Q : UInt) (rs : List UInt) (txt : List SChar) : Option (Except String Output) :=
  let p := toString P.toInt
  let q := toString Q.toInt
  if ¬isPrime P then some (.error ("p=" ++ p ++ " is not a prime"))
  else if ¬isPrime Q then some (.error ("q=" ++ q ++ " is not a prime"))
  else if getComDiv P Q ≠ 1#32 then some (.error (p ++ " and " ++ q ++ " is not with a co-prime relation"))
  else do
    let n := P * Q
    let t := (P - 1#32) * (Q - 1#32)
    let e ← getRandom P Q rs
    let d := getPrivateKey e t
    let cypher := encryptDt e n txt
    some (.ok { e, d, n, cypher, dec := (decryptDt d n cypher).takeWhile (· ≠ 0#8) })

section Keys

variable {p q : UInt}

theorem isPrime_of_prime (hp : p.toNat.Prime) : isPrime p = true := by
  refine List.all_eq_true.mpr fun i hi => decide_eq_true fun hdvd => ?_
  obtain ⟨hlow, hhigh⟩ := List.mem_range'_1.mp hi
  have hlt : i < p.toNat := by omega
  have hval : (BitVec.ofNat 32 i).toNat = i := Nat.mod_eq_of_lt (hlt.trans p.isLt)
  have hzero : p.toNat % i = 0 := by
    have h := congrArg BitVec.toNat hdvd
    rwa [BitVec.toNat_umod, hval] at h
  rcases hp.eq_one_or_self_of_dvd i (Nat.dvd_of_mod_eq_zero hzero) with hone | hself
  · omega
  · omega

-- Whatever rand() yields, a key that is drawn has an inverse.
theorem getRandom_spec {rs : List UInt} {e : UInt} (ht : 0#32 < (p - 1#32) * (q - 1#32))
    (h : getRandom p q rs = some e) : e < (p - 1#32) * (q - 1#32) ∧ getComDiv e ((p - 1#32) * (q - 1#32)) = 1#32 := by
  induction rs with
  | nil => cases h
  | cons r rs ih =>
      rw [getRandom] at h
      split_ifs at h with hcop
      · obtain rfl := Option.some.inj h
        exact ⟨BitVec.umod_lt r ht, hcop⟩
      · exact ih h

end Keys

section Texts

variable {p q : UInt} (hp : p.toNat.Prime) (hq : q.toNat.Prime) (hne : p ≠ q) (hn : p.toNat * q.toNat < 65536)

include hp hq hne hn

-- A character comes back modulo `n`, also where `n` is smaller than some of the characters.
theorem decrypt_encrypt_mod {e d : UInt} (hed : e.toNat * d.toNat % ((p.toNat - 1) * (q.toNat - 1)) = 1) {c : SChar}
    (hc : 0 < c.toInt) :
    (flagAfter (flagAfter (c.signExtend 32) (p * q) e.toNat) (p * q) d.toNat).toNat =
      c.toNat % (p.toNat * q.toNat) := by
  have hmodulus := toNat_modulus hn
  have hone : 1 < (p * q).toNat := by
    rw [hmodulus]
    exact Nat.lt_of_lt_of_le hp.one_lt (Nat.le_mul_of_pos_right _ hq.pos)
  have hpow := toNat_flagAfter hone (mul_plain_le hn hc) e.toNat
  have hcypher : (p * q).toNat * (flagAfter (c.signExtend 32) (p * q) e.toNat).toNat ≤ 2 ^ 32 := by
    have hlt : (flagAfter (c.signExtend 32) (p * q) e.toNat).toNat < (p * q).toNat := by
      rw [hpow]
      exact Nat.mod_lt _ (by omega)
    rw [hmodulus] at hlt ⊢
    calc p.toNat * q.toNat * _ ≤ 65536 * 65536 := Nat.mul_le_mul hn.le (hlt.trans hn).le
      _ = 2 ^ 32 := rfl
  have hne' : p.toNat ≠ q.toNat := fun h => hne (BitVec.eq_of_toNat_eq h)
  rw [toNat_flagAfter hone hcypher, hpow, (toNat_signExtend_of_pos hc).1, hmodulus, ← Nat.pow_mod]
  exact PowMod.pow_pow_modEq_self hp hq hne' hed c.toNat

-- What main prints as the decrypted text.
def residues (n : Nat) (txt : List SChar) : List SChar := txt.map fun c => BitVec.ofNat 8 (c.toNat % n)

theorem main_eq (rs : List UInt) {txt : List SChar} (htxt : ∀ c ∈ txt, 0 < c.toInt) :
    main p q rs txt = (getRandom p q rs).map fun e =>
      .ok { e, d := getPrivateKey e ((p - 1#32) * (q - 1#32)), n := p * q, cypher := encryptDt e (p * q) txt,
            dec := (residues (p.toNat * q.toNat) txt).takeWhile (· ≠ 0#8) } := by
  have hne' : p.toNat ≠ q.toNat := fun h => hne (BitVec.eq_of_toNat_eq h)
  have hcop : getComDiv p q = 1#32 := by
    apply BitVec.eq_of_toNat_eq
    rw [toNat_getComDiv]
    exact (Nat.coprime_primes hp hq).mpr hne'
  have htot : ((p - 1#32) * (q - 1#32)).toNat = _ := PowMod.toNat_totient hp hq (by omega)
  have hone := PowMod.one_lt_totient hp hq hne'
  have hlt := PowMod.totient_lt_mul hp hq
  rw [main, if_neg (not_not_intro (isPrime_of_prime hp)), if_neg (not_not_intro (isPrime_of_prime hq)),
    if_neg (not_not_intro hcop)]
  cases he : getRandom p q rs with
  | none => rfl
  | some e =>
      obtain ⟨het, hcop'⟩ := getRandom_spec (BitVec.lt_def.mpr (by rw [htot]; exact Nat.zero_lt_of_lt hone)) he
      have hgcd : Nat.Coprime e.toNat ((p - 1#32) * (q - 1#32)).toNat := by
        rw [Nat.Coprime, ← toNat_getComDiv, hcop']
        rfl
      obtain ⟨-, -, hed⟩ := getPrivateKey_spec (by omega) (by omega) het hgcd
      rw [htot] at hed
      have hdec : decryptDt (getPrivateKey e ((p - 1#32) * (q - 1#32))) (p * q) (encryptDt e (p * q) txt) =
          residues (p.toNat * q.toNat) txt := by
        rw [decryptDt, encryptDt, List.map_map, residues]
        refine List.map_congr_left fun c hc => BitVec.eq_of_toNat_eq ?_
        rw [Function.comp_apply, BitVec.toNat_setWidth, decrypt_encrypt_mod hp hq hne hn hed (htxt c hc),
          BitVec.toNat_ofNat]
      simp only [Option.bind_eq_bind, Option.bind_some, Option.map_some, hdec]

omit hp hq hne hn in
theorem residues_eq_iff {n : Nat} (hn : 0 < n) {txt : List SChar} (htxt : ∀ c ∈ txt, 0 < c.toInt) :
    (residues n txt).takeWhile (· ≠ 0#8) = txt ↔ ∀ c ∈ txt, c.toNat < n := by
  have hval : ∀ c : SChar, (BitVec.ofNat 8 (c.toNat % n)).toNat = c.toNat % n := fun c =>
    Nat.mod_eq_of_lt ((Nat.mod_le _ _).trans_lt c.isLt)
  constructor
  · intro h c hc
    have hwhole : residues n txt = txt := by
      have hstart := List.takeWhile_prefix (fun c : SChar => decide (c ≠ 0#8)) (l := residues n txt)
      rw [h] at hstart
      exact (hstart.eq_of_length_le (by rw [residues, List.length_map])).symm
    have hmap : txt.map (fun c => BitVec.ofNat 8 (c.toNat % n)) = txt.map id := by rwa [List.map_id]
    have hself : c.toNat % n = c.toNat := (hval c).symm.trans (congrArg BitVec.toNat (List.map_inj_left.mp hmap c hc))
    rw [← hself]
    exact Nat.mod_lt c.toNat hn
  · intro h
    have hwhole : residues n txt = txt := by
      rw [residues]
      conv_rhs => rw [← List.map_id txt]
      refine List.map_congr_left fun c hc => BitVec.eq_of_toNat_eq ?_
      rw [hval, Nat.mod_eq_of_lt (h c hc)]
      rfl
    rw [hwhole, List.takeWhile_eq_self_iff]
    refine fun c hc => decide_eq_true fun hzero => ?_
    have hpos := htxt c hc
    rw [hzero] at hpos
    exact absurd hpos (by decide)

-- Whatever rand() yields, main prints its text modulo `n`, up to the first character that is a multiple of `n`, and
-- so its text exactly where every character is below `n`.
theorem main_prints_iff {rs : List UInt} {txt : List SChar} (htxt : ∀ c ∈ txt, 0 < c.toInt)
    {out : Except String Output} (h : main p q rs txt = some out) :
    ∃ output, out = .ok output ∧ output.dec = (residues (p.toNat * q.toNat) txt).takeWhile (· ≠ 0#8) ∧
      (output.dec = txt ↔ ∀ c ∈ txt, c.toNat < p.toNat * q.toNat) := by
  rw [main_eq hp hq hne hn rs htxt, Option.map_eq_some_iff] at h
  obtain ⟨e, -, rfl⟩ := h
  exact ⟨_, rfl, rfl, residues_eq_iff (Nat.mul_pos hp.pos hq.pos) htxt⟩

end Texts

-- `P` and `Q` and the text of the program. Of its characters the letters are above 77.
def P : UInt := 7#32

def Q : UInt := 11#32

def txt : List SChar := "hellorsa1hellorsa2hellorsa3".toList.map fun c => BitVec.ofNat 8 c.toNat

theorem main_prints_txt :
    ∃ output, main P Q [7#32] txt = some (.ok output) ∧ output.dec = (residues 77 txt).takeWhile (· ≠ 0#8) ∧
      (output.dec = txt ↔ ∀ c ∈ txt, c.toNat < 77) := by
  have htxt : ∀ c ∈ txt, 0 < c.toInt := by decide
  have hcop : getComDiv 7#32 60#32 = 1#32 := BitVec.eq_of_toNat_eq (toNat_getComDiv 7#32 60#32)
  have hdraw : getRandom P Q [7#32] = some 7#32 := if_pos hcop
  have hmain := main_eq (p := P) (q := Q) (by norm_num [P]) (by norm_num [Q]) (by decide) (by decide) [7#32] htxt
  rw [hdraw] at hmain
  obtain ⟨output, hout, hdec⟩ := main_prints_iff (p := P) (q := Q) (by norm_num [P]) (by norm_num [Q]) (by decide)
    (by decide) htxt hmain
  exact ⟨output, hmain.trans (congrArg some hout), hdec⟩

end RichardTest.RsaDemo
