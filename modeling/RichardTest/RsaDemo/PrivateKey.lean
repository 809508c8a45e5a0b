import RichardTest.RsaDemo.Theorems
import RichardTest.RsaJava
import RichardTest.SignedWord
import Mathlib.Data.List.Find

namespace RichardTest.RsaDemo

open RichardTest.SignedWord (toNat_toInt_of_small)

section Search

variable {e t d : Nat} (hcop : Nat.Coprime e t) (hd : d < t) (hone : e * d % t = 1)

include hcop hd hone

theorem eq_of_mul_mod_eq_one {r : Nat} (hr : r < t) (hone' : e * r % t = 1) : r = d := by
  have hmod : e * r ≡ e * d [MOD t] := hone'.trans hone.symm
  exact (hmod.cancel_left_of_coprime hcop.symm).eq_of_lt_of_lt hr hd

-- A search for the inverse finds it if it passes the test and nothing before it does.
theorem find?_range_inverse_iff (p : Nat → Bool) :
    (∃ r, (List.range t).find? p = some r ∧ e * r % t = 1) ↔ p d = true ∧ ∀ i < d, p i = false := by
  simp only [List.find?_range_eq_some, List.mem_range, Bool.not_eq_true']
  constructor
  · rintro ⟨r, ⟨hhit, hr, hmiss⟩, hone'⟩
    obtain rfl := eq_of_mul_mod_eq_one hcop hd hone hr hone'
    exact ⟨hhit, hmiss⟩
  · rintro ⟨hhit, hmiss⟩
    exact ⟨d, ⟨hhit, hd, hmiss⟩, hone⟩

end Search

section Wrap

-- The products that reach the limit and wrap: up to the inverse of `e` modulo `t` they pass the test only at
-- the inverse.
def Harmless (limit : Nat) (hit : Nat → Prop) (e t : Nat) : Prop :=
  ∀ d < t, e * d % t = 1 → ∀ i ≤ d, limit ≤ e * i → (hit i ↔ i = d)

-- The tests of both programs on the wrapped product.
def hitC (e t d : Nat) : Prop := e * d % 2 ^ 32 % t = 1

def hitJava (e t d : Nat) : Prop := e * d % 2 ^ 32 < 2 ^ 31 ∧ e * d % 2 ^ 32 % t = 1

instance (e t d : Nat) : Decidable (hitC e t d) := inferInstanceAs (Decidable (_ = _))

instance (e t d : Nat) : Decidable (hitJava e t d) := inferInstanceAs (Decidable (_ ∧ _))

variable {e t d limit : Nat} (hcop : Nat.Coprime e t) (hd : d < t) (hone : e * d % t = 1) {hit : Nat → Prop}
  (hexact : ∀ i, e * i < limit → (hit i ↔ e * i % t = 1))

include hcop hd hone hexact

theorem harmless_iff : Harmless limit hit e t ↔ hit d ∧ ∀ i < d, ¬ hit i := by
  constructor
  · intro h
    refine ⟨?_, fun i hi => ?_⟩
    · rcases Nat.lt_or_ge (e * d) limit with hlt | hge
      · exact (hexact d hlt).mpr hone
      · exact (h d hd hone d le_rfl hge).mpr rfl
    · intro hhit
      rcases Nat.lt_or_ge (e * i) limit with hlt | hge
      · exact absurd (eq_of_mul_mod_eq_one hcop hd hone (hi.trans hd) ((hexact i hlt).mp hhit)) hi.ne
      · exact absurd ((h d hd hone i hi.le hge).mp hhit) hi.ne
  · rintro ⟨hhit, hmiss⟩ r hr hone' i hi -
    obtain rfl := eq_of_mul_mod_eq_one hcop hd hone hr hone'
    constructor
    · intro hhit'
      by_contra hne
      exact hmiss i (lt_of_le_of_ne hi hne) hhit'
    · rintro rfl
      exact hhit

end Wrap

section Programs

theorem toNat_ofNat_of_lt {w k : Nat} (hk : k < 2 ^ w) : (BitVec.ofNat w k).toNat = k := by
  rw [BitVec.toNat_ofNat, Nat.mod_eq_of_lt hk]

variable {e t : Nat} (het : e < t) (ht : t < 2 ^ 31)

include het ht

theorem hitC_iff {d : Nat} (hd : d < t) :
    BitVec.ofNat 32 e * BitVec.ofNat 32 d % BitVec.ofNat 32 t = 1#32 ↔ hitC e t d := by
  rw [← BitVec.toNat_inj, BitVec.toNat_umod, BitVec.toNat_mul, toNat_ofNat_of_lt (by omega),
    toNat_ofNat_of_lt (by omega), toNat_ofNat_of_lt (by omega), hitC]
  rfl

-- A negative product leaves no positive remainder.
theorem hitJava_iff {d : Nat} (hd : d < t) :
    ((BitVec.ofNat 32 e * BitVec.ofNat 32 d).signExtend 64).srem (BitVec.ofNat 64 t) = 1#64 ↔ hitJava e t d := by
  have hprod : (BitVec.ofNat 32 e * BitVec.ofNat 32 d).toNat = e * d % 2 ^ 32 := by
    rw [BitVec.toNat_mul, toNat_ofNat_of_lt (by omega), toNat_ofNat_of_lt (by omega)]
  have hmod : (BitVec.ofNat 64 t).toInt = t := by
    rw [BitVec.toInt_eq_toNat_cond, toNat_ofNat_of_lt (by omega), if_pos (by omega)]
  have hsign : (1#64).toInt = 1 := rfl
  rw [← BitVec.toInt_inj, BitVec.toInt_srem, BitVec.toInt_signExtend_of_le (by decide), hmod, hsign,
    BitVec.toInt_eq_toNat_cond, hprod, hitJava]
  split_ifs with hsmall
  · rw [← Int.ofNat_tmod]
    norm_cast
    exact ⟨fun h => ⟨by omega, h⟩, fun h => h.2⟩
  · have hneg : 0 ≤ -(((e * d % 2 ^ 32 : Nat) : Int) - ((2 ^ 32 : Nat) : Int)) := by omega
    have hrem := Int.tmod_nonneg (t : Int) hneg
    rw [Int.neg_tmod] at hrem
    constructor
    · intro h
      omega
    · intro h
      omega

end Programs

section Right

-- What the searches return is the inverse.
def RightC (e t : Nat) : Prop :=
  (getPrivateKey (BitVec.ofNat 32 e) (BitVec.ofNat 32 t)).toNat < t ∧
    e * (getPrivateKey (BitVec.ofNat 32 e) (BitVec.ofNat 32 t)).toNat % t = 1

def RightJava (e t : Nat) : Prop :=
  ∃ d, RsaJava.getPrivateKey (BitVec.ofNat 32 e) (BitVec.ofNat 64 t) = .ok d ∧ d.toNat < t ∧ e * d.toNat % t = 1

variable {e t : Nat} (het : e < t) (ht : t < 2 ^ 31)

include het ht

theorem rightC_iff_find? :
    RightC e t ↔ ∃ r, (List.range t).find? (fun d => decide (hitC e t d)) = some r ∧ e * r % t = 1 := by
  have hfind : ((List.range t).find? fun d => decide
      (BitVec.ofNat 32 e * BitVec.ofNat 32 d % BitVec.ofNat 32 t = 1#32)) =
      (List.range t).find? fun d => decide (hitC e t d) :=
    List.find?_congr fun d hd => decide_eq_decide.mpr (hitC_iff het ht (List.mem_range.mp hd))
  rw [RightC, getPrivateKey, toNat_ofNat_of_lt (by omega), hfind]
  cases hr : (List.range t).find? fun d => decide (hitC e t d) with
  | none =>
      have herr : privateKeyErr.toNat = 2 ^ 32 - 1 := rfl
      simp only [herr]
      constructor
      · intro h
        omega
      · rintro ⟨r, hnone, -⟩
        cases hnone
  | some r =>
      have hlt : r < t := List.mem_range.mp (List.mem_of_find?_eq_some hr)
      simp only [toNat_ofNat_of_lt (show r < 2 ^ 32 by omega), Option.some_inj]
      constructor
      · exact fun h => ⟨r, rfl, h.2⟩
      · rintro ⟨r', rfl, hone⟩
        exact ⟨hlt, hone⟩

theorem rightJava_iff_find? :
    RightJava e t ↔ ∃ r, (List.range t).find? (fun d => decide (hitJava e t d)) = some r ∧ e * r % t = 1 := by
  have hfind : ((List.range t).find? fun d => decide
      (((BitVec.ofNat 32 e * BitVec.ofNat 32 d).signExtend 64).srem (BitVec.ofNat 64 t) = 1#64)) =
      (List.range t).find? fun d => decide (hitJava e t d) :=
    List.find?_congr fun d hd => decide_eq_decide.mpr (hitJava_iff het ht (List.mem_range.mp hd))
  have hmod : (BitVec.ofNat 64 t).toInt.toNat = t := by
    rw [toNat_toInt_of_small (by rw [toNat_ofNat_of_lt (by omega)]; omega), toNat_ofNat_of_lt (by omega)]
  rw [RightJava, RsaJava.getPrivateKey, hmod, hfind]
  cases hr : (List.range t).find? fun d => decide (hitJava e t d) with
  | none =>
      constructor
      · rintro ⟨d, hd, -⟩
        cases hd
      · rintro ⟨r, hnone, -⟩
        cases hnone
  | some r =>
      have hlt : r < t := List.mem_range.mp (List.mem_of_find?_eq_some hr)
      have hval := toNat_ofNat_of_lt (w := 32) (show r < 2 ^ 32 by omega)
      constructor
      · rintro ⟨d, hd, -, hone⟩
        obtain rfl := Except.ok.inj hd
        exact ⟨r, rfl, hval ▸ hone⟩
      · rintro ⟨r', hr', hone⟩
        obtain rfl := Option.some.inj hr'
        exact ⟨_, rfl, by rw [hval]; exact hlt, by rw [hval]; exact hone⟩

variable (hcop : Nat.Coprime e t)

include hcop

theorem rightC_iff (he : 1 ≤ e) : RightC e t ↔ Harmless (2 ^ 32) (hitC e t) e t := by
  obtain ⟨d, hd, hone⟩ := Nat.exists_mul_mod_eq_one_of_coprime hcop (show 1 < t by omega)
  have hexact : ∀ i, e * i < 2 ^ 32 → (hitC e t i ↔ e * i % t = 1) := fun i hi => by
    rw [hitC, Nat.mod_eq_of_lt hi]
  rw [rightC_iff_find? het ht, find?_range_inverse_iff hcop hd hone, harmless_iff hcop hd hone hexact]
  simp only [decide_eq_true_eq, decide_eq_false_iff_not]

theorem rightJava_iff (he : 1 ≤ e) : RightJava e t ↔ Harmless (2 ^ 31) (hitJava e t) e t := by
  obtain ⟨d, hd, hone⟩ := Nat.exists_mul_mod_eq_one_of_coprime hcop (show 1 < t by omega)
  have hexact : ∀ i, e * i < 2 ^ 31 → (hitJava e t i ↔ e * i % t = 1) := fun i hi => by
    rw [hitJava, Nat.mod_eq_of_lt (hi.trans (by decide)), and_iff_right hi]
  rw [rightJava_iff_find? het ht, find?_range_inverse_iff hcop hd hone, harmless_iff hcop hd hone hexact]
  simp only [decide_eq_true_eq, decide_eq_false_iff_not]

omit het ht hcop in
theorem harmless_iff_lt {limit : Nat} {hit : Nat → Prop}
    (hlt : ∀ d < t, e * d % t = 1 → hit d → e * d < limit) :
    Harmless limit hit e t ↔ ∀ d < t, e * d % t = 1 → e * d < limit := by
  constructor
  · intro h d hd hone
    by_contra hge
    exact hge (hlt d hd hone ((h d hd hone d le_rfl (Nat.le_of_not_lt hge)).mpr rfl))
  · intro h d hd hone i hi hge
    have := h d hd hone
    have := Nat.mul_le_mul_left e hi
    omega

omit hcop in
-- An odd modulus shares no factor with the wraps, so that the inverse passes only without one.
theorem mul_lt_of_hitC (hodd : Odd t) {d : Nat} (hd : d < t) (hone : e * d % t = 1) (hhit : hitC e t d) :
    e * d < 2 ^ 32 := by
  have hmod : e * d % 2 ^ 32 ≡ e * d [MOD t] := Eq.trans hhit hone.symm
  have hdvd : t ∣ 2 ^ 32 * (e * d / 2 ^ 32) := by
    have hsub := (Nat.modEq_iff_dvd' (Nat.mod_le _ _)).mp hmod
    rwa [← Nat.div_add_mod (e * d) (2 ^ 32), Nat.mul_add_mod, Nat.mod_mod, Nat.add_sub_cancel] at hsub
  have hwraps : t ∣ e * d / 2 ^ 32 := (Nat.Coprime.pow_right 32 hodd.coprime_two_right).dvd_of_dvd_mul_left hdvd
  have hlt : e * d / 2 ^ 32 < t := by
    rw [Nat.div_lt_iff_lt_mul (by decide)]
    exact Nat.mul_lt_mul'' het (hd.trans (ht.trans (by decide)))
  exact Nat.lt_of_div_eq_zero (by decide) (Nat.eq_zero_of_dvd_of_lt hwraps hlt)

end Right

-- The searches return the inverse just where the wrapped products before it do no harm. For an odd modulus
-- there must be none of them.
theorem getPrivateKey_right_iff (e t : Nat) (he : 1 ≤ e) (het : e < t) (ht : t < 2 ^ 31)
    (hcop : Nat.Coprime e t) :
    (RightC e t ↔ Harmless (2 ^ 32) (hitC e t) e t) ∧ (RightJava e t ↔ Harmless (2 ^ 31) (hitJava e t) e t) ∧
      (Odd t → (RightC e t ↔ ∀ d < t, e * d % t = 1 → e * d < 2 ^ 32) ∧
        (RightJava e t ↔ ∀ d < t, e * d % t = 1 → e * d < 2 ^ 31)) := by
  have hc := rightC_iff het ht hcop he
  have hjava := rightJava_iff het ht hcop he
  refine ⟨hc, hjava, fun hodd => ⟨?_, ?_⟩⟩
  · rw [hc]
    exact harmless_iff_lt fun d hd hone hhit => mul_lt_of_hitC het ht hodd hd hone hhit
  · rw [hjava]
    refine harmless_iff_lt fun d hd hone hhit => ?_
    have hlt := mul_lt_of_hitC het ht hodd hd hone hhit.2
    have hsmall := hhit.1
    rwa [Nat.mod_eq_of_lt hlt] at hsmall

-- The totient of 97 and 43, whose products stay below both limits.
theorem getPrivateKey_right_small : RightC 5 4032 ∧ RightJava 5 4032 := by
  have h := getPrivateKey_right_iff 5 4032 (by decide) (by decide) (by decide) (by decide)
  refine ⟨h.1.mpr fun d hd _ i hi hlimit => ?_, h.2.1.mpr fun d hd _ i hi hlimit => ?_⟩
  · omega
  · omega

-- The totient of 257 and 263. The inverse of 67071 is the number itself, and its square wraps.
theorem getPrivateKey_misses_inverse :
    1 ≤ 67071 ∧ 67071 < 67072 ∧ 67072 < 2 ^ 31 ∧ Nat.Coprime 67071 67072 ∧ ¬ RightC 67071 67072 ∧
      ¬ RightJava 67071 67072 := by
  have hcop : Nat.Coprime 67071 67072 := by decide
  refine ⟨by decide, by decide, by decide, hcop, fun h => ?_, fun h => ?_⟩
  · have hharmless := (rightC_iff (by decide) (by decide) hcop (by decide)).mp h
    exact absurd ((hharmless 67071 (by decide) (by decide) 67071 le_rfl (by decide)).mpr rfl) (by decide)
  · have hharmless := (rightJava_iff (by decide) (by decide) hcop (by decide)).mp h
    exact absurd ((hharmless 67071 (by decide) (by decide) 67071 le_rfl (by decide)).mpr rfl) (by decide)

end RichardTest.RsaDemo
