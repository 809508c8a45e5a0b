import RichardTest.Paillier
import Mathlib.Data.Int.ModEq
import Mathlib.Data.Nat.Digits.Lemmas
import Mathlib.FieldTheory.Finite.Basic
import Mathlib.NumberTheory.LucasPrimality
import Mathlib.Tactic.Ring

namespace RichardTest.Paillier

theorem notEqual_zero {B : Int} (h : 0 ≤ B) : notEqual B 0 = true ↔ B ≠ 0 := by
  rw [notEqual, if_pos (by omega)]
  exact decide_eq_true_iff

section Power

theorem limbsWithin_spec (fuel A : Nat) (h : A < fuel) :
    Nat.ofDigits (2 ^ 32) (limbsWithin fuel A) = A ∧ ∀ l ∈ limbsWithin fuel A, l < 2 ^ 32 := by
  induction fuel generalizing A with
  | zero => omega
  | succ fuel ih =>
      rw [limbsWithin]
      split_ifs with hA
      · exact ⟨by simp, by simpa using hA⟩
      · obtain ⟨hval, hlt⟩ := ih (A / 2 ^ 32) (by omega)
        refine ⟨?_, ?_⟩
        · rw [Nat.ofDigits_cons, hval]
          exact Nat.mod_add_div A (2 ^ 32)
        · intro l hl
          rcases List.mem_cons.mp hl with rfl | hl
          · exact Nat.mod_lt _ (by norm_num)
          · exact hlt l hl

-- After `n` bits from bit `j` on: the accumulator has taken up these bits of the exponent, and the
-- base has been squared `n` times.
theorem bitLoop_modEq (B : Int) (limb n j : Nat) (X N : Int) :
    (bitLoop B limb n j X N).1 ≡ X * N ^ (limb / 2 ^ j % 2 ^ n) [ZMOD B] ∧
      (bitLoop B limb n j X N).2 ≡ N ^ 2 ^ n [ZMOD B] := by
  induction n generalizing j X N with
  | zero => simp [bitLoop, Nat.mod_one]
  | succ n ih =>
      have hbits : limb / 2 ^ j % 2 ^ (n + 1) =
          limb / 2 ^ j % 2 + 2 * (limb / 2 ^ (j + 1) % 2 ^ n) := by
        rw [pow_succ' 2 n, Nat.mod_mul, Nat.div_div_eq_div_mul, ← pow_succ]
      have hsq : ∀ k : Nat, ((N * N) % B) ^ k ≡ N ^ (2 * k) [ZMOD B] := fun k => by
        rw [pow_mul, sq]
        exact (Int.mod_modEq _ _).pow k
      obtain ⟨hX, hN⟩ := ih (j + 1) (if limb.testBit j then (X * N) % B else X) ((N * N) % B)
      simp only [bitLoop]
      refine ⟨hX.trans ?_, hN.trans ?_⟩
      · rw [hbits, Nat.testBit_eq_decide_div_mod_eq]
        generalize limb / 2 ^ (j + 1) % 2 ^ n = e
        by_cases hbit : limb / 2 ^ j % 2 = 1
        · rw [hbit, pow_add, pow_one, ← mul_assoc]
          simp only [decide_true, if_true]
          exact (Int.mod_modEq _ _).mul (hsq e)
        · rw [show limb / 2 ^ j % 2 = 0 by omega, zero_add]
          simp only [zero_ne_one, decide_false, Bool.false_eq_true, if_false]
          exact (hsq e).mul_left X
      · rw [pow_succ' 2 n]
        exact hsq _

theorem limbLoop_modEq (B : Int) (ls : List Nat) (hls : ∀ l ∈ ls, l < 2 ^ 32) (X N : Int) :
    (limbLoop B ls X N).1 ≡ X * N ^ Nat.ofDigits (2 ^ 32) ls [ZMOD B] := by
  induction ls generalizing X N with
  | nil => simp [limbLoop]
  | cons l ls ih =>
      obtain ⟨hX, hN⟩ := bitLoop_modEq B l 32 0 X N
      rw [pow_zero, Nat.div_one, Nat.mod_eq_of_lt (hls l (by simp))] at hX
      simp only [limbLoop]
      refine (ih (fun l' h => hls l' (by simp [h])) _ _).trans ?_
      rw [Nat.ofDigits_cons, pow_add, pow_mul, ← mul_assoc]
      exact hX.mul (hN.pow _)

-- The accumulator stays reduced.
theorem bitLoop_range {B : Int} (hB : 0 < B) (limb n j : Nat) {X : Int} (N : Int)
    (hX : 0 ≤ X ∧ X < B) : 0 ≤ (bitLoop B limb n j X N).1 ∧ (bitLoop B limb n j X N).1 < B := by
  induction n generalizing j X N with
  | zero => exact hX
  | succ n ih =>
      simp only [bitLoop]
      apply ih
      split_ifs
      · exact ⟨Int.emod_nonneg _ (by omega), Int.emod_lt_of_pos _ hB⟩
      · exact hX

theorem limbLoop_range {B : Int} (hB : 0 < B) (ls : List Nat) {X : Int} (N : Int)
    (hX : 0 ≤ X ∧ X < B) : 0 ≤ (limbLoop B ls X N).1 ∧ (limbLoop B ls X N).1 < B := by
  induction ls generalizing X N with
  | nil => exact hX
  | cons l ls ih =>
      simp only [limbLoop]
      exact ih _ (bitLoop_range hB l 32 0 N hX)

-- The whole exponentiation, for the limbs of any exponent.
theorem limbLoop_eq (x : Int) {B : Int} (hB : 2 ≤ B) (ls : List Nat) (hls : ∀ l ∈ ls, l < 2 ^ 32) :
    (limbLoop B ls 1 (x % B)).1 = x ^ Nat.ofDigits (2 ^ 32) ls % B := by
  have hmod := limbLoop_modEq B ls hls 1 (x % B)
  have hrange := limbLoop_range (B := B) (by omega) ls (x % B) (X := 1) (by omega)
  rw [one_mul] at hmod
  have hpow : (x % B) ^ Nat.ofDigits (2 ^ 32) ls ≡ x ^ Nat.ofDigits (2 ^ 32) ls [ZMOD B] :=
    (Int.mod_modEq x B).pow _
  have heq := hmod.trans hpow
  rw [← heq.eq, Int.emod_eq_of_lt hrange.1 hrange.2]

theorem powerMod_eq (x A : Int) {B : Int} (hB : 2 ≤ B) : powerMod x A B = x ^ A.natAbs % B := by
  obtain ⟨hval, hlt⟩ := limbsWithin_spec (A.natAbs + 1) A.natAbs (by omega)
  unfold powerMod limbs
  rw [limbLoop_eq x hB _ hlt, hval]

theorem powerMod_one (x : Int) {B : Int} (hB : 2 ≤ B) : powerMod x 1 B = x % B := by
  rw [powerMod_eq x 1 hB, Int.natAbs_one, pow_one]

theorem powerMod_modEq (x A : Int) {B : Int} (hB : 2 ≤ B) :
    powerMod x A B ≡ x ^ A.natAbs [ZMOD B] := by
  rw [powerMod_eq x A hB]
  exact Int.mod_modEq _ _

end Power

section Euclid

-- ex_euclid keeps `A = a * X` and `B = a * U` modulo `b`.
theorem exEuclidLoop_spec {a b : Int} (fuel : Nat) (X U A B : Int) (hA : 0 ≤ A) (hB : 0 ≤ B)
    (hfuel : B.natAbs < fuel) (hgcd : Int.gcd A B = 1) (hX : A ≡ a * X [ZMOD b])
    (hU : B ≡ a * U [ZMOD b]) :
    ∃ r, exEuclidLoop fuel X U A B = some r ∧ a * r ≡ 1 [ZMOD b] := by
  induction fuel generalizing X U A B with
  | zero => omega
  | succ fuel ih =>
      rw [exEuclidLoop]
      by_cases hz : B = 0
      · subst hz
        rw [if_neg (by simp [notEqual])]
        have hone : A = 1 := by
          rw [Int.gcd_zero_right] at hgcd
          omega
        rw [hone] at hX
        exact ⟨X, rfl, hX.symm⟩
      · rw [if_pos ((notEqual_zero hB).mpr hz)]
        have hpos : 0 < B := by omega
        have hR := Int.emod_nonneg A hz
        have hlt := Int.emod_lt_of_pos A hpos
        refine ih U (X - A / B * U) B (A % B) hB hR (by omega) ?_ hU ?_
        · rw [Int.gcd_comm, Int.gcd_emod]
          exact hgcd
        · have hdiv : A % B = A - A / B * B := by
            have := Int.emod_add_mul_ediv A B
            linarith [mul_comm B (A / B)]
          rw [hdiv, mul_sub, show a * (A / B * U) = A / B * (a * U) by ring]
          exact hX.sub (hU.mul_left _)

theorem inverse_add_modulus {a b X : Int} (h : a * X ≡ 1 [ZMOD b]) : a * (X + b) ≡ 1 [ZMOD b] := by
  rw [mul_add]
  exact (h.add (Int.modEq_zero_iff_dvd.mpr (Dvd.intro_left a rfl))).trans (by simp)

theorem exEuclid_spec {a b : Int} (ha : 0 ≤ a) (hb : 0 < b) (hgcd : Int.gcd a b = 1) :
    ∃ u, exEuclid a b = some u ∧ a * u ≡ 1 [ZMOD b] := by
  obtain ⟨X, hX, hmod⟩ := exEuclidLoop_spec (a := a) (b := b) (b.natAbs + 1) 1 0 a b ha hb.le
    (by omega) hgcd (by simp) (by simp)
  refine ⟨if X < 0 then X + b else X, by simp [exEuclid, hX], ?_⟩
  split_ifs
  · exact inverse_add_modulus hmod
  · exact hmod

theorem gcdLoop_spec (fuel : Nat) (a b : Int) (hb : 0 < b) (hfuel : b.natAbs ≤ fuel) :
    gcdLoop fuel a b = some (Int.gcd a b) := by
  induction fuel generalizing a b with
  | zero => omega
  | succ fuel ih =>
      have hi := Int.emod_nonneg a (show b ≠ 0 by omega)
      have hlt := Int.emod_lt_of_pos a hb
      rw [gcdLoop, if_neg (by omega)]
      by_cases hz : a % b = 0
      · rw [hz, if_neg (by simp [notEqual])]
        have hg : Int.gcd a b = b.natAbs := Int.gcd_eq_natAbs_right_iff_dvd.mpr (Int.dvd_of_emod_eq_zero hz)
        rw [hg]
        congr 1
        omega
      · rw [if_pos ((notEqual_zero hi).mpr hz), ih b (a % b) (by omega) (by omega), Int.gcd_comm,
          Int.gcd_emod]

theorem lcm_spec (a b : Nat) (hb : 0 < b) : lcm a b = some (Nat.lcm a b : Int) := by
  unfold lcm gcd
  rw [gcdLoop_spec _ _ _ (by omega) (Nat.le_refl _)]
  simp only [Option.bind_eq_bind, Option.bind_some, Int.gcd_natCast_natCast, Nat.lcm_eq_mul_div]
  push_cast
  rfl

end Euclid

section RoundTrip

-- Powers of numbers that are 1 modulo `n` are linear modulo `n ^ 2`.
theorem one_add_mul_pow_modEq (n k : Int) (m : Nat) :
    (1 + n * k) ^ m ≡ 1 + n * (m * k) [ZMOD n * n] := by
  induction m with
  | zero => simp
  | succ m ih =>
      rw [pow_succ]
      refine (ih.mul_right _).trans ?_
      apply Int.modEq_of_dvd
      refine ⟨-(m * k * k), ?_⟩
      push_cast
      ring

-- Lfunction undoes `1 + n * k`: the division by `n` is exact.
theorem lFunction_spec {n x : Int} (h : x ≡ 1 [ZMOD n]) : 1 + n * lFunction n x = x := by
  have hdvd : n ∣ x - 1 := h.symm.dvd
  rw [lFunction, Int.mul_ediv_cancel' hdvd]
  ring

variable {p q : Nat} (hp : p.Prime) (hq : q.Prime) (hpq : p ≠ q)

include hp hq hpq

-- The exponent lcm(p - 1, q - 1) kills every number coprime to `n`.
theorem pow_lcm_modEq_one {x : Int} (hx : Int.gcd x (p * q) = 1) :
    x ^ Nat.lcm (p - 1) (q - 1) ≡ 1 [ZMOD p * q] := by
  have hcop : IsCoprime x ((p : Int) * q) := Int.isCoprime_iff_gcd_eq_one.mpr hx
  have hmodp : x ^ Nat.lcm (p - 1) (q - 1) ≡ 1 [ZMOD p] := by
    obtain ⟨k, hk⟩ := Nat.dvd_lcm_left (p - 1) (q - 1)
    rw [hk, pow_mul]
    simpa using (Int.ModEq.pow_card_sub_one_eq_one hp hcop.of_mul_right_left).pow k
  have hmodq : x ^ Nat.lcm (p - 1) (q - 1) ≡ 1 [ZMOD q] := by
    obtain ⟨k, hk⟩ := Nat.dvd_lcm_right (p - 1) (q - 1)
    rw [hk, pow_mul]
    simpa using (Int.ModEq.pow_card_sub_one_eq_one hq hcop.of_mul_right_right).pow k
  refine (Int.modEq_and_modEq_iff_modEq_mul ?_).mp ⟨hmodp, hmodq⟩
  simpa using (Nat.coprime_primes hp hq).mpr hpq

omit hpq in
theorem two_le_modulus : (2 : Int) ≤ p * q := by
  have h : 2 * 2 ≤ p * q := Nat.mul_le_mul hp.two_le hq.two_le
  exact_mod_cast (show 2 ≤ p * q by omega)

omit hpq in
theorem two_le_modulus_sq : (2 : Int) ≤ p * q * (p * q) := by
  have := two_le_modulus hp hq
  nlinarith

-- What Lfunction extracts from a power modulo `n ^ 2`.
theorem pow_lcm_modEq {x : Int} (hx : Int.gcd x (p * q) = 1) :
    x ^ Nat.lcm (p - 1) (q - 1) ≡
      1 + p * q * lFunction (p * q) (powerMod x (Nat.lcm (p - 1) (q - 1)) (p * q * (p * q)))
      [ZMOD p * q * (p * q)] := by
  have hmod := powerMod_modEq x (Nat.lcm (p - 1) (q - 1)) (two_le_modulus_sq hp hq)
  rw [Int.natAbs_natCast] at hmod
  have hone : powerMod x (Nat.lcm (p - 1) (q - 1)) (p * q * (p * q)) ≡ 1 [ZMOD p * q] :=
    (hmod.of_mul_left _).trans (pow_lcm_modEq_one hp hq hpq hx)
  rw [lFunction_spec hone]
  exact hmod.symm

-- The random factor disappears from the ciphertext, and the message becomes a coefficient.
theorem encrypt_pow_modEq {g r m : Int} (hg : Int.gcd g (p * q) = 1) (hr : Int.gcd r (p * q) = 1)
    (hm : 0 ≤ m) :
    encrypt (p * q) g r m ^ Nat.lcm (p - 1) (q - 1) ≡
      1 + p * q * (m * lFunction (p * q)
        (powerMod g (Nat.lcm (p - 1) (q - 1)) (p * q * (p * q)))) [ZMOD p * q * (p * q)] := by
  have hN := two_le_modulus_sq hp hq
  have hgpow := pow_lcm_modEq hp hq hpq hg
  have hrpow := pow_lcm_modEq hp hq hpq hr
  have henc : encrypt (p * q) g r m ≡ g ^ m.natAbs * r ^ (p * q) [ZMOD p * q * (p * q)] := by
    rw [encrypt, powerMod_one _ hN]
    refine (Int.mod_modEq _ _).trans ((powerMod_modEq g m hN).mul ?_)
    simpa [Int.natAbs_mul] using powerMod_modEq r (p * q) hN
  generalize lFunction (p * q) (powerMod g (Nat.lcm (p - 1) (q - 1)) (p * q * (p * q))) = Lg at *
  generalize lFunction (p * q) (powerMod r (Nat.lcm (p - 1) (q - 1)) (p * q * (p * q))) = Lr at *
  refine (henc.pow _).trans ?_
  have hsplit : (g ^ m.natAbs * r ^ (p * q)) ^ Nat.lcm (p - 1) (q - 1) =
      (g ^ Nat.lcm (p - 1) (q - 1)) ^ m.natAbs * (r ^ Nat.lcm (p - 1) (q - 1)) ^ (p * q) := by
    rw [mul_pow, ← pow_mul, ← pow_mul, ← pow_mul, ← pow_mul, mul_comm m.natAbs, mul_comm (p * q)]
  rw [hsplit]
  have hgm := (hgpow.pow m.natAbs).trans (one_add_mul_pow_modEq (p * q) Lg m.natAbs)
  have hrn := (hrpow.pow (p * q)).trans (one_add_mul_pow_modEq (p * q) Lr (p * q))
  refine (hgm.mul hrn).trans ?_
  rw [Int.natAbs_of_nonneg hm]
  apply Int.modEq_of_dvd
  refine ⟨-((1 + p * q * (m * Lg)) * Lr), ?_⟩
  push_cast
  ring

-- Lfunction of the decrypted power is the message times Lfunction of the key.
theorem lFunction_encrypt_modEq {g r m : Int} (hg : Int.gcd g (p * q) = 1)
    (hr : Int.gcd r (p * q) = 1) (hm : 0 ≤ m) :
    lFunction (p * q) (powerMod (encrypt (p * q) g r m) (Nat.lcm (p - 1) (q - 1)) (p * q * (p * q))) ≡
      m * lFunction (p * q) (powerMod g (Nat.lcm (p - 1) (q - 1)) (p * q * (p * q))) [ZMOD p * q] := by
  have hn := two_le_modulus hp hq
  have hcipher := encrypt_pow_modEq hp hq hpq hg hr hm
  have hmod := powerMod_modEq (encrypt (p * q) g r m) (Nat.lcm (p - 1) (q - 1)) (two_le_modulus_sq hp hq)
  rw [Int.natAbs_natCast] at hmod
  generalize lFunction (p * q) (powerMod g (Nat.lcm (p - 1) (q - 1)) (p * q * (p * q))) = Lg at *
  generalize powerMod (encrypt (p * q) g r m) (Nat.lcm (p - 1) (q - 1)) (p * q * (p * q)) = y at *
  have hy : y ≡ 1 + p * q * (m * Lg) [ZMOD p * q * (p * q)] := hmod.trans hcipher
  have hone : y ≡ 1 [ZMOD p * q] := by
    refine (hy.of_mul_left (p * q)).trans ?_
    exact Int.modEq_of_dvd ⟨-(m * Lg), by ring⟩
  rw [← lFunction_spec hone] at hy
  exact Int.ModEq.mul_left_cancel' (by omega) (hy.add_left_cancel' 1)

theorem lFunction_nonneg {g : Int} (hg : Int.gcd g (p * q) = 1) :
    0 ≤ lFunction (p * q) (powerMod g (Nat.lcm (p - 1) (q - 1)) (p * q * (p * q))) := by
  have hn := two_le_modulus hp hq
  have hN := two_le_modulus_sq hp hq
  have hmod := powerMod_modEq g (Nat.lcm (p - 1) (q - 1)) hN
  rw [Int.natAbs_natCast] at hmod
  have hone := lFunction_spec ((hmod.of_mul_left _).trans (pow_lcm_modEq_one hp hq hpq hg))
  have hnn : 0 ≤ powerMod g (Nat.lcm (p - 1) (q - 1)) (p * q * (p * q)) := by
    rw [powerMod_eq _ _ hN]
    exact Int.emod_nonneg _ (by omega)
  by_contra hneg
  nlinarith

-- Decryption returns the message.
theorem decrypt_encrypt (g r m : Int) (hg : Int.gcd g (p * q) = 1) (hr : Int.gcd r (p * q) = 1)
    (hm : 0 ≤ m) (hmn : m < p * q)
    (hL : ∀ priKey, lcm (p - 1 : Int) (q - 1) = some priKey →
      Int.gcd (lFunction (p * q) (powerMod g priKey (p * q * (p * q)))) (p * q) = 1) :
    decrypt p q g (encrypt (p * q) g r m) = some m := by
  have hn := two_le_modulus hp hq
  have hkey : lcm (p - 1 : Int) (q - 1) = some (Nat.lcm (p - 1) (q - 1) : Int) := by
    have h2 := hq.two_le
    have := lcm_spec (p - 1) (q - 1) (by omega)
    rwa [Nat.cast_sub hp.one_le, Nat.cast_sub hq.one_le, Nat.cast_one] at this
  obtain ⟨u, hu, hinv⟩ := exEuclid_spec (lFunction_nonneg hp hq hpq hg) (by omega) (hL _ hkey)
  have hLb := lFunction_encrypt_modEq hp hq hpq hg hr hm
  rw [decrypt, hkey]
  simp only [Option.bind_eq_bind, Option.bind_some, hu, powerMod_one _ hn, Option.some.injEq]
  generalize lFunction (p * q) (powerMod g (Nat.lcm (p - 1) (q - 1)) (p * q * (p * q))) = Lg at *
  have hfinal := (hLb.mul_right u).trans ((mul_assoc m Lg u).symm ▸ hinv.mul_left m)
  rw [hfinal.eq, mul_one]
  exact Int.emod_eq_of_lt hm hmn

end RoundTrip

section Keys

-- The prime test of a key through power_mod itself.
theorem powerMod_eq_one_iff {P : Nat} (hP : 2 ≤ P) (a e : Nat) :
    powerMod a e P = 1 ↔ (a : ZMod P) ^ e = 1 := by
  have hzmod : (a : ZMod P) ^ e = 1 ↔ a ^ e % P = 1 := by
    rw [← Nat.cast_pow, ← Nat.cast_one, ZMod.natCast_eq_natCast_iff', Nat.one_mod_eq_one.mpr (by omega)]
  rw [hzmod, powerMod_eq a e (by exact_mod_cast hP), Int.natAbs_natCast]
  norm_cast

-- A number whose predecessor has the prime factors 2 and `f` only.
theorem prime_of_powerMod {P f a k l : Nat} (hP : 2 ≤ P) (hf : f.Prime) (hfac : P - 1 = 2 ^ k * f ^ l)
    (hone : powerMod a (P - 1 : Nat) P = 1) (htwo : powerMod a ((P - 1) / 2 : Nat) P ≠ 1)
    (hodd : powerMod a ((P - 1) / f : Nat) P ≠ 1) : P.Prime := by
  refine lucas_primality P a ((powerMod_eq_one_iff hP a _).mp hone) fun d hd hdvd => ?_
  rw [hfac] at hdvd
  rcases (Nat.Prime.dvd_mul hd).mp hdvd with h | h
  · rw [(Nat.prime_dvd_prime_iff_eq hd Nat.prime_two).mp (hd.dvd_of_dvd_pow h)]
    exact fun h' => htwo ((powerMod_eq_one_iff hP a _).mpr h')
  · rw [(Nat.prime_dvd_prime_iff_eq hd hf).mp (hd.dvd_of_dvd_pow h)]
    exact fun h' => hodd ((powerMod_eq_one_iff hP a _).mpr h')

theorem prime_key_p : Nat.Prime (27 * 2 ^ 59 + 1) :=
  prime_of_powerMod (f := 3) (a := 5) (k := 59) (l := 3) (by norm_num) Nat.prime_three (by norm_num)
    (by decide +kernel) (by decide +kernel) (by decide +kernel)

theorem prime_key_q : Nat.Prime (71 * 2 ^ 57 + 1) :=
  prime_of_powerMod (f := 71) (a := 3) (k := 57) (l := 1) (by norm_num) (by decide) (by norm_num)
    (by decide +kernel) (by decide +kernel) (by decide +kernel)

-- 42 under two 64-bit primes and `g = n + 1`.
theorem decrypt_encrypt_forty_two :
    decrypt (27 * 2 ^ 59 + 1 : Nat) (71 * 2 ^ 57 + 1 : Nat)
      (((27 * 2 ^ 59 + 1 : Nat) : Int) * (71 * 2 ^ 57 + 1 : Nat) + 1)
      (encrypt (((27 * 2 ^ 59 + 1 : Nat) : Int) * (71 * 2 ^ 57 + 1 : Nat))
        (((27 * 2 ^ 59 + 1 : Nat) : Int) * (71 * 2 ^ 57 + 1 : Nat) + 1) 2 42) = some 42 := by
  refine decrypt_encrypt prime_key_p prime_key_q (by norm_num) _ 2 42 (by decide)
    (by decide) (by norm_num) (by decide) fun priKey hkey => ?_
  have hval : lcm ((27 * 2 ^ 59 + 1 : Nat) - 1 : Int) ((71 * 2 ^ 57 + 1 : Nat) - 1) =
      some (27 * 71 * 2 ^ 59) := by
    decide
  rw [hval, Option.some.injEq] at hkey
  subst hkey
  decide +kernel

end Keys

end RichardTest.Paillier
