import RichardTest.Halting
import RichardTest.RsaDemo.Theorems
import RichardTest.RsaJava

namespace RichardTest.RsaDemo

open Halting
open RichardTest.RsaJava (JLong coPrimeLoop isCoPrimeNumber)
open RichardTest.SignedWord (two_mul_toNat_lt srem_eq_umod)

section Euclid

-- Euclid's algorithm on two numbers in any order.
def euclidStep (s : Nat × Nat) : Option (Nat × Nat) :=
  let a := max s.1 s.2
  let b := min s.1 s.2
  if b = 0 then none else some (b, a % b)

theorem euclidStep_sorted {a b : Nat} (h : b ≤ a) :
    euclidStep (a, b) = if b = 0 then none else some (b, a % b) := by
  simp only [euclidStep, max_eq_left h, min_eq_right h]

theorem euclidStep_swap (a b : Nat) : euclidStep (a, b) = euclidStep (b, a) := by
  simp only [euclidStep, max_comm, min_comm]

theorem gcd_max_min (a b : Nat) : Nat.gcd (max a b) (min a b) = Nat.gcd a b := by
  rcases Nat.le_total a b with hle | hle
  · rw [max_eq_right hle, min_eq_left hle, Nat.gcd_comm]
  · rw [max_eq_left hle, min_eq_right hle]

theorem euclidStep_eq_some {s s' : Nat × Nat} (h : euclidStep s = some s') :
    min s.1 s.2 ≠ 0 ∧ s' = (min s.1 s.2, max s.1 s.2 % min s.1 s.2) := by
  unfold euclidStep at h
  dsimp only at h
  split_ifs at h with hmin
  exact ⟨hmin, (Option.some.inj h).symm⟩

theorem min_eq_zero {s : Nat × Nat} (h : euclidStep s = none) : min s.1 s.2 = 0 := by
  unfold euclidStep at h
  dsimp only at h
  split_ifs at h with hmin
  exact hmin

-- The remainder is less than half of the larger number.
theorem two_mul_mul_mod_lt {a b : Nat} (hb : b ≠ 0) (h : b ≤ a) : 2 * (b * (a % b)) < a * b := by
  have hpos : 0 < b := Nat.pos_of_ne_zero hb
  have hmod := Nat.mod_lt a hpos
  have hsplit := Nat.div_add_mod a b
  have hquot : b * 1 ≤ b * (a / b) := Nat.mul_le_mul_left b (Nat.div_pos h hpos)
  calc
    2 * (b * (a % b)) = 2 * (a % b) * b := by rw [Nat.mul_comm b, Nat.mul_assoc]
    _ < a * b := Nat.mul_lt_mul_of_pos_right (by omega) hpos

theorem euclidStep_halves (s s' : Nat × Nat) (h : euclidStep s = some s') : 2 * (s'.1 * s'.2) < s.1 * s.2 := by
  obtain ⟨hmin, rfl⟩ := euclidStep_eq_some h
  rw [← max_mul_min s.1 s.2]
  exact two_mul_mul_mod_lt hmin min_le_max

theorem euclidStep_gcd (s s' : Nat × Nat) (h : euclidStep s = some s') : Nat.gcd s'.1 s'.2 = Nat.gcd s.1 s.2 := by
  obtain ⟨-, rfl⟩ := euclidStep_eq_some h
  calc
    Nat.gcd (min s.1 s.2) (max s.1 s.2 % min s.1 s.2) = Nat.gcd (min s.1 s.2) (max s.1 s.2) := by
      rw [Nat.gcd_comm, ← Nat.gcd_rec]
    _ = Nat.gcd s.1 s.2 := by rw [Nat.gcd_comm, gcd_max_min]

theorem max_eq_gcd {s : Nat × Nat} (h : euclidStep s = none) : max s.1 s.2 = Nat.gcd s.1 s.2 := by
  rw [← gcd_max_min s.1 s.2, min_eq_zero h, Nat.gcd_zero_right]

-- It halts with the greatest common divisor, after at most as many steps as the product has bits.
theorem exists_halts_euclidStep {k : Nat} {s : Nat × Nat} (hs : s.1 * s.2 < 2 ^ k) :
    ∃ n ≤ k, ∃ t, Halts euclidStep n s t ∧ max t.1 t.2 = Nat.gcd s.1 s.2 := by
  obtain ⟨n, hn, t, hrun⟩ := exists_halts_of_halving euclidStep_halves k s hs
  refine ⟨n, hn, t, hrun, ?_⟩
  calc
    max t.1 t.2 = Nat.gcd t.1 t.2 := max_eq_gcd hrun.step_eq_none
    _ = Nat.gcd s.1 s.2 := hrun.same (f := fun s => Nat.gcd s.1 s.2) euclidStep_gcd

end Euclid

section Calls

-- The call that get_com_div makes for its two arguments, where it makes one.
def comDivCall (s : UInt × UInt) : Option (UInt × UInt) :=
  let a := if s.1 > s.2 then s.1 else s.2
  let b := if s.1 > s.2 then s.2 else s.1
  if b = 0#32 then none else some (b, a % b)

-- What it returns where it makes none.
def comDivReturn (s : UInt × UInt) : UInt := if s.1 > s.2 then s.1 else s.2

theorem getComDiv_comDivCall (s s' : UInt × UInt) (h : comDivCall s = some s') :
    getComDiv s'.1 s'.2 = getComDiv s.1 s.2 := by
  conv_rhs => rw [getComDiv]
  unfold comDivCall at h
  dsimp only at h ⊢
  split_ifs at h ⊢ <;> rw [← Option.some.inj h]

theorem getComDiv_eq_comDivReturn {s : UInt × UInt} (h : comDivCall s = none) :
    getComDiv s.1 s.2 = comDivReturn s := by
  rw [getComDiv]
  unfold comDivCall at h
  unfold comDivReturn
  dsimp only at h ⊢
  split_ifs at h ⊢ <;> rfl

def toNats {w : Nat} (s : BitVec w × BitVec w) : Nat × Nat := (s.1.toNat, s.2.toNat)

-- A call sorts its arguments first.
theorem map_comDivCall (s : UInt × UInt) : (comDivCall s).map toNats = euclidStep (toNats s) := by
  obtain ⟨p, q⟩ := s
  unfold comDivCall toNats
  by_cases hlt : p > q
  · have hle : q.toNat ≤ p.toNat := Nat.le_of_lt hlt
    simp only [if_pos hlt, euclidStep_sorted hle]
    by_cases hq : q = 0#32
    · rw [if_pos hq, hq]
      rfl
    · have hne : q.toNat ≠ 0 := BitVec.toNat_ne_iff_ne.mpr hq
      rw [if_neg hq, if_neg hne, Option.map_some, BitVec.toNat_umod]
  · have hle : p.toNat ≤ q.toNat := Nat.le_of_not_lt hlt
    simp only [if_neg hlt, euclidStep_swap p.toNat, euclidStep_sorted hle]
    by_cases hp : p = 0#32
    · rw [if_pos hp, hp]
      rfl
    · have hne : p.toNat ≠ 0 := BitVec.toNat_ne_iff_ne.mpr hp
      rw [if_neg hp, if_neg hne, Option.map_some, BitVec.toNat_umod]

theorem toNat_comDivReturn (s : UInt × UInt) : (comDivReturn s).toNat = max s.1.toNat s.2.toNat := by
  unfold comDivReturn
  by_cases hlt : s.1 > s.2
  · rw [if_pos hlt, max_eq_left (Nat.le_of_lt hlt)]
  · rw [if_neg hlt, max_eq_right (Nat.le_of_not_lt hlt)]

theorem comDivCall_halts (p q : UInt) :
    ∃ n ≤ 64, ∃ s, Halts comDivCall n (p, q) s ∧ comDivReturn s = getComDiv p q ∧
      (getComDiv p q).toNat = Nat.gcd p.toNat q.toNat := by
  have hproduct : p.toNat * q.toNat < 2 ^ 32 * 2 ^ 32 := Nat.mul_lt_mul'' p.isLt q.isLt
  rw [← Nat.pow_add] at hproduct
  obtain ⟨n, hn, t, hrun, hgcd⟩ := exists_halts_euclidStep (s := toNats (p, q)) hproduct
  obtain ⟨s, hcalls, -, rfl⟩ := hrun.of_simulation (I := fun _ => True) (fun s _ => map_comDivCall s)
    (fun _ _ _ _ => trivial) trivial
  have hreturn : comDivReturn s = getComDiv p q := by
    rw [← getComDiv_eq_comDivReturn hcalls.step_eq_none]
    exact hcalls.same (f := fun s => getComDiv s.1 s.2) getComDiv_comDivCall
  refine ⟨n, hn, s, hcalls, hreturn, ?_⟩
  rw [← hreturn, toNat_comDivReturn]
  exact hgcd

end Calls

section Rounds

-- The two variables before the loop of is_co_prime_number.
def coPrimeStart (p q : JLong) : JLong × JLong := if p.slt q then (q, p) else (p, q)

-- A round of the loop, where its condition holds.
def coPrimeRound (s : JLong × JLong) : Option (JLong × JLong) :=
  if s.2 ≠ 0#64 then some (s.2, s.1.srem s.2) else none

theorem coPrimeLoop_coPrimeRound (s s' : JLong × JLong) (h : coPrimeRound s = some s') :
    coPrimeLoop s'.1 s'.2 = coPrimeLoop s.1 s.2 := by
  conv_rhs => rw [coPrimeLoop]
  unfold coPrimeRound at h
  split_ifs at h with hne
  rw [if_neg hne, ← Option.some.inj h]

theorem coPrimeLoop_eq_fst {s : JLong × JLong} (h : coPrimeRound s = none) : coPrimeLoop s.1 s.2 = s.1 := by
  rw [coPrimeLoop]
  unfold coPrimeRound at h
  split_ifs at h with hne
  rw [if_pos (not_not.mp hne)]

theorem isCoPrimeNumber_eq (p q : JLong) :
    isCoPrimeNumber p q = decide (coPrimeLoop (coPrimeStart p q).1 (coPrimeStart p q).2 = 1#64) := by
  unfold isCoPrimeNumber coPrimeStart
  by_cases hlt : p.slt q = true
  · rw [if_pos hlt, if_pos hlt]
  · rw [if_neg hlt, if_neg hlt]

-- The variables of the loop have no sign, and the second is not the larger one.
structure Sorted (s : JLong × JLong) : Prop where
  fst_small : 2 * s.1.toNat < 2 ^ 64
  le : s.2.toNat ≤ s.1.toNat

theorem Sorted.snd_small {s : JLong × JLong} (hs : Sorted s) : 2 * s.2.toNat < 2 ^ 64 :=
  (Nat.mul_le_mul_left 2 hs.le).trans_lt hs.fst_small

theorem map_coPrimeRound (s : JLong × JLong) (hs : Sorted s) :
    (coPrimeRound s).map toNats = euclidStep (toNats s) := by
  obtain ⟨a, b⟩ := s
  unfold coPrimeRound toNats
  rw [euclidStep_sorted hs.le]
  dsimp only
  by_cases hb : b = 0#64
  · rw [if_neg (not_not.mpr hb), hb]
    rfl
  · have hne : b.toNat ≠ 0 := BitVec.toNat_ne_iff_ne.mpr hb
    rw [if_pos hb, if_neg hne, Option.map_some, srem_eq_umod hs.fst_small hs.snd_small, BitVec.toNat_umod]

theorem coPrimeRound_sorted (s s' : JLong × JLong) (hs : Sorted s) (h : coPrimeRound s = some s') :
    Sorted s' := by
  obtain ⟨a, b⟩ := s
  unfold coPrimeRound at h
  split_ifs at h with hne
  rw [← Option.some.inj h, srem_eq_umod hs.fst_small hs.snd_small]
  have hpos : 0 < b.toNat := Nat.pos_of_ne_zero (BitVec.toNat_ne_iff_ne.mpr hne)
  refine ⟨hs.snd_small, ?_⟩
  rw [BitVec.toNat_umod]
  exact (Nat.mod_lt _ hpos).le

theorem coPrimeStart_sorted {p q : JLong} (hp : 0 ≤ p.toInt) (hq : 0 ≤ q.toInt) :
    Sorted (coPrimeStart p q) := by
  have hp' := two_mul_toNat_lt hp
  have hq' := two_mul_toNat_lt hq
  have hlt : p.slt q = true ↔ p.toNat < q.toNat := by
    rw [BitVec.slt_iff_toInt_lt, BitVec.toInt_eq_toNat_of_lt hp', BitVec.toInt_eq_toNat_of_lt hq', Int.ofNat_lt]
  unfold coPrimeStart
  split_ifs with h
  · exact ⟨hq', (hlt.mp h).le⟩
  · exact ⟨hp', Nat.le_of_not_lt fun hlt' => h (hlt.mpr hlt')⟩

theorem coPrimeStart_gcd (p q : JLong) :
    Nat.gcd (coPrimeStart p q).1.toNat (coPrimeStart p q).2.toNat = Nat.gcd p.toNat q.toNat := by
  unfold coPrimeStart
  split_ifs
  · exact Nat.gcd_comm _ _
  · rfl

theorem coPrimeRound_halts {p q : JLong} (hp : 0 ≤ p.toInt) (hq : 0 ≤ q.toInt) :
    ∃ n ≤ 126, ∃ s, Halts coPrimeRound n (coPrimeStart p q) s ∧
      isCoPrimeNumber p q = decide (s.1 = 1#64) ∧
      (isCoPrimeNumber p q = true ↔ Int.gcd p.toInt q.toInt = 1) := by
  have hstart := coPrimeStart_sorted hp hq
  have hproduct : (coPrimeStart p q).1.toNat * (coPrimeStart p q).2.toNat < 2 ^ 63 * 2 ^ 63 := by
    obtain ⟨hsmall, hle⟩ := hstart
    exact Nat.mul_lt_mul'' (by omega) (by omega)
  rw [← Nat.pow_add] at hproduct
  obtain ⟨n, hn, t, hrun, hgcd⟩ := exists_halts_euclidStep (s := toNats (coPrimeStart p q)) hproduct
  obtain ⟨s, hrounds, hsorted, rfl⟩ := hrun.of_simulation map_coPrimeRound coPrimeRound_sorted hstart
  have hloop : coPrimeLoop (coPrimeStart p q).1 (coPrimeStart p q).2 = s.1 := by
    rw [← coPrimeLoop_eq_fst hrounds.step_eq_none]
    exact (hrounds.same (f := fun s => coPrimeLoop s.1 s.2) coPrimeLoop_coPrimeRound).symm
  have hfst : s.1.toNat = Nat.gcd p.toNat q.toNat := by
    rw [← coPrimeStart_gcd, ← max_eq_left hsorted.le]
    exact hgcd
  refine ⟨n, hn, s, hrounds, by rw [isCoPrimeNumber_eq, hloop], ?_⟩
  rw [isCoPrimeNumber_eq, hloop, decide_eq_true_eq, BitVec.toInt_eq_toNat_of_lt (two_mul_toNat_lt hp),
    BitVec.toInt_eq_toNat_of_lt (two_mul_toNat_lt hq), Int.gcd_natCast_natCast, ← hfst, ← BitVec.toNat_inj]
  rfl

-- Both tests end, after a number of calls or rounds that the word size bounds, with the answer of the
-- greatest common divisor.
theorem coPrime_tests_end :
    (∀ p q : UInt, ∃ n ≤ 64, ∃ s, Halts comDivCall n (p, q) s ∧ comDivReturn s = getComDiv p q ∧
      (getComDiv p q).toNat = Nat.gcd p.toNat q.toNat) ∧
    ∀ p q : JLong, 0 ≤ p.toInt → 0 ≤ q.toInt →
      ∃ n ≤ 126, ∃ s, Halts coPrimeRound n (coPrimeStart p q) s ∧
        isCoPrimeNumber p q = decide (s.1 = 1#64) ∧
        (isCoPrimeNumber p q = true ↔ Int.gcd p.toInt q.toInt = 1) :=
  ⟨comDivCall_halts, fun _ _ => coPrimeRound_halts⟩

-- Two zeros, and an exponent against a totient.
theorem coPrime_tests_end_zero :
    (∃ n ≤ 64, ∃ s, Halts comDivCall n (0#32, 0#32) s ∧ comDivReturn s = getComDiv 0#32 0#32 ∧
      (getComDiv 0#32 0#32).toNat = Nat.gcd 0 0) ∧
    ∃ n ≤ 126, ∃ s, Halts coPrimeRound n (coPrimeStart 5#64 4032#64) s ∧
      isCoPrimeNumber 5#64 4032#64 = decide (s.1 = 1#64) ∧
      (isCoPrimeNumber 5#64 4032#64 = true ↔ Int.gcd 5 4032 = 1) :=
  ⟨coPrime_tests_end.1 0#32 0#32, coPrime_tests_end.2 5#64 4032#64 (by decide) (by decide)⟩

end Rounds

end RichardTest.RsaDemo
