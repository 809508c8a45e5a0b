import RichardTest.BigNumCpp.Divide
import Mathlib.Data.Int.ModEq

namespace RichardTest.BigNumCpp.BigNum

open Positional

section OneLimb

-- Two limbs, the upper one below the divisor: the quotient is one limb.
theorem round_quotient {F x a : Nat} (hF : F < a) (ha : a < 2 ^ 32) (hx : x < 2 ^ 32) :
    (F * 2 ^ 32 + x) / a < 2 ^ 32 ∧ F * 2 ^ 32 + x < 2 ^ 64 := by
  have hlt : F * 2 ^ 32 + x < a * 2 ^ 32 := by omega
  exact ⟨Nat.div_lt_of_lt_mul hlt, by omega⟩

-- The remainder as the code forms it, with a product that is subtracted in 64 bits.
theorem round_remainder {d a : Nat} (ha : 0 < a) (ha32 : a < 2 ^ 32) (hd : d < 2 ^ 64) :
    (d + 2 ^ 64 - d / a * a % 2 ^ 64) % 2 ^ 64 % 2 ^ 32 = d % a := by
  have hmul := Nat.div_mul_le_self d a
  have hmod : d - d / a * a = d % a := by rw [Nat.mod_def, Nat.mul_comm]
  have hlt := Nat.mod_lt d ha
  rw [Nat.mod_eq_of_lt (show d / a * a < 2 ^ 64 by omega),
    show d + 2 ^ 64 - d / a * a = d % a + 2 ^ 64 by omega, Nat.add_mod_right,
    Nat.mod_eq_of_lt (show d % a < 2 ^ 64 by omega), Nat.mod_eq_of_lt (show d % a < 2 ^ 32 by omega)]

variable {this A : BigNum} (hA : A.Canonical) (hA1 : A.length = 1) (hApos : 0 < A.limb 0)

include hA hApos in
theorem divLimbs_succ {n F : Nat} {X : BigNum} (hn : n < len1) (hF : F < A.limb 0) (hx : X.limb n < 2 ^ 32) :
    divLimbs 32 A (n + 1) F X = divLimbs 32 A n ((F * 2 ^ 32 + X.limb n) % A.limb 0)
      (X.update n ((F * 2 ^ 32 + X.limb n) / A.limb 0)) := by
  have ha := hA.limb_lt 0
  obtain ⟨hq, hd⟩ := round_quotient hF ha hx
  rw [divLimbs, get_of_lt hn, get_of_lt (show 0 < len1 by decide)]
  simp only [Option.bind_eq_bind, Option.bind_some]
  rw [Nat.mod_eq_of_lt ((Nat.le_add_right _ _).trans_lt hd), Nat.mod_eq_of_lt hd, quot_of_pos hApos,
    Option.bind_some, Nat.mod_eq_of_lt hq, set_of_lt hn, Option.bind_some, round_remainder hApos ha hd]

include hA hApos in
-- The limbs from the top down: what is divided is the remainder so far and the limbs below.
theorem divLimbs_exact (n F : Nat) (X : BigNum) (hn : n ≤ len1) (hF : F < A.limb 0)
    (hX : ∀ i, X.limb i < 2 ^ 32) :
    ∃ R, divLimbs 32 A n F X = some R ∧ R.length = X.length ∧ R.signal = X.signal ∧
      (∀ k, n ≤ k → R.limb k = X.limb k) ∧
      ∃ r : Int, 0 ≤ r ∧ r < A.limb 0 ∧ Positional.value base (fun i => (R.limb i : Int)) n * A.limb 0 + r =
        Positional.value base (fun i => (X.limb i : Int)) n + F * base ^ n := by
  induction n generalizing F X with
  | zero => exact ⟨X, rfl, rfl, rfl, fun _ _ => rfl, F, Int.natCast_nonneg F, by exact_mod_cast hF, by simp⟩
  | succ n ih =>
      have hlt : n < len1 := by omega
      obtain ⟨hq, -⟩ := round_quotient hF (hA.limb_lt 0) (hX n)
      have hsplit := Nat.div_add_mod (F * 2 ^ 32 + X.limb n) (A.limb 0)
      rw [divLimbs_succ hA hApos hlt hF (hX n)]
      generalize (F * 2 ^ 32 + X.limb n) / A.limb 0 = q at hq hsplit ⊢
      have hrlt := Nat.mod_lt (F * 2 ^ 32 + X.limb n) hApos
      generalize (F * 2 ^ 32 + X.limb n) % A.limb 0 = F' at hrlt hsplit ⊢
      obtain ⟨R, hR, hlen, hsig, habove, r, hr0, hrlt', hval⟩ := ih F' (X.update n q) (by omega) hrlt fun i => by
        rw [limb_update hlt]
        split_ifs
        · exact hq
        · exact hX i
      refine ⟨R, hR, hlen, hsig, fun k hk => ?_, r, hr0, hrlt', ?_⟩
      · rw [habove k (by omega), limb_update hlt, if_neg (by omega)]
      · have hlow : Positional.value base (fun i => ((X.update n q).limb i : Int)) n =
            Positional.value base (fun i => (X.limb i : Int)) n :=
          value_congr fun i hi => by rw [limb_update hlt, if_neg (by omega)]
        have hround : (A.limb 0 : Int) * q + F' = F * base + X.limb n := by
          rw [base_eq]
          exact_mod_cast hsplit
        rw [hlow] at hval
        rw [value_succ, value_succ, habove n (Nat.le_refl n), limb_update hlt, if_pos rfl, pow_succ]
        linear_combination hval + base ^ n * hround

include hA1 in
theorem mag_of_one_limb : A.mag = A.limb 0 := by
  rw [mag, hA1, value_one]

include hA hA1 hApos in
-- operator/ by a divisor of one limb.
theorem div_short_exact (minus : BigNum → BigNum → Option BigNum) (hthis : this.Canonical) (hthis0 : 0 ≤ this.value)
    (hA0 : A.signal = 0) (fuel : Nat) :
    ∃ Q, div minus 32 fuel this A = some Q ∧ Q.value = this.value / A.value := by
  have hmagA := mag_of_one_limb hA1
  have hlen := hthis.length_le
  have hpos := hthis.length_pos
  rw [div, if_neg (by omega)]
  split_ifs with hone
  · refine ⟨this.update 0 (this.limb 0 / A.limb 0), ?_, value_ediv hthis0 hA0 rfl ?_⟩
    · rw [get_of_lt (show 0 < len1 by decide), get_of_lt (show 0 < len1 by decide)]
      simp only [Option.bind_eq_bind, Option.bind_some]
      rw [quot_of_pos hApos, Option.bind_some, set_of_lt (by decide)]
    · have hlenQ : (this.update 0 (this.limb 0 / A.limb 0)).length = 1 := hone
      rw [mag_of_one_limb hlenQ, mag_of_one_limb hone, hmagA, limb_update (by decide), if_pos rfl]
      exact Int.natCast_ediv _ _
  · obtain ⟨R, hR, hlenR, hsig, habove, r, hr0, hrlt, hval⟩ := divLimbs_exact hA hApos this.length 0 this hlen
      (by exact_mod_cast hApos) hthis.limb_lt
    rw [hR, Option.bind_eq_bind, Option.bind_some, get_of_lt (by omega), Option.bind_eq_bind, Option.bind_some]
    have hquot : R.mag = this.mag / A.mag := by
      rw [Nat.cast_zero, zero_mul, add_zero, ← hlenR] at hval
      rw [hmagA]
      rw [hlenR] at hval
      refine (ediv_eq hr0 hrlt ?_).symm
      rw [mag, hlenR]
      exact hval
    refine ⟨_, rfl, ?_⟩
    split_ifs with htop
    · refine value_ediv hthis0 hA0 hsig (Eq.trans ?_ hquot)
      show Positional.value base (fun i => (R.limb i : Int)) (R.length - 1) = R.mag
      refine (value_of_zero_above (Nat.sub_le _ _) fun i hi hi' => ?_).symm
      rw [show i = R.length - 1 by omega, htop]
      rfl
    · exact value_ediv hthis0 hA0 hsig hquot

include hA hApos in
theorem modLimbs_exact (hthis : ∀ i, this.limb i < 2 ^ 32) (n F : Nat) (hn : n ≤ len1) (hF : F < A.limb 0) :
    ∃ r : Nat, modLimbs this A n F = some r ∧ r < A.limb 0 ∧
      (r : Int) = (Positional.value base (fun i => (this.limb i : Int)) n + F * base ^ n) % A.limb 0 := by
  induction n generalizing F with
  | zero =>
      refine ⟨F, rfl, hF, ?_⟩
      rw [value_zero, zero_add, pow_zero, mul_one]
      exact (Int.emod_eq_of_lt (Int.natCast_nonneg F) (by exact_mod_cast hF)).symm
  | succ n ih =>
      obtain ⟨-, hd⟩ := round_quotient hF (hA.limb_lt 0) (hthis n)
      have hor : F * 2 ^ 32 % 2 ^ 64 ||| this.limb n = F * 2 ^ 32 + this.limb n := by
        rw [Nat.mod_eq_of_lt ((Nat.le_add_right _ _).trans_lt hd), ← Nat.shiftLeft_eq,
          Nat.shiftLeft_add_eq_or_of_lt (hthis n)]
      obtain ⟨r, hr, hrlt, hval⟩ := ih ((F * 2 ^ 32 + this.limb n) % A.limb 0) (by omega) (Nat.mod_lt _ hApos)
      refine ⟨r, ?_, hrlt, hval.trans ?_⟩
      · rw [modLimbs, get_of_lt (show n < len1 by omega), get_of_lt (show 0 < len1 by decide)]
        simp only [Option.bind_eq_bind, Option.bind_some]
        rw [if_neg hApos.ne', hor, hr]
      · have hround : ((F * 2 ^ 32 + this.limb n : Nat) : Int) = F * base + this.limb n := by
          rw [base_eq]
          push_cast
          rfl
        have hstep := ((Int.mod_modEq (F * base + this.limb n) (A.limb 0)).mul_right (base ^ n)).add_left
          (Positional.value base (fun i => (this.limb i : Int)) n)
        rw [Int.natCast_emod, hround, hstep, value_succ, pow_succ]
        congr 1
        ring

include hA hA1 hApos in
-- operator% by a divisor of one limb.
theorem mod_short_exact (minus : BigNum → BigNum → Option BigNum) (hthis : this.Canonical) (hthis0 : 0 ≤ this.value)
    (hA0 : A.signal = 0) (fuel : Nat) :
    ∃ R, mod minus 32 fuel this A = some R ∧ R.value = this.value % A.value := by
  have ha := hA.limb_lt 0
  have hvalue : ∀ r : Nat, r < A.limb 0 → (r : Int) = this.mag % A.limb 0 →
      (ofUint64 32 r).value = this.value % A.value := by
    intro r hr heq
    have hmoved := ofUint64_moved (hr.trans ha)
    rw [← mag_eq_value hthis0, value_of_signal_zero hA0, mag_of_one_limb hA1, value_of_signal_zero hmoved.signal,
      hmoved.mag, ← heq]
    simp
  rw [mod, if_neg (by omega)]
  split_ifs with hone
  · refine ⟨_, ?_, hvalue (this.limb 0 % A.limb 0) (Nat.mod_lt _ hApos) ?_⟩
    · rw [get_of_lt (show 0 < len1 by decide), get_of_lt (show 0 < len1 by decide)]
      simp only [Option.bind_eq_bind, Option.bind_some]
      rw [if_neg hApos.ne']
    · rw [mag_of_one_limb hone]
      exact Int.natCast_emod _ _
  · obtain ⟨r, hr, hrlt, hval⟩ := modLimbs_exact hA hApos hthis.limb_lt this.length 0 hthis.length_le
      (by exact_mod_cast hApos)
    rw [hr, Option.bind_eq_bind, Option.bind_some]
    rw [Nat.cast_zero, zero_mul, add_zero] at hval
    exact ⟨_, rfl, hvalue r hrlt hval⟩

end OneLimb

section ModLoop

variable {minus : BigNum → BigNum → Option BigNum} (hminus : ExactMinus minus)
variable {this A : BigNum} (hA : A.Canonical) (hA0 : A.signal = 0) (hA1 : 1 < A.length)

include hminus hA hA0 hA1

theorem modStep_exact {Y Z : BigNum} {t : Trial} (hY : Y.Canonical) (hY0 : 0 ≤ Y.value) (hYlt : Y.mag < base ^ 126)
    (ht : GoodTrial Y A t) (hZ : Moved t Z) :
    ∃ T Y', mul 32 A Z = some T ∧ T.value ≤ Y.value ∧ minus Y T = some Y' ∧ Y'.Canonical ∧ 0 ≤ Y'.value ∧
      Y'.mag < Y.mag ∧ Y'.mag % A.mag = Y.mag % A.mag := by
  have hApos := hA.mag_pos hA1
  have hYlen := hY.length_le_of_mag_lt (by norm_num) hYlt
  obtain ⟨T, Y', hT, hle, hY', hcan, hnonneg, hmag⟩ := reduce_exact hminus hY hY0 hA hA0 hYlen hApos ht hZ
  have hprod : 0 < A.mag * Z.mag := by
    rw [hZ.mag]
    exact mul_pos hApos (mul_pos (by have := ht.div_pos; omega) (base_pow_pos _))
  refine ⟨T, Y', hT, hle, hY', hcan, hnonneg, by omega, ?_⟩
  rw [← hmag, Int.add_mul_emod_self_left]

theorem modLoop_exact (hthis : this.length ≠ 0) (fuel : Nat) (Y : BigNum) (hfuel : Y.mag < fuel)
    (hY : Y.Canonical) (hY0 : 0 ≤ Y.value) (hYlt : Y.mag < base ^ 126) :
    ∃ R, modLoop minus 32 this A fuel Y = some R ∧ R.value = Y.mag % A.mag := by
  have hApos := hA.mag_pos hA1
  induction fuel generalizing Y with
  | zero =>
      have := mag_nonneg Y
      omega
  | succ fuel ih =>
      obtain ⟨order, horder, hdec⟩ := compare_decides hY hA
      rw [modLoop, horder]
      simp only [Option.bind_eq_bind, Option.bind_some]
      by_cases hgo : order = 0 ∨ order = 2
      · have hge : A.mag ≤ Y.mag := by unfold Decides at hdec; omega
        rw [if_pos hgo]
        rcases modTrial_cases hthis hY hA hA1 hge with ⟨t, ht, hgood⟩ | ⟨hnone, hlt⟩
        · have hlen := hgood.len_le
          have hA2 := hA.length_pos
          have hY2 := hY.length_le
          obtain ⟨Z, hZ, hmoved⟩ := shiftedIf_moved hgood.div_lt (by omega)
          obtain ⟨T, Y', hT, -, hY', hcan, hnonneg, hless, hmod⟩ :=
            modStep_exact hminus hA hA0 hA1 hY hY0 hYlt hgood hmoved
          obtain ⟨R, hloop, hval⟩ := ih Y' (by omega) hcan hnonneg (by omega)
          refine ⟨R, ?_, hval.trans hmod⟩
          simp only [ht, hZ, hT, hY', Option.bind_some]
          exact hloop
        · have hYsig := signal_eq_zero hY0 (by omega)
          have hYval := value_of_signal_zero hYsig
          have hAval := value_of_signal_zero hA0
          obtain ⟨R, hR, -, hval⟩ := hminus Y A hY hA hYsig hA0 (by omega)
          refine ⟨R, ?_, ?_⟩
          · simp only [hnone, Option.bind_some]
            exact hR
          · rw [hval, hYval, hAval, ← Int.sub_emod_right]
            exact (Int.emod_eq_of_lt (by omega) (by omega)).symm
      · rw [if_neg hgo]
        refine ⟨Y, rfl, ?_⟩
        rw [← mag_eq_value hY0]
        have := mag_nonneg Y
        exact (Int.emod_eq_of_lt this (by unfold Decides at hdec; omega)).symm

-- operator% by a divisor of more than one limb.
theorem mod_long_exact (hthis : this.Canonical) (hthis0 : 0 ≤ this.value) (hlen : this.length ≤ 126) {fuel : Nat}
    (hfuel : this.mag < fuel) :
    ∃ R, mod minus 32 fuel this A = some R ∧ R.value = this.value % A.value := by
  have hlt : this.mag < base ^ 126 := hthis.mag_lt.trans_le (pow_le_pow_right₀ base_one_le hlen)
  have hpos := hthis.length_pos
  rw [mod, if_pos hA1, ← mag_eq_value hthis0, value_of_signal_zero hA0]
  exact modLoop_exact hminus hA hA0 hA1 (by omega) fuel this hfuel hthis hthis0 hlt

end ModLoop

section Trials

variable (minus : BigNum → BigNum → Option BigNum) (A : BigNum)

-- The rounds of a loop that tries quotients: what was left before the round, the trial, and the multiple of
-- the divisor that the round takes off.
def trials (goesOn : Nat → Bool) (trial : BigNum → Option (Option Trial)) (move : Trial → Option BigNum) :
    Nat → BigNum → List (BigNum × Trial × BigNum)
  | 0, _ => []
  | fuel + 1, X =>
      match X.compare A, trial X with
      | some order, some (some t) =>
          if goesOn order then
            match (move t).bind (mul 32 A) with
            | some T => (X, t, T) ::
                match minus X T with
                | some X => trials goesOn trial move fuel X
                | none => []
            | none => []
          else []
      | _, _ => []

-- The rounds of operator/ and of operator%, for divisors of more than one limb.
def divTrials (this : BigNum) (fuel : Nat) : List (BigNum × Trial × BigNum) :=
  trials minus A (fun order => order = 0) (fun X => divTrial 32 X A) (shifted 32) fuel this

def modTrials (this : BigNum) (fuel : Nat) : List (BigNum × Trial × BigNum) :=
  trials minus A (fun order => order = 0 || order = 2) (fun Y => modTrial this Y A) (shiftedIf 32) fuel this

-- The quotient is one limb and its multiple can be taken off.
def Fits (round : BigNum × Trial × BigNum) : Prop :=
  round.2.1.div < 2 ^ 32 ∧ round.2.2.value ≤ round.1.value

variable {minus A} (hminus : ExactMinus minus) (hA : A.Canonical) (hA0 : A.signal = 0) (hA1 : 1 < A.length)

include hminus hA hA0 hA1

theorem trials_fit {goesOn : Nat → Bool} {trial : BigNum → Option (Option Trial)} {move : Trial → Option BigNum}
    (hgood : ∀ X order t, X.Canonical → X.compare A = some order → goesOn order → trial X = some (some t) →
      GoodTrial X A t) (hmove : ∀ t, t.div < 2 ^ 32 → t.len < len1 → ∃ Z, move t = some Z ∧ Moved t Z)
    (fuel : Nat) (X : BigNum) (hX : X.Canonical) (hX0 : 0 ≤ X.value) (hXlt : X.mag < base ^ 126) :
    ∀ round ∈ trials minus A goesOn trial move fuel X, Fits round := by
  induction fuel generalizing X with
  | zero => exact fun round hround => absurd hround List.not_mem_nil
  | succ fuel ih =>
      obtain ⟨order, horder, -⟩ := compare_decides hX hA
      intro round hround
      rw [trials, horder] at hround
      cases htrial : trial X with
      | none => simp [htrial] at hround
      | some stop =>
          cases stop with
          | none => simp [htrial] at hround
          | some t =>
              by_cases hgo : goesOn order
              · have ht := hgood X order t hX horder hgo htrial
                have hlen := ht.len_le
                have hA2 := hA.length_pos
                have hX2 := hX.length_le
                obtain ⟨Z, hZ, hmoved⟩ := hmove t ht.div_lt (by omega)
                obtain ⟨T, X', hT, hle, hX', hcan, hnonneg, hless, -⟩ :=
                  modStep_exact hminus hA hA0 hA1 hX hX0 hXlt ht hmoved
                simp only [htrial, hgo, if_true, hZ, hT, hX', Option.bind_some, List.mem_cons] at hround
                rcases hround with rfl | hround
                · exact ⟨ht.div_lt, hle⟩
                · exact ih X' hcan hnonneg (by omega) round hround
              · simp [htrial, hgo] at hround

theorem divTrials_fit {this : BigNum} (hthis : this.Canonical) (hthis0 : 0 ≤ this.value)
    (hlt : this.mag < base ^ 126) (fuel : Nat) : ∀ round ∈ divTrials minus A this fuel, Fits round := by
  refine trials_fit hminus hA hA0 hA1 ?_ (fun t => shifted_moved) fuel this hthis hthis0 hlt
  intro X order t hX horder hgo htrial
  obtain ⟨order', horder', hdec⟩ := compare_decides hX hA
  cases horder.symm.trans horder'
  have hgt : A.mag < X.mag := by
    unfold Decides at hdec
    simp only [decide_eq_true_eq] at hgo
    omega
  rcases divTrial_cases hX hA hA1 hgt with ⟨t', ht', hgood⟩ | ⟨hnone, -⟩
  · cases htrial.symm.trans ht'
    exact hgood
  · cases htrial.symm.trans hnone

theorem modTrials_fit {this : BigNum} (hthis : this.Canonical) (hthis0 : 0 ≤ this.value)
    (hlt : this.mag < base ^ 126) (fuel : Nat) : ∀ round ∈ modTrials minus A this fuel, Fits round := by
  refine trials_fit hminus hA hA0 hA1 ?_ (fun t => shiftedIf_moved) fuel this hthis hthis0 hlt
  intro X order t hX horder hgo htrial
  obtain ⟨order', horder', hdec⟩ := compare_decides hX hA
  cases horder.symm.trans horder'
  have hge : A.mag ≤ X.mag := by
    unfold Decides at hdec
    simp only [Bool.or_eq_true, decide_eq_true_eq] at hgo
    omega
  have hne : this.length ≠ 0 := Nat.one_le_iff_ne_zero.mp hthis.length_pos
  rcases modTrial_cases hne hX hA hA1 hge with ⟨t', ht', hgood⟩ | ⟨hnone, -⟩
  · cases htrial.symm.trans ht'
    exact hgood
  · cases htrial.symm.trans hnone

end Trials

section Law

variable {minus : BigNum → BigNum → Option BigNum} {this A : BigNum}

-- The operators as the mathematical quotient and remainder, for divisors of any length.
theorem div_mod_exact (hminus : ExactMinus minus) (hthis : this.Canonical) (hthis0 : 0 ≤ this.value)
    (hlen : this.length ≤ 126) (hA : A.Canonical) (hApos : 0 < A.value) {fuel : Nat} (hfuel : this.value < fuel) :
    ∃ Q R, div minus 32 fuel this A = some Q ∧ mod minus 32 fuel this A = some R ∧
      Q.value = this.value / A.value ∧ R.value = this.value % A.value := by
  have hmag := mag_eq_value hApos.le
  have hA0 := signal_eq_zero hApos.le (by omega)
  rw [← mag_eq_value hthis0] at hfuel
  by_cases hA1 : 1 < A.length
  · obtain ⟨Q, hQ, hQval⟩ := div_long_exact hminus hA hA0 hA1 hthis hthis0 hlen hfuel
    obtain ⟨R, hR, hRval⟩ := mod_long_exact hminus hA hA0 hA1 hthis hthis0 hlen hfuel
    exact ⟨Q, R, hQ, hR, hQval, hRval⟩
  · have hone : A.length = 1 := by have := hA.length_pos; omega
    have hlimb : 0 < A.limb 0 := by
      have := mag_of_one_limb hone
      omega
    obtain ⟨Q, hQ, hQval⟩ := div_short_exact hA hone hlimb minus hthis hthis0 hA0 fuel
    obtain ⟨R, hR, hRval⟩ := mod_short_exact hA hone hlimb minus hthis hthis0 hA0 fuel
    exact ⟨Q, R, hQ, hR, hQval, hRval⟩

-- Both operators return, their results obey the law of division with remainder, and no round of either loop
-- tries a quotient that is too large.
theorem division_law (hminus : ExactMinus minus) (hthis : this.Canonical) (hthis0 : 0 ≤ this.value)
    (hlen : this.length ≤ 126) (hA : A.Canonical) (hApos : 0 < A.value) :
    (∀ fuel : Nat, this.value < fuel → ∃ Q R, div minus 32 fuel this A = some Q ∧
      mod minus 32 fuel this A = some R ∧ this.value = Q.value * A.value + R.value ∧ 0 ≤ R.value ∧
      R.value < A.value) ∧
    (1 < A.length → ∀ fuel, ∀ round ∈ divTrials minus A this fuel ++ modTrials minus A this fuel, Fits round) := by
  refine ⟨fun fuel hfuel => ?_, fun hA1 fuel round hround => ?_⟩
  · obtain ⟨Q, R, hQ, hR, hQval, hRval⟩ := div_mod_exact hminus hthis hthis0 hlen hA hApos hfuel
    refine ⟨Q, R, hQ, hR, ?_, ?_, ?_⟩
    · rw [hQval, hRval, Int.ediv_mul_add_emod]
    · rw [hRval]
      exact Int.emod_nonneg _ hApos.ne'
    · rw [hRval]
      exact Int.emod_lt_of_pos _ hApos
  · have hmag := mag_eq_value hApos.le
    have hA0 := signal_eq_zero hApos.le (by omega)
    have hlt : this.mag < base ^ 126 := hthis.mag_lt.trans_le (pow_le_pow_right₀ base_one_le hlen)
    rcases List.mem_append.mp hround with hround | hround
    · exact divTrials_fit hminus hA hA0 hA1 hthis hthis0 hlt fuel round hround
    · exact modTrials_fit hminus hA hA0 hA1 hthis hthis0 hlt fuel round hround

-- A number from its value, and the subtraction that hands every borrow on.
def ofNat (n : Nat) : Option BigNum :=
  trim len1 { zero with length := len1, array := Vector.ofFn fun i => n / 2 ^ (32 * i.val) % 2 ^ 32 }

def difference (X Z : BigNum) : Option BigNum := ofNat (X.value - Z.value).toNat

theorem ofNat_exact {n : Nat} (hn : (n : Int) < base ^ len1) :
    ∃ R, ofNat n = some R ∧ R.Canonical ∧ R.signal = 0 ∧ R.mag = n := by
  let B : BigNum := { zero with length := len1, array := Vector.ofFn fun i => n / 2 ^ (32 * i.val) % 2 ^ 32 }
  have hlimb : ∀ i, B.limb i = if i < len1 then n / 2 ^ (32 * i) % 2 ^ 32 else 0 := by
    intro i
    rw [limb]
    split_ifs with hi
    · simp [B, hi]
    · rw [Vector.getElem?_eq_none (by omega)]
      rfl
  have hmag : B.mag = n := by
    have htotal := value_div_mod base_nonneg n len1
    rw [Int.ediv_eq_zero_of_lt (Int.natCast_nonneg n) hn, mul_zero, add_zero] at htotal
    refine Eq.trans (value_congr fun i hi => ?_) htotal
    rw [hlimb i, if_pos hi, pow_mul]
    push_cast
    rfl
  have hpos : 1 ≤ B.length := show 1 ≤ len1 by decide
  obtain ⟨R, hR, hsig, hmagR, -⟩ := trim_mag (B := B) hpos (Nat.le_refl _)
  refine ⟨R, hR, trim_canonical hR hpos (Nat.le_refl _) (fun i => ?_) (fun i hi => ?_), hsig, hmagR.trans hmag⟩
  · rw [hlimb i]
    split_ifs
    · exact Nat.mod_lt _ (by norm_num)
    · norm_num
  · rw [hlimb i, if_neg (Nat.not_lt.mpr hi)]

theorem difference_exact : ExactMinus difference := by
  intro X Z hX hZ hX0 hZ0 hle
  have hXval := value_of_signal_zero hX0
  have hZval := value_of_signal_zero hZ0
  have hZ := mag_nonneg Z
  have hlt : X.mag < base ^ len1 := hX.mag_lt.trans_le (pow_le_pow_right₀ base_one_le hX.length_le)
  obtain ⟨R, hR, hcan, hsig, hmag⟩ := ofNat_exact (n := (X.value - Z.value).toNat) (by omega)
  refine ⟨R, hR, hcan, ?_⟩
  rw [value_of_signal_zero hsig, hmag]
  omega

-- (2^64 + 5) / (2^32 + 1), two limbs by two limbs after the first round.
theorem division_law_two_limbs :
    ∃ Q R, div difference 32 (2 ^ 65) (ofLimbs 0 [5, 0, 1]) (ofLimbs 0 [1, 1]) = some Q ∧
      mod difference 32 (2 ^ 65) (ofLimbs 0 [5, 0, 1]) (ofLimbs 0 [1, 1]) = some R ∧
      2 ^ 64 + 5 = Q.value * (2 ^ 32 + 1) + R.value := by
  have hthis : (ofLimbs 0 [5, 0, 1]).value = 2 ^ 64 + 5 := by decide
  have hA : (ofLimbs 0 [1, 1]).value = 2 ^ 32 + 1 := by decide
  have hcan : (ofLimbs 0 [5, 0, 1]).Canonical :=
    ofLimbs_canonical 0 (by decide) (by decide) (by decide) (by decide)
  have hcanA : (ofLimbs 0 [1, 1]).Canonical := ofLimbs_canonical 0 (by decide) (by decide) (by decide) (by decide)
  obtain ⟨Q, R, hQ, hR, hlaw, -⟩ := (division_law difference_exact hcan (by rw [hthis]; norm_num) (by decide)
    hcanA (by rw [hA]; norm_num)).1 (2 ^ 65) (by rw [hthis]; norm_num)
  rw [hthis, hA] at hlaw
  exact ⟨Q, R, hQ, hR, hlaw⟩

end Law

end RichardTest.BigNumCpp.BigNum
