import RichardTest.BigNumCpp.Multiply

namespace RichardTest.BigNumCpp.BigNum

open Positional

section Quotient

variable {X A : BigNum} {t : Trial}

-- What a trial quotient has to satisfy: it is one limb, it moves the remainder, and its multiple of the
-- divisor is not larger than what is left.
structure GoodTrial (X A : BigNum) (t : Trial) : Prop where
  div_pos : 1 ≤ t.div
  div_lt : t.div < 2 ^ 32
  len_le : A.length + t.len ≤ X.length
  le : A.mag * (t.div * base ^ t.len) ≤ X.mag

theorem base_pow_pos (n : Nat) : 0 < base ^ n := pow_pos (by norm_num [base]) n

-- The top limb fixes a number up to one unit of that limb.
theorem Canonical.top_le (h : A.Canonical) : A.limb (A.length - 1) * base ^ (A.length - 1) ≤ A.mag := by
  obtain ⟨n, hn⟩ : ∃ n, A.length = n + 1 := ⟨A.length - 1, by have := h.length_pos; omega⟩
  have hlow : 0 ≤ Positional.value base (fun i => (A.limb i : Int)) n :=
    Positional.value_nonneg base_nonneg fun _ _ => Int.natCast_nonneg _
  rw [mag, hn, value_succ, Nat.add_sub_cancel]
  omega

theorem Canonical.lt_top (h : A.Canonical) :
    A.mag + 1 ≤ (A.limb (A.length - 1) + 1) * base ^ (A.length - 1) := by
  obtain ⟨n, hn⟩ : ∃ n, A.length = n + 1 := ⟨A.length - 1, by have := h.length_pos; omega⟩
  have hlow : Positional.value base (fun i => (A.limb i : Int)) n + 1 ≤ base ^ n :=
    value_add_one_le base_nonneg fun i _ => by have := h.limb_lt i; rw [base_eq]; omega
  rw [mag, hn, value_succ, Nat.add_sub_cancel, add_mul, one_mul]
  omega

theorem top_two_le_mag (hlen : 2 ≤ A.length) :
    (A.limb (A.length - 1) * 2 ^ 32 + A.limb (A.length - 2) : Nat) * base ^ (A.length - 2) ≤ A.mag := by
  obtain ⟨n, hn⟩ : ∃ n, A.length = n + 2 := ⟨A.length - 2, by omega⟩
  have hlow : 0 ≤ Positional.value base (fun i => (A.limb i : Int)) n :=
    Positional.value_nonneg base_nonneg fun _ _ => Int.natCast_nonneg _
  rw [mag, hn, value_succ, value_succ, show n + 2 - 1 = n + 1 by omega, Nat.add_sub_cancel]
  push_cast
  rw [← base_eq, pow_succ base n]
  linarith

theorem Canonical.top_pos (h : A.Canonical) (hlen : 1 < A.length) : 1 ≤ A.limb (A.length - 1) :=
  Nat.one_le_iff_ne_zero.mpr (h.top.resolve_left (by omega))

theorem Canonical.length_le_of_mag_le (hA : A.Canonical) (hX : X.Canonical) (h : A.mag ≤ X.mag) :
    A.length ≤ X.length := by
  by_contra hlt
  exact absurd h (not_le.mpr (hX.mag_lt_of_length_lt hA (by omega)))

-- The top limbs of the dividend as a number `v`, divided by the divisor's top limb plus one.
theorem goodTrial_of_top {v : Nat} (hA : A.Canonical) (len : Nat)
    (hv : v * base ^ (A.length - 1 + len) ≤ X.mag) (hpos : A.limb (A.length - 1) + 1 ≤ v)
    (hlt : v < (A.limb (A.length - 1) + 1) * 2 ^ 32) (hlen : A.length + len ≤ X.length) :
    GoodTrial X A ⟨v / (A.limb (A.length - 1) + 1), len⟩ where
  div_pos := Nat.div_pos hpos (Nat.succ_pos _)
  div_lt := Nat.div_lt_of_lt_mul hlt
  len_le := hlen
  le := by
    have htop := hA.lt_top
    generalize hn : A.limb (A.length - 1) + 1 = a at hpos hlt
    have hmag : A.mag ≤ a * base ^ (A.length - 1) := by
      rw [← hn]
      push_cast
      omega
    have hdiv : (a : Int) * (v / a : Nat) ≤ v := by exact_mod_cast Nat.mul_div_le v a
    have hshift : 0 ≤ ((v / a : Nat) : Int) * base ^ len :=
      mul_nonneg (Int.natCast_nonneg _) (base_pow_pos len).le
    calc A.mag * (((v / a : Nat) : Int) * base ^ len)
        ≤ a * base ^ (A.length - 1) * (((v / a : Nat) : Int) * base ^ len) :=
          mul_le_mul_of_nonneg_right hmag hshift
      _ = a * (v / a : Nat) * base ^ (A.length - 1 + len) := by rw [pow_add]; ring
      _ ≤ v * base ^ (A.length - 1 + len) := mul_le_mul_of_nonneg_right hdiv (base_pow_pos _).le
      _ ≤ X.mag := hv

-- The dividend's top limb is the larger one.
theorem goodTrial_one (hX : X.Canonical) (hA : A.Canonical) (hlen : A.length ≤ X.length)
    (hgt : A.limb (A.length - 1) < X.limb (X.length - 1)) :
    GoodTrial X A ⟨X.limb (X.length - 1) / (A.limb (A.length - 1) + 1), X.length - A.length⟩ := by
  have hpos := hA.length_pos
  have hx := hX.limb_lt (X.length - 1)
  refine goodTrial_of_top hA _ ?_ hgt (by omega) (by omega)
  rw [show A.length - 1 + (X.length - A.length) = X.length - 1 by omega]
  exact hX.top_le

-- It is not, but the dividend is longer.
theorem goodTrial_two (hX : X.Canonical) (hA : A.Canonical) (hA1 : 1 < A.length) (hlen : A.length < X.length)
    (hle : X.limb (X.length - 1) ≤ A.limb (A.length - 1)) :
    GoodTrial X A ⟨(X.limb (X.length - 1) * 2 ^ 32 + X.limb (X.length - 2)) / (A.limb (A.length - 1) + 1),
      X.length - A.length - 1⟩ := by
  have htop := hX.top_pos (by omega)
  have ha := hA.limb_lt (A.length - 1)
  have hy := hX.limb_lt (X.length - 2)
  refine goodTrial_of_top hA _ ?_ (by omega) (by omega) (by omega)
  rw [show A.length - 1 + (X.length - A.length - 1) = X.length - 2 by omega]
  exact top_two_le_mag (by omega)

-- Neither: then one more multiple of the divisor is all there is.
theorem lt_two_mul_of_top (hX : X.Canonical) (hA : A.Canonical) (hA1 : 1 < A.length) (hlen : X.length = A.length)
    (hle : X.limb (X.length - 1) ≤ A.limb (A.length - 1)) : X.mag < 2 * A.mag := by
  have hpos := hA.top_pos hA1
  have hlt := hX.lt_top
  have hge := hA.top_le
  rw [hlen] at hlt hle
  have hstep : ((X.limb (A.length - 1) : Int) + 1) * base ^ (A.length - 1) ≤
      (2 * A.limb (A.length - 1)) * base ^ (A.length - 1) :=
    mul_le_mul_of_nonneg_right (by omega) (base_pow_pos _).le
  linarith

theorem quot_of_pos {x y : Nat} (hy : 0 < y) : quot x y = some (x / y) := if_neg hy.ne'

theorem divTrial_cases (hX : X.Canonical) (hA : A.Canonical) (hA1 : 1 < A.length) (hlt : A.mag < X.mag) :
    (∃ t, divTrial 32 X A = some (some t) ∧ GoodTrial X A t) ∨
      (divTrial 32 X A = some none ∧ X.mag < 2 * A.mag) := by
  have hlen := hA.length_le_of_mag_le hX hlt.le
  have hX1 := hX.length_le
  have hA2 := hA.length_le
  have hx := hX.limb_lt (X.length - 1)
  have hy := hX.limb_lt (X.length - 2)
  have ha := hA.limb_lt (A.length - 1)
  rw [divTrial, get_of_lt (show X.length - 1 < len1 by omega), get_of_lt (show A.length - 1 < len1 by omega),
    get_of_lt (show X.length - 2 < len1 by omega)]
  simp only [Option.bind_eq_bind, Option.bind_some]
  split_ifs with hgt hlonger hones
  · refine Or.inl ⟨_, ?_, goodTrial_one hX hA hlen hgt⟩
    rw [Nat.mod_eq_of_lt (by omega), quot_of_pos (Nat.succ_pos _), Option.bind_some]
  · refine Or.inl ⟨_, ?_, goodTrial_two hX hA hA1 hlonger (by omega)⟩
    rw [Nat.mod_eq_of_lt (show X.limb (X.length - 1) * 2 ^ 32 < 2 ^ 64 by omega), Nat.mod_eq_of_lt (by omega),
      hones, Option.bind_some]
    norm_num
  · refine Or.inl ⟨_, ?_, goodTrial_two hX hA hA1 hlonger (by omega)⟩
    rw [Nat.mod_eq_of_lt (show X.limb (X.length - 1) * 2 ^ 32 < 2 ^ 64 by omega),
      Nat.mod_eq_of_lt (show X.limb (X.length - 1) * 2 ^ 32 + X.limb (X.length - 2) < 2 ^ 64 by omega),
      Nat.mod_eq_of_lt (by omega), quot_of_pos (Nat.succ_pos _), Option.bind_some]
  · exact Or.inr ⟨rfl, lt_two_mul_of_top hX hA hA1 (by omega) (by omega)⟩

theorem modTrial_cases {this : BigNum} (hthis : this.length ≠ 0) (hX : X.Canonical) (hA : A.Canonical)
    (hA1 : 1 < A.length) (hle : A.mag ≤ X.mag) :
    (∃ t, modTrial this X A = some (some t) ∧ GoodTrial X A t) ∨
      (modTrial this X A = some none ∧ X.mag < 2 * A.mag) := by
  have hlen := hA.length_le_of_mag_le hX hle
  have hX1 := hX.length_le
  have hA2 := hA.length_le
  have hx := hX.limb_lt (X.length - 1)
  have hy := hX.limb_lt (X.length - 2)
  have ha := hA.limb_lt (A.length - 1)
  rw [modTrial, get_of_lt (show X.length - 1 < len1 by omega), get_of_lt (show A.length - 1 < len1 by omega),
    get_of_lt (show X.length - 2 < len1 by omega)]
  simp only [Option.bind_eq_bind, Option.bind_some, hthis, ne_eq, not_false_eq_true, and_true]
  rw [Nat.mod_eq_of_lt (show A.limb (A.length - 1) + 1 < 2 ^ 64 by omega), quot_of_pos (Nat.succ_pos _),
    quot_of_pos (Nat.succ_pos _), Option.bind_some, Option.bind_some]
  split_ifs with hsame hsmall
  · exact Or.inr ⟨rfl, lt_two_mul_of_top hX hA hA1 (by omega) (by omega)⟩
  · -- a number of the same length with a smaller top limb would be smaller
    have hlonger : A.length < X.length := by
      by_contra hnot
      have hbelow : X.limb (X.length - 1) + 1 ≤ A.limb (A.length - 1) := by omega
      have hstep := mul_le_mul_of_nonneg_right (Int.ofNat_le.mpr hbelow) (base_pow_pos (A.length - 1)).le
      have hlt := hX.lt_top
      have hge := hA.top_le
      rw [show X.length = A.length by omega] at hlt hstep
      push_cast at hstep
      linarith
    refine Or.inl ⟨_, ?_, goodTrial_two hX hA hA1 hlonger hsmall⟩
    rw [Nat.mod_eq_of_lt (show X.limb (X.length - 1) * 2 ^ 32 < 2 ^ 64 by omega), Nat.mod_eq_of_lt (by omega)]
  · exact Or.inl ⟨_, rfl, goodTrial_one hX hA hlen (by omega)⟩

end Quotient

section Moved

variable {t : Trial} {Z : BigNum}

-- The trial quotient as a number: one limb, `len` places up.
structure Moved (t : Trial) (Z : BigNum) : Prop where
  length : Z.length = t.len + 1
  signal : Z.signal = 0
  limb : ∀ k, Z.limb k = if k = t.len then t.div else 0

theorem Moved.mag (h : Moved t Z) : Z.mag = t.div * base ^ t.len := by
  rw [BigNum.mag, h.length, value_succ, h.limb, if_pos rfl]
  rw [value_eq_zero fun i hi => by rw [h.limb, if_neg (by omega)]; rfl, zero_add]

theorem Moved.canonical (h : Moved t Z) (hpos : 1 ≤ t.div) (hlt : t.div < 2 ^ 32) (hlen : t.len < len1) :
    Z.Canonical where
  length_pos := by rw [h.length]; omega
  length_le := by rw [h.length]; omega
  limb_lt k := by
    rw [h.limb]
    split_ifs
    · exact hlt
    · norm_num
  zero_above k hk := by
    rw [h.length] at hk
    rw [h.limb, if_neg (by omega)]
  top := by
    rw [h.length, Nat.add_sub_cancel, h.limb, if_pos rfl]
    exact Or.inr (by omega)

-- A number below 2^32 is one limb.
theorem ofUint64_eq {x : Nat} (hx : x < 2 ^ 32) : ofUint64 32 x = zero.update 0 x := by
  rw [ofUint64, if_pos (by omega), Nat.mod_eq_of_lt hx]
  rfl

theorem limb_ofUint64 {x : Nat} (hx : x < 2 ^ 32) (k : Nat) :
    (ofUint64 32 x).limb k = if k = 0 then x else 0 := by
  rw [ofUint64_eq hx, limb_update (by decide)]
  split_ifs
  · rfl
  · exact limb_zeros 0 1 k

theorem ofUint64_moved {x : Nat} (hx : x < 2 ^ 32) : Moved ⟨x, 0⟩ (ofUint64 32 x) where
  length := by rw [ofUint64_eq hx]; rfl
  signal := by rw [ofUint64_eq hx]; rfl
  limb := limb_ofUint64 hx

theorem clearLow_eq (n i : Nat) (Z : BigNum) (hn : i + n ≤ len1) :
    ∃ R, clearLow n i Z = some R ∧ R.length = Z.length ∧ R.signal = Z.signal ∧
      ∀ k, R.limb k = if i ≤ k ∧ k < i + n then 0 else Z.limb k := by
  induction n generalizing i Z with
  | zero => exact ⟨Z, rfl, rfl, rfl, fun k => by rw [if_neg (by omega)]⟩
  | succ n ih =>
      have hi : i < len1 := by omega
      obtain ⟨R, hR, hlen, hsig, hlimb⟩ := ih (i + 1) (Z.update i 0) (by omega)
      refine ⟨R, ?_, hlen, hsig, fun k => ?_⟩
      · rw [clearLow, set_of_lt hi]
        exact hR
      · rw [hlimb k, limb_update hi]
        split_ifs <;> first | rfl | omega

theorem shifted_moved (hlt : t.div < 2 ^ 32) (hlen : t.len < len1) :
    ∃ Z, shifted 32 t = some Z ∧ Moved t Z := by
  have hone : (ofUint64 32 t.div).length = 1 := (ofUint64_moved hlt).length
  obtain ⟨R, hR, hlenR, hsig, hlimb⟩ := clearLow_eq t.len 0
    ({ ofUint64 32 t.div with length := 1 + t.len }.update t.len t.div) (by omega)
  refine ⟨R, ?_, ?_, ?_, fun k => ?_⟩
  · have hget : ({ ofUint64 32 t.div with length := 1 + t.len } : BigNum).get 0 = some t.div := by
      rw [get_of_lt (by decide), limb_withLength, limb_ofUint64 hlt, if_pos rfl]
    simp only [shifted, hone, shiftUp, Option.bind_eq_bind, Nat.zero_add]
    rw [hget, Option.bind_some, set_of_lt hlen]
    exact hR
  · rw [hlenR, Nat.add_comm]
    rfl
  · rw [hsig]
    exact (ofUint64_moved hlt).signal
  · rw [hlimb k, limb_update hlen, limb_withLength, limb_ofUint64 hlt]
    split_ifs <;> first | rfl | omega

theorem shiftedIf_moved (hlt : t.div < 2 ^ 32) (hlen : t.len < len1) :
    ∃ Z, shiftedIf 32 t = some Z ∧ Moved t Z := by
  rw [shiftedIf]
  split_ifs with hzero
  · obtain ⟨div, len⟩ := t
    simp only at hzero hlt ⊢
    subst hzero
    exact ⟨_, rfl, ofUint64_moved hlt⟩
  · exact shifted_moved hlt hlen

end Moved

section Remainder

-- operator- is exact on numbers that have the sign of zero and whose difference is not negative.
def ExactMinus (minus : BigNum → BigNum → Option BigNum) : Prop :=
  ∀ X Z : BigNum, X.Canonical → Z.Canonical → X.signal = zero.signal → Z.signal = zero.signal →
    Z.value ≤ X.value → ∃ R, minus X Z = some R ∧ R.Canonical ∧ R.value = X.value - Z.value

theorem value_of_signal_zero {X : BigNum} (h : X.signal = 0) : X.value = X.mag := if_pos h

theorem mag_eq_value {X : BigNum} (h : 0 ≤ X.value) : X.mag = X.value := by
  have hmag := mag_nonneg X
  unfold value at h ⊢
  split_ifs at h ⊢ <;> omega

theorem signal_eq_zero {X : BigNum} (h : 0 ≤ X.value) (hpos : 0 < X.mag) : X.signal = 0 := by
  by_contra hne
  rw [value, if_neg hne] at h
  omega

theorem Canonical.length_le_of_mag_lt {X : BigNum} (h : X.Canonical) {n : Nat} (hn : 1 ≤ n)
    (hlt : X.mag < base ^ n) : X.length ≤ n := by
  by_contra hlong
  have hge : base ^ (X.length - 1) ≤ X.mag :=
    pow_le_value base_nonneg (fun _ _ => Int.natCast_nonneg _) (by omega)
      (by exact_mod_cast h.top_pos (by omega))
  have hmono : base ^ n ≤ base ^ (X.length - 1) := pow_le_pow_right₀ base_one_le (by omega)
  omega

variable {minus : BigNum → BigNum → Option BigNum} (hminus : ExactMinus minus)
variable {X A Z : BigNum} {t : Trial} (hX : X.Canonical) (hX0 : 0 ≤ X.value) (hA : A.Canonical)
  (hA0 : A.signal = 0)

include hminus hX hX0 hA hA0 in
-- One trial: the multiple of the divisor is exact and is taken off.
theorem reduce_exact (hXlen : X.length ≤ 126) (hApos : 0 < A.mag) (ht : GoodTrial X A t) (hZ : Moved t Z) :
    ∃ T X', mul 32 A Z = some T ∧ T.value ≤ X.value ∧ minus X T = some X' ∧ X'.Canonical ∧ 0 ≤ X'.value ∧
      X'.mag + A.mag * Z.mag = X.mag := by
  have hlen := ht.len_le
  have hApos1 := hA.length_pos
  have hZcan := hZ.canonical ht.div_pos ht.div_lt (by unfold len1; omega)
  obtain ⟨T, hT, hTcan, hTsig, hTmag⟩ := mul_canonical hA hZcan (by rw [hZ.length]; omega)
  rw [if_pos (hA0.trans hZ.signal.symm)] at hTsig
  have hle : A.mag * Z.mag ≤ X.mag := by rw [hZ.mag]; exact ht.le
  have hZpos : 0 < Z.mag := by
    rw [hZ.mag]
    exact mul_pos (by have := ht.div_pos; omega) (base_pow_pos _)
  have hXsig := signal_eq_zero hX0 (by have := mul_pos hApos hZpos; omega)
  have hTval : T.value = A.mag * Z.mag := (value_of_signal_zero hTsig).trans hTmag
  have hXval := value_of_signal_zero hXsig
  obtain ⟨X', hX', hcan, hval⟩ := hminus X T hX hTcan hXsig hTsig (by omega)
  refine ⟨T, X', hT, by omega, hX', hcan, by omega, ?_⟩
  rw [mag_eq_value (by omega), hval]
  omega

end Remainder

section DivLoop

variable {minus : BigNum → BigNum → Option BigNum} (hminus : ExactMinus minus) {A : BigNum} {a : Int}

-- The state of the loop of operator/ on a dividend `a`: what has been taken off is the quotient so far
-- times the divisor.
structure Divided (A : BigNum) (a : Int) (X Y : BigNum) : Prop where
  x : X.Canonical
  x_nonneg : 0 ≤ X.value
  y : Y.Canonical
  y_signal : Y.signal = 0
  split : Y.mag * A.mag + X.mag = a

theorem Divided.y_le {X Y : BigNum} (h : Divided A a X Y) (hA : 0 < A.mag) : Y.mag ≤ a := by
  have hX := mag_nonneg X
  have hmul : Y.mag * 1 ≤ Y.mag * A.mag := mul_le_mul_of_nonneg_left hA (mag_nonneg Y)
  have hsplit := h.split
  omega

theorem add_nonneg_exact {Y Z : BigNum} (hY : Y.Canonical) (hZ : Z.Canonical) (hYs : Y.signal = 0)
    (hZs : Z.signal = 0) (hYlen : Y.length ≤ 126) (hZlen : Z.length ≤ 126) :
    ∃ S, add 32 Y Z = some S ∧ S.Canonical ∧ S.signal = 0 ∧ S.mag = Y.mag + Z.mag := by
  obtain ⟨S, hS, hcan, hsig, hmag⟩ := addSame_eq hY hZ (by omega) (by omega)
  exact ⟨S, by rw [add_eq_addSame 32 (hYs.trans hZs.symm), hS], hcan, hsig.trans hYs, hmag⟩

theorem one_moved : Moved ⟨1, 0⟩ (ofUint64 32 1) := ofUint64_moved (by norm_num)

theorem one_canonical : (ofUint64 32 1).Canonical := one_moved.canonical (by decide) (by decide) (by decide)

-- `Y = Y + I`.
theorem add_one_exact {Y : BigNum} (hY : Y.Canonical) (hYs : Y.signal = 0) (hYlen : Y.length ≤ 126) :
    ∃ S, add 32 Y (ofUint64 32 1) = some S ∧ S.Canonical ∧ S.signal = 0 ∧ S.mag = Y.mag + 1 := by
  obtain ⟨S, hS, hcan, hsig, hmag⟩ := add_nonneg_exact hY one_canonical hYs one_moved.signal hYlen
    (by rw [one_moved.length]; norm_num)
  refine ⟨S, hS, hcan, hsig, hmag.trans ?_⟩
  rw [one_moved.mag]
  simp

variable (hA : A.Canonical) (hA0 : A.signal = 0) (hA1 : 1 < A.length)

theorem Canonical.mag_pos (h : A.Canonical) (hlen : 1 < A.length) : 0 < A.mag := by
  have htop := h.top_le
  have hpos := mul_pos (show (0 : Int) < A.limb (A.length - 1) by have := h.top_pos hlen; omega)
    (base_pow_pos (A.length - 1))
  omega

include hminus hA hA0 hA1 in
theorem Divided.step {X Y : BigNum} {t : Trial} (h : Divided A a X Y) (ha : a < base ^ 126)
    (ht : GoodTrial X A t) :
    ∃ Z Y' T X', shifted 32 t = some Z ∧ add 32 Y Z = some Y' ∧ mul 32 A Z = some T ∧ T.value ≤ X.value ∧
      minus X T = some X' ∧ Divided A a X' Y' ∧ X'.mag < X.mag := by
  have hApos := hA.mag_pos hA1
  have hsplit := h.split
  have hY0 := mag_nonneg Y
  have hlen := ht.len_le
  have hXlen : X.length ≤ 126 := by
    have := mul_nonneg hY0 hApos.le
    exact h.x.length_le_of_mag_lt (by norm_num) (by omega)
  have hYlen := h.y.length_le_of_mag_lt (by norm_num) ((h.y_le hApos).trans_lt ha)
  obtain ⟨Z, hZ, hmoved⟩ := shifted_moved ht.div_lt (by unfold len1; omega)
  have hZcan := hmoved.canonical ht.div_pos ht.div_lt (by unfold len1; omega)
  obtain ⟨Y', hY', hYcan, hYsig, hYmag⟩ := add_nonneg_exact h.y hZcan h.y_signal hmoved.signal hYlen
    (by rw [hmoved.length]; omega)
  obtain ⟨T, X', hT, hle, hX', hXcan, hX0, hXmag⟩ :=
    reduce_exact hminus h.x h.x_nonneg hA hA0 hXlen hApos ht hmoved
  have hprod : 0 < A.mag * Z.mag := by
    rw [hmoved.mag]
    exact mul_pos hApos (mul_pos (by have := ht.div_pos; omega) (base_pow_pos _))
  refine ⟨Z, Y', T, X', hZ, hY', hT, hle, hX', ⟨hXcan, hX0, hYcan, hYsig, ?_⟩, by omega⟩
  rw [hYmag, add_mul, mul_comm Z.mag]
  omega

-- How the loop ends: with a remainder that is not larger than the divisor, or with one last multiple counted
-- but not taken off.
def DivEnd (A : BigNum) (a : Int) (X Y : BigNum) : Prop :=
  X.mag ≤ A.mag ∧ Y.mag * A.mag + X.mag = a ∨
    A.mag < X.mag ∧ X.mag < 2 * A.mag ∧ Y.mag * A.mag + X.mag = a + A.mag

include hminus hA hA0 hA1 in
theorem divLoop_exact (ha : a < base ^ 126) (fuel : Nat) (X Y : BigNum) (hfuel : X.mag < fuel)
    (h : Divided A a X Y) :
    ∃ X' Y', divLoop minus 32 A fuel X Y = some (X', Y') ∧ X'.Canonical ∧ Y'.Canonical ∧ Y'.signal = 0 ∧
      Y'.mag ≤ a ∧ DivEnd A a X' Y' := by
  have hApos := hA.mag_pos hA1
  induction fuel generalizing X Y with
  | zero =>
      have := mag_nonneg X
      omega
  | succ fuel ih =>
      have hsplit := h.split
      obtain ⟨order, horder, hdec⟩ := compare_decides h.x hA
      rw [divLoop, horder]
      simp only [Option.bind_eq_bind, Option.bind_some]
      by_cases hzero : order = 0
      · have hgt : A.mag < X.mag := by unfold Decides at hdec; omega
        rw [if_pos hzero]
        rcases divTrial_cases h.x hA hA1 hgt with ⟨t, ht, hgood⟩ | ⟨hnone, hlt⟩
        · obtain ⟨Z, Y', T, X', hZ, hY', hT, -, hX', hnext, hless⟩ := h.step hminus hA hA0 hA1 ha hgood
          obtain ⟨R, Q, hloop, hrest⟩ := ih X' Y' (by omega) hnext
          refine ⟨R, Q, ?_, hrest⟩
          simp only [ht, hZ, hY', hT, hX', Option.bind_some]
          exact hloop
        · have hYlen := h.y.length_le_of_mag_lt (by norm_num) ((h.y_le hApos).trans_lt ha)
          obtain ⟨Y', hY', hcan, hsig, hmag⟩ := add_one_exact h.y h.y_signal hYlen
          have hsum : Y'.mag * A.mag = Y.mag * A.mag + A.mag := by rw [hmag, add_mul, one_mul]
          refine ⟨X, Y', ?_, h.x, hcan, hsig, ?_, Or.inr ⟨hgt, hlt, by omega⟩⟩
          · simp only [hnone, hY', Option.bind_some]
          · have := mul_le_mul_of_nonneg_left hApos (mag_nonneg Y')
            omega
      · rw [if_neg hzero]
        have hle : X.mag ≤ A.mag := by unfold Decides at hdec; omega
        exact ⟨X, Y, rfl, h.x, h.y, h.y_signal, h.y_le hApos, Or.inl ⟨hle, hsplit⟩⟩

theorem zero_canonical : zero.Canonical :=
  ⟨Nat.le_refl 1, by decide, fun i => by rw [show zero.limb i = 0 from limb_zeros 0 1 i]; norm_num,
    fun i _ => limb_zeros 0 1 i, Or.inl rfl⟩

theorem mag_zero : zero.mag = 0 :=
  value_eq_zero fun i _ => by rw [show zero.limb i = 0 from limb_zeros 0 1 i]; rfl

theorem ediv_eq {a b q r : Int} (hr : 0 ≤ r) (hlt : r < b) (h : q * b + r = a) : a / b = q :=
  ((Int.ediv_emod_unique (r := r) (by omega)).mpr ⟨by rw [mul_comm b]; omega, hr, hlt⟩).1

-- A result with the dividend's sign: only a zero can carry the sign of a negative number.
theorem value_ediv {this Q : BigNum} (hthis0 : 0 ≤ this.value) (hA0 : A.signal = 0) (hsig : Q.signal = this.signal)
    (hmag : Q.mag = this.mag / A.mag) : Q.value = this.value / A.value := by
  rw [← mag_eq_value hthis0, value_of_signal_zero hA0, ← hmag]
  by_cases hs : this.signal = 0
  · exact value_of_signal_zero (hsig.trans hs)
  · have hzero : this.mag = 0 := by
      by_contra hne
      have := mag_nonneg this
      exact hs (signal_eq_zero hthis0 (by omega))
    have hQ : Q.mag = 0 := by rw [hmag, hzero, Int.zero_ediv]
    rw [value, hQ]
    simp

include hminus hA hA0 hA1 in
-- operator/ by a divisor of more than one limb.
theorem div_long_exact {this : BigNum} (hthis : this.Canonical) (hthis0 : 0 ≤ this.value)
    (hlen : this.length ≤ 126) {fuel : Nat} (hfuel : this.mag < fuel) :
    ∃ Q, div minus 32 fuel this A = some Q ∧ Q.value = this.value / A.value := by
  have ha : this.mag < base ^ 126 :=
    hthis.mag_lt.trans_le (pow_le_pow_right₀ base_one_le hlen)
  have hstart : Divided A this.mag this zero :=
    ⟨hthis, hthis0, zero_canonical, rfl, by rw [mag_zero]; omega⟩
  obtain ⟨X, Y, hloop, hX, hY, hYsig, hYle, hend⟩ := divLoop_exact hminus hA hA0 hA1 ha fuel this zero hfuel hstart
  obtain ⟨order, horder, hdec⟩ := compare_decides hX hA
  have hX0 := mag_nonneg X
  have hA0' := hA.mag_pos hA1
  -- the quotient before its sign is set
  have hquot : ∃ Q, (if order = 2 then add 32 Y (ofUint64 32 1) else some Y) = some Q ∧ Q.signal = 0 ∧
      Q.mag = this.mag / A.mag := by
    unfold DivEnd at hend
    unfold Decides at hdec
    split_ifs with htwo
    · obtain ⟨Q, hQ, -, hsig, hmag⟩ := add_one_exact hY hYsig
        (hY.length_le_of_mag_lt (by norm_num) (hYle.trans_lt ha))
      have hsum : Q.mag * A.mag = Y.mag * A.mag + A.mag := by rw [hmag, add_mul, one_mul]
      exact ⟨Q, hQ, hsig, (ediv_eq (r := 0) le_rfl hA0' (by omega)).symm⟩
    · refine ⟨Y, rfl, hYsig, ?_⟩
      rcases hend with ⟨hle, hsplit⟩ | ⟨hgt, hlt, hsplit⟩
      · exact (ediv_eq hX0 (by omega) hsplit).symm
      · exact (ediv_eq (r := X.mag - A.mag) (by omega) (by omega) (by omega)).symm
  obtain ⟨Q, hQ, hQsig, hQmag⟩ := hquot
  refine ⟨if this.signal ≠ A.signal then { Q with signal := 1 } else Q, ?_, value_ediv hthis0 hA0 ?_ ?_⟩
  · rw [div, if_pos hA1, hloop]
    simp only [Option.bind_eq_bind, Option.bind_some, horder, hQ]
  · rw [hA0]
    split_ifs with hsig
    · exact ((fin_two_cases this.signal).resolve_left hsig).symm
    · exact hQsig.trans (not_not.mp hsig).symm
  · split_ifs <;> exact hQmag

end DivLoop

end RichardTest.BigNumCpp.BigNum
