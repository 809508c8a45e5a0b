import RichardTest.BigNumCpp.Modulo
import RichardTest.Paillier.Theorems

namespace RichardTest.BigNumCpp.BigNum

open Positional

section Model

-- operator* and operator% as power_mod calls them.
variable (times modulo : BigNum → BigNum → Option BigNum)

-- `1 << j` is an `int`; the conversion to `unsigned long` extends its sign.
def mask (w j : Nat) : Nat := ((1#32 <<< j).signExtend w).toNat

-- `(X * N) % B`.
def timesModulo (B X N : BigNum) : Option BigNum := do
  let P ← times X N
  modulo P B

-- `for (int j = 0; j < 32; j++)`, with `n` rounds left.
def bitLoop (w : Nat) (B : BigNum) (x : Nat) : Nat → Nat → BigNum → BigNum → Option (BigNum × BigNum)
  | 0, _, X, N => some (X, N)
  | n + 1, j, X, N => do
      let X ← (if x &&& mask w j ≠ 0 then timesModulo times modulo B X N else some X)
      let N ← timesModulo times modulo B N N
      bitLoop w B x n (j + 1) X N

-- `for (int i = 0; i < A.length; i++)`, with `n` rounds left.
def limbLoop (w : Nat) (A B : BigNum) : Nat → Nat → BigNum → BigNum → Option (BigNum × BigNum)
  | 0, _, X, N => some (X, N)
  | n + 1, i, X, N => do
      let x ← A.get i
      let (X, N) ← bitLoop times modulo w B x 32 0 X N
      limbLoop w A B n (i + 1) X N

def powerMod (w : Nat) (this A B : BigNum) : Option BigNum := do
  let N ← modulo this B
  let (X, _) ← limbLoop times modulo w A B A.length 0 (ofUint64 w 1) N
  some X

end Model

-- operator* is exact on numbers that are not negative and fit together into the array.
def ExactTimes (times : BigNum → BigNum → Option BigNum) : Prop :=
  ∀ X Y : BigNum, X.Canonical → Y.Canonical → 0 ≤ X.value → 0 ≤ Y.value → X.length + Y.length ≤ 128 →
    ∃ P, times X Y = some P ∧ P.Canonical ∧ P.value = X.value * Y.value

-- operator% is exact on a number that is not negative and a positive modulus.
def ExactModulo (modulo : BigNum → BigNum → Option BigNum) : Prop :=
  ∀ X Y : BigNum, X.Canonical → Y.Canonical → 0 ≤ X.value → 0 < Y.value →
    ∃ R, modulo X Y = some R ∧ R.Canonical ∧ R.value = X.value % Y.value

section Mask

-- The mask of bit 31 has all higher bits too, but a limb has none of them.
theorem and_mask_ne_zero_iff {w x j : Nat} (hw : 32 ≤ w) (hx : x < 2 ^ 32) (hj : j < 32) :
    x &&& mask w j ≠ 0 ↔ x.testBit j = true := by
  have hmask : ∀ i < 32, (mask w j).testBit i = decide (i = j) := by
    intro i hi
    rw [mask, BitVec.testBit_toNat, BitVec.getLsbD_signExtend, if_pos hi, BitVec.getLsbD_shiftLeft,
      BitVec.getLsbD_one]
    simp only [hi, show i < w by omega, decide_true, Bool.true_and]
    rw [Bool.eq_iff_iff]
    simp only [Bool.and_eq_true, Bool.not_eq_true', decide_eq_false_iff_not, decide_eq_true_eq]
    omega
  constructor
  · intro hne
    obtain ⟨i, hi⟩ := Nat.exists_testBit_of_ne_zero hne
    rw [Nat.testBit_and, Bool.and_eq_true] at hi
    have hi32 : i < 32 := by
      by_contra hge
      have hhigh : x < 2 ^ i := hx.trans_le (Nat.pow_le_pow_right (by norm_num) (by omega))
      rw [Nat.testBit_lt_two_pow hhigh] at hi
      exact Bool.false_ne_true hi.1
    have hij := hi.2
    rw [hmask i hi32, decide_eq_true_eq] at hij
    exact hij ▸ hi.1
  · intro hbit hzero
    have hboth : (x &&& mask w j).testBit j = true := by
      rw [Nat.testBit_and, hbit, hmask j hj, decide_eq_true rfl]
      rfl
    rw [hzero, Nat.zero_testBit] at hboth
    exact Bool.false_ne_true hboth

end Mask

section Refinement

variable {times modulo : BigNum → BigNum → Option BigNum} {w : Nat} {A B : BigNum}

-- What the accumulator and the base are in every round.
structure Reduced (B X : BigNum) : Prop where
  canonical : X.Canonical
  nonneg : 0 ≤ X.value
  lt : X.value < B.value

variable (htimes : ExactTimes times) (hmodulo : ExactModulo modulo) (hw : 32 ≤ w) (hB : B.Canonical)
  (hfit : B.value ^ 2 < base ^ 128)

include hfit in
-- A residue fills at most half of the array.
theorem Reduced.length_le {X : BigNum} (h : Reduced B X) : X.length ≤ 64 := by
  refine h.canonical.length_le_of_mag_lt (by norm_num) ?_
  have hB64 : B.value < base ^ 64 := by
    refine lt_of_pow_lt_pow_left₀ 2 (pow_nonneg base_nonneg 64) ?_
    rw [← pow_mul]
    exact hfit
  rw [mag_eq_value h.nonneg]
  exact h.lt.trans hB64

include htimes hmodulo hB hfit

theorem timesModulo_exact {X N : BigNum} (hX : Reduced B X) (hN : Reduced B N) :
    ∃ R, timesModulo times modulo B X N = some R ∧ Reduced B R ∧
      R.value = X.value * N.value % B.value := by
  have hXlen := hX.length_le hfit
  have hNlen := hN.length_le hfit
  have hBpos : 0 < B.value := hX.nonneg.trans_lt hX.lt
  obtain ⟨P, hP, hPcan, hPval⟩ := htimes X N hX.canonical hN.canonical hX.nonneg hN.nonneg (by omega)
  obtain ⟨R, hR, hRcan, hRval⟩ := hmodulo P B hPcan hB (by rw [hPval]; exact mul_nonneg hX.nonneg hN.nonneg) hBpos
  rw [hPval] at hRval
  refine ⟨R, ?_, ⟨hRcan, ?_, ?_⟩, hRval⟩
  · rw [timesModulo, hP, Option.bind_eq_bind, Option.bind_some, hR]
  · rw [hRval]
    exact Int.emod_nonneg _ hBpos.ne'
  · rw [hRval]
    exact Int.emod_lt_of_pos _ hBpos

include hw

-- The two loops run as the loops on integers do.
theorem bitLoop_refines {x : Nat} (hx : x < 2 ^ 32) (n j : Nat) (hj : j + n ≤ 32) {X N : BigNum}
    (hX : Reduced B X) (hN : Reduced B N) :
    ∃ X' N', bitLoop times modulo w B x n j X N = some (X', N') ∧ Reduced B X' ∧ Reduced B N' ∧
      Paillier.bitLoop B.value x n j X.value N.value = (X'.value, N'.value) := by
  induction n generalizing j X N with
  | zero => exact ⟨X, N, rfl, hX, hN, rfl⟩
  | succ n ih =>
      have hbit := and_mask_ne_zero_iff (j := j) hw hx (by omega)
      obtain ⟨N', hN', hN'red, hN'val⟩ := timesModulo_exact htimes hmodulo hB hfit hN hN
      obtain ⟨X', hX', hX'red, hX'val⟩ : ∃ X',
          (if x &&& mask w j ≠ 0 then timesModulo times modulo B X N else some X) = some X' ∧ Reduced B X' ∧
            X'.value = if x.testBit j then X.value * N.value % B.value else X.value := by
        by_cases hset : x.testBit j = true
        · obtain ⟨X', hX', hred, hval⟩ := timesModulo_exact htimes hmodulo hB hfit hX hN
          exact ⟨X', by rw [if_pos (hbit.mpr hset), hX'], hred, by rw [if_pos hset, hval]⟩
        · exact ⟨X, by rw [if_neg (mt hbit.mp hset)], hX, by rw [if_neg hset]⟩
      obtain ⟨X'', N'', hloop, hX''red, hN''red, hints⟩ := ih (j + 1) (by omega) hX'red hN'red
      refine ⟨X'', N'', ?_, hX''red, hN''red, ?_⟩
      · rw [bitLoop, hX', Option.bind_eq_bind, Option.bind_some, hN', Option.bind_some, hloop]
      · rw [Paillier.bitLoop, ← hX'val, ← hN'val, hints]

theorem limbLoop_refines (hA : A.Canonical) (n i : Nat) (hi : i + n ≤ A.length) {X N : BigNum}
    (hX : Reduced B X) (hN : Reduced B N) :
    ∃ X' N', limbLoop times modulo w A B n i X N = some (X', N') ∧ Reduced B X' ∧ Reduced B N' ∧
      Paillier.limbLoop B.value ((List.range' i n).map A.limb) X.value N.value = (X'.value, N'.value) := by
  induction n generalizing i X N with
  | zero => exact ⟨X, N, rfl, hX, hN, rfl⟩
  | succ n ih =>
      have hlen := hA.length_le
      obtain ⟨X', N', hloop, hX', hN', hints⟩ :=
        bitLoop_refines htimes hmodulo hw hB hfit (hA.limb_lt i) 32 0 (by norm_num) hX hN
      obtain ⟨X'', N'', hrest, hX'', hN'', hints'⟩ := ih (i + 1) (by omega) hX' hN'
      refine ⟨X'', N'', ?_, hX'', hN'', ?_⟩
      · rw [limbLoop, get_of_lt (by omega), Option.bind_eq_bind, Option.bind_some, hloop]
        exact hrest
      · rw [List.range'_succ, List.map_cons, Paillier.limbLoop, hints]
        exact hints'

end Refinement

section Exponent

variable {A : BigNum}

theorem ofDigits_limbs (A : BigNum) (n i : Nat) :
    ((Nat.ofDigits (2 ^ 32) ((List.range' i n).map A.limb) : Nat) : Int) =
      Positional.value base (fun k => (A.limb (i + k) : Int)) n := by
  induction n generalizing i with
  | zero => simp
  | succ n ih =>
      rw [List.range'_succ, List.map_cons, Nat.ofDigits_cons, value_succ_low, Nat.cast_add, Nat.cast_mul, ih]
      simp only [base, Nat.add_zero, Nat.add_assoc, Nat.add_comm 1]
      norm_num

theorem ofDigits_limbs_eq (hA0 : 0 ≤ A.value) :
    Nat.ofDigits (2 ^ 32) ((List.range' 0 A.length).map A.limb) = A.value.toNat := by
  have hdigits := ofDigits_limbs A A.length 0
  simp only [Nat.zero_add] at hdigits
  rw [← mag, mag_eq_value hA0] at hdigits
  omega

end Exponent

section Power

variable {times modulo : BigNum → BigNum → Option BigNum} {w : Nat} {this A B : BigNum}

theorem one_reduced (hw : 32 ≤ w) (hB2 : 2 ≤ B.value) :
    Reduced B (ofUint64 w 1) ∧ (ofUint64 w 1).value = 1 := by
  have hword : ofUint64 w 1 = ofUint64 32 1 := by
    have hmod : 1 % 2 ^ w = 1 := Nat.mod_eq_of_lt (Nat.one_lt_two_pow (by omega))
    simp only [ofUint64, hmod]
    norm_num
  have hval : (ofUint64 32 1).value = 1 := by decide +kernel
  rw [hword]
  exact ⟨⟨one_canonical, by rw [hval]; norm_num, by rw [hval]; omega⟩, hval⟩

-- Square and multiply over the limbs and the bits of a canonical exponent is the power.
theorem powerMod_exact (htimes : ExactTimes times) (hmodulo : ExactModulo modulo) (hw : 32 ≤ w)
    (hthis : this.Canonical) (hthis0 : 0 ≤ this.value) (hA : A.Canonical) (hA0 : 0 ≤ A.value)
    (hB : B.Canonical) (hB2 : 2 ≤ B.value) (hfit : B.value ^ 2 < base ^ 128) :
    ∃ R, powerMod times modulo w this A B = some R ∧ R.Canonical ∧
      R.value = this.value ^ A.value.toNat % B.value := by
  obtain ⟨hone, honeval⟩ := one_reduced hw hB2
  obtain ⟨N, hN, hNcan, hNval⟩ := hmodulo this B hthis hB hthis0 (by omega)
  have hNred : Reduced B N := by
    refine ⟨hNcan, ?_, ?_⟩
    · rw [hNval]
      exact Int.emod_nonneg _ (by omega)
    · rw [hNval]
      exact Int.emod_lt_of_pos _ (by omega)
  obtain ⟨X, N', hloop, hX, -, hints⟩ :=
    limbLoop_refines htimes hmodulo hw hB hfit hA A.length 0 (by omega) hone hNred
  refine ⟨X, ?_, hX.canonical, ?_⟩
  · rw [powerMod, hN, Option.bind_eq_bind, Option.bind_some, hloop]
    rfl
  · have hlimbs : ∀ l ∈ (List.range' 0 A.length).map A.limb, l < 2 ^ 32 := by
      intro l hl
      obtain ⟨i, -, rfl⟩ := List.mem_map.mp hl
      exact hA.limb_lt i
    have hpow := Paillier.limbLoop_eq this.value hB2 _ hlimbs
    rw [← ofDigits_limbs_eq hA0, ← hpow, ← hNval, ← honeval, hints]

-- The multiplication of the file is exact at the width 32.
theorem mul_exactTimes : ExactTimes (mul 32) := by
  intro X Y hX hY _ _ hlen
  obtain ⟨P, hP, hcan, hsig, hmag⟩ := mul_canonical hX hY hlen
  exact ⟨P, hP, hcan, value_of_signals hsig hmag⟩

-- The remainder of the values.
def remainder (X Y : BigNum) : Option BigNum := ofNat (X.value % Y.value).toNat

theorem remainder_exact : ExactModulo remainder := by
  intro X Y hX _ hX0 hY0
  have hnonneg := Int.emod_nonneg X.value hY0.ne'
  have hsplit := Int.mul_ediv_add_emod X.value Y.value
  have hquot : 0 ≤ Y.value * (X.value / Y.value) := mul_nonneg hY0.le (Int.ediv_nonneg hX0 hY0.le)
  have hlt : X.mag < base ^ len1 := hX.mag_lt.trans_le (pow_le_pow_right₀ base_one_le hX.length_le)
  rw [mag_eq_value hX0] at hlt
  obtain ⟨R, hR, hcan, hsig, hmag⟩ := ofNat_exact (n := (X.value % Y.value).toNat) (by omega)
  refine ⟨R, hR, hcan, ?_⟩
  rw [value_of_signal_zero hsig, hmag]
  omega

-- 3^10 modulo 7.
theorem powerMod_exact_seven :
    ∃ R, powerMod (mul 32) remainder 32 (ofLimbs 0 [3]) (ofLimbs 0 [10]) (ofLimbs 0 [7]) = some R ∧
      R.value = 4 := by
  have hcan : ∀ x < 2 ^ 32, (ofLimbs 0 [x]).Canonical := fun x hx =>
    ofLimbs_canonical 0 (by simp) (by simp [len1]) (by simpa using hx) (Or.inl rfl)
  have h3 : (ofLimbs 0 [3]).value = 3 := by decide
  have h10 : (ofLimbs 0 [10]).value = 10 := by decide
  have h7 : (ofLimbs 0 [7]).value = 7 := by decide
  obtain ⟨R, hR, -, hval⟩ := powerMod_exact mul_exactTimes remainder_exact (le_refl 32) (hcan 3 (by norm_num))
    (by rw [h3]; norm_num) (hcan 10 (by norm_num)) (by rw [h10]; norm_num) (hcan 7 (by norm_num))
    (by rw [h7]; norm_num) (by rw [h7, base]; norm_num)
  rw [h3, h10, h7] at hval
  exact ⟨R, hR, hval⟩

end Power

end RichardTest.BigNumCpp.BigNum
