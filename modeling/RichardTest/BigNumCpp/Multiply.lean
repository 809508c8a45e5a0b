import RichardTest.BigNumCpp.Signed

namespace RichardTest.BigNumCpp.BigNum

open Positional

-- Limbs of 32 bits, and none above the length. Leading zeros are allowed.
structure Padded (A : BigNum) : Prop where
  limb_lt : ∀ i, A.limb i < 2 ^ 32
  zero_above : ∀ i, A.length ≤ i → A.limb i = 0

theorem Canonical.padded {A : BigNum} (h : A.Canonical) : A.Padded := ⟨h.limb_lt, h.zero_above⟩

-- The number written by the whole array.
def total (A : BigNum) : Int := Positional.value base (fun i => (A.limb i : Int)) len1

section Total

variable {A : BigNum}

theorem limb_of_len1_le {i : Nat} (hi : len1 ≤ i) : A.limb i = 0 := by
  unfold limb
  rw [Vector.getElem?_eq_none hi]
  rfl

theorem mag_eq_total (hzero : ∀ i, A.length ≤ i → A.limb i = 0) : A.mag = A.total := by
  by_cases hlen : A.length ≤ len1
  · exact (value_of_zero_above hlen fun i hi _ => by simp [hzero i hi]).symm
  · exact value_of_zero_above (by omega) fun i hi _ => by simp [limb_of_len1_le hi]

theorem total_update {i : Nat} (hi : i < len1) (x : Nat) :
    (A.update i x).total + A.limb i * base ^ i = A.total + x * base ^ i := by
  have hupdate : (A.update i x).total =
      Positional.value base (fun j => if j = i then (x : Int) else A.limb j) len1 := by
    refine value_congr fun j _ => ?_
    rw [limb_update hi]
    split_ifs <;> rfl
  rw [hupdate]
  exact value_replace hi (x : Int)

theorem total_nonneg : 0 ≤ A.total :=
  Positional.value_nonneg base_nonneg fun _ _ => Int.natCast_nonneg _

theorem total_lt {n : Nat} (hlt : ∀ i, A.limb i < 2 ^ 32) (hzero : ∀ i, n ≤ i → A.limb i = 0) :
    A.total + 1 ≤ base ^ n := by
  have hbound := value_add_one_le (b := base) (d := fun i => (A.limb i : Int)) (n := n) base_nonneg
    fun i _ => by have := hlt i; rw [base_eq]; omega
  have htotal : A.total = Positional.value base (fun i => (A.limb i : Int)) n := by
    by_cases hn : n ≤ len1
    · exact value_of_zero_above hn fun i hi _ => by simp [hzero i hi]
    · exact (value_of_zero_above (by omega) fun i hi _ => by simp [limb_of_len1_le hi]).symm
  rw [htotal]
  exact hbound

end Total

section Rounds

variable {this A : BigNum}

-- The largest value of a round: it fills 64 bits and no more.
theorem round_lt {x y p C : Nat} (hx : x < 2 ^ 32) (hy : y < 2 ^ 32) (hp : p < 2 ^ 32) (hC : C < 2 ^ 32) :
    p + (x * y + C) < 2 ^ 64 := by
  have hxy : x * y ≤ (2 ^ 32 - 1) * (2 ^ 32 - 1) := Nat.mul_le_mul (by omega) (by omega)
  omega

-- One round with words of 32 bits: the sum is split into a limb and a carry.
theorem mulRow_succ {i j n C : Nat} {PRO : BigNum} (hi : i < len1) (hj : j < len1) (hij : i + j < len1)
    (hx : A.limb i < 2 ^ 32) (hy : this.limb j < 2 ^ 32) (hp : PRO.limb (i + j) < 2 ^ 32) (hC : C < 2 ^ 32) :
    mulRow 32 this A i (n + 1) j C PRO =
      mulRow 32 this A i n (j + 1) ((PRO.limb (i + j) + (A.limb i * this.limb j + C)) / 2 ^ 32)
        (PRO.update (i + j) ((PRO.limb (i + j) + (A.limb i * this.limb j + C)) % 2 ^ 32)) := by
  have hlt := round_lt hx hy hp hC
  have hcarry : ∀ s : Nat, (if s > 0xffffffff then s / 2 ^ 32 else 0) = s / 2 ^ 32 := by
    intro s
    split_ifs <;> omega
  simp only [mulRow, get_of_lt hi, get_of_lt hj, get_of_lt hij, set_of_lt hij, Option.bind_eq_bind,
    Option.bind_some]
  rw [Nat.mod_eq_of_lt (show A.limb i * this.limb j + C < 2 ^ 64 by omega), Nat.mod_eq_of_lt hlt, hcarry,
    Nat.add_mod_mod]

-- What a row leaves: 32-bit limbs, a 32-bit carry, and in the array what was there, the carry it began
-- with and the row's product.
structure RowDone (this A : BigNum) (i n j C : Nat) (PRO : BigNum) (C' : Nat) (R : BigNum) : Prop where
  signal : R.signal = PRO.signal
  length : R.length = PRO.length
  carry_lt : C' < 2 ^ 32
  limb_lt : ∀ k, R.limb k < 2 ^ 32
  above : ∀ k, i + j + n ≤ k → R.limb k = PRO.limb k
  total : R.total + C' * base ^ (i + j + n) = PRO.total + C * base ^ (i + j) +
    A.limb i * Positional.value base (fun k => (this.limb (j + k) : Int)) n * base ^ (i + j)

variable (hthis : ∀ k, this.limb k < 2 ^ 32) (hA : ∀ k, A.limb k < 2 ^ 32)
include hthis hA

theorem mulRow_exact (i n j C : Nat) (PRO : BigNum) (hn : i + j + n ≤ len1) (hC : C < 2 ^ 32)
    (hPRO : ∀ k, PRO.limb k < 2 ^ 32) :
    ∃ C' R, mulRow 32 this A i n j C PRO = some (C', R) ∧ RowDone this A i n j C PRO C' R := by
  induction n generalizing j C PRO with
  | zero => exact ⟨C, PRO, rfl, rfl, rfl, hC, hPRO, fun _ _ => rfl, by simp⟩
  | succ n ih =>
      have hij : i + j < len1 := by omega
      have hlt := round_lt (hA i) (hthis j) (hPRO (i + j)) hC
      rw [mulRow_succ (by omega) (by omega) hij (hA i) (hthis j) (hPRO _) hC]
      generalize hs : PRO.limb (i + j) + (A.limb i * this.limb j + C) = s at hlt ⊢
      obtain ⟨C', R, hR, hdone⟩ := ih (j + 1) (s / 2 ^ 32) (PRO.update (i + j) (s % 2 ^ 32)) (by omega)
        (by omega) fun k => by
          rw [limb_update hij]
          split_ifs
          · exact Nat.mod_lt _ (by norm_num)
          · exact hPRO k
      refine ⟨C', R, hR, hdone.signal, hdone.length, hdone.carry_lt, hdone.limb_lt, fun k hk => ?_, ?_⟩
      · rw [hdone.above k (by omega), limb_update hij, if_neg (by omega)]
      · -- the limb and the carry of this round make up its sum
        have hsplit : ((s % 2 ^ 32 : Nat) : Int) + base * (s / 2 ^ 32 : Nat) =
            PRO.limb (i + j) + (A.limb i * this.limb j + C) := by
          rw [base_eq]
          omega
        have htotal := hdone.total
        have hupdate := total_update (A := PRO) hij (s % 2 ^ 32)
        rw [show i + (j + 1) + n = i + j + (n + 1) by omega, show i + (j + 1) = i + j + 1 by omega,
          pow_succ base (i + j)] at htotal
        rw [value_succ_low]
        simp only [Nat.add_zero, Nat.add_assoc, Nat.add_comm 1] at htotal ⊢
        linear_combination htotal + hupdate + base ^ (i + j) * hsplit

theorem rowLongs_lt (i n j C : Nat) (PRO : BigNum) (hn : i + j + n ≤ len1) (hC : C < 2 ^ 32)
    (hPRO : ∀ k, PRO.limb k < 2 ^ 32) : ∀ x ∈ rowLongs this A 32 i n j C PRO, x < 2 ^ 64 := by
  induction n generalizing j C PRO with
  | zero => exact fun x hx => absurd hx List.not_mem_nil
  | succ n ih =>
      have hlt := round_lt (hA i) (hthis j) (hPRO (i + j)) hC
      obtain ⟨C', R, hR, hdone⟩ := mulRow_exact hthis hA i 1 j C PRO (by omega) hC hPRO
      intro x hx
      rw [rowLongs, hR, List.mem_append] at hx
      rcases hx with hx | hx
      · rw [roundLongs, Nat.mod_eq_of_lt (show A.limb i * this.limb j + C < 2 ^ 64 by omega)] at hx
        rcases List.mem_pair.mp hx with rfl | rfl
        · omega
        · exact hlt
      · exact ih (j + 1) C' R (by omega) hdone.carry_lt hdone.limb_lt x hx

end Rounds

section Rows

variable {this A : BigNum}

theorem Padded.mag_add_one_le (h : this.Padded) : this.mag + 1 ≤ base ^ this.length :=
  value_add_one_le base_nonneg fun i _ => by have := h.limb_lt i; rw [base_eq]; omega

theorem mag_nonneg (A : BigNum) : 0 ≤ A.mag :=
  Positional.value_nonneg base_nonneg fun _ _ => Int.natCast_nonneg _

-- A limb below `B` times a number below `M` leaves no carry above the limb that follows it.
theorem no_carry_of_row {B I M a m t r : Int} {c : Nat} (hI : 0 < I) (ha : 0 ≤ a) (haB : a + 1 ≤ B)
    (hm : 0 ≤ m) (hmM : m + 1 ≤ M) (ht : t + 1 ≤ I * M) (hr : 0 ≤ r)
    (h : r + c * (I * M * B) = t + a * m * I) : c = 0 := by
  have hprod : a * m * I ≤ (B - 1) * M * I := by
    have hle : a * m ≤ (B - 1) * M := mul_le_mul (by omega) (by omega) hm (by omega)
    exact mul_le_mul_of_nonneg_right hle hI.le
  have hpos : 0 ≤ I * M * B := mul_nonneg (mul_nonneg hI.le (by omega)) (by omega)
  by_contra hne
  have hone : (1 : Int) ≤ c := by omega
  have hbig := mul_le_mul_of_nonneg_right hone hpos
  linarith

-- The limb above the row's product is still free, so the last round takes the carry and none is left.
theorem RowDone.carry_eq_zero (h1 : this.Padded) {i C' : Nat} {PRO R : BigNum} (hA : A.limb i < 2 ^ 32)
    (hPRO : PRO.total + 1 ≤ base ^ (i + this.length))
    (h : RowDone this A i (this.length + 1) 0 0 PRO C' R) :
    C' = 0 ∧ R.total = PRO.total + A.limb i * this.mag * base ^ i := by
  have hrow : Positional.value base (fun k => (this.limb (0 + k) : Int)) (this.length + 1) = this.mag := by
    simp only [Nat.zero_add]
    exact value_of_zero_above (Nat.le_succ _) fun k hk _ => by simp [h1.zero_above k hk]
  have htotal := h.total
  rw [hrow, Nat.cast_zero, zero_mul, Nat.add_zero, add_zero PRO.total, ← Nat.add_assoc, pow_succ] at htotal
  have hzero : C' = 0 := by
    have hpow : 0 < base ^ i := pow_pos (by norm_num [base]) i
    have hlimb : (A.limb i : Int) + 1 ≤ base := by rw [base_eq]; omega
    rw [pow_add] at htotal hPRO
    exact no_carry_of_row hpow (Int.natCast_nonneg _) hlimb (mag_nonneg this) h1.mag_add_one_le hPRO
      total_nonneg htotal
  refine ⟨hzero, ?_⟩
  rw [hzero, Nat.cast_zero, zero_mul, add_zero] at htotal
  exact htotal

-- The array before row `i`.
structure RowsDone (this A : BigNum) (i : Nat) (PRO : BigNum) : Prop where
  limb_lt : ∀ k, PRO.limb k < 2 ^ 32
  zero_above : ∀ k, i + this.length ≤ k → PRO.limb k = 0
  total : PRO.total = this.mag * Positional.value base (fun k => (A.limb k : Int)) i

theorem RowsDone.start (this A : BigNum) (s : Fin 2) (n : Nat) :
    RowsDone this A 0 { zero with signal := s, length := n } where
  limb_lt k := by rw [limb_zeros]; norm_num
  zero_above k _ := limb_zeros s n k
  total := by
    rw [value_zero, mul_zero]
    exact value_eq_zero fun i _ => by rw [limb_zeros]; rfl

-- A row begins without a carry and ends without one.
theorem RowsDone.row (h1 : this.Padded) (h2 : A.Padded) {i : Nat} {PRO : BigNum} (h : RowsDone this A i PRO)
    (hn : i + this.length < len1) :
    ∃ R, mulRow 32 this A i (this.length + 1) 0 0 PRO = some (0, R) ∧ RowsDone this A (i + 1) R ∧
      R.signal = PRO.signal ∧ R.length = PRO.length := by
  obtain ⟨C', R, hR, hdone⟩ := mulRow_exact h1.limb_lt h2.limb_lt i (this.length + 1) 0 0 PRO (by omega)
    (by norm_num) h.limb_lt
  obtain ⟨rfl, htotal⟩ := hdone.carry_eq_zero h1 (h2.limb_lt i) (total_lt h.limb_lt h.zero_above)
  refine ⟨R, hR, ⟨hdone.limb_lt, fun k hk => ?_, ?_⟩, hdone.signal, hdone.length⟩
  · rw [hdone.above k (by omega)]
    exact h.zero_above k (by omega)
  · rw [htotal, h.total, value_succ]
    ring

theorem mulRows_exact (h1 : this.Padded) (h2 : A.Padded) (n i : Nat) (PRO : BigNum) (h : RowsDone this A i PRO)
    (hn : i + n + this.length ≤ len1) :
    (∃ R, mulRows 32 this A n i 0 PRO = some R ∧ RowsDone this A (i + n) R ∧ R.signal = PRO.signal ∧
      R.length = PRO.length) ∧ ∀ x ∈ rowsLongs this A 32 n i 0 PRO, x < 2 ^ 64 := by
  induction n generalizing i PRO with
  | zero => exact ⟨⟨PRO, rfl, h, rfl, rfl⟩, fun x hx => absurd hx List.not_mem_nil⟩
  | succ n ih =>
      obtain ⟨R, hR, hdone, hsig, hlen⟩ := h.row h1 h2 (by omega)
      obtain ⟨⟨S, hS, hdone', hsig', hlen'⟩, hlongs⟩ := ih (i + 1) R hdone (by omega)
      rw [show i + 1 + n = i + (n + 1) by omega] at hdone'
      constructor
      · refine ⟨S, ?_, hdone', hsig'.trans hsig, hlen'.trans hlen⟩
        rw [mulRows, hR]
        exact hS
      · intro x hx
        rw [rowsLongs, hR, List.mem_append] at hx
        rcases hx with hx | hx
        · exact rowLongs_lt h1.limb_lt h2.limb_lt i (this.length + 1) 0 0 PRO (by omega) (by norm_num)
            h.limb_lt x hx
        · exact hlongs x hx

end Rows

section Product

variable {this A : BigNum}

theorem trim_padded {B : BigNum} (h : B.Padded) (hlen : B.length ≤ len1) :
    ∃ R, trim B.length B = some R ∧ R.Padded ∧ R.signal = B.signal ∧ R.mag = B.mag ∧
      (R.length ≤ 1 ∨ R.limb (R.length - 1) ≠ 0) ∧ R.length ≤ B.length ∧ (1 ≤ B.length → 1 ≤ R.length) := by
  by_cases hpos : 1 ≤ B.length
  · obtain ⟨m, hm, hm1, hle, hz, htop⟩ := trim_eq (B := B) B.length hpos hlen
    have hzero : ∀ i, m ≤ i → B.limb i = 0 := by
      intro i hi
      by_cases hiB : i < B.length
      · exact hz i hi hiB
      · exact h.zero_above i (by omega)
    refine ⟨_, hm, ⟨h.limb_lt, hzero⟩, rfl, ?_, htop.imp_left (fun h => h.le), hle, fun _ => hm1⟩
    exact (value_of_zero_above hle fun i hi _ => by simp [hzero i hi]).symm
  · have hB : B.length = 0 := by omega
    refine ⟨B, ?_, h, rfl, rfl, Or.inl (by omega), Nat.le_refl _, fun h => absurd h hpos⟩
    rw [hB, trim, ← hB]

theorem mul_run (h1 : this.Padded) (h2 : A.Padded) (hlen : this.length + A.length ≤ 128) :
    ∃ R, mul 32 this A = some R ∧ R.Padded ∧ R.signal = (if this.signal = A.signal then 0 else 1) ∧
      R.mag = this.mag * A.mag ∧ (R.length ≤ 1 ∨ R.limb (R.length - 1) ≠ 0) ∧
      R.length ≤ this.length + A.length ∧ (1 ≤ this.length + A.length → 1 ≤ R.length) := by
  obtain ⟨⟨S, hS, hdone, hsig, hlenS⟩, -⟩ := mulRows_exact h1 h2 A.length 0 _
    (.start this A (if this.signal = A.signal then 0 else 1) (this.length + A.length)) (by unfold len1; omega)
  have hzero : ∀ k, S.length ≤ k → S.limb k = 0 := by
    intro k hk
    rw [hlenS] at hk
    exact hdone.zero_above k (by simp only at hk; omega)
  obtain ⟨R, hR, hpad, hsig', hmag, htop, hle, hpos⟩ := trim_padded (B := S) ⟨hdone.limb_lt, hzero⟩
    (by rw [hlenS]; exact hlen)
  rw [hlenS] at hle hpos
  refine ⟨R, ?_, hpad, hsig'.trans hsig, ?_, htop, hle, hpos⟩
  · rw [mul, hS, Option.bind_eq_bind, Option.bind_some]
    exact hR
  · rw [hmag, mag_eq_total hzero, hdone.total, Nat.zero_add]
    rfl

theorem value_of_signals {P : BigNum} (hsig : P.signal = if this.signal = A.signal then 0 else 1)
    (hmag : P.mag = this.mag * A.mag) : P.value = this.value * A.value := by
  unfold value
  rw [hsig, hmag]
  rcases fin_two_cases this.signal with h1 | h1 <;> rcases fin_two_cases A.signal with h2 | h2 <;>
    simp [h1, h2]

theorem mul_canonical (h1 : this.Canonical) (h2 : A.Canonical) (hlen : this.length + A.length ≤ 128) :
    ∃ R, mul 32 this A = some R ∧ R.Canonical ∧ R.signal = (if this.signal = A.signal then 0 else 1) ∧
      R.mag = this.mag * A.mag := by
  obtain ⟨R, hR, hpad, hsig, hmag, htop, hle, hpos⟩ := mul_run h1.padded h2.padded hlen
  have hR1 := hpos (by have := h1.length_pos; omega)
  refine ⟨R, hR, ⟨hR1, hle.trans hlen, hpad.limb_lt, hpad.zero_above, ?_⟩, hsig, hmag⟩
  exact htop.imp_left (by omega)

theorem mulLongs_lt (h1 : this.Padded) (h2 : A.Padded) (hlen : this.length + A.length ≤ 128) :
    ∀ x ∈ mulLongs this A 32, x < 2 ^ 64 :=
  (mulRows_exact h1 h2 A.length 0 _ (.start this A _ _) (by unfold len1; omega)).2

-- The product of two numbers that fit together into the array: no access leaves the array, nothing wraps
-- in 64 bits, and the result is exact, with leading zeros removed.
theorem mul_exact (h1 : this.Padded) (h2 : A.Padded) (hlen : this.length + A.length ≤ 128) :
    (∃ R, mul 32 this A = some R ∧ R.Padded ∧ (R.length ≤ 1 ∨ R.limb (R.length - 1) ≠ 0) ∧
      R.value = this.value * A.value) ∧ ∀ x ∈ mulLongs this A 32, x ≤ 2 ^ 64 - 1 := by
  obtain ⟨R, hR, hpad, hsig, hmag, htop, -⟩ := mul_run h1 h2 hlen
  refine ⟨⟨R, hR, hpad, htop, value_of_signals hsig hmag⟩, fun x hx => ?_⟩
  have := mulLongs_lt h1 h2 hlen x hx
  omega

-- (2^64 - 1) * -(2^64 - 1): every carry and every limb of the first row is as large as it can be.
theorem mul_exact_all_ones :
    ∃ R, mul 32 (ofLimbs 0 [0xffffffff, 0xffffffff]) (ofLimbs 1 [0xffffffff, 0xffffffff]) = some R ∧
      R.Padded ∧ R.value = -(2 ^ 64 - 1) ^ 2 := by
  have hones : ∀ s, (ofLimbs s [0xffffffff, 0xffffffff]).Canonical := fun s =>
    ofLimbs_canonical s (by decide) (by decide) (by decide) (by decide)
  obtain ⟨⟨R, hR, hpad, -, hvalue⟩, -⟩ := mul_exact (hones 0).padded (hones 1).padded (by decide)
  refine ⟨R, hR, hpad, hvalue.trans ?_⟩
  decide

end Product

end RichardTest.BigNumCpp.BigNum
