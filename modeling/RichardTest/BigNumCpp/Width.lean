import RichardTest.BigNumCpp.Signed

namespace RichardTest.BigNumCpp.BigNum

open Positional Finset

section Product

variable {this A : BigNum}

-- What row `i` adds to limb `k`.
def rowTerm (this A : BigNum) (i k : Nat) : Nat := if i ≤ k then A.limb i * this.limb (k - i) else 0

-- What the first `n` rows add to limb `k`.
def rowsSum (this A : BigNum) (n k : Nat) : Nat := ∑ i ∈ range n, rowTerm this A i k

-- The sum of the limb products of weight `k`.
def columnSum (this A : BigNum) (k : Nat) : Nat := rowsSum this A A.length k

theorem rowsSum_succ (n k : Nat) :
    rowsSum this A (n + 1) k = rowsSum this A n k + rowTerm this A n k :=
  sum_range_succ _ n

theorem rowsSum_mono (this A : BigNum) {m n : Nat} (h : m ≤ n) (k : Nat) :
    rowsSum this A m k ≤ rowsSum this A n k :=
  sum_le_sum_of_subset (range_subset_range.mpr h)

-- Two settings in which nothing is reduced: sums stay below `M`, carries at most `c`.
structure Headroom (w M c : Nat) : Prop where
  word : M ≤ 2 ^ w
  long : M ≤ 2 ^ 64
  carry : ∀ s < M, s / 2 ^ 32 ≤ c

-- With room for a product and a carry in every limb, a row adds the products and at most a carry.
theorem mulRow_bounds (this A : BigNum) {w M c : Nat} (hM : Headroom w M c) (i n j C : Nat) (PRO : BigNum)
    (hn : i + j + n ≤ len1) (hC : C ≤ c)
    (hroom : ∀ k, i + j ≤ k → k < i + j + n → PRO.limb k + rowTerm this A i k + c < M) :
    ∃ C' R, mulRow w this A i n j C PRO = some (C', R) ∧ C' ≤ c ∧ R.signal = PRO.signal ∧
      R.length = PRO.length ∧
      (∀ k, i + j ≤ k → k < i + j + n → PRO.limb k + rowTerm this A i k ≤ R.limb k ∧
        R.limb k ≤ PRO.limb k + rowTerm this A i k + c) ∧
      ∀ k, k < i + j ∨ i + j + n ≤ k → R.limb k = PRO.limb k := by
  induction n generalizing j C PRO with
  | zero =>
      exact ⟨C, PRO, rfl, hC, rfl, rfl, fun k h h' => by omega, fun k _ => rfl⟩
  | succ n ih =>
      have hterm : rowTerm this A i (i + j) = A.limb i * this.limb j := by
        rw [rowTerm, if_pos (by omega), Nat.add_sub_cancel_left]
      have hfit := hroom (i + j) (by omega) (by omega)
      rw [hterm] at hfit
      have hlong := hM.long
      have hword := hM.word
      have hij : i + j < len1 := by omega
      simp only [mulRow, get_of_lt (show i < len1 by omega), get_of_lt (show j < len1 by omega),
        get_of_lt hij, set_of_lt hij, Option.bind_eq_bind, Option.bind_some]
      generalize hp : A.limb i * this.limb j = p at *
      rw [Nat.mod_eq_of_lt (show p + C < 2 ^ 64 by omega),
        Nat.mod_eq_of_lt (show PRO.limb (i + j) + (p + C) < 2 ^ 64 by omega),
        Nat.mod_eq_of_lt (show p + C < 2 ^ w by omega),
        Nat.mod_eq_of_lt (show PRO.limb (i + j) + (p + C) < 2 ^ w by omega)]
      have hcarry := hM.carry (PRO.limb (i + j) + (p + C)) (by omega)
      generalize hC' : (if PRO.limb (i + j) + (p + C) > 0xffffffff then
        (PRO.limb (i + j) + (p + C)) / 2 ^ 32 else 0) = C₁
      have hle : C₁ ≤ c := by
        rw [← hC']
        split_ifs <;> omega
      obtain ⟨C', R, hR, hc, hsig, hlen, hin, hout⟩ := ih (j + 1) C₁
        (PRO.update (i + j) (PRO.limb (i + j) + (p + C))) (by omega) hle fun k h h' => by
          rw [limb_update hij, if_neg (by omega)]
          exact hroom k (by omega) (by omega)
      refine ⟨C', R, hR, hc, hsig, hlen, fun k h h' => ?_, fun k hk => ?_⟩
      · by_cases hk : k = i + j
        · subst hk
          rw [hout _ (by omega), limb_update hij, if_pos rfl, hterm]
          omega
        · have := hin k (by omega) (by omega)
          rwa [limb_update hij, if_neg hk] at this
      · rw [hout k (by omega), limb_update hij, if_neg (by omega)]

theorem mulRows_bounds {w M c : Nat} (hM : Headroom w M c) (hthis : ∀ j, this.length ≤ j → this.limb j = 0)
    (n i C : Nat) (PRO : BigNum) (hn : i + n + this.length ≤ len1) (hC : C ≤ c)
    (hroom : ∀ k, rowsSum this A (i + n) k + (i + n) * c < M)
    (hlow : ∀ k, rowsSum this A i k ≤ PRO.limb k) (hhigh : ∀ k, PRO.limb k ≤ rowsSum this A i k + i * c) :
    ∃ R, mulRows w this A n i C PRO = some R ∧ R.signal = PRO.signal ∧ R.length = PRO.length ∧
      ∀ k, rowsSum this A (i + n) k ≤ R.limb k ∧
        R.limb k ≤ rowsSum this A (i + n) k + (i + n) * c := by
  induction n generalizing i C PRO with
  | zero => exact ⟨PRO, rfl, rfl, rfl, fun k => ⟨hlow k, hhigh k⟩⟩
  | succ n ih =>
      have hnext : ∀ k, rowsSum this A (i + 1) k + (i + 1) * c < M := fun k => by
        have h1 := hroom k
        have h2 := rowsSum_mono this A (show i + 1 ≤ i + (n + 1) by omega) k
        have h3 := Nat.mul_le_mul_right c (show i + 1 ≤ i + (n + 1) by omega)
        omega
      obtain ⟨C', R, hR, hc, hsig, hlen, hin, hout⟩ := mulRow_bounds this A hM i
        (this.length + 1) 0 C PRO (by omega) hC fun k _ _ => by
          have h1 := hnext k
          have h2 := hhigh k
          rw [rowsSum_succ, Nat.add_mul] at h1
          omega
      simp only [mulRows, hR, Option.bind_eq_bind, Option.bind_some]
      -- outside the cells a row touches it has nothing to add
      have hstep : ∀ k, rowsSum this A (i + 1) k ≤ R.limb k ∧
          R.limb k ≤ rowsSum this A (i + 1) k + (i + 1) * c := fun k => by
        have h1 := hlow k
        have h2 := hhigh k
        rw [rowsSum_succ, Nat.add_mul]
        by_cases hk : i ≤ k ∧ k < i + (this.length + 1)
        · have := hin k (by omega) (by omega)
          omega
        · have hzero : rowTerm this A i k = 0 := by
            rw [rowTerm]
            split_ifs with hik
            · rw [hthis (k - i) (by omega), Nat.mul_zero]
            · rfl
          rw [hout k (by omega), hzero]
          omega
      obtain ⟨R', hR', hsig', hlen', hlimb⟩ := ih (i + 1) C' R (by omega) hc
        (fun k => by rw [show i + 1 + n = i + (n + 1) by omega]; exact hroom k)
        (fun k => (hstep k).1) (fun k => (hstep k).2)
      rw [show i + 1 + n = i + (n + 1) by omega] at hlimb
      exact ⟨R', hR', hsig'.trans hsig, hlen'.trans hlen, hlimb⟩

-- operator* in such a setting.
theorem mul_bounds {w M c : Nat} (hM : Headroom w M c) (h1 : this.Canonical)
    (hlen : this.length + A.length ≤ 127) (hroom : ∀ k, columnSum this A k + A.length * c < M) :
    ∃ S R : BigNum, mul w this A = some R ∧ R.signal = (if this.signal = A.signal then 0 else 1) ∧
      R.mag = S.mag ∧ S.length = this.length + A.length ∧ R.limb = S.limb ∧
      ∀ k, columnSum this A k ≤ S.limb k ∧ S.limb k ≤ columnSum this A k + A.length * c := by
  have hp1 := h1.length_pos
  unfold columnSum at *
  obtain ⟨S, hS, hsig, hlenS, hlimb⟩ := mulRows_bounds (A := A) hM h1.zero_above A.length 0 0
    { zero with signal := if this.signal = A.signal then 0 else 1, length := this.length + A.length }
    (by unfold len1; omega) (Nat.zero_le c) (by simpa using hroom)
    (fun k => by simp [rowsSum]) (fun k => by rw [limb_zeros]; omega)
  obtain ⟨R, hR, hsig', hmag, hRlimb⟩ := trim_mag (B := S) (by rw [hlenS]; show 1 ≤ _; simp only; omega)
    (by rw [hlenS]; unfold len1; simp only; omega)
  refine ⟨S, R, ?_, hsig'.trans hsig, hmag, hlenS, hRlimb, by simpa using hlimb⟩
  rw [mul, hS, Option.bind_eq_bind, Option.bind_some]
  exact hR

end Product

section Widths

variable {this A : BigNum}

-- The results with 32-bit and with 64-bit words are the same integer, and the latter has 32-bit limbs.
def Agree (r32 r64 : Option BigNum) : Prop :=
  ∃ R32 R64, r32 = some R32 ∧ r64 = some R64 ∧ R64.value = R32.value ∧ ∀ i, R64.limb i < 2 ^ 32

def AddAgrees (this A : BigNum) : Prop := Agree (add 32 this A) (add 64 this A)

def MulAgrees (this A : BigNum) : Prop := Agree (mul 32 this A) (mul 64 this A)

theorem carryInto_eq_zero {a b : Nat → Nat} (h : ∀ i, a i + b i < 2 ^ 32) (i : Nat) :
    carryInto a b i = 0 := by
  induction i with
  | zero => rfl
  | succ i ih =>
      have := h i
      rw [carryInto, ih, if_pos (by omega)]

-- A sum of limbs that needs a carry stays in its limb when the word has 64 bits.
theorem add_agrees_iff (h1 : this.Canonical) (h2 : A.Canonical) (hsig : this.signal = A.signal)
    (hlen : this.length + A.length ≤ 127) :
    AddAgrees this A ↔ ∀ i, this.limb i + A.limb i < 2 ^ 32 := by
  have hp1 := h1.length_pos
  have hp2 := h2.length_pos
  obtain ⟨S32, R32, hR32, -, -, hsig32, hmag32, -, -, -, hl32, hl32', hlimb32⟩ :=
    addSame_run 32 h1 h2 (by omega) (by omega)
  obtain ⟨S64, R64, hR64, -, -, hsig64, hmag64, hRlimb, -, -, hl64, hl64', hlimb64⟩ :=
    addSame_run 64 h1 h2 (by omega) (by omega)
  rw [AddAgrees, add_eq_addSame 32 hsig, add_eq_addSame 64 hsig, hR32, hR64]
  constructor
  · rintro ⟨_, _, -, h, -, hlt⟩ i
    cases h
    by_cases hi : i < S64.length
    · have hsum := hlt i
      have hx := h1.limb_lt i
      have hy := h2.limb_lt i
      have hc := carryInto_le (a := A.limb) (b := this.limb) i
      rw [hRlimb, hlimb64 i, if_pos hi, Nat.mod_eq_of_lt (by omega)] at hsum
      omega
    · rw [h1.zero_above i (by omega), h2.zero_above i (by omega)]
      norm_num
  · intro hsmall
    have hc : ∀ i, carryInto A.limb this.limb i = 0 :=
      carryInto_eq_zero fun i => by rw [Nat.add_comm]; exact hsmall i
    -- without carries the limb sums are the limbs, whatever the width
    have hplain : ∀ {w : Nat} {S : BigNum}, 32 ≤ w → this.length < S.length → A.length < S.length →
        (∀ i, S.limb i = if i < S.length
          then (A.limb i + this.limb i + carryInto A.limb this.limb i) % 2 ^ w else 0) →
        ∀ i, S.limb i = A.limb i + this.limb i := by
      intro w S hw hl hl' hlimb i
      have hle : 2 ^ 32 ≤ 2 ^ w := Nat.pow_le_pow_right (by norm_num) hw
      rw [hlimb i, hc i, Nat.add_zero]
      split_ifs with hi
      · exact Nat.mod_eq_of_lt (by have := hsmall i; omega)
      · rw [h1.zero_above i (by omega), h2.zero_above i (by omega)]
    have hp32 := hplain (by norm_num) hl32 hl32' hlimb32
    have hp64 := hplain (by norm_num) hl64 hl64' hlimb64
    refine ⟨R32, R64, rfl, rfl, ?_, fun i => ?_⟩
    · unfold value
      rw [hsig32, hsig64, hmag32, hmag64]
      have hmag : S64.mag = S32.mag := by
        have hzero : ∀ {S : BigNum}, (∀ i, S.limb i = A.limb i + this.limb i) →
            ∀ {n}, this.length ≤ n → A.length ≤ n → n ≤ S.length →
            S.mag = Positional.value base (fun i => (S.limb i : Int)) n := fun hS _ h h' hle =>
          value_of_zero_above hle fun i hi _ => by
            rw [hS i, h1.zero_above i (by omega), h2.zero_above i (by omega)]; rfl
        rw [hzero hp64 (n := max this.length A.length) (by omega) (by omega) (by omega),
          hzero hp32 (n := max this.length A.length) (by omega) (by omega) (by omega)]
        exact value_congr fun i _ => by rw [hp64 i, hp32 i]
      rw [hmag]
    · rw [hRlimb, hp64 i]
      have := hsmall i
      omega

theorem headroom_exact {w : Nat} (hw : 32 ≤ w) : Headroom w (2 ^ 32) 0 where
  word := Nat.pow_le_pow_right (by norm_num) hw
  long := by norm_num
  carry s hs := by
    rw [Nat.div_eq_of_lt hs]

theorem headroom_long : Headroom 64 (2 ^ 64) (2 ^ 32 - 1) where
  word := Nat.le_refl _
  long := Nat.le_refl _
  carry s hs := by omega

theorem mul_agrees_of_small (h1 : this.Canonical) (hlen : this.length + A.length ≤ 127)
    (hsmall : ∀ k, columnSum this A k < 2 ^ 32) : MulAgrees this A := by
  obtain ⟨S32, R32, hR32, hsig32, hmag32, hl32, -, hb32⟩ :=
    mul_bounds (headroom_exact (Nat.le_refl 32)) h1 hlen (by simpa using hsmall)
  obtain ⟨S64, R64, hR64, hsig64, hmag64, hl64, hlimb64, hb64⟩ :=
    mul_bounds (headroom_exact (show 32 ≤ 64 by norm_num)) h1 hlen (by simpa using hsmall)
  have hlimb : ∀ k, S64.limb k = S32.limb k := fun k => by
    have h := hb32 k
    have h' := hb64 k
    omega
  refine ⟨R32, R64, hR32, hR64, ?_, fun i => ?_⟩
  · unfold value
    rw [hsig32, hsig64, hmag32, hmag64, mag, mag, hl32, hl64]
    simp only [hlimb]
  · have h := hb64 i
    have h' := hsmall i
    rw [hlimb64]
    omega

-- Without a wrap of the 64-bit sums a large column stays large.
theorem small_of_mul_agrees (h1 : this.Canonical) (hlen : this.length + A.length ≤ 127)
    (hroom : ∀ k, columnSum this A k + A.length * (2 ^ 32 - 1) < 2 ^ 64)
    (hagree : MulAgrees this A) (k : Nat) : columnSum this A k < 2 ^ 32 := by
  obtain ⟨S, R, hR, -, -, -, hlimb, hb⟩ := mul_bounds headroom_long h1 hlen hroom
  obtain ⟨_, R', -, hR', -, hlt⟩ := hagree
  rw [hR] at hR'
  cases hR'
  have h := hb k
  have h' := hlt k
  rw [hlimb] at h'
  omega

-- The width of the word does not show exactly as long as no limb sum needs a carry; for the product,
-- as long as no sum of limb products of one weight does, and only then unless such a sum wraps.
theorem width_agrees (this A : BigNum) (h1 : this.Canonical) (h2 : A.Canonical)
    (hs1 : this.signal = 0) (hs2 : A.signal = 0) (hlen : this.length + A.length ≤ 127) :
    (AddAgrees this A ↔ ∀ i, this.limb i + A.limb i < 2 ^ 32) ∧
      ((∀ k, columnSum this A k < 2 ^ 32) → MulAgrees this A) ∧
      ((∀ k, columnSum this A k + A.length * (2 ^ 32 - 1) < 2 ^ 64) → MulAgrees this A →
        ∀ k, columnSum this A k < 2 ^ 32) :=
  ⟨add_agrees_iff h1 h2 (hs1.trans hs2.symm) hlen, mul_agrees_of_small h1 hlen,
    small_of_mul_agrees h1 hlen⟩

-- 2^32 * 5 + 3 and 2^64 + 7.
theorem width_agrees_severalLimbs :
    AddAgrees (ofLimbs 0 [3, 5]) (ofLimbs 0 [7, 0, 1]) ∧ MulAgrees (ofLimbs 0 [3, 5]) (ofLimbs 0 [7, 0, 1]) := by
  obtain ⟨hadd, hmul, -⟩ := width_agrees (ofLimbs 0 [3, 5]) (ofLimbs 0 [7, 0, 1])
    (ofLimbs_canonical 0 (by decide) (by decide) (by decide) (by decide))
    (ofLimbs_canonical 0 (by decide) (by decide) (by decide) (by decide)) rfl rfl (by decide)
  have hlimbs (i : Nat) : [3, 5].getD i 0 ≤ 5 ∧ [7, 0, 1].getD i 0 ≤ 7 := by
    rcases i with _ | _ | _ | i
    · decide
    · decide
    · decide
    · simp
  refine ⟨hadd.mpr fun i => ?_, hmul fun k => ?_⟩
  · rw [limb_ofLimbs 0 (by decide), limb_ofLimbs 0 (by decide)]
    have := hlimbs i
    omega
  · have hterm (i : Nat) : rowTerm (ofLimbs 0 [3, 5]) (ofLimbs 0 [7, 0, 1]) i k ≤ 35 := by
      rw [rowTerm]
      split_ifs
      · rw [limb_ofLimbs 0 (by decide), limb_ofLimbs 0 (by decide)]
        exact (Nat.mul_le_mul (hlimbs _).2 (hlimbs _).1).trans_eq rfl
      · exact Nat.zero_le _
    calc columnSum (ofLimbs 0 [3, 5]) (ofLimbs 0 [7, 0, 1]) k
        = ∑ i ∈ range 3, rowTerm (ofLimbs 0 [3, 5]) (ofLimbs 0 [7, 0, 1]) i k := rfl
      _ ≤ ∑ _i ∈ range 3, 35 := sum_le_sum fun i _ => hterm i
      _ < 2 ^ 32 := by decide

-- 0xffffffff + 1 keeps the limb 2^32 when the word has 64 bits.
theorem add_width_differs :
    ¬∀ this A : BigNum, this.Canonical → A.Canonical → this.signal = 0 → A.signal = 0 →
      this.length + A.length ≤ 127 → AddAgrees this A ∧ MulAgrees this A := by
  intro hall
  obtain ⟨_, R, -, hR, -, hlt⟩ := (hall (ofLimbs 0 [0xffffffff]) (ofLimbs 0 [1])
    (ofLimbs_canonical 0 (by decide) (by decide) (by decide) (by decide))
    (ofLimbs_canonical 0 (by decide) (by decide) (by decide) (by decide)) rfl rfl (by decide)).1
  have hlimb : (add 64 (ofLimbs 0 [0xffffffff]) (ofLimbs 0 [1])).map (fun R => R.limb 0) =
      some (2 ^ 32) := by
    decide
  rw [hR, Option.map_some, Option.some.injEq] at hlimb
  exact absurd (hlt 0) (by rw [hlimb]; exact Nat.lt_irrefl _)

end Widths

end RichardTest.BigNumCpp.BigNum
