import RichardTest.BigNumC.Accumulate
import Mathlib.Tactic.IntervalCases

namespace RichardTest.BigNumC

open Outcome Positional

-- The sizes that doubling from 2 gives.
def IsTwoPow (n : Nat) : Prop := ∃ k, 1 ≤ k ∧ n = 2 ^ k

-- The capacity policy of the constructors.
def TwoPowCapacity (b : BigNum) : Prop := IsTwoPow b.arrLen

theorem IsTwoPow.two_le {n : Nat} (h : IsTwoPow n) : 2 ≤ n := by
  obtain ⟨k, hk, rfl⟩ := h
  exact Nat.le_self_pow (by omega) 2

theorem IsTwoPow.double {n : Nat} (h : IsTwoPow n) : IsTwoPow (n * 2) := by
  obtain ⟨k, hk, rfl⟩ := h
  exact ⟨k + 1, by omega, (Nat.pow_succ ..).symm⟩

theorem IsTwoPow.doubled {c : Nat} (h : IsTwoPow c) (n fuel : Nat) : IsTwoPow (doubled n fuel c) := by
  induction fuel generalizing c with
  | zero => exact h
  | succ fuel ih =>
      simp only [BigNumC.doubled]
      split_ifs
      · exact ih h.double
      · exact h

theorem IsTwoPow.capAfter {c : Nat} (h : IsTwoPow c) (n : Nat) : IsTwoPow (capAfter n c) :=
  h.doubled n n

theorem IsTwoPow.max {m n : Nat} (h : IsTwoPow m) (h' : IsTwoPow n) : IsTwoPow (max m n) := by
  rcases Nat.le_total m n with hle | hle
  · rwa [Nat.max_eq_right hle]
  · rwa [Nat.max_eq_left hle]

theorem TwoPowCapacity.room {b : BigNum} (h : TwoPowCapacity b) : IsTwoPow b.room := by
  rw [BigNum.room]
  split_ifs
  · exact h.double
  · exact h

-- Both constructors start from get_zero and grow it to the number of digits.
theorem growZero_yields (n : Nat) {z : BigNum} (hl : z.arrLen = 2) :
    Yields (growTo n z) fun b => n ≤ b.arrLen ∧ TwoPowCapacity b := by
  apply (growTo_yields n z (by omega)).mono
  intro b hspec
  obtain ⟨_, hlen, hn⟩ := hspec
  refine ⟨hn, ?_⟩
  have htwo : IsTwoPow z.arrLen := ⟨1, Nat.le_refl 1, hl⟩
  rw [TwoPowCapacity, hlen]
  exact htwo.capAfter n

section Str

-- The digit a character stands for.
def digitOf (c : Char) : Int := (c.toNat : Int) - 48

theorem digitOf_range {c : Char} (h : c.isDigit) : 0 ≤ digitOf c ∧ digitOf c ≤ 9 := by
  simp only [Char.isDigit, Bool.and_eq_true, decide_eq_true_eq] at h
  have h1 : (48 : Nat) ≤ c.toNat := h.1
  have h2 : c.toNat ≤ 57 := h.2
  rw [digitOf]
  omega

theorem strDigitLoop_yields (s : List Char) (n i : Nat) (b : BigNum) (hn : i + n = s.length)
    (hl : s.length ≤ b.arrLen) :
    Yields (strDigitLoop s n i b) fun b' => b'.arrLen = b.arrLen ∧
      ∀ j, b'.cell j = if j < n then digitOf (s.getD (s.length - 1 - j) '\x00') else b.cell j := by
  induction n generalizing i b with
  | zero => exact yields_pure ⟨rfl, fun j => by simp⟩
  | succ n ih =>
      simp only [strDigitLoop]
      rw [BigNum.write_of_lt (by omega), pure_bind]
      apply (ih (i + 1) _ (by omega) (by simpa using hl)).mono
      intro b' hspec
      obtain ⟨hl', hc⟩ := hspec
      refine ⟨by simpa using hl', fun j => ?_⟩
      rw [hc j, BigNum.cell_set (by omega)]
      split_ifs with h1 h2 h3 h4
      · rfl
      · omega
      · rw [show s.length - 1 - j = i by omega]; rfl
      · omega
      · omega
      · rfl

theorem strToBigNum_yields {s : List Char} (hne : s ≠ []) (hdigit : ∀ c ∈ s, c.isDigit) :
    Yields (strToBigNum s) fun b => b.Digits ∧ TwoPowCapacity b ∧ b.wei = s.length ∧
      ∀ j < s.length, b.cell j = digitOf (s.getD (s.length - 1 - j) '\x00') := by
  have hpos := List.length_pos_iff.mpr hne
  apply getZero_yields.bind
  intro z hspec
  obtain ⟨_, hz, _⟩ := hspec
  apply (growZero_yields s.length hz).bind
  intro b hspec
  obtain ⟨hn, hcap⟩ := hspec
  apply (strDigitLoop_yields s s.length 0 b (by omega) hn).bind
  intro b' hspec
  obtain ⟨hl, hc⟩ := hspec
  have hcell : ∀ j < s.length, b'.cell j = digitOf (s.getD (s.length - 1 - j) '\x00') :=
    fun j hj => by rw [hc j, if_pos hj]
  refine yields_pure ⟨⟨hpos, ?_, fun j hj => ?_⟩, ?_, rfl, hcell⟩
  · simp only [BigNum.arrLen_withWei]
    omega
  · rw [BigNum.cell_withWei, hcell j hj]
    apply digitOf_range
    rw [List.getD_eq_getElem?_getD, List.getElem?_eq_getElem (by omega), Option.getD_some]
    exact hdigit _ (List.getElem_mem _)
  · unfold TwoPowCapacity at hcap ⊢
    rwa [BigNum.arrLen_withWei, hl]

end Str

section Int

-- count_int_bit counts decimal digits.
theorem countIntBit_bounds (m : Int) (hm : 0 ≤ m) :
    m < 10 ^ countIntBit m ∧ (countIntBit m = 1 ∨ 10 ^ (countIntBit m - 1) ≤ m) := by
  induction m using countIntBit.induct with
  | case1 m hpos ih =>
      rw [Int.tdiv_eq_ediv_of_nonneg hm] at hpos ih
      obtain ⟨hlt, hge⟩ := ih (by omega)
      have hcount : countIntBit m = countIntBit (m / 10) + 1 := by
        rw [countIntBit, Int.tdiv_eq_ediv_of_nonneg hm, if_pos hpos]
      rw [hcount, pow_succ, Nat.add_sub_cancel]
      refine ⟨by omega, Or.inr ?_⟩
      rcases hge with h1 | hge
      · rw [h1]; omega
      · obtain ⟨n, hn⟩ : ∃ n, countIntBit (m / 10) = n + 1 := by
          rw [countIntBit]
          split_ifs
          · exact ⟨_, rfl⟩
          · exact ⟨0, rfl⟩
        rw [hn, Nat.add_sub_cancel] at hge
        rw [hn, pow_succ]
        omega
  | case2 m hpos =>
      have hcount : countIntBit m = 1 := by rw [countIntBit, if_neg hpos]
      rw [Int.tdiv_eq_ediv_of_nonneg hm] at hpos
      rw [hcount]
      exact ⟨by omega, Or.inl rfl⟩

theorem countIntBit_pos (m : Int) : 1 ≤ countIntBit m := by
  rw [countIntBit]
  split_ifs <;> omega

theorem countIntBit_le {m : Int} (hm : 0 ≤ m) (hmax : m < 2 ^ 31) : countIntBit m ≤ 10 := by
  rcases (countIntBit_bounds m hm).2 with h | h
  · omega
  · by_contra hn
    have : (10 : Int) ^ 10 ≤ 10 ^ (countIntBit m - 1) := pow_le_pow_right₀ (by norm_num) (by omega)
    omega

-- The tenth power wraps.
theorem myPow_ten {k : Nat} (hk : k ≤ 9) : myPow 10 k = 10 ^ k := by
  interval_cases k <;> decide

theorem myPow_ten_ten : myPow 10 10 = 1410065408 := by decide

-- Digit `j` as int_to_big_num computes it.
def intDigit (m : Int) (j : Nat) : Int := (m.tmod (myPow 10 (j + 1))).tdiv (myPow 10 j)

theorem intDigit_of_lt {m : Int} (hm : 0 ≤ m) {j : Nat} (hj : j ≤ 8) :
    intDigit m j = m / 10 ^ j % 10 := by
  rw [intDigit, myPow_ten (show j + 1 ≤ 9 by omega), myPow_ten (show j ≤ 9 by omega),
    Int.tmod_eq_emod_of_nonneg hm, Int.tdiv_eq_ediv_of_nonneg (Int.emod_nonneg m (by positivity))]
  interval_cases j <;> simp only [Nat.reduceAdd] <;> omega

theorem intDigit_nine {m : Int} (hm : 0 ≤ m) : intDigit m 9 = m % 1410065408 / 10 ^ 9 := by
  rw [intDigit, myPow_ten_ten, myPow_ten (Nat.le_refl 9),
    Int.tmod_eq_emod_of_nonneg hm, Int.tdiv_eq_ediv_of_nonneg (by omega)]

theorem intDigit_range {m : Int} (hm : 0 ≤ m) {j : Nat} (hj : j ≤ 9) :
    0 ≤ intDigit m j ∧ intDigit m j ≤ 9 := by
  by_cases h : j ≤ 8
  · rw [intDigit_of_lt hm h]
    omega
  · rw [show j = 9 by omega, intDigit_nine hm]
    omega

theorem intDigitLoop_yields (m : Int) (n i : Nat) (b : BigNum) (hl : i + n ≤ b.arrLen) :
    Yields (intDigitLoop m n (i + 1) b) fun b' => b'.arrLen = b.arrLen ∧
      ∀ j, b'.cell j = if i ≤ j ∧ j < i + n then intDigit m j else b.cell j := by
  induction n generalizing i b with
  | zero =>
      refine yields_pure ⟨rfl, fun j => ?_⟩
      rw [if_neg (by omega)]
  | succ n ih =>
      simp only [intDigitLoop, Nat.add_sub_cancel]
      rw [BigNum.write_of_lt (by omega), pure_bind]
      apply (ih (i + 1) _ (by simp; omega)).mono
      intro b' hspec
      obtain ⟨hl', hc⟩ := hspec
      refine ⟨by simpa using hl', fun j => ?_⟩
      rw [hc j, BigNum.cell_set (by omega)]
      split_ifs with h1 h2 h3 h4
      · rfl
      · omega
      · subst h3; rfl
      · omega
      · omega
      · rfl

theorem intToBigNum_yields {m : Int} (hm : 0 ≤ m) (hmax : m < 2 ^ 31) :
    Yields (intToBigNum m) fun b => b.Digits ∧ TwoPowCapacity b ∧ b.wei = countIntBit m ∧
      ∀ j < countIntBit m, b.cell j = intDigit m j := by
  have hpos := countIntBit_pos m
  have hten := countIntBit_le hm hmax
  apply getZero_yields.bind
  intro z hspec
  obtain ⟨_, hz, _⟩ := hspec
  apply (growZero_yields (countIntBit m) hz).bind
  intro b hspec
  obtain ⟨hn, hcap⟩ := hspec
  apply (intDigitLoop_yields m (countIntBit m) 0 b (by omega)).bind
  intro b' hspec
  obtain ⟨hl, hc⟩ := hspec
  have hcell : ∀ j < countIntBit m, b'.cell j = intDigit m j :=
    fun j hj => by rw [hc j, if_pos (by omega)]
  refine yields_pure ⟨⟨hpos, ?_, fun j hj => ?_⟩, ?_, rfl, hcell⟩
  · simp only [BigNum.arrLen_withWei]
    omega
  · rw [BigNum.cell_withWei, hcell j hj]
    simp only at hj
    exact intDigit_range hm (by omega)
  · unfold TwoPowCapacity at hcap ⊢
    rwa [BigNum.arrLen_withWei, hl]

end Int

-- The objects that int_to_big_num of a non-negative int and str_to_big_num of a non-empty digit
-- string return, for any contents of the heap.
inductive Produced : BigNum → Prop where
  | ofInt {m : Int} {h h' : Heap} {b : BigNum} :
      0 ≤ m → m < 2 ^ 31 → intToBigNum m h = some (b, h') → Produced b
  | ofStr {s : List Char} {h h' : Heap} {b : BigNum} :
      s ≠ [] → (∀ c ∈ s, c.isDigit) → strToBigNum s h = some (b, h') → Produced b

theorem Produced.ofStr_run {s : List Char} {h : Heap} {b : BigNum} (hne : s ≠ [])
    (hdigit : ∀ c ∈ s, c.isDigit) (hrun : (strToBigNum s h).map Prod.fst = some b) : Produced b := by
  obtain ⟨⟨b', h'⟩, hrun', rfl⟩ := Option.map_eq_some_iff.mp hrun
  exact .ofStr hne hdigit hrun'

theorem Produced.fresh {b : BigNum} (h : Produced b) : b.Digits ∧ TwoPowCapacity b := by
  cases h with
  | ofInt hm hmax hrun =>
      have := (intToBigNum_yields hm hmax).ensures _ _ _ hrun
      exact ⟨this.1, this.2.1⟩
  | ofStr hne hdigit hrun =>
      have := (strToBigNum_yields hne hdigit).ensures _ _ _ hrun
      exact ⟨this.1, this.2.1⟩

end RichardTest.BigNumC
