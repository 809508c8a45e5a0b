import RichardTest.BigNumC.Accumulate

namespace RichardTest.BigNumC

open Outcome Positional

-- The capacity of the copy of `hi` after its multiplication by the digit `w`.
def copyRoom (hi : BigNum) (w : Int) : Nat :=
  if w ≠ 0 ∧ hi.wei = max 2 hi.arrLen then max 2 hi.arrLen * 2 else max 2 hi.arrLen

-- What one partial product looks like.
structure Product (hi : BigNum) (w : Int) (i : Nat) (newBg : BigNum) : Prop where
  digits : newBg.Digits
  value : newBg.value = hi.value * w * 10 ^ i
  shape : (w = 0 ∧ newBg.wei = i + 1) ∨
    (w ≠ 0 ∧ newBg.wei = hi.wei + i ∧ hi.value * w < 10 ^ hi.wei) ∨
    (w ≠ 0 ∧ newBg.wei = hi.wei + i + 1 ∧ 10 ^ hi.wei ≤ hi.value * w)
  arrLen : newBg.arrLen = capAfter newBg.wei (copyRoom hi w)

-- The accumulator after the first `i` digits of `lo`. It may carry leading zeros, but not once it
-- has the greatest length these digits allow.
structure Accumulated (hi lo : BigNum) (i : Nat) (res : BigNum) : Prop where
  digits : res.Digits
  value : res.value = hi.value * Positional.value 10 lo.cell i
  wei_le : res.wei ≤ hi.wei + i
  full : res.wei = hi.wei + i → 0 < i → 10 ^ (hi.wei + i - 1) ≤ res.value
  zero : Positional.value 10 lo.cell i = 0 → res.wei ≤ max 1 i

theorem partialProduct_yields {hi : BigNum} (h : hi.Digits) {w : Int} (hw : 0 ≤ w ∧ w ≤ 9) (i : Nat)
    (hi31 : i < 2 ^ 31) :
    Yields (partialProduct hi w i) fun r => r.2 = hi ∧ Product hi w i r.1 := by
  apply getZero_yields.bind
  intro z hspec
  obtain ⟨_, hlz, _⟩ := hspec
  refine (bigNumCpy_yields z hi h.wei_le).bind ?_
  rintro _ ⟨c, rfl, hk, hlc, -⟩
  have hdc := hk.digits h
  have hvc := hk.value
  have hwc := hk.wei
  have hle := hdc.wei_le
  have hp := hdc.wei_pos
  rw [hlz] at hlc
  simp only [Operands.fst_apart, Operands.snd_apart]
  by_cases hz : w = 0
  · subst hz
    apply (bigNumMultiDig_zero_yields hdc).bind
    intro d hspec
    obtain ⟨hwd, hld, hcd⟩ := hspec
    have hdd : d.Digits := .of_zero hwd (by omega) hcd
    have hvd : d.value = 0 := by rw [BigNum.value, hwd, value_one, hcd]
    apply (bigNumAppend0_yields hdd i hi31).bind
    intro p hspec
    obtain ⟨hdp, hvp, hwp, hlp⟩ := hspec
    refine yields_pure ⟨rfl, hdp, ?_, Or.inl ⟨rfl, by simp only; omega⟩, ?_⟩
    · simp only [hvp, hvd]; ring
    · simp only [hlp, hwp, copyRoom, ne_eq, not_true, false_and, if_false, hld, hlc]
  · apply (bigNumMultiDig_yields hdc (by omega)).bind
    intro d hspec
    obtain ⟨hdd, hvd, hld, hshape⟩ := hspec
    apply (bigNumAppend0_yields hdd i hi31).bind
    intro p hspec
    obtain ⟨hdp, hvp, hwp, hlp⟩ := hspec
    rw [hvc, hwc] at hshape
    refine yields_pure ⟨rfl, hdp, ?_, Or.inr ?_, ?_⟩
    · simp only [hvp, hvd, hvc]
    · simp only
      rcases hshape with ⟨hwd, hlt⟩ | ⟨hwd, hge⟩
      · exact Or.inl ⟨hz, by omega, hlt⟩
      · exact Or.inr ⟨hz, by omega, hge⟩
    · simp only [hlp, hwp, hld, BigNum.room, copyRoom, hwc, hlc, hz, ne_eq, not_false_eq_true, true_and]

theorem partialProduct_fails {hi : BigNum} (h : hi.Digits) {w : Int} (hw : 0 ≤ w ∧ w ≤ 9) (i : Nat)
    (hi31 : 2 ^ 31 ≤ i) : Fails (partialProduct hi w i) := by
  apply getZero_yields.bind_fails
  intro z _
  refine (bigNumCpy_yields z hi h.wei_le).bind_fails ?_
  rintro _ ⟨c, rfl, hk, -, -⟩
  have hdc := hk.digits h
  simp only [Operands.fst_apart, Operands.snd_apart]
  by_cases hz : w = 0
  · subst hz
    apply (bigNumMultiDig_zero_yields hdc).bind_fails
    intro d hspec
    obtain ⟨hwd, hld, hcd⟩ := hspec
    have hle := hdc.wei_le
    have hp := hdc.wei_pos
    exact Fails.bind _ (bigNumAppend0_fails (.of_zero hwd (by omega) hcd) i hi31)
  · apply (bigNumMultiDig_yields hdc (by omega)).bind_fails
    intro d hspec
    obtain ⟨hdd, _⟩ := hspec
    exact Fails.bind _ (bigNumAppend0_fails hdd i hi31)

section Step

variable {hi lo res newBg : BigNum} {i : Nat}

theorem Accumulated.start (h : hi.Digits) {z : BigNum} (hw : z.wei = 1) (hl : z.arrLen = 2)
    (hc : z.cell 0 = 0) : Accumulated hi lo 0 z where
  digits := .of_zero hw (by omega) hc
  value := by rw [BigNum.value, hw, value_one, hc, value_zero, mul_zero]
  wei_le := by have := h.wei_pos; omega
  full _ h0 := by omega
  zero _ := by omega

theorem prefix_mul_lt (h1 : hi.Digits) (h2 : lo.Digits) {n : Nat} (hn : n ≤ lo.wei) :
    hi.value * Positional.value 10 lo.cell n < 10 ^ (hi.wei + n) := by
  have hv := h1.value_lt
  have hl := h2.prefix_lt hn
  have hpos := h1.value_nonneg
  have hlow := Positional.value_nonneg (b := (10 : Int)) (d := lo.cell) (n := n) (by norm_num)
    fun j hj => (h2.digit j (by omega)).1
  rw [pow_add]
  exact mul_lt_mul'' hv hl hpos hlow

theorem sum_eq (hacc : Accumulated hi lo i res) (hprod : Product hi (lo.cell i) i newBg) :
    res.value + newBg.value = hi.value * Positional.value 10 lo.cell (i + 1) := by
  rw [hacc.value, hprod.value, value_succ]
  ring

variable (h1 : hi.Digits) (h2 : lo.Digits) (hi' : i < lo.wei)
  (hacc : Accumulated hi lo i res) (hprod : Product hi (lo.cell i) i newBg)

include h1 h2 hi' hacc hprod

-- A nonzero partial product exceeds the sum of all lower ones, so it is the larger operand of the
-- addition; any other partial product is zero.
theorem less_of_ne_zero (hne : newBg.value ≠ 0) : res.Less newBg := by
  have hw : lo.cell i ≠ 0 := fun hz => hne (by rw [hprod.value, hz]; ring)
  have hdig := h2.digit i hi'
  have hv : 0 < hi.value := by
    have := h1.value_nonneg
    have : hi.value ≠ 0 := fun hz => hne (by rw [hprod.value, hz]; ring)
    omega
  have hlow := h2.prefix_lt (n := i) (by omega)
  have hval : res.value < newBg.value := by
    rw [hacc.value, hprod.value, mul_assoc]
    have hone : (10 : Int) ^ i ≤ lo.cell i * 10 ^ i :=
      le_mul_of_one_le_left (by positivity) (by omega)
    exact mul_lt_mul_of_pos_left (by omega) hv
  have hwei := hacc.wei_le
  rcases hprod.shape with ⟨hz, -⟩ | ⟨-, hs, -⟩ | ⟨-, hs, -⟩
  · exact absurd hz hw
  · unfold BigNum.Less; omega
  · unfold BigNum.Less; omega

-- A carry can only leave a nonzero partial product that kept the length of `hi`.
theorem wei_of_carry (hbig : 10 ^ newBg.wei ≤ res.value + newBg.value) (hless : res.Less newBg) :
    lo.cell i ≠ 0 ∧ newBg.wei = hi.wei + i ∧ hi.value * lo.cell i < 10 ^ hi.wei := by
  rcases hprod.shape with ⟨hz, hs⟩ | ⟨hw, hs, hlt⟩ | ⟨-, hs, -⟩
  · exfalso
    have hv : newBg.value = 0 := by rw [hprod.value, hz]; ring
    have hwei : res.wei ≤ newBg.wei := by unfold BigNum.Less at hless; omega
    have hlt := hacc.digits.value_lt
    have hpow : (10 : Int) ^ res.wei ≤ 10 ^ newBg.wei := pow_le_pow_right₀ (by norm_num) hwei
    omega
  · exact ⟨hw, hs, hlt⟩
  · exfalso
    have hlt := prefix_mul_lt h1 h2 (n := i + 1) (by omega)
    rw [sum_eq hacc hprod, hs] at hbig
    rw [Nat.add_assoc] at hbig
    omega

theorem Accumulated.step {b : BigNum} (hd : b.Digits) (hv : b.value = res.value + newBg.value)
    (hw : b.wei = max res.wei newBg.wei ∨
      (b.wei = newBg.wei + 1 ∧ 10 ^ newBg.wei ≤ res.value + newBg.value)) :
    Accumulated hi lo (i + 1) b := by
  have hp := h1.wei_pos
  have hle := hacc.wei_le
  have hsum := sum_eq hacc hprod
  have hlt := prefix_mul_lt h1 h2 (n := i + 1) (by omega)
  have hnew : newBg.wei ≤ hi.wei + i + 1 := by
    rcases hprod.shape with ⟨-, hs⟩ | ⟨-, hs, -⟩ | ⟨-, hs, -⟩ <;> omega
  have hcarry : 10 ^ newBg.wei ≤ res.value + newBg.value → newBg.wei ≤ hi.wei + i := by
    intro hbig
    by_contra hn
    rw [show newBg.wei = hi.wei + (i + 1) by omega] at hbig
    omega
  refine ⟨hd, hv.trans hsum, ?_, ?_, ?_⟩
  · rcases hw with hw | ⟨hw, hbig⟩
    · omega
    · have := hcarry hbig; omega
  · intro hfull _
    rw [hv, show hi.wei + (i + 1) - 1 = hi.wei + i by omega]
    rcases hw with hw | ⟨hw, hbig⟩
    · rcases hprod.shape with ⟨-, hs⟩ | ⟨-, hs, -⟩ | ⟨-, hs, hge⟩
      · omega
      · omega
      · have hres := hacc.digits.value_nonneg
        rw [hprod.value, pow_add]
        have := mul_le_mul_of_nonneg_right hge (show (0 : Int) ≤ 10 ^ i by positivity)
        omega
    · have := hcarry hbig
      rwa [show hi.wei + i = newBg.wei by omega]
  · intro hz
    rw [hz, mul_zero] at hsum
    have hlow := Positional.value_nonneg (b := (10 : Int)) (d := lo.cell) (n := i) (by norm_num)
      fun j hj => (h2.digit j (by omega)).1
    have hdig := h2.digit i hi'
    have htop : 0 ≤ lo.cell i * 10 ^ i := mul_nonneg hdig.1 (by positivity)
    rw [value_succ] at hz
    have hwz : lo.cell i = 0 := by
      have : lo.cell i * 10 ^ i = 0 := by omega
      simpa using this
    have := hacc.zero (by omega)
    have hs : newBg.wei = i + 1 := by
      rcases hprod.shape with ⟨-, hs⟩ | ⟨hne, -⟩ | ⟨hne, -⟩
      · exact hs
      · exact absurd hwz hne
      · exact absurd hwz hne
    rcases hw with hw | ⟨-, hbig⟩
    · omega
    · have : (0 : Int) < 10 ^ newBg.wei := by positivity
      omega

end Step

theorem multiLoop_ensures {ops : Operands} (h1 : ops.fst.Digits) (h2 : ops.snd.Digits)
    (n i : Nat) (res : BigNum) (hn : i + n = ops.snd.wei)
    (hacc : Accumulated ops.fst ops.snd i res) :
    Ensures (multiLoop n i res ops) fun r =>
      r.2 = ops ∧ Accumulated ops.fst ops.snd ops.snd.wei r.1 := by
  induction n generalizing i res with
  | zero => exact (yields_pure ⟨rfl, by rwa [show ops.snd.wei = i by omega]⟩).ensures
  | succ n ih =>
      have hw := h2.digit i (by omega)
      have hle := h2.wei_le
      simp only [multiLoop]
      rw [BigNum.read_of_lt (by omega), pure_bind]
      by_cases hi31 : 2 ^ 31 ≤ i
      · exact (Fails.bind _ (partialProduct_fails h1 hw i hi31)).ensures
      refine (partialProduct_yields h1 hw i (by omega)).ensures.bind ?_
      rintro ⟨newBg, b1⟩ ⟨rfl, hprod⟩
      simp only [Operands.setFst_fst] at hprod ⊢
      -- the addition is exact, or the carry has no cell and the run ends here
      have hadd : Ensures (bigNumAdd0 (.apart res newBg)) fun added =>
          Accumulated ops.fst ops.snd (i + 1) added.fst := by
        by_cases hover : res.Less newBg ∧ 10 ^ newBg.wei ≤ res.value + newBg.value ∧
            capAfter newBg.arrLen res.room ≤ newBg.wei
        · obtain ⟨hless, hbig, hroom⟩ := hover
          exact (bigNumAdd0_fails hacc.digits hprod.digits hless hbig hroom).ensures
        · refine (bigNumAdd0_yields hacc.digits hprod.digits ?_ ?_).ensures.mono ?_
          · intro hless
            by_contra hne
            exact hless (less_of_ne_zero h1 h2 (by omega) hacc hprod hne)
          · intro hless hbig
            by_contra hn
            exact hover ⟨hless, hbig, by omega⟩
          · rintro added ⟨b, rfl, hd, hv, -, hwei⟩
            exact hacc.step h1 h2 (by omega) hprod hd hv hwei
      exact hadd.bind fun added hstep => ih (i + 1) added.fst (by omega) hstep

namespace Operands

instance (b1 b2 : BigNum) : Decidable (b1.Less b2) :=
  inferInstanceAs (Decidable (b1.wei < b2.wei ∨ (b1.wei = b2.wei ∧ b1.value < b2.value)))

-- The two objects in the order in which big_num_multi and big_num_add use them.
def larger (ops : Operands) : BigNum := if ops.fst.Less ops.snd then ops.snd else ops.fst

def smaller (ops : Operands) : BigNum := if ops.fst.Less ops.snd then ops.fst else ops.snd

-- The operands after the pointer swap.
def sorted (ops : Operands) : Operands := if ops.fst.Less ops.snd then ops.swap else ops

theorem fst_sorted (ops : Operands) : ops.sorted.fst = ops.larger := by
  unfold sorted larger
  split_ifs <;> simp

theorem snd_sorted (ops : Operands) : ops.sorted.snd = ops.smaller := by
  unfold sorted smaller
  split_ifs <;> simp

theorem unsort (ops : Operands) :
    (if ops.fst.Less ops.snd then ops.sorted.swap else ops.sorted) = ops := by
  rw [sorted]
  split_ifs <;> simp

variable {ops : Operands}

theorem digits_larger (h1 : ops.fst.Digits) (h2 : ops.snd.Digits) : ops.larger.Digits := by
  rw [larger]
  split_ifs
  · exact h2
  · exact h1

theorem digits_smaller (h1 : ops.fst.Digits) (h2 : ops.snd.Digits) : ops.smaller.Digits := by
  rw [smaller]
  split_ifs
  · exact h1
  · exact h2

theorem not_larger_less_smaller (ops : Operands) : ¬ops.larger.Less ops.smaller := by
  unfold larger smaller
  split_ifs with h
  · exact h.asymm
  · exact h

theorem value_mul (ops : Operands) :
    ops.larger.value * ops.smaller.value = ops.fst.value * ops.snd.value := by
  unfold larger smaller
  split_ifs
  · rw [mul_comm]
  · rfl

end Operands

theorem top_ne_zero_of_pos {b : BigNum} (hz : b.NoLeadingZero) (hv : 0 < b.value) :
    b.cell (b.wei - 1) ≠ 0 := by
  rcases hz with h | h
  · exact h
  · intro hc
    rw [h, Nat.sub_self] at hc
    rw [BigNum.value, h, value_one] at hv
    omega

theorem wei_eq_one_of_zero {b : BigNum} (hz : b.NoLeadingZero) (hd : b.Digits) (hv : b.value = 0) :
    b.wei = 1 := by
  rcases hz with h | h
  · have := hd.pow_le_value h
    have : (0 : Int) < 10 ^ (b.wei - 1) := by positivity
    omega
  · exact h

-- The product of numbers without leading zeros has none: its length is one of the two possible ones,
-- and both leave a nonzero top digit.
theorem Accumulated.noLeadingZero {hi lo res : BigNum} (h1 : hi.Digits) (h2 : lo.Digits)
    (hord : ¬hi.Less lo) (hz1 : hi.NoLeadingZero) (hz2 : lo.NoLeadingZero)
    (hacc : Accumulated hi lo lo.wei res) : res.NoLeadingZero := by
  have hval : res.value = hi.value * lo.value := hacc.value
  have hp1 := h1.wei_pos
  have hp2 := h2.wei_pos
  have hn1 := h1.value_nonneg
  have hn2 := h2.value_nonneg
  by_cases hlo : lo.value = 0
  · right
    have hw := wei_eq_one_of_zero hz2 h2 hlo
    have hle := hacc.zero hlo
    have := hacc.digits.wei_pos
    omega
  have hhi : 0 < hi.value := by
    by_contra hn
    have hw := wei_eq_one_of_zero hz1 h1 (by omega)
    apply hord
    rw [BigNum.Less]
    omega
  have hlow : (10 : Int) ^ (hi.wei + lo.wei - 2) ≤ res.value := by
    have hv1 := h1.pow_le_value (top_ne_zero_of_pos hz1 hhi)
    have hv2 := h2.pow_le_value (top_ne_zero_of_pos hz2 (by omega))
    rw [hval, show hi.wei + lo.wei - 2 = (hi.wei - 1) + (lo.wei - 1) by omega, pow_add]
    exact mul_le_mul hv1 hv2 (by positivity) hn1
  have hwei : hi.wei + lo.wei - 1 ≤ res.wei := by
    by_contra hn
    have hlt := hacc.digits.value_lt
    have : (10 : Int) ^ res.wei ≤ 10 ^ (hi.wei + lo.wei - 2) :=
      pow_le_pow_right₀ (by norm_num) (by omega)
    omega
  have hle := hacc.wei_le
  left
  apply hacc.digits.top_ne_zero
  by_cases hfull : res.wei = hi.wei + lo.wei
  · rw [hfull]
    exact hacc.full hfull (by omega)
  · rwa [show res.wei - 1 = hi.wei + lo.wei - 2 by omega]

theorem Accumulated.noLeadingZero_of_operands {ops : Operands} {res : BigNum} (h1 : ops.fst.Digits)
    (h2 : ops.snd.Digits) (hz1 : ops.fst.NoLeadingZero) (hz2 : ops.snd.NoLeadingZero)
    (hacc : Accumulated ops.larger ops.smaller ops.smaller.wei res) : res.NoLeadingZero := by
  apply hacc.noLeadingZero (Operands.digits_larger h1 h2) (Operands.digits_smaller h1 h2)
    ops.not_larger_less_smaller
  · rw [Operands.larger]
    split_ifs
    · exact hz2
    · exact hz1
  · rw [Operands.smaller]
    split_ifs
    · exact hz1
    · exact hz2

theorem bigNumMulti_ensures (ops : Operands) (h1 : ops.fst.Digits) (h2 : ops.snd.Digits) :
    Ensures (bigNumMulti ops) fun r =>
      r.2 = ops ∧ Accumulated ops.larger ops.smaller ops.smaller.wei r.1 := by
  refine getZero_yields.ensures.bind fun z hspec => ?_
  obtain ⟨hw, hl, hc⟩ := hspec
  refine (bigNumCmp_less h1 h2).ensures.bind fun flag hflag => ?_
  simp only [hflag]
  have hfst := Operands.digits_larger h1 h2
  have hsnd := Operands.digits_smaller h1 h2
  rw [← ops.fst_sorted] at hfst
  rw [← ops.snd_sorted] at hsnd
  refine (multiLoop_ensures hfst hsnd ops.sorted.snd.wei 0 z (Nat.zero_add _)
    (.start hfst hw hl hc)).bind fun r hspec => ?_
  obtain ⟨hops, hacc⟩ := hspec
  refine (yields_pure ⟨?_, ?_⟩).ensures
  · simp only [hops]
    exact ops.unsort
  · rwa [ops.fst_sorted, ops.snd_sorted] at hacc

-- A completed product is exact, canonical for canonical operands, and leaves the operands alone.
theorem bigNumMulti_exact (ops : Operands) (h1 : ops.fst.Digits) (h2 : ops.snd.Digits)
    {h h' : Heap} {r : BigNum} {ops' : Operands}
    (hrun : bigNumMulti ops h = some ((r, ops'), h')) :
    r.Digits ∧ r.value = ops.fst.value * ops.snd.value ∧
      (ops.fst.NoLeadingZero → ops.snd.NoLeadingZero → r.NoLeadingZero) ∧
      ops'.fst.value = ops.fst.value ∧ ops'.snd.value = ops.snd.value := by
  obtain ⟨rfl, hacc⟩ := bigNumMulti_ensures ops h1 h2 _ _ _ hrun
  exact ⟨hacc.digits, hacc.value.trans ops'.value_mul, hacc.noLeadingZero_of_operands h1 h2, rfl, rfl⟩

-- 12 * 05, with a leading zero and a stale cell above the digits.
theorem bigNumMulti_exact_twelve_five :
    ∃ r ops' h', bigNumMulti (.apart ⟨[2, 1], 2⟩ ⟨[5, 0, 7], 2⟩) (fun _ => 7) = some ((r, ops'), h') ∧
      r.Digits ∧ r.value = 12 * 5 := by
  have hsome : (bigNumMulti (.apart ⟨[2, 1], 2⟩ ⟨[5, 0, 7], 2⟩) fun _ => 7).isSome = true := by
    decide +kernel
  obtain ⟨⟨⟨r, ops'⟩, h'⟩, hrun⟩ := Option.isSome_iff_exists.mp hsome
  have hexact := bigNumMulti_exact _ (by decide) (by decide) hrun
  refine ⟨r, ops', h', hrun, hexact.1, hexact.2.1.trans ?_⟩
  decide

end RichardTest.BigNumC
