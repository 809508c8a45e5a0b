import RichardTest.BigNumC.Multi
import RichardTest.BigNumC.Construct

namespace RichardTest.BigNumC

open Outcome Positional

-- In pass `i` the partial product fills the array of `hi` exactly, the sum carries past it, and the
-- accumulator is not yet long enough to have been doubled before.
def CarryPastEnd (hi lo : BigNum) (i : Nat) : Prop :=
  0 < i ∧ hi.wei + i = hi.arrLen ∧ hi.value * lo.cell i < 10 ^ hi.wei ∧
    hi.value * Positional.value 10 lo.cell i < 10 ^ (hi.arrLen - 1) ∧
    10 ^ hi.arrLen ≤ hi.value * Positional.value 10 lo.cell (i + 1)

instance (hi lo : BigNum) (i : Nat) : Decidable (CarryPastEnd hi lo i) :=
  inferInstanceAs (Decidable (_ ∧ _))

-- Pass `i` leaves an array: through the carry cell, or through the `int` counter of the zeroing loop.
def PassFaults (hi lo : BigNum) (i : Nat) : Prop := 2 ^ 31 ≤ i ∨ CarryPastEnd hi lo i

section Pass

variable {hi lo res newBg : BigNum} {i : Nat}

-- While the partial products fit the capacity of `hi`, that capacity bounds the accumulator's.
structure Bounded (hi : BigNum) (i : Nat) (res : BigNum) : Prop where
  capacity : hi.wei + i ≤ hi.arrLen → ∃ k, res.arrLen = 2 ^ k ∧ res.arrLen ≤ hi.arrLen

theorem two_mul_two_pow_le {j k : Nat} (h : 2 ^ j < 2 ^ k) : 2 ^ j * 2 ≤ 2 ^ k := by
  rw [← Nat.pow_succ]
  exact Nat.pow_le_pow_right (by norm_num)
    ((Nat.pow_lt_pow_iff_right (show 1 < 2 by norm_num)).mp h)

-- The guard doubles the accumulator at most up to the capacity of `hi`.
theorem room_two_pow (hcap : TwoPowCapacity hi) (hwei : res.wei < hi.arrLen)
    (hb : ∃ k, res.arrLen = 2 ^ k ∧ res.arrLen ≤ hi.arrLen) :
    ∃ k, res.room = 2 ^ k ∧ res.room ≤ hi.arrLen := by
  obtain ⟨c, -, hc⟩ := hcap
  obtain ⟨k, hk, hle⟩ := hb
  rw [BigNum.room]
  split_ifs with hfull
  · refine ⟨k + 1, by rw [hk, Nat.pow_succ], ?_⟩
    rw [hk, hc]
    exact two_mul_two_pow_le (by omega)
  · exact ⟨k, hk, hle⟩

-- The capacity of a partial product that kept or gained one digit.
theorem arrLen_of_le (hcap : TwoPowCapacity hi) (hlt : hi.wei < hi.arrLen)
    (hprod : Product hi (lo.cell i) i newBg) (hw : newBg.wei ≤ hi.arrLen) :
    newBg.arrLen = hi.arrLen := by
  have htwo := hcap.two_le
  have hroom : copyRoom hi (lo.cell i) = hi.arrLen := by
    rw [copyRoom, if_neg (by omega)]
    omega
  rw [hprod.arrLen, hroom, capAfter_of_le hw]

theorem wei_le_of_shape (h1 : hi.Digits) (hprod : Product hi (lo.cell i) i newBg) :
    newBg.wei ≤ hi.wei + i + 1 := by
  have := h1.wei_pos
  rcases hprod.shape with ⟨-, hs⟩ | ⟨-, hs, -⟩ | ⟨-, hs, -⟩ <;> omega

theorem Bounded.step {b : BigNum} (h1 : hi.Digits) (hcap : TwoPowCapacity hi)
    (hacc : Accumulated hi lo i res) (hb : Bounded hi i res)
    (hprod : Product hi (lo.cell i) i newBg)
    (hlen : b.arrLen = res.room ∨ b.arrLen = capAfter newBg.arrLen res.room) :
    Bounded hi (i + 1) b where
  capacity hfit := by
    have hle := hacc.wei_le
    have hnew := wei_le_of_shape h1 hprod
    obtain ⟨k, hk, hkle⟩ := room_two_pow hcap (by omega) (hb.capacity (by omega))
    have hnewlen := arrLen_of_le hcap (by omega) hprod (by omega)
    obtain ⟨c, hc1, hc⟩ := hcap
    rcases hlen with hlen | hlen
    · exact ⟨k, hlen.trans hk, by omega⟩
    · rw [hnewlen, hc, hk, capAfter_two_pow] at hlen
      rw [hk, hc] at hkle
      have hkc : k ≤ c := (Nat.pow_le_pow_iff_right (show 1 < 2 by norm_num)).mp hkle
      rw [Nat.max_eq_left hkc] at hlen
      exact ⟨c, hlen, by omega⟩

variable (h1 : hi.Digits) (h2 : lo.Digits) (hcap : TwoPowCapacity hi) (hwei : lo.wei ≤ hi.wei)
  (hi' : i < lo.wei) (hacc : Accumulated hi lo i res) (hb : Bounded hi i res)
  (hprod : Product hi (lo.cell i) i newBg)

include h1 h2 hcap hwei hi' hacc hb hprod

-- Outside the one bad pass a carry always finds a cell.
theorem carry_has_cell (hgood : ¬CarryPastEnd hi lo i) (hless : res.Less newBg)
    (hbig : 10 ^ newBg.wei ≤ res.value + newBg.value) :
    newBg.wei < capAfter newBg.arrLen res.room := by
  obtain ⟨hw0, hw, hfit⟩ := wei_of_carry h1 h2 hi' hacc hprod hbig hless
  have hle1 := h1.wei_le
  have hroom := hacc.digits.wei_lt_room
  have hge : newBg.arrLen ≤ capAfter newBg.arrLen res.room := capAfter_ge (by omega)
  have htwo := hcap.two_le
  by_cases hfull : hi.wei = hi.arrLen
  · -- the copy was doubled before the multiplication
    have hcopy : copyRoom hi (lo.cell i) = hi.arrLen * 2 := by
      rw [copyRoom, if_pos ⟨hw0, by omega⟩]
      omega
    have hlen : newBg.arrLen = hi.arrLen * 2 := by
      rw [hprod.arrLen, hcopy, capAfter_of_le (by omega)]
    omega
  have hlen : newBg.wei ≤ hi.arrLen → newBg.arrLen = hi.arrLen :=
    arrLen_of_le hcap (by omega) hprod
  rcases Nat.lt_trichotomy (hi.wei + i) hi.arrLen with hlt | heq | hgt
  · have := hlen (by omega)
    omega
  · -- the accumulator already fills its array, so the guard has doubled it
    have hlow : 10 ^ (hi.arrLen - 1) ≤ res.value := by
      by_contra hn
      refine hgood ⟨by omega, heq, hfit, ?_, ?_⟩
      · rw [← hacc.value]; omega
      · rw [← sum_eq hacc hprod, ← heq, ← hw]; exact hbig
    have hres : hi.arrLen ≤ res.wei := by
      by_contra hn
      have hlt := hacc.digits.value_lt
      have : (10 : Int) ^ res.wei ≤ 10 ^ (hi.arrLen - 1) :=
        pow_le_pow_right₀ (by norm_num) (by omega)
      omega
    obtain ⟨k, hk, hkle⟩ := hb.capacity (by omega)
    have hreslen := hacc.digits.wei_le
    have hdouble : res.room = res.arrLen * 2 := by
      rw [BigNum.room, if_pos (by omega)]
    have := le_capAfter newBg.arrLen res.room
    omega
  · have hcopy : copyRoom hi (lo.cell i) = hi.arrLen := by
      rw [copyRoom, if_neg (by omega)]
      omega
    have : newBg.arrLen = hi.arrLen * 2 := by
      rw [hprod.arrLen, hcopy, capAfter_of_le_twice (by omega) (by omega)]
    omega

theorem bigNumAdd0_pass_yields (hgood : ¬CarryPastEnd hi lo i) :
    Yields (bigNumAdd0 (.apart res newBg)) fun added =>
      Accumulated hi lo (i + 1) added.fst ∧ Bounded hi (i + 1) added.fst ∧
      (TwoPowCapacity res → TwoPowCapacity added.fst) := by
  refine (bigNumAdd0_yields hacc.digits hprod.digits ?_
    (carry_has_cell h1 h2 hcap hwei hi' hacc hb hprod hgood)).mono ?_
  · intro hless
    by_contra hne
    exact hless (less_of_ne_zero h1 h2 hi' hacc hprod hne)
  · rintro added ⟨b, rfl, hd, hv, hlen, hw⟩
    refine ⟨hacc.step h1 h2 hi' hprod hd hv hw, hb.step h1 hcap hacc hprod hlen, fun hres => ?_⟩
    rw [TwoPowCapacity]
    rcases hlen with hlen | hlen
    · rw [Operands.fst_apart, hlen]
      exact hres.room
    · rw [Operands.fst_apart, hlen]
      exact hres.room.capAfter _

omit hwei in
theorem bigNumAdd0_pass_fails (hbad : CarryPastEnd hi lo i) :
    Fails (bigNumAdd0 (.apart res newBg)) := by
  obtain ⟨hpos, heq, hfit, hlow, hbig⟩ := hbad
  have hvlow := hacc.value
  have hne : newBg.value ≠ 0 := by
    intro hz
    have hsum := sum_eq hacc hprod
    have hmono : (10 : Int) ^ (hi.arrLen - 1) ≤ 10 ^ hi.arrLen :=
      pow_le_pow_right₀ (by norm_num) (by omega)
    omega
  have hw0 : lo.cell i ≠ 0 := fun hz => hne (by rw [hprod.value, hz]; ring)
  have hw : newBg.wei = hi.arrLen := by
    rcases hprod.shape with ⟨hz, -⟩ | ⟨-, hs, -⟩ | ⟨-, -, hge⟩
    · exact absurd hz hw0
    · omega
    · omega
  have hres : res.wei < hi.arrLen := by
    by_contra hn
    have hle := hacc.wei_le
    have hfull := hacc.full (by omega) hpos
    rw [heq] at hfull
    omega
  obtain ⟨k, hk, hkle⟩ := room_two_pow hcap hres (hb.capacity (by omega))
  have hnewlen := arrLen_of_le hcap (by omega) hprod (by omega)
  apply bigNumAdd0_fails hacc.digits hprod.digits (less_of_ne_zero h1 h2 hi' hacc hprod hne)
  · rw [sum_eq hacc hprod, hw]
    exact hbig
  · obtain ⟨c, -, hc⟩ := hcap
    rw [hk, hc] at hkle
    have hkc : k ≤ c := (Nat.pow_le_pow_iff_right (show 1 < 2 by norm_num)).mp hkle
    rw [hnewlen, hc, hk, capAfter_two_pow, Nat.max_eq_left hkc]
    omega

end Pass

section Run

variable {ops : Operands} (h1 : ops.fst.Digits) (h2 : ops.snd.Digits)
  (hcap : TwoPowCapacity ops.fst) (hwei : ops.snd.wei ≤ ops.fst.wei)

include h1 h2 hcap hwei

theorem multiLoop_yields (n i : Nat) (res : BigNum) (hn : i + n = ops.snd.wei)
    (hacc : Accumulated ops.fst ops.snd i res) (hb : Bounded ops.fst i res)
    (hres : TwoPowCapacity res)
    (hgood : ∀ j, i ≤ j → j < ops.snd.wei → ¬PassFaults ops.fst ops.snd j) :
    Yields (multiLoop n i res ops) fun r => TwoPowCapacity r.1 := by
  induction n generalizing i res with
  | zero => exact yields_pure hres
  | succ n ih =>
      have hw := h2.digit i (by omega)
      have hle := h2.wei_le
      have hpass := hgood i (by omega) (by omega)
      unfold PassFaults at hpass
      simp only [multiLoop]
      rw [BigNum.read_of_lt (by omega), pure_bind]
      refine (partialProduct_yields h1 hw i (by omega)).bind ?_
      rintro ⟨newBg, b1⟩ ⟨rfl, hprod⟩
      simp only [Operands.setFst_fst] at hprod ⊢
      refine (bigNumAdd0_pass_yields h1 h2 hcap hwei (by omega) hacc hb hprod
        (fun h => hpass (Or.inr h))).bind fun added hspec => ?_
      obtain ⟨hacc', hb', hres'⟩ := hspec
      exact ih (i + 1) added.fst (by omega) hacc' hb' (hres' hres) fun j hj hj' =>
        hgood j (by omega) hj'

theorem multiLoop_fails (n i : Nat) (res : BigNum) (hn : i + n = ops.snd.wei)
    (hacc : Accumulated ops.fst ops.snd i res) (hb : Bounded ops.fst i res)
    (hbad : ∃ j, i ≤ j ∧ j < ops.snd.wei ∧ PassFaults ops.fst ops.snd j) :
    Fails (multiLoop n i res ops) := by
  induction n generalizing i res with
  | zero =>
      obtain ⟨j, hj, hj', -⟩ := hbad
      omega
  | succ n ih =>
      have hw := h2.digit i (by omega)
      have hle := h2.wei_le
      simp only [multiLoop]
      rw [BigNum.read_of_lt (by omega), pure_bind]
      by_cases hi31 : 2 ^ 31 ≤ i
      · exact Fails.bind _ (partialProduct_fails h1 hw i hi31)
      refine (partialProduct_yields h1 hw i (by omega)).bind_fails ?_
      rintro ⟨newBg, b1⟩ ⟨rfl, hprod⟩
      simp only [Operands.setFst_fst] at hprod ⊢
      by_cases hpass : CarryPastEnd ops.fst ops.snd i
      · exact Fails.bind _ (bigNumAdd0_pass_fails h1 h2 hcap (by omega) hacc hb hprod hpass)
      · refine (bigNumAdd0_pass_yields h1 h2 hcap hwei (by omega) hacc hb hprod hpass).bind_fails
          fun added hspec => ih (i + 1) added.fst (by omega) hspec.1 hspec.2.1 ?_
        obtain ⟨j, hj, hj', hfault⟩ := hbad
        refine ⟨j, ?_, hj', hfault⟩
        have hne : j ≠ i := by
          rintro rfl
          rcases hfault with h | h
          · exact hi31 h
          · exact hpass h
        omega

end Run

theorem Operands.smaller_wei_le (ops : Operands) : ops.smaller.wei ≤ ops.larger.wei :=
  BigNum.wei_le_of_not_less ops.not_larger_less_smaller

theorem Bounded.start {hi z : BigNum} (hcap : TwoPowCapacity hi) (hl : z.arrLen = 2) :
    Bounded hi 0 z where
  capacity _ := ⟨1, hl, hl ▸ hcap.two_le⟩

section Product

variable (ops : Operands) (h1 : ops.fst.Digits) (h2 : ops.snd.Digits)
  (hc1 : TwoPowCapacity ops.fst) (hc2 : TwoPowCapacity ops.snd)

include hc1 hc2 in
theorem Operands.twoPowCapacity_larger : TwoPowCapacity ops.larger := by
  rw [larger]
  split_ifs
  · exact hc2
  · exact hc1

include h1 h2 hc1 hc2

theorem bigNumMulti_yields (hgood : ∀ i < ops.smaller.wei, ¬PassFaults ops.larger ops.smaller i) :
    Yields (bigNumMulti ops) fun r => TwoPowCapacity r.1 := by
  have hfst := Operands.digits_larger h1 h2
  have hsnd := Operands.digits_smaller h1 h2
  have hcap := ops.twoPowCapacity_larger hc1 hc2
  have hwei := ops.smaller_wei_le
  rw [← ops.fst_sorted, ← ops.snd_sorted] at *
  apply getZero_yields.bind
  intro z hspec
  obtain ⟨hw, hl, hc⟩ := hspec
  apply (bigNumCmp_less h1 h2).bind
  intro flag hflag
  simp only [hflag]
  exact (multiLoop_yields hfst hsnd hcap hwei _ 0 z (Nat.zero_add _)
    (.start hfst hw hl hc) (.start hcap hl) ⟨1, Nat.le_refl 1, hl⟩ fun j _ hj => hgood j hj).bind
      fun r hr => yields_pure hr

theorem bigNumMulti_fails (hbad : ¬∀ i < ops.smaller.wei, ¬PassFaults ops.larger ops.smaller i) :
    Fails (bigNumMulti ops) := by
  have hfst := Operands.digits_larger h1 h2
  have hsnd := Operands.digits_smaller h1 h2
  have hcap := ops.twoPowCapacity_larger hc1 hc2
  have hwei := ops.smaller_wei_le
  rw [← ops.fst_sorted, ← ops.snd_sorted] at *
  push Not at hbad
  obtain ⟨j, hj, hfault⟩ := hbad
  apply getZero_yields.bind_fails
  intro z hspec
  obtain ⟨hw, hl, hc⟩ := hspec
  apply (bigNumCmp_less h1 h2).bind_fails
  intro flag hflag
  simp only [hflag]
  exact Fails.bind _ (multiLoop_fails hfst hsnd hcap hwei _ 0 z
    (Nat.zero_add _) (.start hfst hw hl hc) (.start hcap hl) ⟨j, Nat.zero_le j, hj, hfault⟩)

end Product

-- The multiplication of two constructed numbers stays inside all arrays exactly when no pass over
-- the digits of the smaller one faults.
theorem bigNumMulti_in_bounds_iff (ops : Operands) (hp1 : Produced ops.fst) (hp2 : Produced ops.snd)
    (h : Heap) :
    (bigNumMulti ops h).isSome ↔
      ∀ i < ops.smaller.wei, ¬PassFaults ops.larger ops.smaller i := by
  obtain ⟨h1, hc1⟩ := hp1.fresh
  obtain ⟨h2, hc2⟩ := hp2.fresh
  exact isSome_iff_of_dichotomy (bigNumMulti_yields ops h1 h2 hc1 hc2)
    (bigNumMulti_fails ops h1 h2 hc1 hc2) h

instance (hi lo : BigNum) (i : Nat) : Decidable (PassFaults hi lo i) :=
  inferInstanceAs (Decidable (_ ∨ _))

-- 12 * 11 stays inside its arrays.
theorem bigNumMulti_in_bounds_twelve_eleven :
    (bigNumMulti (.apart ⟨[2, 1], 2⟩ ⟨[1, 1], 2⟩) fun _ => 7).isSome :=
  (bigNumMulti_in_bounds_iff _
    (.ofStr_run (s := ['1', '2']) (h := fun _ => 7) (by simp) (by simp) (by decide))
    (.ofStr_run (s := ['1', '1']) (h := fun _ => 7) (by simp) (by simp) (by decide))
    fun _ => 7).mpr (by decide)

-- 999 * 11 writes its last carry to cell 4 of an array of 4 cells.
theorem bigNumMulti_out_of_bounds :
    ¬∀ ops : Operands, Produced ops.fst → Produced ops.snd →
      ∀ h, (bigNumMulti ops h).isSome := by
  intro hall
  have hrun := hall (.apart ⟨[9, 9, 9, 7], 3⟩ ⟨[1, 1], 2⟩)
    (.ofStr_run (s := ['9', '9', '9']) (h := fun _ => 7) (by simp) (by simp) (by decide))
    (.ofStr_run (s := ['1', '1']) (h := fun _ => 7) (by simp) (by simp) (by decide))
    (fun _ => 7)
  have hnone : (bigNumMulti (.apart ⟨[9, 9, 9, 7], 3⟩ ⟨[1, 1], 2⟩) fun _ => 7).isSome = false := by
    decide +kernel
  rw [hnone] at hrun
  cases hrun

end RichardTest.BigNumC
