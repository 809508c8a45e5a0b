import RichardTest.BigNumC.Arithmetic

namespace RichardTest.BigNumC

open Outcome Positional

section Capacity

theorem doubled_of_le {n c : Nat} (fuel : Nat) (h : n ≤ c) : doubled n fuel c = c := by
  cases fuel with
  | zero => rfl
  | succ fuel => simp [doubled, Nat.not_lt.mpr h]

theorem capAfter_of_le {n c : Nat} (h : n ≤ c) : capAfter n c = c := doubled_of_le n h

theorem capAfter_of_le_twice {n c : Nat} (h : c < n) (h' : n ≤ c * 2) : capAfter n c = c * 2 := by
  obtain ⟨fuel, rfl⟩ : ∃ fuel, n = fuel + 1 := ⟨n - 1, by omega⟩
  simp only [capAfter, doubled, h, if_true]
  exact doubled_of_le fuel h'

theorem le_doubled (n fuel c : Nat) : c ≤ doubled n fuel c := by
  induction fuel generalizing c with
  | zero => exact Nat.le_refl c
  | succ fuel ih =>
      simp only [doubled]
      split_ifs
      · have := ih (c * 2)
        omega
      · exact Nat.le_refl c

theorem le_capAfter (n c : Nat) : c ≤ capAfter n c := le_doubled n n c

theorem capAfter_ge {n c : Nat} (hc : 0 < c) : n ≤ capAfter n c := by
  suffices h : ∀ fuel c, 0 < c → n ≤ c + fuel → n ≤ doubled n fuel c from h n c hc (by omega)
  intro fuel
  induction fuel with
  | zero => exact fun c _ hn => hn
  | succ fuel ih =>
      intro c hc hn
      simp only [doubled]
      split_ifs with h
      · exact ih (c * 2) (by omega) (by omega)
      · omega

-- Doubling a power of two up to a larger one stops exactly there.
theorem doubled_two_pow (fuel k j : Nat) (hkj : k ≤ j) (hfuel : j ≤ k + fuel) :
    doubled (2 ^ j) fuel (2 ^ k) = 2 ^ j := by
  induction fuel generalizing k with
  | zero => simp [doubled, show k = j by omega]
  | succ fuel ih =>
      simp only [doubled, Nat.pow_lt_pow_iff_right (show 1 < 2 by norm_num), ← Nat.pow_succ]
      split_ifs with h
      · exact ih (k + 1) (by omega) (by omega)
      · rw [show k = j by omega]

theorem capAfter_two_pow (j k : Nat) : capAfter (2 ^ j) (2 ^ k) = 2 ^ max j k := by
  by_cases h : k ≤ j
  · rw [Nat.max_eq_left h]
    exact doubled_two_pow _ k j h (by have := Nat.lt_two_pow_self (n := j); omega)
  · rw [Nat.max_eq_right (by omega)]
    exact capAfter_of_le (Nat.pow_le_pow_right (by norm_num) (by omega))

end Capacity

section Append

theorem shiftLoop_yields (a n : Nat) (b : BigNum) (ha : 1 ≤ a) (h : n + a ≤ b.arrLen) :
    Yields (shiftLoop a n b) fun b' => b'.wei = b.wei ∧ b'.arrLen = b.arrLen ∧
      ∀ j, b'.cell j = if a ≤ j ∧ j < n + a then b.cell (j - a) else b.cell j := by
  induction n generalizing b with
  | zero =>
      refine yields_pure ⟨rfl, rfl, fun j => ?_⟩
      rw [if_neg (by omega)]
  | succ n ih =>
      simp only [shiftLoop]
      rw [BigNum.read_of_lt (by omega), pure_bind, BigNum.write_of_lt (by omega), pure_bind]
      apply (ih (b.set (n + a) (b.cell n)) (by simp; omega)).mono
      intro b' hspec
      obtain ⟨hw, hl, hc⟩ := hspec
      refine ⟨hw, by simpa using hl, fun j => ?_⟩
      simp only [hc j, BigNum.cell_set (show n + a < b.arrLen by omega)]
      -- the moved cell lies above every cell still to be read
      by_cases hj : j = n + a
      · subst j
        simp [show n + a < n + 1 + a by omega]
      · split_ifs <;> first | rfl | omega

theorem bigNumAppend0_yields {b : BigNum} (h : b.Digits) (a : Nat) (ha : a < 2 ^ 31) :
    Yields (bigNumAppend0 b a) fun b' => b'.Digits ∧ b'.value = b.value * 10 ^ a ∧
      b'.wei = b.wei + a ∧ b'.arrLen = capAfter (b.wei + a) b.arrLen := by
  have hp := h.wei_pos
  have hle := h.wei_le
  rw [bigNumAppend0]
  by_cases hz : a = 0
  · subst hz
    simp only [Int.natCast_zero, Int.le_refl, if_true, Nat.add_zero, pow_zero, mul_one]
    exact yields_pure ⟨h, rfl, rfl, (capAfter_of_le hle).symm⟩
  rw [if_neg (by omega), Int.toNat_natCast]
  apply (growTo_yields (b.wei + a) b (by omega)).bind
  intro b₁ hspec
  obtain ⟨he, hl₁, hn₁⟩ := hspec
  have hw₁ := he.wei
  apply (shiftLoop_yields a b₁.wei b₁ (by omega) (by omega)).bind
  intro b₂ hspec
  obtain ⟨hw₂, hl₂, hc₂⟩ := hspec
  rw [if_neg (by omega)]
  apply (zeroLoop_yields a 0 b₂ (by omega)).bind
  intro b₃ hspec
  obtain ⟨hw₃, hl₃, hc₃⟩ := hspec
  have hlow : ∀ j < a, b₃.cell j = 0 := fun j hj => by
    rw [hc₃ j, if_pos (by omega)]
  have hhigh : ∀ j < b.wei, b₃.cell (a + j) = b.cell j := fun j hj => by
    rw [hc₃, if_neg (by omega), hc₂, if_pos (by omega), Nat.add_sub_cancel_left]
    exact he.cell j (by omega)
  have hwei : b₃.wei + a = b.wei + a := by omega
  refine yields_pure ⟨⟨?_, ?_, ?_⟩, ?_, hwei, ?_⟩
  · simp only; omega
  · simp only [BigNum.arrLen_withWei]; omega
  · intro j hj
    rw [BigNum.cell_withWei]
    by_cases hja : j < a
    · rw [hlow j hja]; omega
    · obtain ⟨k, rfl⟩ := Nat.exists_eq_add_of_le (Nat.not_lt.mp hja)
      simp only at hj
      rw [hhigh k (by omega)]
      exact h.digit k (by omega)
  · simp only [BigNum.value, BigNum.cell_withWei]
    rw [hwei, Nat.add_comm b.wei a, value_add, value_eq_zero hlow, value_congr hhigh]
    ring
  · simp only [BigNum.arrLen_withWei]; omega

theorem bigNumAppend0_fails {b : BigNum} (h : b.Digits) (a : Nat) (ha : 2 ^ 31 ≤ a) :
    Fails (bigNumAppend0 b a) := by
  have hp := h.wei_pos
  have hle := h.wei_le
  rw [bigNumAppend0, if_neg (by omega), Int.toNat_natCast]
  apply (growTo_yields (b.wei + a) b (by omega)).bind_fails
  intro b₁ hspec
  obtain ⟨he, hl₁, hn₁⟩ := hspec
  have hw₁ := he.wei
  apply (shiftLoop_yields a b₁.wei b₁ (by omega) (by omega)).bind_fails
  intro b₂ _
  rw [if_pos (by exact_mod_cast ha)]
  exact Fails.bind _ fun _ => rfl

end Append

section SumInto

theorem clearAbove_yields {b : BigNum} (h : b.wei ≤ b.arrLen) :
    Yields (clearAbove b) fun b' => b'.wei = b.wei ∧ b'.arrLen = b.arrLen ∧
      ∀ j, b'.cell j = if j < b.wei then b.cell j else 0 := by
  apply (zeroLoop_yields (b.arrLen - b.wei) b.wei b (by omega)).mono
  intro b' hspec
  obtain ⟨hw, hl, hc⟩ := hspec
  refine ⟨hw, hl, fun j => ?_⟩
  rw [hc j]
  by_cases hj : j < b.arrLen
  · split_ifs <;> first | rfl | omega
  · rw [if_neg (by omega), if_neg (by omega)]
    exact BigNum.cell_of_arrLen_le (by omega)

theorem Operands.extends_snd (ops : Operands) {b : BigNum} (h : ops.fst.Extends b) :
    ops.snd.Extends (ops.setFst b).snd := by
  cases ops with
  | apart b1 b2 => exact .refl b2
  | same b₀ => exact h

theorem BigNum.Extends.less {a a' b b' : BigNum} (ha : a.Extends a') (hb : b.Extends b')
    (hda : a.Digits) (hdb : b.Digits) : a'.Less b' ↔ a.Less b := by
  unfold BigNum.Less
  rw [ha.wei, hb.wei, ha.value hda.wei_le, hb.value hdb.wei_le]

-- The smaller object is first grown to the size of the larger and cleared above its digits.
theorem sumInto_less {b1 b2 : BigNum} (h1 : b1.Digits) (h2 : b2.Digits) (hless : b1.Less b2) :
    Yields (sumInto (.apart b1 b2)) fun r => (r.1 = 0 ∨ r.1 = 1) ∧ ∃ b, r.2 = .apart b b2 ∧
      b.Digits ∧ b.wei = b2.wei ∧ b.arrLen = capAfter b2.arrLen b1.room ∧
      b.value + r.1 * 10 ^ b2.wei = b1.value + b2.value ∧ b.cell b.wei = 0 := by
  have hwei := hless.wei_le
  have hle2 := h2.wei_le
  have hp2 := h2.wei_pos
  rw [sumInto]
  simp only [Operands.fst_apart, Operands.setFst_apart, Operands.snd_apart]
  apply (ensureRoom_yields b1).bind
  intro b₁ hspec
  obtain ⟨he₁, hl₁⟩ := hspec
  have hd₁ := he₁.digits h1
  apply (bigNumCmp_less hd₁ h2).bind
  intro flag hflag
  rw [if_pos (hflag.mpr ((he₁.less (.refl b2) h1 h2).mpr hless))]
  have hp₁ := hd₁.wei_pos
  have hgrow : Yields (growTo b2.arrLen b₁ >>= clearAbove) fun b => b.wei = b1.wei ∧
      b.arrLen = capAfter b2.arrLen b1.room ∧ b2.arrLen ≤ b.arrLen ∧
      ∀ j, b.cell j = if j < b1.wei then b1.cell j else 0 := by
    have hle₁ := hd₁.wei_le
    apply (growTo_yields b2.arrLen b₁ (by omega)).bind
    intro b hspec
    obtain ⟨he, hl, hn⟩ := hspec
    have hw := (he₁.trans he).wei
    have hlen := (he₁.trans he).arrLen
    apply (clearAbove_yields (he.digits hd₁).wei_le).mono
    intro b' hspec
    obtain ⟨hw', hl', hc'⟩ := hspec
    refine ⟨hw'.trans hw, by rw [hl', hl, hl₁], by omega, fun j => ?_⟩
    rw [hc' j, hw]
    split_ifs with hj
    · exact (he₁.trans he).cell j (by have := h1.wei_le; omega)
    · rfl
  apply hgrow.bind
  intro b hspec
  obtain ⟨hw, hl, hn, hc⟩ := hspec
  refine (addLoop_yields b2.wei 0 0 (.apart b b2) (by simp; omega) (by simpa using hle2)
    (Or.inl rfl) ?_ fun j _ hj => h2.digit j (by omega)).bind ?_
  · intro j _ hj
    rw [Operands.fst_apart, hc j]
    split_ifs with hj'
    · exact h1.digit j hj'
    · omega
  rintro ⟨next, ops⟩ ⟨hnext, hset, hrip⟩
  simp only [Operands.setFst_apart, Operands.fst_apart, Operands.snd_apart] at hset hrip hnext
  generalize ops.fst = b' at hset hrip
  subst hset
  -- the sum now has the length of the second object
  have hraise : b'.raiseWei b2.wei = { b' with wei := b2.wei } := by
    rw [BigNum.raiseWei]
    split_ifs with hgt
    · rfl
    · rw [show b2.wei = b'.wei by rw [hrip.wei, hw] at hgt ⊢; omega]
  simp only [Operands.setFst_apart, Operands.snd_apart, hraise]
  have hval := hrip.total
  have hsum : value 10 b.cell b2.wei = b1.value := by
    rw [value_of_zero_above hwei fun i hi _ => by rw [hc i, if_neg (by omega)]]
    exact value_congr fun i hi => by rw [hc i, if_pos hi]
  rw [value_add_digits, hsum] at hval
  refine yields_pure ⟨hnext, _, rfl, ⟨hp2, ?_, ?_⟩, rfl, ?_, hval, ?_⟩
  · simp only [BigNum.arrLen_withWei, hrip.arrLen]
    omega
  · exact fun j hj => hrip.digit j (by omega) (by simp only at hj; omega)
  · exact hrip.arrLen.trans hl
  · rw [BigNum.cell_withWei, hrip.frame b2.wei (by omega), hc, if_neg (by omega)]

-- The larger object keeps its size, its upper digits and the contents above its digits.
theorem sumInto_not_less (ops : Operands) (h1 : ops.fst.Digits) (h2 : ops.snd.Digits)
    (hless : ¬ops.fst.Less ops.snd) :
    Yields (sumInto ops) fun r => (r.1 = 0 ∨ r.1 = 1) ∧ ∃ b, r.2 = ops.setFst b ∧
      b.Digits ∧ b.wei = ops.fst.wei ∧ b.arrLen = ops.fst.room ∧
      value 10 b.cell ops.snd.wei + r.1 * 10 ^ ops.snd.wei =
        value 10 ops.fst.cell ops.snd.wei + ops.snd.value ∧
      ∀ j, ops.snd.wei ≤ j → j < ops.fst.arrLen → b.cell j = ops.fst.cell j := by
  have hwei := BigNum.wei_le_of_not_less hless
  have hp1 := h1.wei_pos
  have hle1 := h1.wei_le
  rw [sumInto]
  apply (ensureRoom_yields ops.fst).bind
  intro b₁ hspec
  obtain ⟨he₁, hl₁⟩ := hspec
  have hd₁ := he₁.digits h1
  have he₂ := ops.extends_snd he₁
  have hd₂ := he₂.digits h2
  have hroom := h1.wei_lt_room
  simp only [Operands.fst_setFst, Operands.setFst_setFst]
  apply (bigNumCmp_less hd₁ hd₂).bind
  intro flag hflag
  rw [if_neg (fun h => hless ((he₁.less he₂ h1 h2).mp (hflag.mp h))), pure_bind]
  have hle₂ := hd₂.wei_le
  refine (addLoop_yields (ops.setFst b₁).snd.wei 0 0 (ops.setFst b₁) (by simp [he₂.wei]; omega)
    (by omega) (Or.inl rfl) ?_ fun j _ hj => hd₂.digit j (by omega)).bind ?_
  · intro j _ hj
    rw [he₂.wei] at hj
    rw [Operands.fst_setFst]
    exact hd₁.digit j (by rw [he₁.wei]; omega)
  rintro ⟨next, ops'⟩ ⟨hnext, hset, hrip⟩
  simp only [Operands.fst_setFst, Operands.setFst_setFst, he₂.wei] at hset hrip hnext ⊢
  generalize ops'.fst = b' at hset hrip ⊢
  subst hset
  have hw' : b'.wei = ops.fst.wei := hrip.wei.trans he₁.wei
  have hsnd : (ops.setFst b').snd.wei = ops.snd.wei := by
    cases ops with
    | apart => rfl
    | same => exact hw'
  rw [BigNum.raiseWei, if_neg (by omega), Operands.setFst_setFst]
  have hval := hrip.total
  rw [value_add_digits] at hval
  refine yields_pure ⟨hnext, b', rfl, ⟨by omega, by rw [hrip.arrLen]; omega, ?_⟩, hw', ?_, ?_, ?_⟩
  · intro j hj
    by_cases hlow : j < ops.snd.wei
    · exact hrip.digit j (by omega) (by omega)
    · rw [hrip.frame j (by omega)]
      exact hd₁.digit j (by rw [he₁.wei]; omega)
  · exact hrip.arrLen.trans hl₁
  · rw [hval]
    congr 1
    · exact value_congr fun i hi => he₁.cell i (by omega)
    · have := h2.wei_le
      exact value_congr fun i hi => he₂.cell i (by omega)
  · intro j hj hj'
    rw [hrip.frame j (by omega)]
    exact he₁.cell j hj'

end SumInto

section Add0

theorem incrementTop_zero (b : BigNum) : incrementTop 0 b = pure b := by
  simp [incrementTop]

theorem incrementTop_push {b : BigNum} (hwei : b.wei < b.arrLen) :
    incrementTop 1 b = pure (b.push (int32 (b.cell b.wei + 1))) := by
  rw [incrementTop, if_pos rfl, BigNum.read_of_lt hwei, pure_bind]
  exact BigNum.write_push hwei

theorem incrementTop_one {b : BigNum} (hwei : b.wei < b.arrLen)
    (hcell : 0 ≤ b.cell b.wei ∧ b.cell b.wei ≤ 8) :
    incrementTop 1 b = pure (b.push (b.cell b.wei + 1)) := by
  rw [incrementTop_push hwei, int32_eq (by omega) (by omega)]

theorem incrementTop_fails {b : BigNum} (hwei : b.arrLen ≤ b.wei) : Fails (incrementTop 1 b) := by
  rw [incrementTop, if_pos rfl]
  exact Fails.bind _ (BigNum.read_fails hwei)

variable {b1 b2 : BigNum}

-- The sum is exact when the first object is the smaller one, or the second is zero, and the carry,
-- if there is one, has a cell.
theorem bigNumAdd0_yields (h1 : b1.Digits) (h2 : b2.Digits) (hzero : ¬b1.Less b2 → b2.value = 0)
    (hroom : b1.Less b2 → 10 ^ b2.wei ≤ b1.value + b2.value →
      b2.wei < capAfter b2.arrLen b1.room) :
    Yields (bigNumAdd0 (.apart b1 b2)) fun ops => ∃ b, ops = .apart b b2 ∧ b.Digits ∧
      b.value = b1.value + b2.value ∧
      (b.arrLen = b1.room ∨ b.arrLen = capAfter b2.arrLen b1.room) ∧
      (b.wei = max b1.wei b2.wei ∨ (b.wei = b2.wei + 1 ∧ 10 ^ b2.wei ≤ b1.value + b2.value)) := by
  by_cases hless : b1.Less b2
  · have hwei := hless.wei_le
    refine (sumInto_less h1 h2 hless).bind ?_
    rintro ⟨next, ops⟩ ⟨hnext, b, hops, hd, hw, hl, hv, hc⟩
    simp only at hnext hops hv ⊢
    subst hops
    simp only [Operands.fst_apart, Operands.setFst_apart]
    rcases hnext with rfl | rfl
    · rw [incrementTop_zero, pure_bind]
      exact yields_pure ⟨b, rfl, hd, by simpa using hv, Or.inr hl, Or.inl (by omega)⟩
    · have hbig : 10 ^ b2.wei ≤ b1.value + b2.value := by
        have := hd.value_nonneg
        omega
      have hlt : b.wei < b.arrLen := by rw [hw, hl]; exact hroom hless hbig
      rw [incrementTop_one hlt (by omega), pure_bind, hc, zero_add]
      refine yields_pure ⟨_, rfl, .push hlt hd.digit (by omega), ?_, Or.inr (by simpa using hl),
        Or.inr ⟨by simpa using hw, hbig⟩⟩
      rw [BigNum.value_push hlt, hw]
      exact hv
  · have hwei := BigNum.wei_le_of_not_less hless
    refine (sumInto_not_less (.apart b1 b2) h1 h2 hless).bind ?_
    rintro ⟨next, ops⟩ ⟨hnext, b, hops, hd, hw, hl, hv, hc⟩
    simp only [Operands.fst_apart, Operands.snd_apart, Operands.setFst_apart] at hnext hops hw hl hv hc ⊢
    subst hops
    rw [hzero hless, add_zero] at hv ⊢
    -- adding zero gives no carry, and leaves the upper digits alone
    have hnext : next = 0 := by
      have hlt := h1.prefix_lt (n := b2.wei) hwei
      have hpos := Positional.value_nonneg (b := (10 : Int)) (d := b.cell) (n := b2.wei) (by norm_num)
        fun i hi => (hd.digit i (by omega)).1
      rcases hnext with h | rfl
      · exact h
      · omega
    subst hnext
    rw [Operands.fst_apart, incrementTop_zero, pure_bind]
    refine yields_pure ⟨b, rfl, hd, ?_, Or.inl hl, Or.inl (by omega)⟩
    have hle := h1.wei_le
    have hsum := value_add_low_of_agree (b := (10 : Int)) hwei fun i hi hi' => hc i hi (by omega)
    rw [BigNum.value, BigNum.value, hw]
    omega

-- Without a cell for the carry the write leaves the array.
theorem bigNumAdd0_fails (h1 : b1.Digits) (h2 : b2.Digits) (hless : b1.Less b2)
    (hbig : 10 ^ b2.wei ≤ b1.value + b2.value) (hroom : capAfter b2.arrLen b1.room ≤ b2.wei) :
    Fails (bigNumAdd0 (.apart b1 b2)) := by
  refine (sumInto_less h1 h2 hless).bind_fails ?_
  rintro ⟨next, ops⟩ ⟨hnext, b, hops, hd, hw, hl, hv, hc⟩
  simp only at hnext hops hv ⊢
  subst hops
  have hnext : next = 1 := by
    have hlt := hd.value_lt
    rw [hw] at hlt
    rcases hnext with rfl | h
    · omega
    · exact h
  subst hnext
  exact Fails.bind _ (incrementTop_fails (by rw [Operands.fst_apart]; omega))

end Add0

end RichardTest.BigNumC
