import RichardTest.BigNumC.Canonical

namespace RichardTest.BigNumC

open Outcome Positional

-- What big_num_add_0 is for: whatever memory realloc hands out, the sum of the two numbers replaces
-- the first one and the second is left alone.
def AddsInPlace (b1 b2 : BigNum) : Prop :=
  Yields (bigNumAdd0 (.apart b1 b2)) fun ops => ∃ b, ops = .apart b b2 ∧ b.Digits ∧
    b.value = b1.value + b2.value

-- When it does so. A smaller first number needs a cell for a carry out of the second one's length. A first
-- number that is not smaller must take no carry there, unless both have the same length and the cell that
-- is incremented exists and holds 0.
def CarryPlaced (b1 b2 : BigNum) : Prop :=
  if b1.Less b2 then
    b1.value + b2.value < 10 ^ b2.wei ∨ b2.wei < capAfter b2.arrLen b1.room
  else
    value 10 b1.cell b2.wei + b2.value < 10 ^ b2.wei ∨
      (b1.wei = b2.wei ∧ b1.wei < b1.arrLen ∧ int32 (b1.cell b1.wei) = 0)

theorem int32_add_one_eq_one {x : Int} : int32 (x + 1) = 1 ↔ int32 x = 0 := by
  unfold int32
  rw [Int.bmod_eq_emod, Int.bmod_eq_emod]
  split_ifs <;> omega

-- A multiple of a power of ten is a lower power only where it is the same.
theorem eq_of_mul_ten_pow {c : Int} {m n : Nat} (hmn : m ≤ n) (h : c * 10 ^ n = 10 ^ m) : n = m ∧ c = 1 := by
  obtain ⟨k, rfl⟩ := Nat.exists_eq_add_of_le hmn
  have hpos : (10 : Int) ^ m ≠ 0 := by positivity
  have hunit : c * 10 ^ k = 1 := by
    apply mul_left_cancel₀ hpos
    calc 10 ^ m * (c * 10 ^ k) = c * 10 ^ (m + k) := by rw [pow_add]; ring
      _ = 10 ^ m * 1 := by rw [h, mul_one]
  cases k with
  | zero => exact ⟨rfl, by simpa using hunit⟩
  | succ k =>
      rw [pow_succ, ← mul_assoc] at hunit
      omega

section NotLess

variable {b1 b2 : BigNum} (h1 : b1.Digits) (h2 : b2.Digits) (hless : ¬b1.Less b2)
include h1 h2 hless

theorem bigNumAdd0_no_carry (hlow : value 10 b1.cell b2.wei + b2.value < 10 ^ b2.wei) : AddsInPlace b1 b2 := by
  have hwei := BigNum.wei_le_of_not_less hless
  have hle := h1.wei_le
  refine (sumInto_not_less (.apart b1 b2) h1 h2 hless).bind ?_
  rintro ⟨next, ops⟩ ⟨hnext, b, hops, hd, hw, hl, hv, hc⟩
  simp only [Operands.fst_apart, Operands.snd_apart, Operands.setFst_apart] at hnext hops hw hl hv hc ⊢
  subst hops
  have hnn : 0 ≤ value (10 : Int) b.cell b2.wei :=
    Positional.value_nonneg (by norm_num) fun i hi => (hd.digit i (by omega)).1
  have hnext : next = 0 := by
    rcases hnext with h | rfl
    · exact h
    · omega
  subst hnext
  rw [Operands.fst_apart, incrementTop_zero, pure_bind]
  refine yields_pure ⟨b, rfl, hd, ?_⟩
  have hsum := value_add_low_of_agree (b := (10 : Int)) hwei fun i hi hi' => hc i hi (by omega)
  rw [BigNum.value, BigNum.value, hw]
  omega

-- The carry leaves the position it belongs to and is added to the cell above the digits.
theorem bigNumAdd0_carry (hlow : 10 ^ b2.wei ≤ value 10 b1.cell b2.wei + b2.value) (hroom : b1.wei < b1.arrLen) :
    Yields (bigNumAdd0 (.apart b1 b2)) fun ops => ∃ b, ops = .apart b b2 ∧
      b.value + 10 ^ b2.wei = b1.value + b2.value + int32 (b1.cell b1.wei + 1) * 10 ^ b1.wei ∧
      (int32 (b1.cell b1.wei + 1) = 1 → b.Digits) := by
  have hwei := BigNum.wei_le_of_not_less hless
  refine (sumInto_not_less (.apart b1 b2) h1 h2 hless).bind ?_
  rintro ⟨next, ops⟩ ⟨hnext, b, hops, hd, hw, hl, hv, hc⟩
  simp only [Operands.fst_apart, Operands.snd_apart, Operands.setFst_apart] at hnext hops hw hl hv hc ⊢
  subst hops
  have hlt := hd.prefix_lt (n := b2.wei) (by omega)
  have hnext : next = 1 := by
    rcases hnext with rfl | h
    · omega
    · exact h
  subst hnext
  have hroom' : b.wei < b.arrLen := by
    have := h1.wei_lt_room
    omega
  have htop : b.cell b.wei = b1.cell b1.wei := by rw [hw]; exact hc _ hwei hroom
  rw [Operands.fst_apart, incrementTop_push hroom', htop, pure_bind]
  refine yields_pure ⟨_, rfl, ?_, fun hone => .push hroom' hd.digit (by omega)⟩
  have hsum := value_add_low_of_agree (b := (10 : Int)) hwei fun i hi hi' => hc i hi (by omega)
  rw [BigNum.value_push hroom', BigNum.value, BigNum.value, hw]
  omega

-- So a run leaves the sum only if the two places are one and the cell held 0.
theorem carry_placed_of_exact (hlow : 10 ^ b2.wei ≤ value 10 b1.cell b2.wei + b2.value)
    (hroom : b1.wei < b1.arrLen) {h h' : Heap} {b : BigNum}
    (hrun : bigNumAdd0 (.apart b1 b2) h = some (.apart b b2, h')) (hv : b.value = b1.value + b2.value) :
    b1.wei = b2.wei ∧ int32 (b1.cell b1.wei) = 0 := by
  obtain ⟨b', hops, hv', -⟩ := (bigNumAdd0_carry h1 h2 hless hlow hroom).ensures _ _ _ hrun
  cases hops
  rw [← int32_add_one_eq_one]
  exact eq_of_mul_ten_pow (BigNum.wei_le_of_not_less hless) (by omega)

theorem addsInPlace_iff_of_carry (hlow : 10 ^ b2.wei ≤ value 10 b1.cell b2.wei + b2.value)
    (hroom : b1.wei < b1.arrLen) : AddsInPlace b1 b2 ↔ b1.wei = b2.wei ∧ int32 (b1.cell b1.wei) = 0 := by
  constructor
  · intro hadds
    obtain ⟨ops, h', hrun, b, hops, -, hv⟩ := hadds fun _ => 0
    rw [hops] at hrun
    exact carry_placed_of_exact h1 h2 hless hlow hroom hrun hv
  · rintro ⟨heq, hone⟩
    rw [← int32_add_one_eq_one] at hone
    refine (bigNumAdd0_carry h1 h2 hless hlow hroom).mono ?_
    rintro ops ⟨b, hops, hv, hd⟩
    refine ⟨b, hops, hd hone, ?_⟩
    rw [hone, heq, one_mul] at hv
    omega

end NotLess

section Full

variable {b1 b2 : BigNum} (h1 : b1.Digits) (hfull : b1.wei = b1.arrLen)
include h1 hfull

-- A full array is doubled first; the new cell above the digits holds what realloc hands out.
theorem bigNumAdd0_full (b2 : BigNum) (h : Heap) :
    ∃ b h', b1.Extends b ∧ b.wei < b.arrLen ∧ b.cell b.wei = h 0 ∧
      bigNumAdd0 (.apart b1 b2) h = bigNumAdd0 (.apart b b2) h' := by
  have hpos := h1.wei_pos
  obtain ⟨b, h', hrun, he, hl⟩ := extendBigNum_yields b1 h
  have hroom : b.wei < b.arrLen := by rw [he.wei]; omega
  refine ⟨b, h', he, hroom, ?_, ?_⟩
  · cases hrun
    show (b1.arr ++ (List.range (b1.arrLen * 2 - b1.arrLen)).map h).getD b1.wei 0 = h 0
    have hlt : 0 < b1.arr.length * 2 - b1.arr.length := by
      rw [BigNum.arrLen] at hfull
      omega
    rw [hfull, BigNum.arrLen, List.getD_eq_getElem?_getD, List.getElem?_append_right (Nat.le_refl _),
      Nat.sub_self, List.getElem?_map, List.getElem?_range hlt]
    rfl
  · rw [bigNumAdd0, bigNumAdd0, sumInto, sumInto, ensureRoom, ensureRoom, Operands.fst_apart,
      Operands.fst_apart, if_pos hfull, if_neg hroom.ne, pure_bind, bind_assoc, bind_run, hrun]
    rfl

-- Then the cell may hold anything, so a carry is never safe.
theorem not_addsInPlace_of_full (h2 : b2.Digits) (hless : ¬b1.Less b2)
    (hlow : 10 ^ b2.wei ≤ value 10 b1.cell b2.wei + b2.value) : ¬AddsInPlace b1 b2 := by
  intro hadds
  obtain ⟨b, h', he, hroom, hcell, hsame⟩ := bigNumAdd0_full h1 hfull b2 fun _ => 7
  have hd := he.digits h1
  have hwei := BigNum.wei_le_of_not_less hless
  have hless' : ¬b.Less b2 := by
    rwa [he.less (.refl b2) h1 h2]
  have hlow' : 10 ^ b2.wei ≤ value 10 b.cell b2.wei + b2.value := by
    have := h1.wei_le
    rwa [value_congr fun i hi => he.cell i (by omega)]
  obtain ⟨ops, s, hrun, b', hops, -, hv⟩ := hadds fun _ => 7
  rw [hops, hsame] at hrun
  rw [← he.value h1.wei_le] at hv
  obtain ⟨-, hzero⟩ := carry_placed_of_exact hd h2 hless' hlow' hroom hrun hv
  rw [hcell] at hzero
  exact absurd hzero (by decide)

end Full

theorem addsInPlace_iff_of_not_less {b1 b2 : BigNum} (h1 : b1.Digits) (h2 : b2.Digits) (hless : ¬b1.Less b2) :
    AddsInPlace b1 b2 ↔ value 10 b1.cell b2.wei + b2.value < 10 ^ b2.wei ∨
      (b1.wei = b2.wei ∧ b1.wei < b1.arrLen ∧ int32 (b1.cell b1.wei) = 0) := by
  by_cases hlow : value 10 b1.cell b2.wei + b2.value < 10 ^ b2.wei
  · exact ⟨fun _ => Or.inl hlow, fun _ => bigNumAdd0_no_carry h1 h2 hless hlow⟩
  · have hbig := not_lt.mp hlow
    rw [or_iff_right hlow]
    by_cases hroom : b1.wei < b1.arrLen
    · rw [addsInPlace_iff_of_carry h1 h2 hless hbig hroom]
      exact ⟨fun h => ⟨h.1, hroom, h.2⟩, fun h => ⟨h.1, h.2.2⟩⟩
    · have hfull : b1.wei = b1.arrLen := Nat.le_antisymm h1.wei_le (not_lt.mp hroom)
      exact ⟨fun h => absurd h (not_addsInPlace_of_full h1 hfull h2 hless hbig), fun h => absurd h.2.1 hroom⟩

theorem addsInPlace_iff_of_less {b1 b2 : BigNum} (h1 : b1.Digits) (h2 : b2.Digits) (hless : b1.Less b2) :
    AddsInPlace b1 b2 ↔
      b1.value + b2.value < 10 ^ b2.wei ∨ b2.wei < capAfter b2.arrLen b1.room := by
  constructor
  · intro hadds
    by_contra hno
    obtain ⟨hbig, hroom⟩ := not_or.mp hno
    have hfails := bigNumAdd0_fails h1 h2 hless (not_lt.mp hbig) (not_lt.mp hroom)
    obtain ⟨ops, h', hrun, -⟩ := hadds fun _ => 0
    rw [hfails] at hrun
    cases hrun
  · intro hplaced
    refine (bigNumAdd0_yields h1 h2 (absurd hless) fun _ hbig => ?_).mono ?_
    · exact hplaced.resolve_left (not_lt.mpr hbig)
    · rintro ops ⟨b, hops, hd, hv, -⟩
      exact ⟨b, hops, hd, hv⟩

-- The sum in place is right exactly when the carry out of the second number's length has its place.
theorem bigNumAdd0_exact_iff {b1 b2 : BigNum} (h1 : b1.Canonical) (h2 : b2.Canonical) :
    AddsInPlace b1 b2 ↔ CarryPlaced b1 b2 := by
  rw [CarryPlaced]
  split_ifs with hless
  · exact addsInPlace_iff_of_less h1.digits h2.digits hless
  · exact addsInPlace_iff_of_not_less h1.digits h2.digits hless

-- 95 + 17, with a stale cell behind the zero that takes the carry.
theorem bigNumAdd0_exact_iff_carry :
    AddsInPlace ⟨[5, 9, 0, 7], 2⟩ ⟨[7, 1], 2⟩ := by
  refine (bigNumAdd0_exact_iff ⟨by decide, by unfold BigNum.NoLeadingZero; decide⟩
    ⟨by decide, by unfold BigNum.NoLeadingZero; decide⟩).mpr ?_
  rw [CarryPlaced, if_neg (by unfold BigNum.Less; decide)]
  exact Or.inr ⟨rfl, by decide, by decide⟩

-- 195 + 7 becomes 1192: the carry out of the units lands above the 1.
theorem bigNumAdd0_misplaces_carry :
    ¬∀ b1 b2 : BigNum, b1.Canonical → b2.Canonical → AddsInPlace b1 b2 := by
  intro h
  have hadds := h ⟨[5, 9, 1, 0], 3⟩ ⟨[7, 0], 1⟩ ⟨by decide, by unfold BigNum.NoLeadingZero; decide⟩
    ⟨by decide, by unfold BigNum.NoLeadingZero; decide⟩
  obtain ⟨ops, h', hrun, b, hops, -, hv⟩ := hadds fun _ => 0
  have hend : (bigNumAdd0 (.apart ⟨[5, 9, 1, 0], 3⟩ ⟨[7, 0], 1⟩) fun _ => 0).map Prod.fst =
      some (.apart ⟨[2, 9, 1, 1], 4⟩ ⟨[7, 0], 1⟩) := by decide
  rw [hrun, hops] at hend
  cases hend
  exact absurd hv (by decide)

-- Doubling in place is right, and the test on the top digit foretells the carry.
theorem bigNumAdd0Self_doubles {b : BigNum} (h : b.Canonical) :
    Yields (bigNumAdd0Self b) (fun b' => b'.Canonical ∧ b'.value = 2 * b.value) ∧
      (bigNumAdd0Self b = doubleDigits b >>= fun r => carryOut r.1 r.2) ∧
      Yields (doubleDigits b) fun r => r.1 = 1 ↔ 5 ≤ b.cell (b.wei - 1) := by
  refine ⟨(bigNumAdd0Self_yields h.digits).mono fun b' hspec => ?_, bigNumAdd0Self_eq h.digits,
    (doubleDigits_yields h.digits).mono fun r hspec => hspec.2.1⟩
  obtain ⟨hd, hv, -, hzero⟩ := hspec
  exact ⟨⟨hd, hzero h.noLeadingZero⟩, by rw [hv, two_mul]⟩

-- 57, full, with the carry of the 7 under a top digit of 5.
theorem bigNumAdd0Self_doubles_full :
    Yields (bigNumAdd0Self ⟨[7, 5], 2⟩) (fun b' => b'.Canonical ∧ b'.value = 2 * BigNum.value ⟨[7, 5], 2⟩) ∧
      (bigNumAdd0Self ⟨[7, 5], 2⟩ = doubleDigits ⟨[7, 5], 2⟩ >>= fun r => carryOut r.1 r.2) ∧
      Yields (doubleDigits ⟨[7, 5], 2⟩) fun r => r.1 = 1 ↔ 5 ≤ BigNum.cell ⟨[7, 5], 2⟩ (2 - 1) :=
  bigNumAdd0Self_doubles ⟨by decide, by unfold BigNum.NoLeadingZero; decide⟩

end RichardTest.BigNumC
