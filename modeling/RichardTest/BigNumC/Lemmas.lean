import RichardTest.BigNumC.Spec

namespace RichardTest.BigNumC

open Outcome Positional

theorem int32_eq {x : Int} (hlo : -2 ^ 31 ≤ x) (hhi : x < 2 ^ 31) : int32 x = x := by
  rw [int32]
  apply Int.bmod_eq_of_le <;> omega

namespace Operands

variable (b b1 b2 : BigNum) (ops : Operands)

@[simp] theorem fst_apart : (apart b1 b2).fst = b1 := rfl
@[simp] theorem snd_apart : (apart b1 b2).snd = b2 := rfl
@[simp] theorem setFst_apart : (apart b1 b2).setFst b = apart b b2 := rfl
@[simp] theorem fst_same : (same b).fst = b := rfl
@[simp] theorem snd_same : (same b).snd = b := rfl
@[simp] theorem setFst_same : (same b1).setFst b = same b := rfl

@[simp] theorem fst_setFst : (ops.setFst b).fst = b := by cases ops <;> rfl
@[simp] theorem snd_setSnd : (ops.setSnd b).snd = b := by cases ops <;> rfl
@[simp] theorem setFst_setFst : (ops.setFst b1).setFst b2 = ops.setFst b2 := by cases ops <;> rfl
@[simp] theorem setFst_fst : ops.setFst ops.fst = ops := by cases ops <;> rfl
@[simp] theorem fst_swap : ops.swap.fst = ops.snd := by cases ops <;> rfl
@[simp] theorem snd_swap : ops.swap.snd = ops.fst := by cases ops <;> rfl
@[simp] theorem swap_swap : ops.swap.swap = ops := by cases ops <;> rfl

end Operands

namespace BigNum

variable {b b' : BigNum} {i j : Nat} {x : Int}

-- The object after an assignment to a cell inside the array.
def set (b : BigNum) (i : Nat) (x : Int) : BigNum := { b with arr := b.arr.set i x }

@[simp] theorem set_arrLen : (b.set i x).arrLen = b.arrLen := by
  simp [set, arrLen]

theorem cell_set (hi : i < b.arrLen) : (b.set i x).cell j = if j = i then x else b.cell j := by
  simp only [cell, set, List.getD_eq_getElem?_getD, List.getElem?_set]
  unfold arrLen at hi
  split_ifs <;> first | rfl | omega

theorem cell_of_arrLen_le (hi : b.arrLen ≤ i) : b.cell i = 0 := by
  rw [cell, List.getD_eq_getElem?_getD, List.getElem?_eq_none hi]
  rfl

theorem read_of_lt (hi : i < b.arrLen) : b.read i = pure (b.cell i) := by
  simp [read, hi, cell]

theorem write_of_lt (hi : i < b.arrLen) : b.write i x = pure (b.set i x) := by
  simp [write, hi, set]

theorem read_fails (hi : b.arrLen ≤ i) : Fails (b.read i) := by
  intro s
  simp [read, Nat.not_lt.mpr hi, fault]

@[simp] theorem arrLen_withWei (n : Nat) : ({ b with wei := n } : BigNum).arrLen = b.arrLen := rfl

@[simp] theorem cell_withWei (n : Nat) : ({ b with wei := n } : BigNum).cell = b.cell := rfl

theorem Extends.refl (b : BigNum) : Extends b b := ⟨rfl, Nat.le_refl _, fun _ _ => rfl⟩

theorem Extends.trans {b₁ b₂ b₃ : BigNum} (h : Extends b₁ b₂) (h' : Extends b₂ b₃) :
    Extends b₁ b₃ where
  wei := h'.wei.trans h.wei
  arrLen := h.arrLen.trans h'.arrLen
  cell i hi := (h'.cell i (hi.trans_le h.arrLen)).trans (h.cell i hi)

theorem Keeps.trans {b₁ b₂ b₃ : BigNum} (h : Keeps b₁ b₂) (h' : Keeps b₂ b₃) : Keeps b₁ b₃ where
  wei := h'.wei.trans h.wei
  arrLen := h.arrLen.trans h'.arrLen
  cell i hi := (h'.cell i (by rw [h.wei]; exact hi)).trans (h.cell i hi)

theorem Extends.keeps (h : Extends b b') (hd : b.wei ≤ b.arrLen) : Keeps b b' where
  wei := h.wei
  arrLen := h.arrLen
  cell i hi := h.cell i (hi.trans_le hd)

theorem Keeps.digits (h : Keeps b b') (hd : b.Digits) : b'.Digits where
  wei_pos := h.wei ▸ hd.wei_pos
  wei_le := h.wei ▸ hd.wei_le.trans h.arrLen
  digit i hi := by
    rw [h.wei] at hi
    rw [h.cell i hi]
    exact hd.digit i hi

theorem Keeps.value (h : Keeps b b') : b'.value = b.value := by
  rw [BigNum.value, h.wei]
  exact value_congr h.cell

theorem Keeps.noLeadingZero (h : Keeps b b') (hd : b.Digits) (hz : b.NoLeadingZero) :
    b'.NoLeadingZero := by
  have hp := hd.wei_pos
  unfold NoLeadingZero at hz ⊢
  rw [h.wei, h.cell (b.wei - 1) (by omega)]
  exact hz

theorem Extends.digits (h : Extends b b') (hd : b.Digits) : b'.Digits :=
  (h.keeps hd.wei_le).digits hd

theorem Extends.value (h : Extends b b') (hd : b.wei ≤ b.arrLen) : b'.value = b.value :=
  (h.keeps hd).value

-- The single digit 0.
theorem Digits.of_zero (hw : b.wei = 1) (hl : 1 ≤ b.arrLen) (hc : b.cell 0 = 0) : b.Digits where
  wei_pos := by omega
  wei_le := by omega
  digit i hi := by
    rw [show i = 0 by omega, hc]
    omega

theorem Digits.value_nonneg (h : b.Digits) : 0 ≤ b.value :=
  Positional.value_nonneg (by norm_num) fun i hi => (h.digit i hi).1

theorem Digits.prefix_lt (h : b.Digits) {n : Nat} (hn : n ≤ b.wei) :
    Positional.value 10 b.cell n < 10 ^ n := by
  have := value_add_one_le (b := (10 : Int)) (d := b.cell) (n := n) (by norm_num) fun i hi => by
    have := h.digit i (by omega)
    omega
  omega

theorem Digits.value_lt (h : b.Digits) : b.value < 10 ^ b.wei := h.prefix_lt (Nat.le_refl _)

-- A top digit of at least one puts the value at or above its weight.
theorem Digits.pow_le_value (h : b.Digits) (htop : b.cell (b.wei - 1) ≠ 0) :
    10 ^ (b.wei - 1) ≤ b.value := by
  have hp := h.wei_pos
  have hd := h.digit (b.wei - 1) (by omega)
  exact Positional.pow_le_value (by norm_num) (fun i hi => (h.digit i hi).1) (by omega) (by omega)

theorem Digits.top_ne_zero (h : b.Digits) (hv : 10 ^ (b.wei - 1) ≤ b.value) :
    b.cell (b.wei - 1) ≠ 0 := by
  have hp := h.wei_pos
  intro hz
  have hlow := h.prefix_lt (n := b.wei - 1) (by omega)
  have hsplit : b.value = Positional.value 10 b.cell (b.wei - 1) := by
    have hw : b.wei = b.wei - 1 + 1 := by omega
    rw [value, hw, value_succ, ← hw, hz]
    simp
  omega

end BigNum

theorem malloc_yields (n : Nat) : Yields (malloc n) fun cells => cells.length = n :=
  fun h => ⟨_, _, rfl, by simp⟩

theorem realloc_yields (b : BigNum) {n : Nat} (hn : b.arrLen ≤ n) :
    Yields (realloc b n) fun b' => b.Extends b' ∧ b'.arrLen = n := by
  refine (malloc_yields _).bind fun more hmore => yields_pure ⟨⟨rfl, ?_, ?_⟩, ?_⟩
  · simp [BigNum.arrLen]
  · intro i hi
    simp only [BigNum.cell, List.getD_eq_getElem?_getD]
    rw [List.getElem?_append_left hi]
  · simp only [BigNum.arrLen, List.length_append, hmore] at hn ⊢
    omega

theorem extendBigNum_yields (b : BigNum) :
    Yields (extendBigNum b) fun b' => b.Extends b' ∧ b'.arrLen = b.arrLen * 2 :=
  realloc_yields b (by omega)

-- The guard that doubles an array whose digits fill it.
theorem ensureRoom_yields (b : BigNum) :
    Yields (ensureRoom b) fun b' => b.Extends b' ∧ b'.arrLen = b.room := by
  unfold ensureRoom BigNum.room
  split
  · exact extendBigNum_yields b
  · exact yields_pure ⟨.refl b, rfl⟩

theorem BigNum.Digits.wei_lt_room {b : BigNum} (h : b.Digits) : b.wei < b.room := by
  have hp := h.wei_pos
  have hl := h.wei_le
  rw [BigNum.room]
  split_ifs <;> omega

theorem getZero_yields :
    Yields getZero fun b => b.wei = 1 ∧ b.arrLen = 2 ∧ b.cell 0 = 0 := by
  apply (malloc_yields 2).bind
  intro cells hcells
  have hlen : (0 : Nat) < BigNum.arrLen { arr := cells, wei := 1 } := by
    simp [BigNum.arrLen, hcells]
  rw [BigNum.write_of_lt hlen]
  refine yields_pure ⟨rfl, ?_, ?_⟩
  · rw [BigNum.set_arrLen]
    exact hcells
  · rw [BigNum.cell_set hlen, if_pos rfl]

theorem growLoop_yields (n : Nat) (fuel : Nat) (b : BigNum) (hpos : 0 < b.arrLen)
    (hfuel : n ≤ b.arrLen + fuel) :
    Yields (growLoop n fuel b) fun b' =>
      b.Extends b' ∧ b'.arrLen = doubled n fuel b.arrLen ∧ n ≤ b'.arrLen := by
  induction fuel generalizing b with
  | zero =>
      have hn : ¬b.arrLen < n := by omega
      simp only [growLoop, hn, if_false]
      exact yields_pure ⟨.refl b, rfl, by omega⟩
  | succ fuel ih =>
      simp only [growLoop, doubled]
      split_ifs with hlt
      · apply (extendBigNum_yields b).bind
        intro b₁ hspec
        obtain ⟨he, hl⟩ := hspec
        apply (ih b₁ (by omega) (by omega)).mono
        intro b' hspec
        obtain ⟨he', hl', hn⟩ := hspec
        exact ⟨he.trans he', hl ▸ hl', hn⟩
      · exact yields_pure ⟨.refl b, rfl, by omega⟩

theorem growTo_yields (n : Nat) (b : BigNum) (hpos : 0 < b.arrLen) :
    Yields (growTo n b) fun b' =>
      b.Extends b' ∧ b'.arrLen = capAfter n b.arrLen ∧ n ≤ b'.arrLen :=
  growLoop_yields n n b hpos (by omega)

theorem zeroLoop_yields (n i : Nat) (b : BigNum) (hi : i + n ≤ b.arrLen) :
    Yields (zeroLoop n i b) fun b' => b'.wei = b.wei ∧ b'.arrLen = b.arrLen ∧
      ∀ j, b'.cell j = if i ≤ j ∧ j < i + n then 0 else b.cell j := by
  induction n generalizing i b with
  | zero =>
      refine yields_pure ⟨rfl, rfl, fun j => ?_⟩
      rw [if_neg (by omega)]
  | succ n ih =>
      simp only [zeroLoop]
      rw [BigNum.write_of_lt (by omega)]
      apply (ih (i + 1) (b.set i 0) (by simp; omega)).mono
      intro b' hspec
      obtain ⟨hw, hl, hc⟩ := hspec
      refine ⟨hw, by simpa using hl, fun j => ?_⟩
      rw [hc j, BigNum.cell_set (by omega)]
      split_ifs <;> first | rfl | omega

theorem copyLoop_yields (n i : Nat) (b1 b2 : BigNum) (h1 : i + n ≤ b1.arrLen)
    (h2 : i + n ≤ b2.arrLen) :
    Yields (copyLoop n i (.apart b1 b2)) fun ops => ∃ b, ops = .apart b b2 ∧ b.wei = b1.wei ∧
      b.arrLen = b1.arrLen ∧ ∀ j, b.cell j = if i ≤ j ∧ j < i + n then b2.cell j else b1.cell j := by
  induction n generalizing i b1 with
  | zero =>
      refine yields_pure ⟨b1, rfl, rfl, rfl, fun j => ?_⟩
      rw [if_neg (by omega)]
  | succ n ih =>
      simp only [copyLoop, Operands.fst_apart, Operands.snd_apart, Operands.setFst_apart]
      rw [BigNum.read_of_lt (by omega), pure_bind, BigNum.write_of_lt (by omega), pure_bind]
      refine (ih (i + 1) (b1.set i (b2.cell i)) (by simp; omega) (by omega)).mono ?_
      rintro ops ⟨b, rfl, hw, hl, hc⟩
      refine ⟨b, rfl, hw, by simpa using hl, fun j => ?_⟩
      rw [hc j, BigNum.cell_set (by omega)]
      split_ifs <;> first | rfl | omega | simp_all

-- A copy into another object takes over the digits and clears every cell above them.
theorem bigNumCpy_yields (b1 b2 : BigNum) (h2 : b2.wei ≤ b2.arrLen) :
    Yields (bigNumCpy (.apart b1 b2)) fun ops => ∃ b, ops = .apart b b2 ∧ b2.Keeps b ∧
      b.arrLen = max b1.arrLen b2.arrLen ∧ ∀ j, b2.wei ≤ j → b.cell j = 0 := by
  have hgrow : Yields (if b1.arrLen < b2.arrLen then realloc b1 b2.arrLen else pure b1)
      fun b => b.arrLen = max b1.arrLen b2.arrLen := by
    split_ifs with hlt
    · apply (realloc_yields b1 hlt.le).mono
      intro b hspec
      obtain ⟨_, hl⟩ := hspec
      omega
    · exact yields_pure (by omega)
  apply hgrow.bind
  intro b hl
  simp only [Operands.setFst_apart, Operands.snd_apart]
  apply (zeroLoop_yields b.arrLen 0 b (by omega)).bind
  intro b₀ hspec
  obtain ⟨_, hl₀, hc₀⟩ := hspec
  refine (copyLoop_yields b2.wei 0 b₀ b2 (by omega) (by omega)).bind ?_
  rintro _ ⟨b₁, rfl, -, hl₁, hc₁⟩
  have hcell : ∀ j, b₁.cell j = if j < b2.wei then b2.cell j else if j < b.arrLen then 0 else b.cell j :=
    fun j => by simp only [hc₁, hc₀, Nat.zero_le, true_and, Nat.zero_add]
  have hlen : b₁.arrLen = max b1.arrLen b2.arrLen := by omega
  refine yields_pure ⟨_, rfl, ⟨rfl, ?_, fun j hj => ?_⟩, by simpa using hlen, fun j hj => ?_⟩
  · simp only [Operands.fst_apart, BigNum.arrLen_withWei]
    omega
  · rw [Operands.fst_apart, BigNum.cell_withWei, hcell, if_pos hj]
  · rw [Operands.fst_apart, BigNum.cell_withWei, hcell, if_neg (by omega)]
    split_ifs with hin
    · rfl
    · exact BigNum.cell_of_arrLen_le (by omega)

end RichardTest.BigNumC
