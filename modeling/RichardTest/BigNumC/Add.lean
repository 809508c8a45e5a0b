import RichardTest.BigNumC.Bounds

namespace RichardTest.BigNumC

open Outcome Positional

namespace BigNum

variable {b b' : BigNum}

-- A number that is large enough for its length has no leading zero.
theorem Digits.noLeadingZero (hd : b.Digits) (hv : b.wei = 1 ∨ 10 ^ (b.wei - 1) ≤ b.value) :
    b.NoLeadingZero := by
  rcases hv with h | h
  · exact Or.inr h
  · exact Or.inl (hd.top_ne_zero h)

theorem Digits.le_value_of_noLeadingZero (hd : b.Digits) (hz : b.NoLeadingZero) :
    b.wei = 1 ∨ 10 ^ (b.wei - 1) ≤ b.value := by
  rcases hz with h | h
  · exact Or.inr (hd.pow_le_value h)
  · exact Or.inl h

-- A sum, a double or a product by a digit is at least as large as its operand, and has a digit more
-- only if it does not fit: it keeps the operand's form.
theorem Digits.noLeadingZero_of_grow (hd : b.Digits) (hd' : b'.Digits) (hz : b.NoLeadingZero)
    (hv : b.value ≤ b'.value)
    (hw : b'.wei = b.wei ∨ (b'.wei = b.wei + 1 ∧ 10 ^ b.wei ≤ b'.value)) : b'.NoLeadingZero := by
  apply hd'.noLeadingZero
  rcases hw with hw | ⟨hw, hbig⟩
  · rw [hw]
    rcases hd.le_value_of_noLeadingZero hz with h | h
    · exact Or.inl h
    · exact Or.inr (h.trans hv)
  · rw [hw, Nat.add_sub_cancel]
    exact Or.inr hbig

end BigNum

-- The last carry of a loop over all the digits, given a cell for it.
theorem carryOut_yields {b : BigNum} {next : Int} (hnext : next = 0 ∨ next = 1)
    (hpos : 1 ≤ b.wei) (hle : b.wei ≤ b.arrLen) (hroom : next = 1 → b.wei < b.arrLen)
    (hdigit : ∀ i < b.wei, 0 ≤ b.cell i ∧ b.cell i ≤ 9) :
    Yields (carryOut next b) fun b' => b'.Digits ∧ b'.arrLen = b.arrLen ∧
      b'.value = b.value + next * 10 ^ b.wei ∧
      (b'.wei = b.wei ∨ (b'.wei = b.wei + 1 ∧ 10 ^ b.wei ≤ b'.value)) := by
  have hd : b.Digits := ⟨hpos, hle, hdigit⟩
  rw [carryOut]
  rcases hnext with rfl | rfl
  · rw [if_neg (by norm_num)]
    exact yields_pure ⟨hd, rfl, by simp, Or.inl rfl⟩
  · rw [if_pos rfl, BigNum.write_push (hroom rfl)]
    have hv := BigNum.value_push (c := 1) (hroom rfl)
    refine yields_pure ⟨.push (hroom rfl) hdigit (by omega), by simp, hv, Or.inr ⟨rfl, ?_⟩⟩
    have := hd.value_nonneg
    omega

section Double

-- Doubling is the addition loop with both operands the same object.
theorem doubleLoop_eq (n i : Nat) (next : Int) (b : BigNum) :
    doubleLoop n i next b =
      addLoop n i next (.same b) >>= fun r => pure (r.1, r.2.fst) := by
  induction n generalizing i next b with
  | zero => rfl
  | succ n ih =>
      by_cases hi : i < b.arrLen
      · simp only [doubleLoop, addLoop, Operands.fst_same, Operands.snd_same, Operands.setFst_same]
        rw [BigNum.read_of_lt hi, pure_bind, pure_bind, pure_bind, mul_two]
        split_ifs
        · simp only [BigNum.write_of_lt hi, pure_bind, ih]
        · simp only [BigNum.write_of_lt hi, pure_bind, ih]
      · funext s
        have hfail : BigNum.read b i s = none := BigNum.read_fails (by omega) s
        simp only [doubleLoop, addLoop, bind_run, Operands.fst_same, hfail, Option.bind_none]

theorem double_lt_of_top_lt {b : BigNum} (h : b.Digits) (htop : b.cell (b.wei - 1) < 5) :
    b.value + b.value < 10 ^ b.wei := by
  have hp := h.wei_pos
  have hlow := h.prefix_lt (n := b.wei - 1) (by omega)
  have hw : b.wei = b.wei - 1 + 1 := by omega
  have hpow : (0 : Int) < 10 ^ (b.wei - 1) := by positivity
  rw [BigNum.value, hw, value_succ, pow_succ]
  nlinarith

theorem double_ge_of_le_top {b : BigNum} (h : b.Digits) (htop : 5 ≤ b.cell (b.wei - 1)) :
    10 ^ b.wei ≤ b.value + b.value := by
  have hp := h.wei_pos
  have hlow : 0 ≤ value 10 b.cell (b.wei - 1) :=
    Positional.value_nonneg (by norm_num) fun i hi => (h.digit i (by omega)).1
  have hw : b.wei = b.wei - 1 + 1 := by omega
  have hpow : (0 : Int) < 10 ^ (b.wei - 1) := by positivity
  rw [BigNum.value, hw, value_succ, pow_succ]
  nlinarith

-- A carry leaves the number just if the top digit is at least 5, whatever the digits below it are.
theorem doubleLoop_yields {b : BigNum} (h : b.Digits) :
    Yields (doubleLoop b.wei 0 0 b) fun r => (r.1 = 0 ∨ r.1 = 1) ∧ (r.1 = 1 ↔ 5 ≤ b.cell (b.wei - 1)) ∧
      r.2.wei = b.wei ∧ r.2.arrLen = b.arrLen ∧ (∀ i < b.wei, 0 ≤ r.2.cell i ∧ r.2.cell i ≤ 9) ∧
      r.2.value + r.1 * 10 ^ b.wei = b.value + b.value := by
  have hle := h.wei_le
  rw [doubleLoop_eq]
  refine (addLoop_yields b.wei 0 0 (.same b) (by simpa using hle) (by simpa using hle)
    (Or.inl rfl) (fun j _ hj => h.digit j (by omega)) fun j _ hj => h.digit j (by omega)).bind ?_
  rintro ⟨next, ops⟩ ⟨hnext, -, hrip⟩
  simp only [Operands.fst_same, Operands.snd_same] at hnext hrip
  have hval : ops.fst.value + next * 10 ^ b.wei = b.value + b.value := by
    have := hrip.total
    rw [value_add_digits] at this
    simpa only [BigNum.value, hrip.wei] using this
  have hdigit : ∀ i < b.wei, 0 ≤ ops.fst.cell i ∧ ops.fst.cell i ≤ 9 := fun i hi =>
    hrip.digit i (Nat.zero_le i) (by omega)
  have hd : ops.fst.Digits :=
    ⟨hrip.wei ▸ h.wei_pos, by rw [hrip.wei, hrip.arrLen]; exact hle, by rw [hrip.wei]; exact hdigit⟩
  refine yields_pure ⟨hnext, ?_, hrip.wei, hrip.arrLen, hdigit, hval⟩
  have hlt := hd.value_lt
  have hnn := hd.value_nonneg
  rw [hrip.wei] at hlt
  constructor
  · rintro rfl
    by_contra htop
    have := double_lt_of_top_lt h (by omega)
    omega
  · intro htop
    have := double_ge_of_le_top h htop
    rcases hnext with rfl | rfl
    · omega
    · rfl

-- The guard looks only at the top digit, and that is enough.
theorem doubleGuard_yields {b : BigNum} (h : b.Digits) :
    Yields (if 5 ≤ b.cell (b.wei - 1) then ensureRoom b else pure b) fun b₁ =>
      b.Extends b₁ ∧ (b₁.arrLen = b.arrLen ∨ b₁.arrLen = b.room) ∧
      (5 ≤ b.cell (b.wei - 1) → b.wei < b₁.arrLen) := by
  split_ifs with htop
  · apply (ensureRoom_yields b).mono
    intro b₁ hspec
    obtain ⟨he, hl⟩ := hspec
    refine ⟨he, Or.inr hl, fun _ => ?_⟩
    rw [hl]
    exact h.wei_lt_room
  · exact yields_pure ⟨.refl b, Or.inl rfl, fun h => absurd h htop⟩

-- big_num_add_0_self up to its last test, with the carry that it tests.
def doubleDigits (b : BigNum) : Prog (Int × BigNum) := do
  let bigN ← (if 5 ≤ b.cell (b.wei - 1) then ensureRoom b else pure b)
  doubleLoop bigN.wei 0 0 bigN

theorem bigNumAdd0Self_eq {b : BigNum} (h : b.Digits) :
    bigNumAdd0Self b = doubleDigits b >>= fun r => carryOut r.1 r.2 := by
  have hp := h.wei_pos
  have hle := h.wei_le
  rw [bigNumAdd0Self, if_neg (by omega), BigNum.read_of_lt (by omega), pure_bind, doubleDigits, bind_assoc]

theorem doubleDigits_yields {b : BigNum} (h : b.Digits) :
    Yields (doubleDigits b) fun r => (r.1 = 0 ∨ r.1 = 1) ∧ (r.1 = 1 ↔ 5 ≤ b.cell (b.wei - 1)) ∧
      r.2.wei = b.wei ∧ b.arrLen ≤ r.2.arrLen ∧ (r.2.arrLen = b.arrLen ∨ r.2.arrLen = b.room) ∧
      (r.1 = 1 → b.wei < r.2.arrLen) ∧ (∀ i < b.wei, 0 ≤ r.2.cell i ∧ r.2.cell i ≤ 9) ∧
      r.2.value + r.1 * 10 ^ b.wei = b.value + b.value := by
  have hp := h.wei_pos
  have hle := h.wei_le
  apply (doubleGuard_yields h).bind
  intro b₁ hspec
  obtain ⟨he, hl, hroom⟩ := hspec
  apply (doubleLoop_yields (he.digits h)).mono
  rintro ⟨next, b₂⟩ ⟨hnext, hcarry, hw₂, hl₂, hdigit, hval⟩
  simp only at hnext hcarry hw₂ hl₂ hdigit hval
  rw [he.value hle, he.wei] at hval
  rw [he.wei, he.cell _ (by omega)] at hcarry
  rw [he.wei] at hw₂ hdigit
  rw [← hl₂] at hl hroom
  refine ⟨hnext, hcarry, hw₂, ?_, hl, fun hone => hroom (hcarry.mp hone), hdigit, hval⟩
  rw [hl₂]
  exact he.arrLen

theorem bigNumAdd0Self_yields {b : BigNum} (h : b.Digits) :
    Yields (bigNumAdd0Self b) fun b' => b'.Digits ∧ b'.value = b.value + b.value ∧
      (b'.arrLen = b.arrLen ∨ b'.arrLen = b.room) ∧ (b.NoLeadingZero → b'.NoLeadingZero) := by
  have hp := h.wei_pos
  have hle := h.wei_le
  rw [bigNumAdd0Self_eq h]
  refine (doubleDigits_yields h).bind ?_
  rintro ⟨next, b₂⟩ ⟨hnext, -, hw₂, hge, hl, hroom, hdigit, hval⟩
  simp only at hnext hw₂ hge hl hroom hdigit hval ⊢
  refine (carryOut_yields hnext (by omega) ?_ ?_ (hw₂ ▸ hdigit)).mono fun b' hspec => ?_
  · omega
  · intro hone
    have := hroom hone
    omega
  · obtain ⟨hd', hl', hv', hw'⟩ := hspec
    have hv : b'.value = b.value + b.value := by rw [hv', hw₂]; exact hval
    refine ⟨hd', hv, by omega, fun hz => ?_⟩
    have := h.value_nonneg
    rw [hw₂] at hw'
    exact h.noLeadingZero_of_grow hd' hz (by omega) hw'

end Double

section Copy

theorem BigNum.set_cell {b : BigNum} {i : Nat} (hi : i < b.arrLen) : b.set i (b.cell i) = b := by
  unfold BigNum.arrLen at hi
  simp only [BigNum.set, BigNum.cell, List.getD_eq_getElem?_getD, List.getElem?_eq_getElem hi,
    Option.getD_some, List.set_getElem_self]

theorem copyLoop_same (n i : Nat) (b : BigNum) (hi : i + n ≤ b.arrLen) :
    copyLoop n i (.same b) = pure (.same b) := by
  induction n generalizing i with
  | zero => rfl
  | succ n ih =>
      simp only [copyLoop, Operands.fst_same, Operands.snd_same, Operands.setFst_same]
      rw [BigNum.read_of_lt (by omega), pure_bind, BigNum.write_of_lt (by omega), pure_bind,
        BigNum.set_cell (by omega)]
      exact ih (i + 1) (by omega)

-- A number copied onto itself is cleared before it is read.
theorem bigNumCpy_same_yields {b : BigNum} (h : b.Digits) :
    Yields (bigNumCpy (.same b)) fun ops => ∃ b', ops = .same b' ∧ b'.Digits ∧ b'.wei = b.wei ∧
      b'.arrLen = b.arrLen := by
  have hle := h.wei_le
  rw [bigNumCpy]
  simp only [Operands.fst_same, Operands.snd_same, Operands.setFst_same, Nat.lt_irrefl, if_false,
    pure_bind]
  apply (zeroLoop_yields b.arrLen 0 b (by omega)).bind
  intro b₀ hspec
  obtain ⟨hw, hl, hc⟩ := hspec
  rw [copyLoop_same _ _ _ (by omega), pure_bind]
  refine yields_pure ⟨b₀, rfl, ⟨hw ▸ h.wei_pos, by omega, fun i hi => ?_⟩, hw, hl⟩
  rw [hc i, if_pos (by omega)]
  omega

end Copy

section Add

variable {hi lo : BigNum}

-- The cell of the shorter operand that the loop of big_num_add meets at position `i`: the cells
-- above the digits are cleared only when its array has to grow to the size of the sum.
def readCell (hi lo : BigNum) (i : Nat) : Int :=
  if lo.arrLen < hi.room ∧ lo.wei ≤ i then 0 else lo.cell i

-- `b2` grown to the size of the sum and past it.
theorem grown_yields (hlo : lo.Digits) (n : Nat) {b : BigNum} (he : lo.Extends b) :
    Yields ((if b.arrLen < n then realloc b n >>= clearAbove else pure b) >>= growTo (n + 1))
      fun b' => lo.Keeps b' ∧ n < b'.arrLen ∧
        (∀ i < n, b'.cell i = if b.arrLen < n ∧ lo.wei ≤ i then 0 else b.cell i) ∧
        b'.arrLen = capAfter (n + 1) (max b.arrLen n) := by
  have hd := he.digits hlo
  have hp := hd.wei_pos
  have hle := hd.wei_le
  have hfirst : Yields (if b.arrLen < n then realloc b n >>= clearAbove else pure b) fun b₁ =>
      lo.Keeps b₁ ∧ b₁.arrLen = max b.arrLen n ∧
      ∀ i < n, b₁.cell i = if b.arrLen < n ∧ lo.wei ≤ i then 0 else b.cell i := by
    split_ifs with hlt
    · apply (realloc_yields b hlt.le).bind
      intro b₀ hspec
      obtain ⟨he₀, hl₀⟩ := hspec
      have hle₀ := (he₀.digits hd).wei_le
      have hk := (he.trans he₀).keeps hlo.wei_le
      apply (clearAbove_yields hle₀).mono
      intro b₁ hspec
      obtain ⟨hw₁, hl₁, hc₁⟩ := hspec
      refine ⟨⟨hw₁.trans hk.wei, by have := hk.arrLen; omega, fun i hi => ?_⟩, by omega, fun i hi => ?_⟩
      · rw [hc₁ i, if_pos (by rw [hk.wei]; exact hi)]
        exact hk.cell i hi
      · rw [hc₁ i, hk.wei]
        by_cases hi' : i < lo.wei
        · have := hlo.wei_le
          have := he.arrLen
          rw [if_pos hi', if_neg (by omega)]
          exact he₀.cell i (by omega)
        · rw [if_neg hi', if_pos ⟨hlt, by omega⟩]
    · refine yields_pure ⟨he.keeps hlo.wei_le, by omega, fun i hi => ?_⟩
      rw [if_neg (by omega)]
  apply hfirst.bind
  intro b₁ hspec
  obtain ⟨hk, hl, hc⟩ := hspec
  apply (growTo_yields (n + 1) b₁ (by omega)).mono
  intro b' hspec
  obtain ⟨he', hl', hn'⟩ := hspec
  refine ⟨hk.trans (he'.keeps (hk.digits hlo).wei_le), by omega, fun i hi => ?_, by rw [hl', hl]⟩
  rw [he'.cell i (by omega), hc i hi]

theorem readCell_low (i : Nat) (hi' : i < lo.wei) : readCell hi lo i = lo.cell i := by
  rw [readCell, if_neg (by omega)]

-- What big_num_add leaves behind: the sum of the longer operand and the cells read of the other one.
structure Summed (hi lo res : BigNum) : Prop where
  digits : res.Digits
  value : res.value = hi.value + Positional.value 10 (readCell hi lo) hi.wei
  arrLen : res.arrLen = max 2 hi.room
  noLeadingZero : hi.NoLeadingZero → res.NoLeadingZero

-- The loop and the last carry, over the copy of `hi` and the grown `lo`.
theorem addDigits_yields (h : hi.Digits) {res b2 : BigNum} (hw : res.wei = hi.wei)
    (hl : res.arrLen = max 2 hi.room) (hl2 : res.arrLen < b2.arrLen)
    (hc : ∀ i < hi.wei, res.cell i = hi.cell i)
    (hc2 : ∀ i < hi.wei, b2.cell i = readCell hi lo i)
    (hread : ∀ i < hi.wei, 0 ≤ readCell hi lo i ∧ readCell hi lo i ≤ 9) :
    Yields (addLoop res.wei 0 0 (.apart res b2)) fun r => r.2.snd = b2 ∧
      Yields (carryOut r.1 r.2.fst) (Summed hi lo) := by
  have hroom := h.wei_lt_room
  have hp := h.wei_pos
  refine (addLoop_yields res.wei 0 0 (.apart res b2) (by simp; omega) (by simp; omega) (Or.inl rfl)
    ?_ ?_).mono ?_
  · intro j _ hj
    rw [Operands.fst_apart, hc j (by omega)]
    exact h.digit j (by omega)
  · intro j _ hj
    rw [Operands.snd_apart, hc2 j (by omega)]
    exact hread j (by omega)
  rintro ⟨next, ops⟩ ⟨hnext, hset, hrip⟩
  simp only [Operands.setFst_apart, Operands.fst_apart, Operands.snd_apart] at hnext hset hrip
  simp only
  generalize ops.fst = s at hset hrip ⊢
  subst hset
  refine ⟨rfl, ?_⟩
  have hws : s.wei = hi.wei := hrip.wei.trans hw
  have hls : s.arrLen = max 2 hi.room := hrip.arrLen.trans hl
  have hval : s.value + next * 10 ^ s.wei = hi.value + value 10 (readCell hi lo) hi.wei := by
    have htotal := hrip.total
    rw [value_add_digits, hw, value_congr hc, value_congr hc2] at htotal
    rw [BigNum.value, hws]
    exact htotal
  refine (carryOut_yields hnext (by omega) (by omega) (fun _ => by omega)
    fun i hi' => hrip.digit i (by omega) (by omega)).mono fun res' hspec => ?_
  obtain ⟨hd', hl', hv', hw'⟩ := hspec
  have hv : res'.value = hi.value + value 10 (readCell hi lo) hi.wei := hv'.trans hval
  refine ⟨hd', hv, hl'.trans hls, fun hz => ?_⟩
  have hnn : 0 ≤ value (10 : Int) (readCell hi lo) hi.wei :=
    Positional.value_nonneg (by norm_num) fun i hi' => (hread i hi').1
  rw [hws] at hw'
  exact h.noLeadingZero_of_grow hd' hz (by omega) hw'

-- The addition with its operands in order: `ops.fst` is not shorter than `ops.snd`.
def addSorted (ops : Operands) : Prog (BigNum × Operands) := do
  let res ← getZero
  let b1 ← ensureRoom ops.fst
  let ops := ops.setFst b1
  let copied ← bigNumCpy (.apart res ops.fst)
  let res := copied.fst
  let ops := ops.setFst copied.snd
  let b2 ← (if ops.snd.arrLen < res.arrLen then realloc ops.snd res.arrLen >>= clearAbove
    else pure ops.snd)
  let b2 ← growTo (res.arrLen + 1) b2
  let (next, added) ← addLoop res.wei 0 0 (.apart res b2)
  let ops := ops.setSnd added.snd
  let res ← carryOut next added.fst
  pure (res, ops)

theorem bigNumAdd_eq (ops : Operands) :
    bigNumAdd ops = (do
      let flag ← bigNumCmp ops.fst ops.snd
      let r ← addSorted (if flag = -1 then ops.swap else ops)
      pure (r.1, if flag = -1 then r.2.swap else r.2)) := by
  simp only [bigNumAdd, addSorted, bind_assoc, pure_bind]

-- An object passed twice is read below its own length only, so the two cases agree.
theorem cell_eq_readCell (ops : Operands) (h1 : ops.fst.Digits) {b1 : BigNum}
    (he : ops.fst.Extends b1) (hl : b1.arrLen = ops.fst.room) (i : Nat) (hi : i < ops.fst.wei) :
    (if (ops.setFst b1).snd.arrLen < ops.fst.room ∧ ops.snd.wei ≤ i then 0
      else (ops.setFst b1).snd.cell i) = readCell ops.fst ops.snd i := by
  cases ops with
  | apart b b2 => rfl
  | same b =>
      have hle := h1.wei_le
      show (if b1.arrLen < b.room ∧ b.wei ≤ i then 0 else b1.cell i) = readCell b b i
      simp only [Operands.fst_same] at he hl hi hle
      rw [readCell_low i hi, if_neg (by omega)]
      exact he.cell i (by omega)

theorem addSorted_yields (ops : Operands) (h1 : ops.fst.Digits) (h2 : ops.snd.Digits)
    (hread : ∀ i < ops.fst.wei, 0 ≤ readCell ops.fst ops.snd i ∧ readCell ops.fst ops.snd i ≤ 9) :
    Yields (addSorted ops) fun r => Summed ops.fst ops.snd r.1 ∧ ops.fst.Keeps r.2.fst ∧
      ops.snd.Keeps r.2.snd ∧ (TwoPowCapacity ops.fst → TwoPowCapacity ops.snd →
        TwoPowCapacity r.2.fst ∧ TwoPowCapacity r.2.snd) := by
  have hp := h1.wei_pos
  have hroom := h1.wei_lt_room
  rw [addSorted]
  apply getZero_yields.bind
  intro z hspec
  obtain ⟨_, hz, _⟩ := hspec
  apply (ensureRoom_yields ops.fst).bind
  intro b1 hspec
  obtain ⟨he, hl⟩ := hspec
  simp only [Operands.fst_setFst, Operands.setFst_setFst]
  refine (bigNumCpy_yields z b1 (he.digits h1).wei_le).bind ?_
  rintro _ ⟨c, rfl, hkc, hlc, -⟩
  simp only [Operands.fst_apart, Operands.snd_apart]
  rw [← bind_assoc]
  have hn : c.arrLen = ops.fst.room := by omega
  simp only [hn]
  have he₂ := ops.extends_snd he
  apply (grown_yields h2 ops.fst.room he₂).bind
  intro b2 hspec
  obtain ⟨hk, hlt, hcell, hlen⟩ := hspec
  refine (addDigits_yields h1 (hkc.wei.trans he.wei) (by omega) (by omega)
    ?_ ?_ hread).bind ?_
  · intro i hi
    exact ((he.keeps h1.wei_le).trans hkc).cell i hi
  · intro i hi
    rw [hcell i (by omega)]
    exact cell_eq_readCell ops h1 he hl i hi
  rintro ⟨next, added⟩ ⟨hsnd, hcarry⟩
  simp only at hsnd hcarry ⊢
  refine hcarry.bind fun res hsum => yields_pure ⟨hsum, ?_, ?_, fun hc1 hc2 => ?_⟩
  · rw [hsnd]
    cases ops with
    | apart b b' => exact he.keeps h1.wei_le
    | same b => exact hk
  · rw [hsnd, Operands.snd_setSnd]
    exact hk
  · have hb1 : TwoPowCapacity b1 := by
      rw [TwoPowCapacity, hl]
      exact hc1.room
    have hgrown : TwoPowCapacity (ops.setFst b1).snd := by
      cases ops with
      | apart b b' => exact hc2
      | same b => exact hb1
    have hb2 : TwoPowCapacity b2 := by
      rw [TwoPowCapacity, hlen]
      exact (hgrown.max hc1.room).capAfter _
    rw [hsnd]
    cases ops with
    | apart b b' => exact ⟨hb1, hb2⟩
    | same b => exact ⟨hb2, hb2⟩

-- The sum as the caller sees it.
theorem bigNumAdd_yields (ops : Operands) (h1 : ops.fst.Digits) (h2 : ops.snd.Digits)
    (hread : ∀ i < ops.larger.wei, 0 ≤ readCell ops.larger ops.smaller i ∧
      readCell ops.larger ops.smaller i ≤ 9) :
    Yields (bigNumAdd ops) fun r => Summed ops.larger ops.smaller r.1 ∧ ops.fst.Keeps r.2.fst ∧
      ops.snd.Keeps r.2.snd ∧ (TwoPowCapacity ops.fst → TwoPowCapacity ops.snd →
        TwoPowCapacity r.2.fst ∧ TwoPowCapacity r.2.snd) := by
  rw [bigNumAdd_eq]
  apply (bigNumCmp_less h1 h2).bind
  intro flag hflag
  simp only [hflag]
  unfold Operands.larger Operands.smaller at *
  split_ifs at * with hless
  · refine (addSorted_yields ops.swap (by simpa using h2) (by simpa using h1)
      (by simpa using hread)).bind fun r hspec => yields_pure ?_
    obtain ⟨hsum, hk1, hk2, hcap⟩ := hspec
    simp only [Operands.fst_swap, Operands.snd_swap] at *
    exact ⟨hsum, hk2, hk1, fun hc1 hc2 => (hcap hc2 hc1).symm⟩
  · exact (addSorted_yields ops h1 h2 hread).bind fun r hr => yields_pure hr

end Add

section Add0

-- When big_num_add_0 leaves a well-formed number: no carry passes the second operand's length, or
-- the cell that takes it exists and can be incremented.
def Add0Safe (ops : Operands) : Prop :=
  if ops.fst.Less ops.snd then
    ops.fst.value + ops.snd.value < 10 ^ ops.snd.wei ∨
      ops.snd.wei < capAfter ops.snd.arrLen ops.fst.room
  else
    value 10 ops.fst.cell ops.snd.wei + ops.snd.value < 10 ^ ops.snd.wei ∨
      (ops.fst.wei < ops.fst.arrLen ∧ 0 ≤ ops.fst.cell ops.fst.wei ∧ ops.fst.cell ops.fst.wei ≤ 8)

theorem bigNumAdd0_canonical_less {b1 b2 : BigNum} (h1 : b1.Digits) (h2 : b2.Digits)
    (hz : b2.NoLeadingZero) (hless : b1.Less b2)
    (hroom : 10 ^ b2.wei ≤ b1.value + b2.value → b2.wei < capAfter b2.arrLen b1.room) :
    Yields (bigNumAdd0 (.apart b1 b2)) fun ops => ∃ b, ops = .apart b b2 ∧ b.Digits ∧
      b.NoLeadingZero ∧ (b.arrLen = b1.room ∨ b.arrLen = capAfter b2.arrLen b1.room) := by
  have hwei := hless.wei_le
  refine (bigNumAdd0_yields h1 h2 (fun h => absurd hless h) fun _ => hroom).mono ?_
  rintro _ ⟨b, rfl, hd, hv, hl, hw⟩
  have hnn := h1.value_nonneg
  refine ⟨b, rfl, hd, h2.noLeadingZero_of_grow hd hz (by omega) ?_, hl⟩
  rcases hw with hw | ⟨hw, hbig⟩
  · exact Or.inl (by omega)
  · exact Or.inr ⟨hw, by omega⟩

-- Here the carry out of the shorter operand's length lands above the longer one's digits.
theorem bigNumAdd0_canonical_not_less (ops : Operands) (h1 : ops.fst.Digits) (h2 : ops.snd.Digits)
    (hz : ops.fst.NoLeadingZero) (hless : ¬ops.fst.Less ops.snd)
    (hsafe : value 10 ops.fst.cell ops.snd.wei + ops.snd.value < 10 ^ ops.snd.wei ∨
      (ops.fst.wei < ops.fst.arrLen ∧ 0 ≤ ops.fst.cell ops.fst.wei ∧ ops.fst.cell ops.fst.wei ≤ 8)) :
    Yields (bigNumAdd0 ops) fun ops' => ∃ b, ops' = ops.setFst b ∧ b.Digits ∧
      b.NoLeadingZero ∧ b.arrLen = ops.fst.room := by
  have hwei := BigNum.wei_le_of_not_less hless
  have hle := h1.wei_le
  have hroom := h1.wei_lt_room
  refine (sumInto_not_less ops h1 h2 hless).bind ?_
  rintro ⟨next, ops'⟩ ⟨hnext, b, hops, hd, hw, hl, hv, hc⟩
  simp only at hnext hops hv ⊢
  subst hops
  rw [Operands.fst_setFst]
  rcases hnext with rfl | rfl
  · rw [incrementTop_zero, pure_bind]
    refine yields_pure ⟨b, by simp, hd, ?_, hl⟩
    have hsum := value_add_low_of_agree (b := (10 : Int)) hwei fun i hi hi' => hc i hi (by omega)
    have hnn := h2.value_nonneg
    refine h1.noLeadingZero_of_grow hd hz ?_ (Or.inl hw)
    rw [BigNum.value, BigNum.value, hw]
    omega
  · have hnn : 0 ≤ value (10 : Int) b.cell ops.snd.wei :=
      Positional.value_nonneg (by norm_num) fun i hi => (hd.digit i (by omega)).1
    obtain ⟨hlt, hcell⟩ := hsafe.resolve_left (by omega)
    have htop : b.cell b.wei = ops.fst.cell ops.fst.wei := by rw [hw]; exact hc _ hwei hlt
    have hlt' : b.wei < b.arrLen := by omega
    rw [incrementTop_one hlt' (by omega), pure_bind]
    refine yields_pure ⟨b.push (b.cell b.wei + 1), by simp, .push hlt' hd.digit (by omega), Or.inl ?_,
      by simpa using hl⟩
    rw [BigNum.push_wei, Nat.add_sub_cancel, BigNum.cell_push hlt', if_pos rfl]
    omega

theorem bigNumAdd0_canonical (ops : Operands) (h1 : ops.fst.Digits) (h2 : ops.snd.Digits)
    (hz1 : ops.fst.NoLeadingZero) (hz2 : ops.snd.NoLeadingZero) (hsafe : Add0Safe ops) :
    Yields (bigNumAdd0 ops) fun ops' => ∃ b, ops' = ops.setFst b ∧ b.Digits ∧
      b.NoLeadingZero ∧ (TwoPowCapacity ops.fst → TwoPowCapacity b) := by
  unfold Add0Safe at hsafe
  split_ifs at hsafe with hless
  · cases ops with
    | apart b1 b2 =>
        simp only [Operands.fst_apart, Operands.snd_apart] at *
        refine (bigNumAdd0_canonical_less h1 h2 hz2 hless fun hbig => ?_).mono ?_
        · exact hsafe.resolve_left (by omega)
        · rintro _ ⟨b, rfl, hd, hz, hl⟩
          refine ⟨b, rfl, hd, hz, fun hcap => ?_⟩
          rw [TwoPowCapacity]
          rcases hl with hl | hl
          · rw [hl]
            exact hcap.room
          · rw [hl]
            exact hcap.room.capAfter _
    | same b => exact absurd hless hless.asymm
  · refine (bigNumAdd0_canonical_not_less ops h1 h2 hz1 hless hsafe).mono ?_
    rintro _ ⟨b, rfl, hd, hz, hl⟩
    refine ⟨b, rfl, hd, hz, fun hcap => ?_⟩
    rw [TwoPowCapacity, hl]
    exact hcap.room

end Add0

end RichardTest.BigNumC
