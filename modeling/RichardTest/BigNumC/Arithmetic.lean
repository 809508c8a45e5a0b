import RichardTest.BigNumC.Lemmas

namespace RichardTest.BigNumC

open Outcome Positional

-- `b'` is `b` after a digit loop over the cells `i .. i + n - 1`: each step splits the sum of the
-- term `t` and the incoming carry into a digit and the next carry.
structure Rippled (t : Nat → Int) (i n : Nat) (c c' : Int) (b b' : BigNum) : Prop where
  wei : b'.wei = b.wei
  arrLen : b'.arrLen = b.arrLen
  frame : ∀ j, j < i ∨ i + n ≤ j → b'.cell j = b.cell j
  digit : ∀ j, i ≤ j → j < i + n → 0 ≤ b'.cell j ∧ b'.cell j ≤ 9
  value : Positional.value 10 (fun j => b'.cell (i + j)) n + c' * 10 ^ n =
    Positional.value 10 (fun j => t (i + j)) n + c

namespace Rippled

variable {t : Nat → Int} {i n : Nat} {c c₁ c' s : Int} {b b' : BigNum}

theorem nil : Rippled t i 0 c c b b where
  wei := rfl
  arrLen := rfl
  frame _ _ := rfl
  digit j h h' := by omega
  value := by simp

theorem cons (hi : i < b.arrLen) (hs : 0 ≤ s ∧ s ≤ 9) (hstep : s + 10 * c₁ = t i + c)
    (hrest : Rippled t (i + 1) n c₁ c' (b.set i s) b') : Rippled t i (n + 1) c c' b b' where
  wei := hrest.wei
  arrLen := by simpa using hrest.arrLen
  frame j hj := by
    rw [hrest.frame j (by omega), BigNum.cell_set hi, if_neg (by omega)]
  digit j h h' := by
    by_cases hji : j = i
    · subst j
      rw [hrest.frame i (by omega), BigNum.cell_set hi, if_pos rfl]
      exact hs
    · exact hrest.digit j (by omega) (by omega)
  value := by
    apply ripple_step hstep _ _ rfl
    · have h := hrest.value
      simp only [Nat.add_assoc, Nat.add_comm 1] at h
      exact h
    · show b'.cell (i + 0) = s
      rw [Nat.add_zero, hrest.frame i (by omega), BigNum.cell_set hi, if_pos rfl]

-- A loop that starts at the lowest digit.
theorem total (h : Rippled t 0 n 0 c' b b') :
    Positional.value 10 b'.cell n + c' * 10 ^ n = Positional.value 10 t n := by
  simpa using h.value

end Rippled

namespace BigNum

variable {b : BigNum} {c : Int}

-- `arr[wei++] = c`.
def push (b : BigNum) (c : Int) : BigNum := { b.set b.wei c with wei := b.wei + 1 }

@[simp] theorem push_wei : (b.push c).wei = b.wei + 1 := rfl

@[simp] theorem push_arrLen : (b.push c).arrLen = b.arrLen := set_arrLen

theorem cell_push (hwei : b.wei < b.arrLen) (j : Nat) :
    (b.push c).cell j = if j = b.wei then c else b.cell j :=
  cell_set hwei

theorem write_push (hwei : b.wei < b.arrLen) :
    (do
      let b' ← b.write b.wei c
      pure { b' with wei := b'.wei + 1 } : Prog BigNum) = pure (b.push c) := by
  rw [write_of_lt hwei, pure_bind]
  rfl

theorem Digits.push (hwei : b.wei < b.arrLen)
    (hdigit : ∀ i < b.wei, 0 ≤ b.cell i ∧ b.cell i ≤ 9) (hc : 0 ≤ c ∧ c ≤ 9) :
    (b.push c).Digits where
  wei_pos := by simp
  wei_le := by simp only [push_wei, push_arrLen]; omega
  digit i hi := by
    rw [cell_push hwei]
    split_ifs with h
    · exact hc
    · rw [push_wei] at hi
      exact hdigit i (by omega)

theorem value_push (hwei : b.wei < b.arrLen) : (b.push c).value = b.value + c * 10 ^ b.wei := by
  simp only [value, push_wei, value_succ, cell_push hwei, if_pos]
  congr 1
  apply value_congr
  intro i hi
  rw [cell_push hwei, if_neg (by omega)]

end BigNum

section Compare

theorem cmpLoop_yields (b1 b2 : BigNum) (n : Nat) (h1 : n ≤ b1.arrLen) (h2 : n ≤ b2.arrLen)
    (hd1 : ∀ i < n, 0 ≤ b1.cell i ∧ b1.cell i ≤ 9) (hd2 : ∀ i < n, 0 ≤ b2.cell i ∧ b2.cell i ≤ 9) :
    Yields (cmpLoop b1 b2 n) fun r =>
      (r = 1 ∧ value 10 b2.cell n < value 10 b1.cell n) ∨
      (r = -1 ∧ value 10 b1.cell n < value 10 b2.cell n) ∨
      (r = 0 ∧ value 10 b1.cell n = value 10 b2.cell n) := by
  -- the digit at the top decides unless the two agree there
  have hlt : ∀ {a b : BigNum} {n : Nat}, (∀ i < n + 1, 0 ≤ a.cell i ∧ a.cell i ≤ 9) →
      (∀ i < n + 1, 0 ≤ b.cell i ∧ b.cell i ≤ 9) → a.cell n < b.cell n →
      value 10 a.cell (n + 1) < value 10 b.cell (n + 1) := by
    intro a b n ha hb hab
    have := value_add_one_le_of_digit (b := (10 : Int)) (d := a.cell) (e := b.cell) (k := n)
      (n := n + 1) (by norm_num) (fun i hi => by have := ha i hi; omega) (fun i hi => (hb i hi).1)
      (by omega) (by omega) (fun i h h' => by omega)
    omega
  induction n with
  | zero => exact yields_pure (Or.inr (Or.inr ⟨rfl, by simp⟩))
  | succ n ih =>
      simp only [cmpLoop]
      rw [BigNum.read_of_lt (by omega), pure_bind, BigNum.read_of_lt (by omega), pure_bind]
      split_ifs with hgt hless
      · exact yields_pure (Or.inl ⟨rfl, hlt hd2 hd1 hgt⟩)
      · exact yields_pure (Or.inr (Or.inl ⟨rfl, hlt hd1 hd2 hless⟩))
      · have htop : b1.cell n = b2.cell n := by omega
        refine (ih (by omega) (by omega) (fun i hi => hd1 i (by omega))
          (fun i hi => hd2 i (by omega))).mono fun r hr => ?_
        simp only [value_succ, htop]
        omega

theorem bigNumCmp_yields {b1 b2 : BigNum} (h1 : b1.Digits) (h2 : b2.Digits) :
    Yields (bigNumCmp b1 b2) fun r =>
      (r = 1 ∧ b2.Less b1) ∨ (r = -1 ∧ b1.Less b2) ∨
      (r = 0 ∧ b1.wei = b2.wei ∧ b1.value = b2.value) := by
  rw [bigNumCmp]
  split_ifs with hgt hlt
  · exact yields_pure (Or.inl ⟨rfl, Or.inl hgt⟩)
  · exact yields_pure (Or.inr (Or.inl ⟨rfl, Or.inl hlt⟩))
  · have hw : b1.wei = b2.wei := by omega
    have hl := h1.wei_le
    have hl' := h2.wei_le
    apply (cmpLoop_yields b1 b2 b1.wei hl (by omega) h1.digit (hw ▸ h2.digit)).mono
    intro r hr
    unfold BigNum.Less BigNum.value
    rw [hw] at hr ⊢
    rcases hr with ⟨h, hv⟩ | ⟨h, hv⟩ | ⟨h, hv⟩
    · exact Or.inl ⟨h, Or.inr ⟨rfl, hv⟩⟩
    · exact Or.inr (Or.inl ⟨h, Or.inr ⟨rfl, hv⟩⟩)
    · exact Or.inr (Or.inr ⟨h, rfl, hv⟩)

theorem BigNum.Less.wei_le {b1 b2 : BigNum} (hless : b1.Less b2) : b1.wei ≤ b2.wei := by
  unfold BigNum.Less at hless
  omega

theorem BigNum.wei_le_of_not_less {b1 b2 : BigNum} (hless : ¬b1.Less b2) : b2.wei ≤ b1.wei := by
  unfold BigNum.Less at hless
  omega

theorem BigNum.Less.asymm {b1 b2 : BigNum} (h : b1.Less b2) : ¬b2.Less b1 := by
  unfold BigNum.Less at *
  omega

-- All that the callers ask of the comparison.
theorem bigNumCmp_less {b1 b2 : BigNum} (h1 : b1.Digits) (h2 : b2.Digits) :
    Yields (bigNumCmp b1 b2) fun r => r = -1 ↔ b1.Less b2 := by
  apply (bigNumCmp_yields h1 h2).mono
  intro r hr
  rcases hr with ⟨rfl, h⟩ | ⟨rfl, h⟩ | ⟨rfl, h⟩
  · exact iff_of_false (by norm_num) h.asymm
  · exact iff_of_true rfl h
  · refine iff_of_false (by norm_num) ?_
    rw [BigNum.Less]
    omega

end Compare

section Add

-- Writing below cell `i` of the first object does not show in cell `j > i` of either object.
theorem Operands.snd_setFst_set (ops : Operands) {i j : Nat} (s : Int) (hi : i < ops.fst.arrLen)
    (hj : j ≠ i) : (ops.setFst (ops.fst.set i s)).snd.cell j = ops.snd.cell j := by
  cases ops with
  | apart b1 b2 => rfl
  | same b =>
      rw [fst_same] at hi ⊢
      rw [setFst_same, snd_same, snd_same, BigNum.cell_set hi, if_neg hj]

theorem Operands.snd_setFst_set_arrLen (ops : Operands) (i : Nat) (s : Int) :
    (ops.setFst (ops.fst.set i s)).snd.arrLen = ops.snd.arrLen := by
  cases ops with
  | apart b1 b2 => rfl
  | same b => exact BigNum.set_arrLen

-- The loop reads cell `i` of both objects before it writes cell `i` of the first, so the terms are
-- the original cells also when the two objects are one.
theorem addLoop_yields (n i : Nat) (next : Int) (ops : Operands)
    (h1 : i + n ≤ ops.fst.arrLen) (h2 : i + n ≤ ops.snd.arrLen) (hnext : next = 0 ∨ next = 1)
    (hd1 : ∀ j, i ≤ j → j < i + n → 0 ≤ ops.fst.cell j ∧ ops.fst.cell j ≤ 9)
    (hd2 : ∀ j, i ≤ j → j < i + n → 0 ≤ ops.snd.cell j ∧ ops.snd.cell j ≤ 9) :
    Yields (addLoop n i next ops) fun r => (r.1 = 0 ∨ r.1 = 1) ∧ r.2 = ops.setFst r.2.fst ∧
      Rippled (fun j => ops.fst.cell j + ops.snd.cell j) i n next r.1 ops.fst r.2.fst := by
  induction n generalizing i next ops with
  | zero => exact yields_pure ⟨hnext, by simp, .nil⟩
  | succ n ih =>
      -- both branches store a digit `s` and pass on a carry `c`
      have step : ∀ s c : Int, 0 ≤ s ∧ s ≤ 9 → (c = 0 ∨ c = 1) →
          s + 10 * c = (ops.fst.cell i + ops.snd.cell i) + next →
          Yields (addLoop n (i + 1) c (ops.setFst (ops.fst.set i s))) fun r =>
            (r.1 = 0 ∨ r.1 = 1) ∧ r.2 = ops.setFst r.2.fst ∧
            Rippled (fun j => ops.fst.cell j + ops.snd.cell j) i (n + 1) next r.1 ops.fst r.2.fst := by
        intro s c hs hc hsum
        have hsnd : ∀ j, i + 1 ≤ j →
            (ops.setFst (ops.fst.set i s)).snd.cell j = ops.snd.cell j := fun j hj =>
          ops.snd_setFst_set s (by omega) (by omega)
        have hfst : ∀ j, i + 1 ≤ j → (ops.fst.set i s).cell j = ops.fst.cell j := fun j hj => by
          rw [BigNum.cell_set (by omega), if_neg (by omega)]
        refine (ih (i + 1) c _ (by simp; omega) (by rw [Operands.snd_setFst_set_arrLen]; omega) hc
          ?_ ?_).mono fun r hspec => ?_
        · intro j hj hj'
          rw [Operands.fst_setFst, hfst j hj]
          exact hd1 j (by omega) (by omega)
        · intro j hj hj'
          rw [hsnd j hj]
          exact hd2 j (by omega) (by omega)
        · obtain ⟨hr, hset, hrip⟩ := hspec
          rw [Operands.setFst_setFst] at hset
          rw [Operands.fst_setFst] at hrip
          refine ⟨hr, hset, Rippled.cons (by omega) hs hsum ?_⟩
          refine { hrip with value := ?_ }
          rw [hrip.value]
          congr 1
          apply value_congr
          intro j _
          simp only [hfst (i + 1 + j) (by omega), hsnd (i + 1 + j) (by omega)]
      have hx := hd1 i (by omega) (by omega)
      have hy := hd2 i (by omega) (by omega)
      simp only [addLoop]
      rw [BigNum.read_of_lt (by omega), pure_bind, BigNum.read_of_lt (by omega), pure_bind,
        int32_eq (by omega) (by omega)]
      split_ifs with hlt
      · rw [BigNum.write_of_lt (by omega), pure_bind]
        exact step _ 0 (by omega) (Or.inl rfl) (by omega)
      · rw [BigNum.write_of_lt (by omega), pure_bind]
        exact step _ 1 (by omega) (Or.inr rfl) (by omega)

end Add

section MultiDig

variable {a : Int}

-- The carry stays at most 8 because 9 * 9 + 8 = 89.
theorem multiDigLoop_yields (ha : 0 ≤ a ∧ a ≤ 9) (n i : Nat) (next : Int) (b : BigNum)
    (hi : i + n ≤ b.arrLen) (hnext : 0 ≤ next ∧ next ≤ 8)
    (hd : ∀ j, i ≤ j → j < i + n → 0 ≤ b.cell j ∧ b.cell j ≤ 9) :
    Yields (multiDigLoop a n i next b) fun r => (0 ≤ r.1 ∧ r.1 ≤ 8) ∧
      Rippled (fun j => b.cell j * a) i n next r.1 b r.2 := by
  induction n generalizing i next b with
  | zero => exact yields_pure ⟨hnext, .nil⟩
  | succ n ih =>
      have step : ∀ s c : Int, 0 ≤ s ∧ s ≤ 9 → 0 ≤ c ∧ c ≤ 8 → s + 10 * c = b.cell i * a + next →
          Yields (multiDigLoop a n (i + 1) c (b.set i s)) fun r => (0 ≤ r.1 ∧ r.1 ≤ 8) ∧
            Rippled (fun j => b.cell j * a) i (n + 1) next r.1 b r.2 := by
        intro s c hs hc hsum
        have hcell : ∀ j, i + 1 ≤ j → (b.set i s).cell j = b.cell j := fun j hj => by
          rw [BigNum.cell_set (by omega), if_neg (by omega)]
        refine (ih (i + 1) c _ (by simp; omega) hc ?_).mono fun r hspec => ?_
        · intro j hj hj'
          rw [hcell j hj]
          exact hd j (by omega) (by omega)
        · obtain ⟨hr, hrip⟩ := hspec
          refine ⟨hr, Rippled.cons (by omega) hs hsum { hrip with value := ?_ }⟩
          rw [hrip.value]
          congr 1
          apply value_congr
          intro j _
          simp only [hcell (i + 1 + j) (by omega)]
      have hx := hd i (by omega) (by omega)
      have hprod : 0 ≤ b.cell i * a ∧ b.cell i * a ≤ 81 :=
        ⟨mul_nonneg hx.1 ha.1, by nlinarith⟩
      simp only [multiDigLoop]
      rw [BigNum.read_of_lt (by omega), pure_bind, int32_eq (by omega) (by omega)]
      split_ifs with hlt
      · rw [BigNum.write_of_lt (by omega), pure_bind]
        exact step _ 0 (by omega) (by omega) (by omega)
      · rw [BigNum.write_of_lt (by omega), pure_bind,
          Int.tmod_eq_emod_of_nonneg (by omega), Int.tdiv_eq_ediv_of_nonneg (by omega)]
        exact step _ _ (by omega) (by omega) (by omega)

theorem bigNumMultiDig_zero_yields {b : BigNum} (h : b.Digits) :
    Yields (bigNumMultiDig b 0) fun b' => b'.wei = 1 ∧ b'.arrLen = b.arrLen ∧ b'.cell 0 = 0 := by
  have hp := h.wei_pos
  have hl := h.wei_le
  have hlen : 0 < BigNum.arrLen { b with wei := 1 } := by simp; omega
  rw [bigNumMultiDig, if_pos rfl, BigNum.write_of_lt hlen]
  refine yields_pure ⟨rfl, by simp, ?_⟩
  rw [BigNum.cell_set hlen, if_pos rfl]

-- The product has one digit more exactly when it does not fit, and that digit is not zero.
theorem bigNumMultiDig_yields {b : BigNum} (h : b.Digits) (ha : 1 ≤ a ∧ a ≤ 9) :
    Yields (bigNumMultiDig b a) fun b' => b'.Digits ∧ b'.value = b.value * a ∧
      b'.arrLen = b.room ∧
      ((b'.wei = b.wei ∧ b.value * a < 10 ^ b.wei) ∨
        (b'.wei = b.wei + 1 ∧ 10 ^ b.wei ≤ b.value * a)) := by
  rw [bigNumMultiDig, if_neg (by omega)]
  apply (ensureRoom_yields b).bind
  intro b₁ hspec
  obtain ⟨he, hl⟩ := hspec
  have hd := he.digits h
  have hroom : b₁.wei < b₁.arrLen := by
    rw [he.wei, hl]
    exact h.wei_lt_room
  refine (multiDigLoop_yields (by omega) b₁.wei 0 0 b₁ (by omega) (by omega)
    fun j _ hj => hd.digit j (by omega)).bind fun r hspec => ?_
  obtain ⟨hc, hrip⟩ := hspec
  obtain ⟨next, b₂⟩ := r
  simp only at hc hrip ⊢
  have hval : b₂.value + next * 10 ^ b₁.wei = b.value * a := by
    have := hrip.total
    rw [value_mul_digits] at this
    rw [← he.value h.wei_le]
    simpa only [BigNum.value, hrip.wei] using this
  have hdigit : ∀ i < b₂.wei, 0 ≤ b₂.cell i ∧ b₂.cell i ≤ 9 := fun i hi =>
    hrip.digit i (by omega) (by rw [hrip.wei] at hi; omega)
  have hlen : b₂.arrLen = b.room := hrip.arrLen.trans hl
  have hwei : b₂.wei = b.wei := hrip.wei.trans he.wei
  have hp := h.wei_pos
  split_ifs with hn
  · have hlt : b₂.wei < b₂.arrLen := by rw [hrip.wei, hrip.arrLen]; exact hroom
    have hd₂ : b₂.Digits := ⟨by omega, by omega, hdigit⟩
    rw [BigNum.write_push hlt]
    refine yields_pure ⟨.push hlt hdigit (by omega), ?_, by simpa using hlen,
      Or.inr ⟨by simpa using hwei, ?_⟩⟩
    · rw [BigNum.value_push hlt, hrip.wei]
      exact hval
    · rw [← hval, he.wei]
      have := hd₂.value_nonneg
      have hone : (1 : Int) ≤ next := by omega
      nlinarith [pow_pos (show (0 : Int) < 10 by norm_num) b.wei]
  · have hz : next = 0 := by simpa using hn
    have hd₂ : b₂.Digits := ⟨by omega, by rw [hrip.wei, hrip.arrLen]; omega, hdigit⟩
    have hv : b₂.value = b.value * a := by simpa [hz] using hval
    refine yields_pure ⟨hd₂, hv, hlen, Or.inl ⟨hwei, ?_⟩⟩
    rw [← hv, ← hwei]
    exact hd₂.value_lt

end MultiDig

end RichardTest.BigNumC
