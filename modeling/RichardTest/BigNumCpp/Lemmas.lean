import RichardTest.BigNumCpp

namespace RichardTest.BigNumCpp.BigNum

open Positional

theorem base_eq : base = 4294967296 := by
  norm_num [base]

theorem base_nonneg : 0 ≤ base := by
  norm_num [base]

theorem base_one_le : 1 ≤ base := by
  norm_num [base]

section Limbs

variable {A : BigNum} {i j x : Nat}

-- The object after an assignment to `array[i]`.
def update (A : BigNum) (i : Nat) (x : Nat) : BigNum :=
  { A with array := A.array.setIfInBounds i x }

theorem get_of_lt (hi : i < len1) : A.get i = some (A.limb i) := by
  unfold get limb
  rw [Vector.getElem?_eq_getElem hi]
  rfl

theorem set_of_lt (hi : i < len1) : A.set i x = some (A.update i x) := by
  unfold set update
  rw [dif_pos hi]
  congr 2
  ext k hk
  simp [Vector.getElem_set, Vector.getElem_setIfInBounds]

theorem limb_update (hi : i < len1) : (A.update i x).limb j = if j = i then x else A.limb j := by
  unfold limb update
  rw [Vector.getElem?_setIfInBounds]
  by_cases h : i = j
  · subst h
    simp [hi]
  · rw [if_neg h, if_neg (fun hj => h hj.symm)]

@[simp] theorem limb_withLength (n : Nat) : ({ A with length := n } : BigNum).limb = A.limb := rfl

theorem limb_zeros (s : Fin 2) (n : Nat) (i : Nat) :
    ({ zero with signal := s, length := n } : BigNum).limb i = 0 := by
  unfold limb zero
  by_cases h : i < len1
  · simp [h]
  · simp [h]

end Limbs

structure Canonical (A : BigNum) : Prop where
  length_pos : 1 ≤ A.length
  length_le : A.length ≤ len1
  limb_lt : ∀ i, A.limb i < 2 ^ 32
  zero_above : ∀ i, A.length ≤ i → A.limb i = 0
  top : A.length = 1 ∨ A.limb (A.length - 1) ≠ 0

theorem Canonical.neg {A : BigNum} (h : A.Canonical) : A.neg.Canonical := ⟨h.1, h.2, h.3, h.4, h.5⟩

@[simp] theorem mag_neg (A : BigNum) : A.neg.mag = A.mag := rfl

theorem fin_two_cases (s : Fin 2) : s = 0 ∨ s = 1 := by
  revert s
  decide

theorem value_neg (A : BigNum) : A.neg.value = -A.value := by
  have hs : A.neg.signal = 1 - A.signal := rfl
  unfold value
  rw [mag_neg, hs]
  rcases fin_two_cases A.signal with h | h <;> rw [h] <;> simp

section Trim

variable {B : BigNum} {n : Nat}

theorem trim_eq (n : Nat) (hn : 1 ≤ n) (hlen : n ≤ len1) :
    ∃ m, trim n B = some { B with length := m } ∧ 1 ≤ m ∧ m ≤ n ∧
      (∀ i, m ≤ i → i < n → B.limb i = 0) ∧ (m = 1 ∨ B.limb (m - 1) ≠ 0) := by
  induction n, B using trim.induct with
  | case1 => omega
  | case2 => exact ⟨1, rfl, Nat.le_refl 1, Nat.le_refl 1, fun i h h' => by omega, Or.inl rfl⟩
  | case3 n B ih =>
      rw [trim, get_of_lt (by omega)]
      by_cases htop : B.limb (n + 1) = 0
      · obtain ⟨m, hm, hpos, hle, hzero, hnz⟩ := ih (by omega) (by omega)
        refine ⟨m, by simpa [htop] using hm, hpos, by omega, fun i h h' => ?_, hnz⟩
        by_cases hi : i = n + 1
        · rw [hi, htop]
        · exact hzero i h (by omega)
      · refine ⟨n + 2, by simp [htop], by omega, Nat.le_refl _, fun i h h' => by omega, Or.inr ?_⟩
        simpa using htop

theorem trim_mag (hn : 1 ≤ B.length) (hlen : B.length ≤ len1) :
    ∃ R, trim B.length B = some R ∧ R.signal = B.signal ∧ R.mag = B.mag ∧ R.limb = B.limb := by
  obtain ⟨m, hm, hpos, hle, hz, -⟩ := trim_eq (B := B) B.length hn hlen
  refine ⟨_, hm, rfl, (value_of_zero_above hle fun i h h' => ?_).symm, rfl⟩
  simp [hz i h h']

-- Trimming an array that is zero above its length gives a canonical number.
theorem trim_canonical {R : BigNum} (hR : trim B.length B = some R) (hn : 1 ≤ B.length)
    (hlen : B.length ≤ len1) (hlt : ∀ i, B.limb i < 2 ^ 32)
    (hzero : ∀ i, B.length ≤ i → B.limb i = 0) : R.Canonical := by
  obtain ⟨m, hm, hpos, hle, hz, hnz⟩ := trim_eq (B := B) B.length hn hlen
  rw [hm] at hR
  cases hR
  refine ⟨hpos, hle.trans hlen, hlt, fun i hi => ?_, hnz⟩
  by_cases h : i < B.length
  · exact hz i hi h
  · exact hzero i (by omega)

end Trim

section Compare

variable {A B : BigNum}

theorem Canonical.mag_lt (h : A.Canonical) : A.mag < base ^ A.length := by
  have := value_add_one_le (b := base) (d := fun i => (A.limb i : Int)) (n := A.length) base_nonneg
    fun i _ => by have := h.limb_lt i; rw [base_eq]; omega
  rw [mag]
  omega

-- Limbs past the length do not count.
theorem Canonical.value_eq_mag (h : A.Canonical) {n : Nat} (hn : A.length ≤ n) :
    Positional.value base (fun i => (A.limb i : Int)) n = A.mag :=
  value_of_zero_above hn fun i hi _ => by simp [h.zero_above i hi]

theorem Canonical.mag_lt_of_length_lt (hA : A.Canonical) (hB : B.Canonical)
    (hlt : A.length < B.length) : A.mag < B.mag := by
  have htop : B.limb (B.length - 1) ≠ 0 := hB.top.resolve_left (by have := hA.length_pos; omega)
  have hge : base ^ (B.length - 1) ≤ B.mag :=
    pow_le_value base_nonneg (fun _ _ => Int.natCast_nonneg _) (by omega)
      (by exact_mod_cast Nat.one_le_iff_ne_zero.mpr htop)
  have hmono : base ^ A.length ≤ base ^ (B.length - 1) := pow_le_pow_right₀ base_one_le (by omega)
  exact hA.mag_lt.trans_le (hmono.trans hge)

-- Equal magnitudes have equal limbs.
theorem Canonical.eq_of_mag_eq (hA : A.Canonical) (hB : B.Canonical) (h : A.mag = B.mag) :
    A.length = B.length ∧ A.limb = B.limb := by
  have hlen : A.length = B.length := by
    rcases Nat.lt_trichotomy A.length B.length with hlt | heq | hgt
    · exact absurd h (hA.mag_lt_of_length_lt hB hlt).ne
    · exact heq
    · exact absurd h.symm (hB.mag_lt_of_length_lt hA hgt).ne
  refine ⟨hlen, funext fun i => ?_⟩
  by_cases hi : i < A.length
  · have hdigit : ∀ {C : BigNum}, C.Canonical → ∀ i < A.length,
        0 ≤ (C.limb i : Int) ∧ (C.limb i : Int) + 1 ≤ base := fun hC i _ => by
      have := hC.limb_lt i
      rw [base_eq]
      omega
    have huniq := digits_unique base_nonneg (hdigit hA) (hdigit hB) (fun i _ h => by omega)
      (fun i _ h => by omega) (by unfold mag at h; rw [← hlen] at h; exact h) i hi
    exact_mod_cast huniq
  · rw [hA.zero_above i (by omega), hB.zero_above i (by omega)]

-- The answers are 0 for greater, 1 for less and 2 for equal.
def Decides (r : Nat) (x y : Int) : Prop :=
  (r = 0 ∧ y < x) ∨ (r = 1 ∧ x < y) ∨ (r = 2 ∧ x = y)

theorem compareLoop_eq (n : Nat) (hn : n ≤ len1) (hA : ∀ i, A.limb i < 2 ^ 32)
    (hB : ∀ i, B.limb i < 2 ^ 32) :
    ∃ r, compareLoop A B n = some r ∧
      Decides r (Positional.value base (fun i => (A.limb i : Int)) n)
        (Positional.value base (fun i => (B.limb i : Int)) n) := by
  -- the top limb decides unless the two agree there
  have hlt : ∀ {A B : BigNum} {n : Nat}, (∀ i, A.limb i < 2 ^ 32) → A.limb n < B.limb n →
      Positional.value base (fun i => (A.limb i : Int)) (n + 1) <
        Positional.value base (fun i => (B.limb i : Int)) (n + 1) := by
    intro A B n hA hAB
    have := value_add_one_le_of_digit (b := base) (d := fun i => (A.limb i : Int))
      (e := fun i => (B.limb i : Int)) (k := n) (n := n + 1) base_nonneg
      (fun i _ => by have := hA i; rw [base_eq]; omega) (fun i _ => Int.natCast_nonneg _)
      (by omega) (by show (A.limb n : Int) + 1 ≤ B.limb n; omega) (fun i h h' => by omega)
    omega
  induction n with
  | zero => exact ⟨2, rfl, Or.inr (Or.inr ⟨rfl, by simp⟩)⟩
  | succ n ih =>
      simp only [compareLoop, get_of_lt (show n < len1 by omega), Option.bind_eq_bind,
        Option.bind_some]
      split_ifs with hgt hless
      · exact ⟨0, rfl, Or.inl ⟨rfl, hlt hB hgt⟩⟩
      · exact ⟨1, rfl, Or.inr (Or.inl ⟨rfl, hlt hA hless⟩)⟩
      · obtain ⟨r, hr, hdec⟩ := ih (by omega)
        refine ⟨r, hr, ?_⟩
        rw [value_succ, value_succ, show A.limb n = B.limb n by omega]
        unfold Decides at hdec ⊢
        omega

theorem compare_decides (hA : A.Canonical) (hB : B.Canonical) :
    ∃ r, compare A B = some r ∧ Decides r A.mag B.mag := by
  rw [compare]
  split_ifs with hgt hlt
  · exact ⟨0, rfl, Or.inl ⟨rfl, hB.mag_lt_of_length_lt hA hgt⟩⟩
  · exact ⟨1, rfl, Or.inr (Or.inl ⟨rfl, hA.mag_lt_of_length_lt hB hlt⟩)⟩
  · have hlen : A.length = B.length := by omega
    have hloop := compareLoop_eq A.length hA.length_le hA.limb_lt hB.limb_lt
    rw [mag, mag, ← hlen]
    exact hloop

-- The answers 0 and 2 mean that the magnitude of the first number is not the smaller one.
theorem compare_eq (hA : A.Canonical) (hB : B.Canonical) :
    ∃ r, compare A B = some r ∧ ((r = 0 ∨ r = 2) ↔ B.mag ≤ A.mag) := by
  obtain ⟨r, hr, hdec⟩ := compare_decides hA hB
  refine ⟨r, hr, ?_⟩
  unfold Decides at hdec
  omega

end Compare

end RichardTest.BigNumCpp.BigNum
