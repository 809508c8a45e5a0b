import RichardTest.BigNumCpp.Multiply

namespace RichardTest.BigNumCpp.BigNum

-- The numbers that a program gets from `BigNum(uint64_t)` by unary -, +, - and * with words of `w` bits.
-- An operation that leaves the array has no result.
inductive Reachable (w : Nat) : BigNum → Prop where
  | ofUint64 {x : Nat} (hx : x < 2 ^ 64) : Reachable w (ofUint64 w x)
  | neg {A : BigNum} (hA : Reachable w A) : Reachable w A.neg
  | add {A B C : BigNum} (hA : Reachable w A) (hB : Reachable w B) (h : add w A B = some C) : Reachable w C
  | sub {A B C : BigNum} (hA : Reachable w A) (hB : Reachable w B) (h : sub w A B = some C) : Reachable w C
  | mul {A B C : BigNum} (hA : Reachable w A) (hB : Reachable w B) (h : mul w A B = some C) : Reachable w C

section Sizes

-- The limbs in use lie in the array.
structure Sized (A : BigNum) : Prop where
  pos : 1 ≤ A.length
  le : A.length ≤ len1

variable {w : Nat} {this A B R : BigNum}

theorem Canonical.sized (h : A.Canonical) : A.Sized := ⟨h.length_pos, h.length_le⟩

theorem Sized.neg (h : A.Sized) : A.neg.Sized := ⟨h.pos, h.le⟩

theorem set_some {i x : Nat} (h : A.set i x = some R) : i < len1 ∧ R.length = A.length := by
  unfold set at h
  split_ifs at h with hi
  cases h
  exact ⟨hi, rfl⟩

theorem trim_sized (h : trim B.length B = some R) (hB : B.Sized) : R.Sized := by
  obtain ⟨m, hm, hpos, hle, -⟩ := trim_eq (B := B) B.length hB.pos hB.le
  rw [hm] at h
  cases h
  exact ⟨hpos, hle.trans hB.le⟩

-- A loop that comes back has stayed in the array.
theorem addLoop_some (n i C : Nat) (SUM : BigNum) (h : addLoop w this A n i C SUM = some R) :
    R.length = SUM.length ∧ (n = 0 ∨ i + n ≤ len1) := by
  induction n generalizing i C SUM with
  | zero =>
      cases h
      exact ⟨rfl, Or.inl rfl⟩
  | succ n ih =>
      simp only [addLoop, Option.bind_eq_bind, Option.bind_eq_some_iff] at h
      obtain ⟨x, -, y, -, S, hset, hrest⟩ := h
      obtain ⟨hi, hlen⟩ := set_some hset
      obtain ⟨hlen', hn⟩ := ih _ _ _ hrest
      exact ⟨hlen'.trans hlen, by omega⟩

theorem addSame_some (h : addSame w this A = some R) : this.length ≤ 127 ∧ A.length ≤ 127 ∧ R.Sized := by
  simp only [addSame, Option.bind_eq_bind, Option.bind_eq_some_iff] at h
  obtain ⟨S, hloop, htrim⟩ := h
  obtain ⟨n, hlength, hthis, hA⟩ : ∃ n, (if this.length ≥ A.length then this.length + 1 else A.length + 1) =
      n + 1 ∧ this.length ≤ n ∧ A.length ≤ n := by
    split_ifs with hle
    · exact ⟨this.length, rfl, le_rfl, hle⟩
    · exact ⟨A.length, rfl, by omega, le_rfl⟩
  rw [hlength] at hloop
  obtain ⟨hlen, hn⟩ := addLoop_some _ _ _ _ hloop
  have hfit : n + 1 ≤ len1 := by omega
  have hn127 : n ≤ 127 := Nat.le_of_succ_le_succ hfit
  exact ⟨hthis.trans hn127, hA.trans hn127, trim_sized htrim ⟨by rw [hlen]; exact Nat.succ_pos n,
    by rw [hlen]; exact hfit⟩⟩

theorem subSame_sized (h1 : this.Sized) (h2 : A.Sized) (h : subSame w this A = some R) : R.Sized := by
  simp only [subSame, Option.bind_eq_bind, Option.bind_eq_some_iff] at h
  obtain ⟨order, -, S, hloop, htrim⟩ := h
  refine trim_sized htrim ?_
  by_cases horder : order = 0 ∨ order = 2
  · rw [if_pos horder] at hloop
    obtain ⟨T, -, rfl⟩ := Option.map_eq_some_iff.mp hloop
    exact ⟨h1.pos, h1.le⟩
  · rw [if_neg horder] at hloop
    obtain ⟨T, -, rfl⟩ := Option.map_eq_some_iff.mp hloop
    exact ⟨h2.pos, h2.le⟩

theorem mulRow_some {i C' : Nat} (n j C : Nat) (PRO : BigNum)
    (h : mulRow w this A i n j C PRO = some (C', R)) :
    R.length = PRO.length ∧ (n = 0 ∨ i + j + n ≤ len1) := by
  induction n generalizing j C PRO with
  | zero =>
      cases h
      exact ⟨rfl, Or.inl rfl⟩
  | succ n ih =>
      simp only [mulRow, Option.bind_eq_bind, Option.bind_eq_some_iff] at h
      obtain ⟨x, -, y, -, p, -, S, hset, hrest⟩ := h
      obtain ⟨hi, hlen⟩ := set_some hset
      obtain ⟨hlen', hn⟩ := ih _ _ _ hrest
      exact ⟨hlen'.trans hlen, by omega⟩

theorem mulRows_some (n i C : Nat) (PRO : BigNum) (h : mulRows w this A n i C PRO = some R) :
    R.length = PRO.length ∧ (n = 0 ∨ i + n + this.length ≤ len1) := by
  induction n generalizing i C PRO with
  | zero =>
      cases h
      exact ⟨rfl, Or.inl rfl⟩
  | succ n ih =>
      simp only [mulRows, Option.bind_eq_bind, Option.bind_eq_some_iff] at h
      obtain ⟨⟨C', S⟩, hrow, hrest⟩ := h
      obtain ⟨hlen, hrowlen⟩ := mulRow_some _ _ _ _ hrow
      obtain ⟨hlen', hn⟩ := ih _ _ _ hrest
      exact ⟨hlen'.trans hlen, by omega⟩

theorem mul_some (h1 : this.Sized) (h2 : A.Sized) (h : mul w this A = some R) :
    this.length + A.length ≤ 128 ∧ R.Sized := by
  simp only [mul, Option.bind_eq_bind, Option.bind_eq_some_iff] at h
  obtain ⟨S, hrows, htrim⟩ := h
  obtain ⟨hlen, hn⟩ := mulRows_some _ _ _ _ hrows
  have hpos1 := h1.pos
  have hpos2 := h2.pos
  have hfit : this.length + A.length ≤ len1 := by omega
  refine ⟨hfit, trim_sized htrim ⟨?_, ?_⟩⟩
  · rw [hlen]
    exact Nat.le_add_right_of_le hpos1
  · rw [hlen]
    exact hfit

end Sizes

section Signs

variable {w : Nat} {this A R : BigNum}

-- Whatever the signs, operator+ and operator- end in one of the two loops on equal signs.
theorem add_cases (h : add w this A = some R) :
    addSame w this A = some R ∨ subSame w this A.neg = some R ∨ subSame w A this.neg = some R := by
  simp only [add, addWithin, subWithin] at h
  split_ifs at h
  · exact Or.inl h
  · exact Or.inr (Or.inl h)
  · exact Or.inr (Or.inr h)

theorem sub_cases (h : sub w this A = some R) : subSame w this A = some R ∨ addSame w this A.neg = some R := by
  simp only [sub, addWithin, subWithin] at h
  split_ifs at h
  · exact Or.inl h
  · exact Or.inr h

theorem Reachable.sized (h : Reachable w A) : A.Sized := by
  induction h with
  | ofUint64 hx =>
      unfold BigNum.ofUint64
      split_ifs
      · exact ⟨Nat.le_refl 1, show 1 ≤ len1 by decide⟩
      · exact ⟨Nat.le_succ 1, show 2 ≤ len1 by decide⟩
  | neg _ ih => exact ih.neg
  | add _ _ h ihA ihB =>
      rcases add_cases h with h | h | h
      · exact (addSame_some h).2.2
      · exact subSame_sized ihA ihB.neg h
      · exact subSame_sized ihB ihA.neg h
  | sub _ _ h ihA ihB =>
      rcases sub_cases h with h | h
      · exact subSame_sized ihA ihB h
      · exact (addSame_some h).2.2
  | mul _ _ h ihA ihB => exact (mul_some ihA ihB h).2

end Signs

section Canonical

variable {A : BigNum}

theorem ofUint64_canonical {x : Nat} (hx : x < 2 ^ 64) : (ofUint64 32 x).Canonical := by
  by_cases hsmall : x ≤ 0xffffffff
  · have hlimb : ∀ i, (ofUint64 32 x).limb i = if i = 0 then x % 2 ^ 32 else 0 := by
      intro i
      have hupdate : (ofUint64 32 x).limb = (zero.update 0 (x % 2 ^ 32)).limb := by
        rw [ofUint64, if_pos hsmall]
        rfl
      rw [hupdate, limb_update (by decide), show zero.limb i = 0 from limb_zeros 0 1 i]
    have hlength : (ofUint64 32 x).length = 1 := by rw [ofUint64, if_pos hsmall]
    refine ⟨hlength.ge, hlength.trans_le (by decide), fun i => ?_, fun i hi => ?_, Or.inl hlength⟩
    · rw [hlimb i]
      split_ifs <;> omega
    · rw [hlimb i, if_neg (by omega)]
  · have hlimb : ∀ i, (ofUint64 32 x).limb i =
        if i = 0 then x % 2 ^ 32 else if i = 1 then x / 2 ^ 32 % 2 ^ 32 else 0 := by
      intro i
      have hupdate : (ofUint64 32 x).limb =
          ((zero.update 1 (x / 2 ^ 32 % 2 ^ 32)).update 0 (x % 2 ^ 32)).limb := by
        rw [ofUint64, if_neg hsmall]
        rfl
      rw [hupdate, limb_update (by decide), limb_update (by decide), show zero.limb i = 0 from limb_zeros 0 1 i]
    have hlength : (ofUint64 32 x).length = 2 := by rw [ofUint64, if_neg hsmall]
    refine ⟨by omega, hlength.trans_le (by decide), fun i => ?_, fun i hi => ?_, Or.inr ?_⟩
    · rw [hlimb i]
      split_ifs <;> omega
    · rw [hlimb i, if_neg (by omega), if_neg (by omega)]
    · rw [hlength, hlimb 1, if_neg (by norm_num), if_pos rfl]
      omega

-- With words of 32 bits every reachable number is canonical, even where a borrow was lost.
theorem Reachable.canonical (h : Reachable 32 A) : A.Canonical := by
  have hadd : ∀ {this A R : BigNum}, this.Canonical → A.Canonical → addSame 32 this A = some R →
      R.Canonical := by
    intro this A R h1 h2 hR
    obtain ⟨hl1, hl2, -⟩ := addSame_some hR
    obtain ⟨S, hS, hcan, -⟩ := addSame_eq h1 h2 hl1 hl2
    cases hR.symm.trans hS
    exact hcan
  have hsub : ∀ {this A R : BigNum}, this.Canonical → A.Canonical → subSame 32 this A = some R →
      R.Canonical := by
    intro this A R h1 h2 hR
    obtain ⟨S, hS, hcan, -⟩ := subSame_eq h1 h2
    cases hR.symm.trans hS
    exact hcan
  induction h with
  | ofUint64 hx => exact ofUint64_canonical hx
  | neg _ ih => exact ih.neg
  | add _ _ h ihA ihB =>
      rcases add_cases h with h | h | h
      · exact hadd ihA ihB h
      · exact hsub ihA ihB.neg h
      · exact hsub ihB ihA.neg h
  | sub _ _ h ihA ihB =>
      rcases sub_cases h with h | h
      · exact hsub ihA ihB h
      · exact hadd ihA ihB.neg h
  | mul _ _ h ihA ihB =>
      obtain ⟨R, hR, hcan, -⟩ := mul_canonical ihA ihB (mul_some ihA.sized ihB.sized h).1
      cases h.symm.trans hR
      exact hcan

end Canonical

section Comparison

variable {A B : BigNum}

-- Two numbers with the same limbs in use.
def SameLimbs (A B : BigNum) : Prop := A.length = B.length ∧ ∀ i < A.length, A.limb i = B.limb i

-- If the two magnitudes are one number, it is written in one way.
def OneWriting (A B : BigNum) : Prop := A.mag = B.mag → SameLimbs A B

theorem SameLimbs.mag_eq (h : SameLimbs A B) : A.mag = B.mag := by
  rw [mag, mag, ← h.1]
  apply Positional.value_congr
  intro i hi
  rw [h.2 i hi]

theorem Canonical.oneWriting (hA : A.Canonical) (hB : B.Canonical) : OneWriting A B := by
  intro h
  obtain ⟨hlen, hlimb⟩ := hA.eq_of_mag_eq hB h
  exact ⟨hlen, fun i _ => by rw [hlimb]⟩

theorem compareLoop_two_iff (n : Nat) (hn : n ≤ len1) :
    ∃ r, compareLoop A B n = some r ∧ (r = 2 ↔ ∀ i < n, A.limb i = B.limb i) := by
  induction n with
  | zero => exact ⟨2, rfl, by simp⟩
  | succ n ih =>
      obtain ⟨r, hr, hiff⟩ := ih (by omega)
      simp only [compareLoop, get_of_lt (show n < len1 by omega), Option.bind_eq_bind, Option.bind_some]
      split_ifs with hgt hlt
      · exact ⟨0, rfl, by norm_num, fun h => absurd (h n (by omega)) (by omega)⟩
      · exact ⟨1, rfl, by norm_num, fun h => absurd (h n (by omega)) (by omega)⟩
      · refine ⟨r, hr, hiff.trans ⟨fun h i hi => ?_, fun h i hi => h i (by omega)⟩⟩
        by_cases hin : i = n
        · rw [hin]
          omega
        · exact h i (by omega)

theorem compare_two_iff (hA : A.Sized) : ∃ r, A.compare B = some r ∧ (r = 2 ↔ SameLimbs A B) := by
  unfold compare SameLimbs
  split_ifs with hgt hlt
  · exact ⟨0, rfl, by norm_num, fun h => absurd h.1 (by omega)⟩
  · exact ⟨1, rfl, by norm_num, fun h => absurd h.1 (by omega)⟩
  · obtain ⟨r, hr, hiff⟩ := compareLoop_two_iff (A := A) (B := B) A.length hA.le
    exact ⟨r, hr, by rw [hiff, and_iff_right (by omega)]⟩

end Comparison

section Equality

variable {A B : BigNum}

-- `A == B` says whether the two are one integer, and `A != B` says the opposite.
def ComparesRight (A B : BigNum) : Prop :=
  ∃ e n, opEq A B = some e ∧ opNe A B = some n ∧ (e = true ↔ A.value = B.value) ∧ n = !e

theorem value_eq_iff_of_signal_eq (h : A.signal = B.signal) : A.value = B.value ↔ A.mag = B.mag := by
  unfold value
  rw [h]
  split_ifs <;> omega

theorem comparesRight_iff (hA : A.Sized) :
    ComparesRight A B ↔ A.signal = B.signal ∧ OneWriting A B := by
  by_cases hsig : A.signal = B.signal
  · obtain ⟨r, hr, hiff⟩ := compare_two_iff (B := B) hA
    have heq : opEq A B = some (decide (r = 2)) := by rw [opEq, if_pos hsig, hr]; rfl
    have hne : opNe A B = some (decide (r ≠ 2)) := by rw [opNe, if_pos hsig, hr]; rfl
    have hvalue := value_eq_iff_of_signal_eq hsig
    constructor
    · rintro ⟨e, n, he, -, hright, -⟩
      cases heq.symm.trans he
      rw [decide_eq_true_eq, hiff, hvalue] at hright
      exact ⟨hsig, hright.mpr⟩
    · rintro ⟨-, hone⟩
      refine ⟨_, _, heq, hne, ?_, decide_not⟩
      rw [decide_eq_true_eq, hiff, hvalue]
      exact ⟨SameLimbs.mag_eq, hone⟩
  · -- both operators answer 0
    refine iff_of_false ?_ fun h => hsig h.1
    rintro ⟨e, n, he, hn, -, hne⟩
    rw [opEq, if_neg hsig] at he
    rw [opNe, if_neg hsig] at hn
    cases he
    cases hn
    exact Bool.false_ne_true hne

-- The two operators are right on two reachable numbers exactly if these carry the same sign flag. With
-- words of other widths, where a number can be written in several ways, they must also be written alike.
theorem opEq_opNe_right_iff (w : Nat) (A B : BigNum) (hA : Reachable w A) (hB : Reachable w B) :
    ComparesRight A B ↔ A.signal = B.signal ∧ (w = 32 ∨ OneWriting A B) := by
  rw [comparesRight_iff hA.sized]
  refine and_congr_right fun _ => ⟨Or.inr, ?_⟩
  rintro (rfl | hone)
  · exact hA.canonical.oneWriting hB.canonical
  · exact hone

theorem opEq_opNe_right_minus_five :
    Reachable 32 (ofUint64 32 5).neg ∧ ComparesRight (ofUint64 32 5).neg (ofUint64 32 7).neg := by
  have hreach : ∀ x < 2 ^ 64, Reachable 32 (ofUint64 32 x).neg := fun x hx => .neg (.ofUint64 hx)
  have hiff := opEq_opNe_right_iff 32 _ _ (hreach 5 (by norm_num)) (hreach 7 (by norm_num))
  exact ⟨hreach 5 (by norm_num), hiff.mpr ⟨by decide, Or.inl rfl⟩⟩

-- On 1 and -1 both operators answer 0, and so they do on 0 and -0.
theorem opEq_opNe_wrong :
    ¬∀ A B : BigNum, Reachable 32 A → Reachable 32 B → ComparesRight A B := by
  intro hall
  have hreach : Reachable 32 (ofUint64 32 1) := .ofUint64 (by norm_num)
  obtain ⟨hsig, -⟩ := (comparesRight_iff hreach.sized).mp (hall _ _ hreach hreach.neg)
  exact absurd hsig (by decide)

end Equality

end RichardTest.BigNumCpp.BigNum
