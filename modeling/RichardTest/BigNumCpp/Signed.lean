import RichardTest.BigNumCpp.Lemmas

namespace RichardTest.BigNumCpp.BigNum

open Positional

section Sum

-- The carry into limb `i` of a sum.
def carryInto (a b : Nat → Nat) : Nat → Nat
  | 0 => 0
  | i + 1 => if a i + b i + carryInto a b i ≤ 0xffffffff then 0 else 1

variable {a b : Nat → Nat}

theorem carryInto_le (i : Nat) : carryInto a b i ≤ 1 := by
  cases i with
  | zero => exact Nat.zero_le 1
  | succ i =>
      rw [carryInto]
      split_ifs <;> omega

-- A limb written in front of a run of limbs.
theorem limb_cons_run {S A : BigNum} {f : Nat → Nat} {i n : Nat} (hi : i < len1)
    (h : ∀ j, S.limb j = if i + 1 ≤ j ∧ j < i + 1 + n then f j else (A.update i (f i)).limb j) (j : Nat) :
    S.limb j = if i ≤ j ∧ j < i + (n + 1) then f j else A.limb j := by
  rw [h j, limb_update hi]
  by_cases hj : j = i
  · subst j
    rw [if_neg (by omega), if_pos rfl, if_pos (by omega)]
  · split_ifs <;> first | rfl | omega

-- The loop stores the limb sums as they come, reduced only by the width of the word.
theorem addLoop_eq (w : Nat) {this A : BigNum} (h1 : ∀ i, this.limb i < 2 ^ 32)
    (h2 : ∀ i, A.limb i < 2 ^ 32) (n i : Nat) (SUM : BigNum) (hn : i + n ≤ len1) :
    ∃ S, addLoop w this A n i (carryInto A.limb this.limb i) SUM = some S ∧
      S.signal = SUM.signal ∧ S.length = SUM.length ∧ ∀ j, S.limb j =
        if i ≤ j ∧ j < i + n then (A.limb j + this.limb j + carryInto A.limb this.limb j) % 2 ^ w
        else SUM.limb j := by
  induction n generalizing i SUM with
  | zero =>
      refine ⟨SUM, rfl, rfl, rfl, fun j => ?_⟩
      rw [if_neg (by omega)]
  | succ n ih =>
      have hc := carryInto_le (a := A.limb) (b := this.limb) i
      have hx := h2 i
      have hy := h1 i
      have hi : i < len1 := by omega
      simp only [addLoop, get_of_lt hi, set_of_lt hi, Option.bind_eq_bind, Option.bind_some]
      rw [Nat.mod_eq_of_lt (show A.limb i + this.limb i + carryInto A.limb this.limb i < 2 ^ 64 by omega)]
      obtain ⟨S, hS, hsig, hlen, hlimb⟩ := ih (i + 1)
        (SUM.update i ((A.limb i + this.limb i + carryInto A.limb this.limb i) % 2 ^ w)) (by omega)
      exact ⟨S, hS, hsig, hlen, limb_cons_run hi hlimb⟩

-- Reduced to 32 bits, the limb sums and the carries add up.
theorem value_sum (n : Nat) (ha : ∀ i, a i < 2 ^ 32) (hb : ∀ i, b i < 2 ^ 32) :
    Positional.value base (fun i => (((a i + b i + carryInto a b i) % 2 ^ 32 : Nat) : Int)) n +
        carryInto a b n * base ^ n =
      Positional.value base (fun i => (a i : Int)) n + Positional.value base (fun i => (b i : Int)) n := by
  have hchain := value_carry_chain (b := base) (t := fun i => (a i : Int) + b i)
    (d := fun i => (((a i + b i + carryInto a b i) % 2 ^ 32 : Nat) : Int))
    (c := fun i => (carryInto a b i : Int)) n ?_
  · rw [hchain, value_add_digits]
    simp [carryInto]
  · intro i _
    have hc := carryInto_le (a := a) (b := b) i
    have hx := ha i
    have hy := hb i
    simp only [carryInto, base_eq]
    split_ifs <;> omega

-- operator+ on equal signs, for either width of the word.
theorem addSame_run (w : Nat) {this A : BigNum} (h1 : this.Canonical) (h2 : A.Canonical)
    (hl1 : this.length ≤ 127) (hl2 : A.length ≤ 127) :
    ∃ S R, addSame w this A = some R ∧ trim S.length S = some R ∧ S.signal = this.signal ∧
      R.signal = this.signal ∧ R.mag = S.mag ∧ R.limb = S.limb ∧
      1 ≤ S.length ∧ S.length ≤ len1 ∧ this.length < S.length ∧ A.length < S.length ∧
      ∀ i, S.limb i = if i < S.length
        then (A.limb i + this.limb i + carryInto A.limb this.limb i) % 2 ^ w else 0 := by
  obtain ⟨n, hn, hn1, hn2, hn127⟩ : ∃ n, (if this.length ≥ A.length then this.length + 1
      else A.length + 1) = n + 1 ∧ this.length ≤ n ∧ A.length ≤ n ∧ n ≤ 127 := by
    split_ifs
    · exact ⟨this.length, rfl, Nat.le_refl _, by omega, hl1⟩
    · exact ⟨A.length, rfl, by omega, Nat.le_refl _, hl2⟩
  rw [addSame]
  simp only [hn]
  obtain ⟨S, hS, hsig, hlen, hlimb⟩ := addLoop_eq w h1.limb_lt h2.limb_lt (n + 1) 0
    { zero with signal := this.signal, length := n + 1 } (by unfold len1; omega)
  simp only [limb_zeros, Nat.zero_le, true_and, Nat.zero_add] at hlimb hlen
  rw [show addLoop w this A (n + 1) 0 0 _ = some S from hS, Option.bind_eq_bind, Option.bind_some]
  obtain ⟨R, hR, hsig', hmag, hRlimb⟩ := trim_mag (B := S) (by omega) (by unfold len1; omega)
  refine ⟨S, R, hR, hR, hsig, hsig'.trans hsig, hmag, hRlimb, by omega, by unfold len1; omega,
    by omega, by omega, fun i => ?_⟩
  rw [hlimb i, hlen]

theorem addSame_eq {this A : BigNum} (h1 : this.Canonical) (h2 : A.Canonical)
    (hl1 : this.length ≤ 127) (hl2 : A.length ≤ 127) :
    ∃ S, addSame 32 this A = some S ∧ S.Canonical ∧ S.signal = this.signal ∧
      S.mag = this.mag + A.mag := by
  obtain ⟨S, R, hR, htrim, -, hsig, hmag, -, hpos, hlen, hlen1, hlen2, hlimb⟩ :=
    addSame_run 32 h1 h2 hl1 hl2
  have hlt : ∀ i, S.limb i < 2 ^ 32 := fun i => by
    rw [hlimb i]
    split_ifs
    · exact Nat.mod_lt _ (by norm_num)
    · norm_num
  refine ⟨R, hR, trim_canonical htrim hpos hlen hlt fun i hi => ?_, hsig, ?_⟩
  · rw [hlimb i, if_neg (by omega)]
  obtain ⟨n, hn⟩ : ∃ n, S.length = n + 1 := ⟨S.length - 1, by omega⟩
  -- the two top limbs are zero, so no carry leaves the sum
  have hout : carryInto A.limb this.limb (n + 1) = 0 := by
    have hc := carryInto_le (a := A.limb) (b := this.limb) n
    rw [carryInto, h1.zero_above n (by omega), h2.zero_above n (by omega), if_pos (by omega)]
  have hsum := value_sum (n + 1) h2.limb_lt h1.limb_lt
  rw [hout, Nat.cast_zero, zero_mul, add_zero, h2.value_eq_mag (by omega),
    h1.value_eq_mag (by omega)] at hsum
  rw [hmag, mag, hn, add_comm this.mag, ← hsum]
  apply value_congr
  intro i hi
  rw [hlimb i, if_pos (by omega)]

theorem add_eq_addSame (w : Nat) {this A : BigNum} (hsig : this.signal = A.signal) :
    add w this A = addSame w this A := by
  rw [add, addWithin, if_pos hsig]

end Sum

section Difference

-- `sub = array[i] - F` wraps, so at a zero limb the incoming borrow is forgotten.
def subInto (hi : Nat → Nat) (F i : Nat) : Nat := (hi i + 2 ^ 32 - F) % 2 ^ 32

-- The borrow into limb `i` as the code computes it.
def borrowInto (hi lo : Nat → Nat) : Nat → Nat
  | 0 => 0
  | i + 1 => if subInto hi (borrowInto hi lo i) i < lo i then 1 else 0

def diffLimb (hi lo : Nat → Nat) (i : Nat) : Nat :=
  (0xffffffff * borrowInto hi lo (i + 1) % 2 ^ 32 + (2 ^ 32 - lo i) +
    subInto hi (borrowInto hi lo i) i + borrowInto hi lo (i + 1)) % 2 ^ 32

-- 1 where a borrow arrives at a zero limb.
def lostAt (hi lo : Nat → Nat) (i : Nat) : Nat :=
  if borrowInto hi lo i = 1 ∧ hi i = 0 then 1 else 0

variable {hi lo : Nat → Nat}

theorem borrowInto_le (hi lo : Nat → Nat) (i : Nat) : borrowInto hi lo i ≤ 1 := by
  cases i with
  | zero => exact Nat.zero_le 1
  | succ i =>
      rw [borrowInto]
      split_ifs <;> omega

theorem subLoop_eq (this A : BigNum) (n i : Nat) (SUB : BigNum) (hn : i + n ≤ len1) :
    ∃ S, subLoop 32 this A n i (borrowInto this.limb A.limb i) SUB = some S ∧
      S.signal = SUB.signal ∧ ∀ j, S.limb j =
        if i ≤ j ∧ j < i + n then diffLimb this.limb A.limb j else SUB.limb j := by
  induction n generalizing i SUB with
  | zero =>
      refine ⟨SUB, rfl, rfl, fun j => ?_⟩
      rw [if_neg (by omega)]
  | succ n ih =>
      have hi : i < len1 := by omega
      simp only [subLoop, get_of_lt hi, set_of_lt hi, Option.bind_eq_bind, Option.bind_some,
        Nat.mod_mod]
      obtain ⟨S, hS, hsig, hlimb⟩ := ih (i + 1) (SUB.update i (diffLimb this.limb A.limb i)) (by omega)
      exact ⟨S, hS, hsig, limb_cons_run hi hlimb⟩

variable (hhi : ∀ i, hi i < 2 ^ 32) (hlo : ∀ i, lo i < 2 ^ 32)

include hhi hlo

theorem diffLimb_step (i : Nat) :
    diffLimb hi lo i + lo i + borrowInto hi lo i =
      hi i + 2 ^ 32 * (borrowInto hi lo (i + 1) + lostAt hi lo i) := by
  have hF := borrowInto_le hi lo i
  have hx := hhi i
  have hy := hlo i
  have hF' : borrowInto hi lo (i + 1) = if subInto hi (borrowInto hi lo i) i < lo i then 1 else 0 := rfl
  unfold diffLimb lostAt
  rw [hF', subInto]
  generalize borrowInto hi lo i = F at hF
  by_cases hless : (hi i + 2 ^ 32 - F) % 2 ^ 32 < lo i
  · simp only [if_pos hless]
    split_ifs <;> omega
  · simp only [if_neg hless]
    split_ifs <;> omega

-- Every lost borrow makes the difference too large by the weight of the next limb.
theorem value_diff (n : Nat) :
    Positional.value base (fun i => (diffLimb hi lo i : Int)) n +
        Positional.value base (fun i => (lo i : Int)) n =
      Positional.value base (fun i => (hi i : Int)) n + borrowInto hi lo n * base ^ n +
        Positional.value base (fun i => (lostAt hi lo i : Int) * base) n := by
  have hchain := value_carry_chain (b := base) (t := fun i => (hi i : Int) - lo i + lostAt hi lo i * base)
    (d := fun i => (diffLimb hi lo i : Int)) (c := fun i => -(borrowInto hi lo i : Int)) n
    fun i _ => by
      have := diffLimb_step hhi hlo i
      rw [base_eq]
      omega
  have hsplit : Positional.value base (fun i => (hi i : Int) - lo i + lostAt hi lo i * base) n +
      Positional.value base (fun i => (lo i : Int)) n = Positional.value base (fun i => (hi i : Int)) n +
      Positional.value base (fun i => (lostAt hi lo i : Int) * base) n := by
    rw [← value_add_digits, ← value_add_digits]
    exact value_congr fun i _ => by ring
  have hzero : borrowInto hi lo 0 = 0 := rfl
  simp only [hzero, Nat.cast_zero, neg_zero, add_zero] at hchain
  linear_combination hchain + hsplit

omit hhi hlo in
theorem diffLimb_lt (hi lo : Nat → Nat) (i : Nat) : diffLimb hi lo i < 2 ^ 32 := Nat.mod_lt _ (by norm_num)

-- As long as no borrow was lost, the code's borrow is the real one.
theorem borrowInto_eq_one_iff (n : Nat) (hkept : ∀ i < n, lostAt hi lo i = 0) :
    borrowInto hi lo n = 1 ↔ Positional.value base (fun i => (hi i : Int)) n <
      Positional.value base (fun i => (lo i : Int)) n := by
  have hdiff := value_diff hhi hlo n
  have hlost : Positional.value base (fun i => (lostAt hi lo i : Int) * base) n = 0 :=
    value_eq_zero fun i hi' => by simp [hkept i hi']
  have hnn : 0 ≤ Positional.value base (fun i => (diffLimb hi lo i : Int)) n :=
    value_nonneg base_nonneg fun _ _ => Int.natCast_nonneg _
  have hlt := value_add_one_le (b := base) (d := fun i => (diffLimb hi lo i : Int)) (n := n)
    base_nonneg fun i _ => by have := diffLimb_lt hi lo i; rw [base_eq]; omega
  rw [hlost, add_zero] at hdiff
  rcases Nat.le_one_iff_eq_zero_or_eq_one.mp (borrowInto_le hi lo n) with h | h
  · rw [h] at hdiff ⊢
    refine iff_of_false (by norm_num) ?_
    simp only [Nat.cast_zero, zero_mul, add_zero] at hdiff
    omega
  · rw [h] at hdiff ⊢
    refine iff_of_true rfl ?_
    simp only [Nat.cast_one, one_mul] at hdiff
    omega

-- No borrow is lost exactly when none really arrives at a zero limb.
theorem lostAt_eq_zero_iff (n : Nat) :
    (∀ i < n, lostAt hi lo i = 0) ↔ ∀ i < n, hi i = 0 →
      Positional.value base (fun i => (lo i : Int)) i ≤ Positional.value base (fun i => (hi i : Int)) i := by
  constructor
  · intro hkept i hi' hz
    have hb := borrowInto_eq_one_iff hhi hlo i fun j hj => hkept j (by omega)
    have hk := hkept i hi'
    unfold lostAt at hk
    by_contra hn
    rw [if_pos ⟨hb.mpr (not_le.mp hn), hz⟩] at hk
    omega
  · intro hreal i
    induction i using Nat.strong_induction_on with
    | _ i ih =>
        intro hi'
        have hb := borrowInto_eq_one_iff hhi hlo i fun j hj => ih j hj (by omega)
        rw [lostAt, if_neg]
        rintro ⟨hF, hz⟩
        exact absurd (hreal i hi' hz) (not_le.mpr (hb.mp hF))

theorem value_diff_exact_iff (n : Nat) (hle : Positional.value base (fun i => (lo i : Int)) n ≤
    Positional.value base (fun i => (hi i : Int)) n) :
    (Positional.value base (fun i => (diffLimb hi lo i : Int)) n =
        Positional.value base (fun i => (hi i : Int)) n -
          Positional.value base (fun i => (lo i : Int)) n) ↔
      ∀ i < n, lostAt hi lo i = 0 := by
  have hdiff := value_diff hhi hlo n
  constructor
  · intro hexact i hi'
    have hb : 0 ≤ (borrowInto hi lo n : Int) * base ^ n :=
      mul_nonneg (Int.natCast_nonneg _) (pow_nonneg base_nonneg n)
    by_contra hn
    have hpos := pow_le_value (b := base) (d := fun i => (lostAt hi lo i : Int) * base) (n := n)
      (k := i) base_nonneg (fun i _ => mul_nonneg (Int.natCast_nonneg _) base_nonneg) hi' (by
        have : 1 ≤ (lostAt hi lo i : Int) := by omega
        show 1 ≤ (lostAt hi lo i : Int) * base
        nlinarith [base_one_le])
    have hpow : 0 < base ^ i := pow_pos (by norm_num [base]) i
    omega
  · intro hkept
    have hb := borrowInto_eq_one_iff hhi hlo n hkept
    have hlost : Positional.value base (fun i => (lostAt hi lo i : Int) * base) n = 0 :=
      value_eq_zero fun i hi' => by simp [hkept i hi']
    have hz : borrowInto hi lo n = 0 := by
      have := borrowInto_le hi lo n
      have : borrowInto hi lo n ≠ 1 := fun h => absurd (hb.mp h) (not_lt.mpr hle)
      omega
    rw [hlost, hz, Nat.cast_zero, zero_mul] at hdiff
    omega

end Difference

section Operators

variable {this A : BigNum}

-- The operands in the order in which they are subtracted.
def larger (this A : BigNum) : BigNum := if A.mag ≤ this.mag then this else A

def smaller (this A : BigNum) : BigNum := if A.mag ≤ this.mag then A else this

-- No borrow arrives at a zero limb of the number subtracted from: wherever `hi` has a zero limb, the
-- limbs below it are at least those of `lo`.
def NoLostBorrow (hi lo : BigNum) : Prop :=
  ∀ i < hi.length, hi.limb i = 0 →
    Positional.value base (fun i => (lo.limb i : Int)) i ≤
      Positional.value base (fun i => (hi.limb i : Int)) i

instance (hi lo : BigNum) : Decidable (NoLostBorrow hi lo) :=
  inferInstanceAs (Decidable (∀ i < hi.length, hi.limb i = 0 → _))

-- One of the two symmetric loops of operator- with the trimming after it.
theorem subLoop_trim_eq {hi lo : BigNum} (hhi : hi.Canonical) (hlo : lo.Canonical)
    (hle : lo.mag ≤ hi.mag) (s : Fin 2) :
    ∃ S, ((subLoop 32 hi lo hi.length 0 0 { zero with signal := s }).map
        fun SUB => { SUB with length := hi.length }).bind (fun SUB => trim SUB.length SUB) = some S ∧
      S.Canonical ∧ S.signal = s ∧ (S.mag = hi.mag - lo.mag ↔ NoLostBorrow hi lo) := by
  have hpos := hhi.length_pos
  have hlen : lo.length ≤ hi.length := by
    by_contra hn
    exact absurd (hhi.mag_lt_of_length_lt hlo (by omega)) (not_lt.mpr hle)
  obtain ⟨S, hS, hsig, hlimb⟩ := subLoop_eq hi lo hi.length 0
    { zero with signal := s } (by have := hhi.length_le; omega)
  have hzeros : ∀ j, ({ zero with signal := s } : BigNum).limb j = 0 := limb_zeros s 1
  simp only [hzeros, Nat.zero_le, true_and, Nat.zero_add] at hlimb
  rw [show subLoop 32 hi lo hi.length 0 0 _ = some S from hS, Option.map_some, Option.bind_some]
  have hlt : ∀ i, S.limb i < 2 ^ 32 := fun i => by
    rw [hlimb i]
    split_ifs
    · exact diffLimb_lt _ _ i
    · norm_num
  obtain ⟨R, hR, hsig', hmag, -⟩ := trim_mag (B := { S with length := hi.length }) hpos hhi.length_le
  have hcan : R.Canonical := trim_canonical hR hpos hhi.length_le hlt fun i hi' => by
    rw [limb_withLength, hlimb i, if_neg (Nat.not_lt.mpr hi')]
  refine ⟨R, hR, hcan, hsig'.trans hsig, ?_⟩
  have hdiff : R.mag = Positional.value base (fun i => (diffLimb hi.limb lo.limb i : Int)) hi.length := by
    rw [hmag]
    apply value_congr
    intro i hi'
    rw [limb_withLength, hlimb i, if_pos hi']
  have hvlo := hlo.value_eq_mag hlen
  have hvhi : Positional.value base (fun i => (hi.limb i : Int)) hi.length = hi.mag := rfl
  have hexact := value_diff_exact_iff hhi.limb_lt hlo.limb_lt hi.length (by rw [hvlo]; exact hle)
  rw [hvlo, hvhi, ← hdiff] at hexact
  exact hexact.trans (lostAt_eq_zero_iff hhi.limb_lt hlo.limb_lt hi.length)

theorem subSame_eq (h1 : this.Canonical) (h2 : A.Canonical) :
    ∃ S, subSame 32 this A = some S ∧ S.Canonical ∧
      S.signal = (if A.mag ≤ this.mag then this.signal else 1 - this.signal) ∧
      (S.mag = (larger this A).mag - (smaller this A).mag ↔
        NoLostBorrow (larger this A) (smaller this A)) := by
  obtain ⟨r, hr, horder⟩ := compare_eq h1 h2
  unfold subSame larger smaller
  rw [hr, Option.bind_eq_bind, Option.bind_some]
  simp only [horder]
  by_cases hle : A.mag ≤ this.mag
  · simp only [if_pos hle]
    have hs : (if this.signal = 0 then 0 else 1 : Fin 2) = this.signal := by
      rcases fin_two_cases this.signal with h | h <;> rw [h] <;> rfl
    rw [hs]
    exact subLoop_trim_eq h1 h2 hle this.signal
  · simp only [if_neg hle]
    have hs : (if this.signal = 0 then 1 else 0 : Fin 2) = 1 - this.signal := by
      rcases fin_two_cases this.signal with h | h <;> rw [h] <;> rfl
    rw [hs]
    exact subLoop_trim_eq h2 h1 (by omega) (1 - this.signal)

-- What operator+ and operator- are meant to return.
def AddExact (this A : BigNum) : Prop :=
  ∃ S, add 32 this A = some S ∧ S.Canonical ∧ S.value = this.value + A.value

def SubExact (this A : BigNum) : Prop :=
  ∃ S, sub 32 this A = some S ∧ S.Canonical ∧ S.value = this.value - A.value

-- The result of operator- on equal signs is exact when its magnitude is.
theorem subSame_exact_iff (h1 : this.Canonical) (h2 : A.Canonical) (hsig : this.signal = A.signal) :
    (∃ S, subSame 32 this A = some S ∧ S.Canonical ∧ S.value = this.value - A.value) ↔
      NoLostBorrow (larger this A) (smaller this A) := by
  obtain ⟨S, hS, hcan, hs, hiff⟩ := subSame_eq h1 h2
  rw [← hiff]
  have hvalue : S.value = this.value - A.value ↔
      S.mag = (larger this A).mag - (smaller this A).mag := by
    unfold value larger smaller
    rw [hs, ← hsig]
    rcases fin_two_cases this.signal with h | h <;> rw [h] <;>
      by_cases hle : A.mag ≤ this.mag <;> simp [hle] <;> omega
  constructor
  · rintro ⟨S', hS', -, hv⟩
    rw [hS] at hS'
    cases hS'
    exact hvalue.mp hv
  · intro hmag
    exact ⟨S, hS, hcan, hvalue.mpr hmag⟩

theorem noLostBorrow_neg :
    NoLostBorrow (larger this A.neg) (smaller this A.neg) ↔
      NoLostBorrow (larger this A) (smaller this A) := by
  unfold larger smaller
  rw [mag_neg]
  split_ifs
  · exact Iff.rfl
  · exact Iff.rfl

theorem noLostBorrow_swap (h1 : this.Canonical) (h2 : A.Canonical) :
    NoLostBorrow (larger A this) (smaller A this) ↔ NoLostBorrow (larger this A) (smaller this A) := by
  unfold larger smaller
  rcases lt_trichotomy this.mag A.mag with hlt | heq | hgt
  · rw [if_pos hlt.le, if_pos hlt.le, if_neg (not_le.mpr hlt), if_neg (not_le.mpr hlt)]
  · obtain ⟨hlen, hlimb⟩ := h1.eq_of_mag_eq h2 heq
    simp only [heq, le_refl, if_true]
    unfold NoLostBorrow
    rw [hlen, hlimb]
  · rw [if_neg (not_le.mpr hgt), if_neg (not_le.mpr hgt), if_pos hgt.le, if_pos hgt.le]

theorem neg_signal_of_ne (h : this.signal ≠ A.signal) : this.signal = A.neg.signal := by
  have hs : A.neg.signal = 1 - A.signal := rfl
  rw [hs]
  rcases fin_two_cases this.signal with h1 | h1 <;> rcases fin_two_cases A.signal with h2 | h2 <;>
    rw [h1, h2] at h ⊢ <;> first | rfl | exact absurd rfl h

-- Addition on equal signs never goes wrong.
theorem addSame_exact (h1 : this.Canonical) (h2 : A.Canonical) (hl1 : this.length ≤ 126)
    (hl2 : A.length ≤ 126) (hsig : this.signal = A.signal) :
    ∃ S, addSame 32 this A = some S ∧ S.Canonical ∧ S.value = this.value + A.value := by
  obtain ⟨S, hS, hcan, hs, hmag⟩ := addSame_eq h1 h2 (by omega) (by omega)
  refine ⟨S, hS, hcan, ?_⟩
  unfold value
  rw [hs, hmag, ← hsig]
  split_ifs
  · rfl
  · ring

-- Both operators are exact on two numbers exactly when the subtraction of their magnitudes meets no
-- zero limb while it borrows.
theorem add_sub_exact_iff (this A : BigNum) (h1 : this.Canonical) (h2 : A.Canonical)
    (hl1 : this.length ≤ 126) (hl2 : A.length ≤ 126) :
    (AddExact this A ∧ SubExact this A) ↔ NoLostBorrow (larger this A) (smaller this A) := by
  unfold AddExact SubExact add sub
  by_cases hsig : this.signal = A.signal
  · simp only [addWithin, subWithin, if_pos hsig]
    rw [subSame_exact_iff h1 h2 hsig]
    exact and_iff_right (addSame_exact h1 h2 hl1 hl2 hsig)
  · -- one of the two operators turns into the other
    have hneg := neg_signal_of_ne hsig
    have hsub : ∃ S, addSame 32 this A.neg = some S ∧ S.Canonical ∧ S.value = this.value - A.value := by
      have h := addSame_exact h1 h2.neg hl1 hl2 hneg
      rwa [value_neg, ← sub_eq_add_neg] at h
    simp only [addWithin, subWithin, if_neg hsig, if_pos hneg]
    rw [and_iff_left hsub]
    split_ifs with h0 h3
    · have h := subSame_exact_iff h1 h2.neg hneg
      rw [value_neg, sub_neg_eq_add, noLostBorrow_neg] at h
      exact h
    · have h := subSame_exact_iff h2 h1.neg h3
      rw [value_neg, sub_neg_eq_add, noLostBorrow_neg, noLostBorrow_swap h1 h2, add_comm] at h
      exact h
    · exact absurd (neg_signal_of_ne (Ne.symm hsig)) h3

end Operators

section Inputs

-- The number with the given lowest limbs and zeros above them.
def ofLimbs (s : Fin 2) (xs : List Nat) : BigNum :=
  { length := xs.length, signal := s, array := Vector.ofFn fun i => xs.getD i 0 }

theorem limb_ofLimbs (s : Fin 2) {xs : List Nat} (hlen : xs.length ≤ len1) (i : Nat) :
    (ofLimbs s xs).limb i = xs.getD i 0 := by
  unfold limb ofLimbs
  by_cases hi : i < len1
  · simp [hi]
  · rw [Vector.getElem?_eq_none (by omega), List.getD_eq_getElem?_getD,
      List.getElem?_eq_none (by omega)]

theorem ofLimbs_canonical (s : Fin 2) {xs : List Nat} (hpos : 1 ≤ xs.length) (hlen : xs.length ≤ len1)
    (hlt : ∀ x ∈ xs, x < 2 ^ 32) (htop : xs.length = 1 ∨ xs.getD (xs.length - 1) 0 ≠ 0) :
    (ofLimbs s xs).Canonical where
  length_pos := hpos
  length_le := hlen
  limb_lt i := by
    rw [limb_ofLimbs s hlen, List.getD_eq_getElem?_getD]
    cases hx : xs[i]? with
    | none => norm_num
    | some x => exact hlt x (List.mem_of_getElem? hx)
  zero_above i hi := by
    rw [limb_ofLimbs s hlen, List.getD_eq_getElem?_getD, List.getElem?_eq_none hi]
    rfl
  top := by
    rw [limb_ofLimbs s hlen]
    exact htop

-- 2^32 and -1: the borrow arises at the zero limb itself.
theorem add_sub_exact_two_pow_32 :
    AddExact (ofLimbs 0 [0, 1]) (ofLimbs 1 [1]) ∧ SubExact (ofLimbs 0 [0, 1]) (ofLimbs 1 [1]) :=
  (add_sub_exact_iff _ _ (ofLimbs_canonical 0 (by decide) (by decide) (by decide) (by decide))
    (ofLimbs_canonical 1 (by decide) (by decide) (by decide) (by decide)) (by decide) (by decide)).mpr
    (by decide)

-- 2^64 - 1: the borrow of limb 0 is lost at limb 1, and the result is 2^65 - 1.
theorem sub_two_pow_64_wrong :
    ¬∀ this A : BigNum, this.Canonical → A.Canonical → this.length ≤ 126 → A.length ≤ 126 →
      AddExact this A ∧ SubExact this A := by
  intro hall
  obtain ⟨S, hS, -, hv⟩ := (hall (ofLimbs 0 [0, 0, 1]) (ofLimbs 0 [1])
    (ofLimbs_canonical 0 (by decide) (by decide) (by decide) (by decide))
    (ofLimbs_canonical 0 (by decide) (by decide) (by decide) (by decide)) (by decide) (by decide)).2
  have hwrong : (sub 32 (ofLimbs 0 [0, 0, 1]) (ofLimbs 0 [1])).map value = some (2 ^ 65 - 1) := by
    decide
  have hright : (ofLimbs 0 [0, 0, 1]).value - (ofLimbs 0 [1]).value = 2 ^ 64 - 1 := by decide
  rw [hS, Option.map_some, Option.some.injEq, hv, hright] at hwrong
  norm_num at hwrong

end Inputs

end RichardTest.BigNumCpp.BigNum
