import RichardTest.BigNumCpp.Signed
import RichardTest.RabinMiller.Primes
import RichardTest.RabinMiller.Theorems
import Mathlib.Tactic.NormNum.Prime

namespace RichardTest.RabinMiller

open BigNumCpp

section Model

-- `rand() << 16 | rand()` is an `int`; the conversion to an `unsigned long` of `w` bits extends its sign.
def draw (w r₁ r₂ : Nat) : Nat := ((BitVec.ofNat 32 r₁ <<< 16 ||| BitVec.ofNat 32 r₂).signExtend w).toNat

-- What rand() will return is a list, and a call with nothing left has no result.

-- `for (i = 0; i < length; ++i)` of Random, with `n` rounds left.
def randomLimbs (w : Nat) : Nat → Nat → BigNum → List Nat → Option (BigNum × List Nat)
  | 0, _, A, rs => some (A, rs)
  | n + 1, i, A, r₁ :: r₂ :: rs => do
      let A ← A.set i (draw w r₁ r₂)
      randomLimbs w n (i + 1) A rs
  | _ + 1, _, _, _ => none

-- `while (array[0] > A.array[0])` with the assignment before it.
def randomLimb (w top : Nat) : List Nat → Option (Nat × List Nat)
  | r₁ :: r₂ :: rs => if draw w r₁ r₂ > top then randomLimb w top rs else some (draw w r₁ r₂, rs)
  | _ => none

-- `A.Random(X)`.
def random (w : Nat) (X A : BigNum) (rs : List Nat) : Option (BigNum × List Nat) :=
  if X.length > 1 then
    randomLimbs w (X.length - 1) 0 { A with signal := BigNum.zero.signal, length := X.length - 1 } rs
  else do
    let top ← X.get 0
    let (x, rs) ← randomLimb w top rs
    let A ← BigNum.set { A with signal := BigNum.zero.signal, length := 1 } 0 x
    some (A, rs)

-- `while (A.Compare(T) == 2) A.Random(X);`
def redraw (w : Nat) (X T : BigNum) : Nat → BigNum → List Nat → Option (BigNum × List Nat)
  | 0, _, _ => none
  | fuel + 1, A, rs => do
      let order ← A.compare T
      if order = 2 then
        let (A, rs) ← random w X A rs
        redraw w X T fuel A rs
      else some (A, rs)

-- The base of the next round. Every call of Random takes values from the list, so its length is enough.
def nextBase (w : Nat) (X A T : BigNum) (rs : List Nat) : Option (BigNum × List Nat) := do
  let (A, rs) ← random w X A rs
  redraw w X T (rs.length + 1) A rs

-- `for (int i = 1; i <= 5; ++i)`, with `n` rounds left.
def rounds (w : Nat) (X : BigNum) (r : Nat) (m : Int) : Nat → BigNum → BigNum → List Nat → Option Bool
  | 0, _, _, _ => some true
  | n + 1, A, T, rs => do
      let (A, rs) ← nextBase w X A T rs
      if witnessRound X.value r m A.value then rounds w X r m n A A rs else some false

-- `for (int i = 0; i < 2800; i++)`: what the function returns from the loop, if it does.
def trialLoop (X : Int) : List Nat → Option Bool
  | [] => none
  | p :: ps => if X = p then some true else if X % p = 0 then some false else trialLoop X ps

-- `Rabin_Miller`, on the values that rand() returns.
def rabinMiller (w : Nat) (X : BigNum) (rs : List Nat) : Option Bool :=
  match trialLoop X.value primes with
  | some answer => some answer
  | none => do
      let (r, m) ← split X.value
      rounds w X r m 5 BigNum.zero BigNum.zero rs

end Model

section Draws

variable {w : Nat} {X A T : BigNum}

theorem randomLimbs_length (n i : Nat) (A : BigNum) (rs : List Nat) {A' : BigNum} {rs' : List Nat}
    (h : randomLimbs w n i A rs = some (A', rs')) : rs'.length + 2 * n = rs.length := by
  induction n generalizing i A rs with
  | zero =>
      cases h
      rfl
  | succ n ih =>
      match rs, h with
      | r₁ :: r₂ :: rs, h =>
          rw [randomLimbs, Option.bind_eq_bind, Option.bind_eq_some_iff] at h
          obtain ⟨B, -, hB⟩ := h
          have := ih _ _ _ hB
          simp only [List.length_cons]
          omega

theorem randomLimb_length (top : Nat) (rs : List Nat) {x : Nat} {rs' : List Nat}
    (h : randomLimb w top rs = some (x, rs')) : rs'.length < rs.length := by
  induction rs using randomLimb.induct w top with
  | case1 r₁ r₂ rs hgt ih =>
      rw [randomLimb, if_pos hgt] at h
      have := ih h
      simp only [List.length_cons]
      omega
  | case2 r₁ r₂ rs hle =>
      rw [randomLimb, if_neg hle] at h
      cases h
      simp only [List.length_cons]
      omega
  | case3 rs hshort =>
      rw [randomLimb.eq_2 _ _ _ hshort] at h
      cases h

theorem random_length {rs rs' : List Nat} {A' : BigNum} (h : random w X A rs = some (A', rs')) :
    rs'.length < rs.length := by
  rw [random] at h
  split_ifs at h with hlen
  · have := randomLimbs_length _ _ _ _ h
    omega
  · simp only [Option.bind_eq_bind, Option.bind_eq_some_iff] at h
    obtain ⟨top, -, ⟨x, rs₁⟩, hx, B, -, hB⟩ := h
    cases hB
    exact randomLimb_length top rs hx

-- More rounds than there are values left make no difference.
theorem redraw_fuel (fuel : Nat) (A : BigNum) (rs : List Nat) (h : rs.length < fuel) :
    redraw w X T fuel A rs = redraw w X T (rs.length + 1) A rs := by
  induction fuel using Nat.strong_induction_on generalizing A rs with
  | _ fuel ih =>
      obtain ⟨n, rfl⟩ : ∃ n, fuel = n + 1 := ⟨fuel - 1, by omega⟩
      rw [redraw, redraw]
      congr 1
      funext order
      split_ifs with hsame
      · cases hdraw : random w X A rs with
        | none => rfl
        | some drawn =>
            obtain ⟨A', rs'⟩ := drawn
            have hshort := random_length hdraw
            simp only [Option.bind_eq_bind, Option.bind_some]
            rw [ih n (by omega) A' rs' (by omega)]
            by_cases hn : rs.length = n
            · rw [hn, ih n (by omega) A' rs' (by omega)]
            · rw [ih rs.length (by omega) A' rs' (by omega)]
      · rfl

end Draws

section Prime

variable {p : Nat} (hp : p.Prime)

include hp

-- Dividing a prime by the table finds nothing but the prime itself.
theorem trialLoop_prime (ps : List Nat) (hps : ∀ q ∈ ps, 2 ≤ q) :
    trialLoop p ps = if p ∈ ps then some true else none := by
  induction ps with
  | nil => rfl
  | cons q ps ih =>
      have hq := hps q (by simp)
      rw [trialLoop, ih fun q' hq' => hps q' (by simp [hq'])]
      by_cases heq : p = q
      · simp [heq]
      · have hndvd : ¬(p : Int) % q = 0 := by
          intro hmod
          have hdvd : q ∣ p := Int.natCast_dvd_natCast.mp (Int.dvd_of_emod_eq_zero hmod)
          rcases (Nat.dvd_prime hp).mp hdvd with h1 | h1
          · omega
          · exact heq h1.symm
        rw [if_neg (by exact_mod_cast heq), if_neg hndvd]
        simp only [List.mem_cons, heq, false_or]

-- A multiple of the prime is the one kind of base that a round takes for a witness against it.
theorem witnessRound_prime_iff {r m : Nat} (hm : Odd m) (hsplit : p - 1 = 2 ^ r * m) (A : Int) :
    witnessRound p r m A = true ↔ ¬(p : Int) ∣ A := by
  have : Fact p.Prime := ⟨hp⟩
  have htwo := hp.two_le
  rw [witnessRound_iff (by exact_mod_cast htwo)]
  simp only [← ZMod.intCast_eq_intCast_iff, ← ZMod.intCast_zmod_eq_zero_iff_dvd]
  push_cast
  generalize (A : ZMod p) = a
  constructor
  · rintro h rfl
    rcases h with h | ⟨j, -, h⟩
    · rw [zero_pow hm.pos.ne'] at h
      exact zero_ne_one h
    · rw [zero_pow (mul_ne_zero (by positivity) hm.pos.ne')] at h
      exact neg_ne_zero.mpr one_ne_zero h.symm
  · intro ha
    have hone : (a ^ m) ^ 2 ^ r = 1 := by
      rw [← pow_mul, mul_comm, ← hsplit]
      exact ZMod.pow_card_sub_one_eq_one ha
    refine (OddPower.eq_one_or_pow_eq_neg_one _ r hone).imp_right ?_
    rintro ⟨j, hj, h⟩
    rw [← pow_mul, mul_comm] at h
    exact ⟨j, hj.le, h⟩

end Prime

section Runs

variable {w : Nat} {X : BigNum}

-- None of the bases that the next `n` rounds draw is a multiple of `X`.
def NoZeroBase (w : Nat) (X : BigNum) : Nat → BigNum → BigNum → List Nat → Prop
  | 0, _, _, _ => True
  | n + 1, A, T, rs =>
      ∀ A' rs', nextBase w X A T rs = some (A', rs') → ¬X.value ∣ A'.value ∧ NoZeroBase w X n A' A' rs'

theorem rounds_true_iff {r : Nat} {m : Int}
    (hround : ∀ A, witnessRound X.value r m A = true ↔ ¬X.value ∣ A) (n : Nat) (A T : BigNum) (rs : List Nat) :
    (∀ answer, rounds w X r m n A T rs = some answer → answer = true) ↔ NoZeroBase w X n A T rs := by
  induction n generalizing A T rs with
  | zero => simp [rounds, NoZeroBase]
  | succ n ih =>
      rw [rounds, NoZeroBase]
      cases hbase : nextBase w X A T rs with
      | none => simp
      | some drawn =>
          obtain ⟨A', rs'⟩ := drawn
          simp only [Option.bind_eq_bind, Option.bind_some, hround]
          by_cases hdvd : X.value ∣ A'.value
          · rw [if_neg (not_not.mpr hdvd)]
            refine iff_of_false (fun h => Bool.false_ne_true (h false rfl)) fun h => ?_
            exact (h A' rs' rfl).1 hdvd
          · rw [if_pos hdvd, ih A' A' rs']
            constructor
            · rintro h _ _ ⟨rfl, rfl⟩
              exact ⟨hdvd, h⟩
            · exact fun h => (h A' rs' rfl).2

-- Whatever rand() returns: a prime is accepted wherever the test ends exactly if it is in the table or no
-- round draws a multiple of it.
theorem rabinMiller_prime_iff (w : Nat) (X : BigNum) {p : Nat} (hp : p.Prime) (hodd : Odd p) (hX : X.value = p)
    (rs : List Nat) :
    (∀ answer, rabinMiller w X rs = some answer → answer = true) ↔
      p ∈ primes ∨ NoZeroBase w X 5 BigNum.zero BigNum.zero rs := by
  have htrial : trialLoop X.value primes = if p ∈ primes then some true else none := by
    rw [hX]
    exact trialLoop_prime hp primes two_le_of_mem_primes
  rw [rabinMiller, htrial]
  by_cases hmem : p ∈ primes
  · rw [if_pos hmem]
    exact iff_of_true (fun answer h => (Option.some.inj h).symm) (Or.inl hmem)
  · have hthree : 3 ≤ p := by
      have := hp.two_le
      obtain ⟨k, hk⟩ := hodd
      omega
    obtain ⟨r, m, hm, hsplit⟩ := Nat.exists_eq_two_pow_mul_odd (show p - 1 ≠ 0 by omega)
    have hsplitX : X.value - 1 = 2 ^ r * m := by
      rw [hX]
      have : ((p - 1 : Nat) : Int) = ((2 ^ r * m : Nat) : Int) := by rw [hsplit]
      push_cast [show 1 ≤ p by omega] at this
      exact this
    have hround : ∀ A, witnessRound X.value r m A = true ↔ ¬X.value ∣ A := by
      rw [hX]
      exact witnessRound_prime_iff hp hm hsplit
    rw [if_neg hmem, or_iff_right hmem, ← rounds_true_iff hround]
    simp only [split_eq hm hsplitX, Option.bind_eq_bind, Option.bind_some]

-- The prime behind the table, and draws that give it the base 2 and then 3, 2, 3, 2.
theorem rabinMiller_prime_25411 :
    let X := BigNum.ofLimbs 0 [25411]
    let rs := [0, 2, 0, 3, 0, 2, 0, 3, 0, 2]
    rabinMiller 32 X rs = some true ∧
      (NoZeroBase 32 X 5 BigNum.zero BigNum.zero rs) := by
  intro X rs
  have hrun : rabinMiller 32 X rs = some true := by decide +kernel
  refine ⟨hrun, ?_⟩
  have hprime : Nat.Prime 25411 := by norm_num
  have hiff := rabinMiller_prime_iff 32 X hprime (by decide) (by decide) rs
  refine (hiff.mp fun answer h => ?_).resolve_left (by decide +kernel)
  rw [hrun] at h
  exact (Option.some.inj h).symm

-- Random draws the prime itself, and the test rejects it.
theorem rabinMiller_rejects_25411 :
    ¬∀ (X : BigNum) (p : Nat) (rs : List Nat), p.Prime → Odd p → X.Canonical → X.value = p →
      ∀ answer, rabinMiller 32 X rs = some answer → answer = true := by
  intro hall
  have hprime : Nat.Prime 25411 := by norm_num
  have hcan : (BigNum.ofLimbs 0 [25411]).Canonical :=
    BigNum.ofLimbs_canonical 0 (by decide) (by decide) (by decide) (by decide)
  have hrun : rabinMiller 32 (BigNum.ofLimbs 0 [25411]) [0, 25411] = some false := by decide +kernel
  exact Bool.false_ne_true (hall _ 25411 _ hprime (by decide) hcan (by decide) false hrun)

end Runs

end RichardTest.RabinMiller
