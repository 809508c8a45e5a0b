import RichardTest.BigNumCpp.Equality
import RichardTest.RabinMiller.Bases

namespace RichardTest.RabinMiller

open BigNumCpp

section Model

def len2 : Nat := 2

-- `Random(int)`. The `int` that the top limb is ORed with extends its sign, too.
def randomInt (w : Nat) (a : Fin 2) (this : BigNum) (rs : List Nat) : Option (BigNum × List Nat) := do
  let (this, rs) ← randomLimbs w len2 0 { this with signal := a, length := len2 } rs
  let top ← this.get (len2 - 1)
  let this ← this.set (len2 - 1) (top ||| ((1#32 <<< 31).signExtend w).toNat)
  some (this, rs)

-- `Random(0); array[0] |= 1;`
def candidate (w : Nat) (this : BigNum) (rs : List Nat) : Option (BigNum × List Nat) := do
  let (this, rs) ← randomInt w BigNum.zero.signal this rs
  let x ← this.get 0
  let this ← this.set 0 (x ||| 1)
  some (this, rs)

-- The rounds of Rabin_Miller, with the values of rand() that they leave.
def roundsRest (w : Nat) (X : BigNum) (r : Nat) (m : Int) : Nat → BigNum → BigNum → List Nat → Option (Bool × List Nat)
  | 0, _, _, rs => some (true, rs)
  | n + 1, A, T, rs => do
      let (A, rs) ← nextBase w X A T rs
      if witnessRound X.value r m A.value then roundsRest w X r m n A A rs else some (false, rs)

def rabinMillerRest (w : Nat) (X : BigNum) (rs : List Nat) : Option (Bool × List Nat) :=
  match trialLoop X.value primes with
  | some answer => some (answer, rs)
  | none => do
      let (r, m) ← split X.value
      roundsRest w X r m 5 BigNum.zero BigNum.zero rs

-- `while (!Rabin_Miller())`, with the two statements that come before each test.
def generateLoop (w : Nat) : Nat → BigNum → List Nat → Option (BigNum × List Nat)
  | 0, _, _ => none
  | fuel + 1, this, rs => do
      let (this, rs) ← candidate w this rs
      let (answer, rs) ← rabinMillerRest w this rs
      if answer then some (this, rs) else generateLoop w fuel this rs

-- Every number drawn takes values of rand(), so there are enough rounds.
def generatePrime (w : Nat) (this : BigNum) (rs : List Nat) : Option (BigNum × List Nat) :=
  generateLoop w (rs.length + 1) this rs

-- `X` is one of the numbers that the loop draws and tests; `rs'` is what rand() returns from then on.
inductive Drawn (w : Nat) : BigNum → List Nat → BigNum → List Nat → Prop where
  | here {this X : BigNum} {rs rs' : List Nat} (hdraw : candidate w this rs = some (X, rs')) : Drawn w this rs X rs'
  | next {this Y X : BigNum} {rs rs₁ rs₂ rs' : List Nat} (hdraw : candidate w this rs = some (Y, rs₁))
      (htest : rabinMillerRest w Y rs₁ = some (false, rs₂)) (hlater : Drawn w Y rs₂ X rs') : Drawn w this rs X rs'

-- The bases of the next `n` rounds.
def bases (w : Nat) (X : BigNum) : Nat → BigNum → BigNum → List Nat → List BigNum
  | 0, _, _, _ => []
  | n + 1, A, T, rs =>
      match nextBase w X A T rs with
      | none => []
      | some (A, rs) => A :: bases w X n A A rs

end Model

section Table

-- From `k` on, `n` numbers in steps of two: each is the next one of the table or has a factor in `small`.
def covers (small : List Nat) : Nat → Nat → List Nat → Bool
  | 0, _, _ => true
  | _ + 1, _, [] => false
  | n + 1, k, p :: ps =>
      if k = p then covers small n (k + 2) ps
      else small.any (fun s => k % s = 0) && covers small n (k + 2) (p :: ps)

theorem mem_of_covers {small : List Nat} (n k : Nat) (ps : List Nat) (h : covers small n k ps = true) (i : Nat)
    (hi : i < n) : k + 2 * i ∈ ps ∨ ∃ s ∈ small, s ∣ k + 2 * i := by
  induction n, k, ps using covers.induct generalizing i with
  | case1 => omega
  | case2 => cases h
  | case3 n p ps ih =>
      rw [covers, if_pos rfl] at h
      cases i with
      | zero => exact .inl List.mem_cons_self
      | succ i =>
          rw [show p + 2 * (i + 1) = p + 2 + 2 * i by ring]
          exact (ih h i (by omega)).imp_left (List.mem_cons_of_mem p)
  | case4 n k p ps hne ih =>
      rw [covers, if_neg hne, Bool.and_eq_true, List.any_eq_true] at h
      obtain ⟨⟨s, hs, hdvd⟩, hrest⟩ := h
      cases i with
      | zero => exact .inr ⟨s, hs, Nat.dvd_of_mod_eq_zero (of_decide_eq_true hdvd)⟩
      | succ i =>
          rw [show k + 2 * (i + 1) = k + 2 + 2 * i by ring]
          exact ih hrest i (by omega)

theorem covers_primes : covers (primes.take 36) 12704 3 primes = true := by
  decide +kernel

theorem le_of_mem_primes : ∀ p ∈ primes, p ≤ 25409 := by
  decide +kernel

-- The table has every odd prime up to its last one.
theorem mem_primes {q : Nat} (hq : q.Prime) (hodd : Odd q) (hle : q ≤ 25409) : q ∈ primes := by
  have htwo := hq.two_le
  obtain ⟨i, hi⟩ : ∃ i, q = 3 + 2 * i := by
    obtain ⟨k, hk⟩ := hodd
    exact ⟨k - 1, by omega⟩
  rcases mem_of_covers 12704 3 primes covers_primes i (by omega) with hmem | ⟨s, hs, hdvd⟩
  · rwa [hi]
  · rw [← hi] at hdvd
    have hmem := List.mem_of_mem_take hs
    have := two_le_of_mem_primes s hmem
    rcases (Nat.dvd_prime hq).mp hdvd with hone | hself
    · omega
    · rwa [← hself]

theorem trialLoop_none {X : Int} {ps : List Nat} (h : trialLoop X ps = none) : ∀ p ∈ ps, ¬(p : Int) ∣ X := by
  induction ps with
  | nil => exact nofun
  | cons p ps ih =>
      rw [trialLoop] at h
      split_ifs at h with heq hmod
      rw [List.forall_mem_cons]
      exact ⟨fun hdvd => hmod (Int.emod_eq_zero_of_dvd hdvd), ih h⟩

theorem trialLoop_ne_true {X : Int} {ps : List Nat} (hlarge : ∀ p ∈ ps, (p : Int) < X) :
    trialLoop X ps ≠ some true := by
  induction ps with
  | nil => exact Option.some_ne_none true ∘ Eq.symm
  | cons p ps ih =>
      rw [List.forall_mem_cons] at hlarge
      rw [trialLoop, if_neg hlarge.1.ne']
      split_ifs
      · exact fun h => Bool.false_ne_true (Option.some.inj h)
      · exact ih hlarge.2

end Table

section Numbers

open BigNum

variable {w : Nat} {this X A T : BigNum}

theorem draw_lt (w r₁ r₂ : Nat) : draw w r₁ r₂ < 2 ^ w := BitVec.isLt _

theorem randomLimbs_spec (n i : Nat) (A : BigNum) (rs : List Nat) {A' : BigNum} {rs' : List Nat} (hi : i + n ≤ len1)
    (h : randomLimbs w n i A rs = some (A', rs')) :
    A'.length = A.length ∧ A'.signal = A.signal ∧ (∀ k, k < i ∨ i + n ≤ k → A'.limb k = A.limb k) ∧
      ∀ k, i ≤ k → k < i + n → A'.limb k < 2 ^ w := by
  induction n generalizing i A rs with
  | zero =>
      cases h
      exact ⟨rfl, rfl, fun k _ => rfl, fun k hik hki => by omega⟩
  | succ n ih =>
      match rs, h with
      | r₁ :: r₂ :: rs, h =>
          rw [randomLimbs, set_of_lt (by omega), Option.bind_eq_bind, Option.bind_some] at h
          obtain ⟨hlength, hsignal, hother, hlt⟩ := ih (i + 1) _ rs (by omega) h
          refine ⟨hlength, hsignal, fun k hk => ?_, fun k hik hki => ?_⟩
          · rw [hother k (by omega), limb_update (by omega), if_neg (by omega)]
          · by_cases hk : k = i
            · rw [hother k (by omega), limb_update (by omega), if_pos hk]
              exact draw_lt w r₁ r₂
            · exact hlt k (by omega) (by omega)

-- The number that GeneratePrime tests.
structure Candidate (X : BigNum) : Prop where
  canonical : X.Canonical
  length : X.length = len2
  signal : X.signal = 0
  odd : Odd X.mag
  lower : 2 ^ 63 ≤ X.mag
  upper : X.mag < 2 ^ 64

-- The draws, and the two assignments behind them.
theorem candidate_cases {rs rs' : List Nat} (h : candidate w this rs = some (X, rs')) :
    ∃ C, randomLimbs w len2 0 { this with signal := zero.signal, length := len2 } rs = some (C, rs') ∧
      X = (C.update 1 (C.limb 1 ||| ((1#32 <<< 31).signExtend w).toNat)).update 0 (C.limb 0 ||| 1) := by
  simp only [candidate, randomInt, Option.bind_eq_bind, Option.bind_eq_some_iff, Option.some.injEq] at h
  obtain ⟨⟨B, rs₁⟩, ⟨⟨C, rs₂⟩, hlimbs, top, htop, D, hD, hB⟩, x, hx, E, hE, hX⟩ := h
  obtain ⟨hDB, hrs₁⟩ := Prod.mk.inj hB
  obtain ⟨hEX, hrs'⟩ := Prod.mk.inj hX
  have h0 : 0 < len1 := by decide
  have h1 : len2 - 1 < len1 := by decide
  rw [get_of_lt h1, Option.some.injEq] at htop
  rw [set_of_lt h1, Option.some.injEq] at hD
  rw [← hDB, ← hD, get_of_lt h0, Option.some.injEq, limb_update h1, if_neg (by decide)] at hx
  rw [← hDB, ← hD, set_of_lt h0, Option.some.injEq] at hE
  refine ⟨C, ?_, ?_⟩
  · rw [hlimbs]
    exact congrArg (fun rs => some (C, rs)) (hrs₁.trans hrs')
  · rw [← hEX, ← hE, ← hx, ← htop]
    rfl

theorem candidate_length {rs rs' : List Nat} (h : candidate w this rs = some (X, rs')) : rs'.length < rs.length := by
  obtain ⟨C, hlimbs, -⟩ := candidate_cases h
  have := randomLimbs_length _ _ _ _ hlimbs
  unfold len2 at this
  omega

theorem or_one_odd (x : Nat) : Odd (x ||| 1) := by
  rw [Nat.odd_iff]
  simp

theorem candidate_spec {rs rs' : List Nat} (hthis : ∀ i, len2 ≤ i → this.limb i = 0)
    (h : candidate 32 this rs = some (X, rs')) : Candidate X := by
  obtain ⟨C, hlimbs, rfl⟩ := candidate_cases h
  obtain ⟨hlength, hsignal, hother, hlt⟩ := randomLimbs_spec _ _ _ _ (by decide) hlimbs
  have hx := hlt 0 (by decide) (by decide)
  have htop := hlt 1 (by decide) (by decide)
  generalize hX : (C.update 1 (C.limb 1 ||| ((1#32 <<< 31).signExtend 32).toNat)).update 0 (C.limb 0 ||| 1) = X
  have hlimb : ∀ i, X.limb i = if i = 0 then C.limb 0 ||| 1 else if i = 1 then C.limb 1 ||| 2 ^ 31 else C.limb i := by
    intro i
    rw [← hX, limb_update (by decide), limb_update (by decide)]
    rfl
  have hlen : X.length = 2 := by
    rw [← hX]
    exact hlength
  have hsig : X.signal = 0 := by
    rw [← hX]
    exact hsignal
  clear hX
  obtain ⟨k, hk⟩ := or_one_odd (C.limb 0)
  have hxlt : C.limb 0 ||| 1 < 2 ^ 32 := Nat.or_lt_two_pow hx (by decide)
  have htlt : C.limb 1 ||| 2 ^ 31 < 2 ^ 32 := Nat.or_lt_two_pow htop (by decide)
  have hge : 2 ^ 31 ≤ C.limb 1 ||| 2 ^ 31 := Nat.right_le_or
  generalize C.limb 0 ||| 1 = x at *
  generalize C.limb 1 ||| 2 ^ 31 = y at *
  have habove : ∀ i, 2 ≤ i → X.limb i = 0 := fun i hi => by
    rw [hlimb, if_neg (by omega), if_neg (by omega), hother i (.inr hi)]
    exact hthis i hi
  have hmag : X.mag = x + y * base := by
    rw [mag, hlen, Positional.value_succ, Positional.value_one, hlimb, hlimb]
    simp
  rw [base_eq] at hmag
  refine ⟨⟨by omega, by rw [hlen]; decide, fun i => ?_, fun i hi => habove i (by omega), ?_⟩, hlen, hsig, ?_, ?_, ?_⟩
  · by_cases hi : 2 ≤ i
    · rw [habove i hi]
      decide
    · rw [hlimb]
      split_ifs <;> omega
  · rw [hlen, hlimb, if_neg (by decide), if_pos rfl]
    omega
  · refine ⟨k + y * 2 ^ 31, ?_⟩
    rw [hmag]
    omega
  · omega
  · omega

-- With an `unsigned long` of 64 bits the sign of the `int` fills the top limb.
theorem candidate_wide {rs rs' : List Nat} (h : candidate 64 this rs = some (X, rs')) : ¬X.Canonical := by
  obtain ⟨C, -, rfl⟩ := candidate_cases h
  intro hcanonical
  have hlt := hcanonical.limb_lt 1
  rw [limb_update (by decide), if_neg (by decide), limb_update (by decide), if_pos rfl] at hlt
  have hge : ((1#32 <<< 31).signExtend 64).toNat ≤ C.limb 1 ||| ((1#32 <<< 31).signExtend 64).toNat := Nat.right_le_or
  have hlarge : ((1#32 <<< 31).signExtend 64).toNat = 2 ^ 64 - 2 ^ 31 := by decide
  omega

end Numbers

section Rounds

open BigNum

variable {w : Nat} {X A T : BigNum} {rs rs' : List Nat}

theorem redraw_length (fuel : Nat) (A : BigNum) (rs : List Nat) {A' : BigNum} {rs' : List Nat}
    (h : redraw w X T fuel A rs = some (A', rs')) : rs'.length ≤ rs.length := by
  induction fuel generalizing A rs with
  | zero => cases h
  | succ fuel ih =>
      rw [redraw, Option.bind_eq_bind, Option.bind_eq_some_iff] at h
      obtain ⟨order, -, h⟩ := h
      split_ifs at h
      · obtain ⟨⟨B, rs₁⟩, hdraw, h⟩ := Option.bind_eq_some_iff.mp h
        have := ih B rs₁ h
        have := random_length hdraw
        omega
      · cases h
        exact le_rfl

theorem nextBase_length {A' : BigNum} (h : nextBase w X A T rs = some (A', rs')) : rs'.length < rs.length := by
  rw [nextBase, Option.bind_eq_bind, Option.bind_eq_some_iff] at h
  obtain ⟨⟨B, rs₁⟩, hdraw, h⟩ := h
  have := redraw_length _ _ _ h
  have := random_length hdraw
  omega

theorem roundsRest_length {r : Nat} {m : Int} (n : Nat) (A T : BigNum) (rs : List Nat) {answer : Bool}
    (h : roundsRest w X r m n A T rs = some (answer, rs')) : rs'.length ≤ rs.length := by
  induction n generalizing A T rs with
  | zero =>
      cases h
      exact le_rfl
  | succ n ih =>
      rw [roundsRest, Option.bind_eq_bind, Option.bind_eq_some_iff] at h
      obtain ⟨⟨B, rs₁⟩, hbase, h⟩ := h
      have := nextBase_length hbase
      dsimp only at h
      split_ifs at h
      · have := ih B B rs₁ h
        omega
      · cases h
        omega

theorem rabinMillerRest_length {answer : Bool} (h : rabinMillerRest w X rs = some (answer, rs')) :
    rs'.length ≤ rs.length := by
  rw [rabinMillerRest] at h
  split at h
  · cases h
    exact le_rfl
  · obtain ⟨⟨r, m⟩, -, h⟩ := Option.bind_eq_some_iff.mp h
    exact roundsRest_length 5 _ _ rs h

-- The answer is the one of Rabin_Miller.
theorem roundsRest_fst {r : Nat} {m : Int} (n : Nat) (A T : BigNum) (rs : List Nat) :
    (roundsRest w X r m n A T rs).map Prod.fst = rounds w X r m n A T rs := by
  induction n generalizing A T rs with
  | zero => rfl
  | succ n ih =>
      rw [roundsRest, rounds]
      cases nextBase w X A T rs with
      | none => rfl
      | some drawn =>
          simp only [Option.bind_eq_bind, Option.bind_some, ← ih]
          split_ifs <;> rfl

theorem rabinMillerRest_fst : (rabinMillerRest w X rs).map Prod.fst = rabinMiller w X rs := by
  rw [rabinMillerRest, rabinMiller]
  cases trialLoop X.value primes with
  | some answer => rfl
  | none =>
      cases split X.value with
      | none => rfl
      | some parts => exact roundsRest_fst 5 _ _ rs

theorem noZeroBase_iff (n : Nat) (A T : BigNum) (rs : List Nat) :
    NoZeroBase w X n A T rs ↔ ∀ B ∈ bases w X n A T rs, ¬X.value ∣ B.value := by
  induction n generalizing A T rs with
  | zero => simp [NoZeroBase, bases]
  | succ n ih =>
      rw [NoZeroBase, bases]
      cases nextBase w X A T rs with
      | none => simp
      | some drawn =>
          obtain ⟨B, rs₁⟩ := drawn
          simp [ih]

-- Where the rounds end with 1, all of them have drawn a base and taken it for a liar.
theorem roundsRest_true {r : Nat} {m : Int} (n : Nat) (A T : BigNum) (rs : List Nat)
    (h : roundsRest w X r m n A T rs = some (true, rs')) :
    (bases w X n A T rs).length = n ∧ ∀ B ∈ bases w X n A T rs, witnessRound X.value r m B.value = true := by
  induction n generalizing A T rs with
  | zero => exact ⟨rfl, nofun⟩
  | succ n ih =>
      rw [roundsRest, Option.bind_eq_bind, Option.bind_eq_some_iff] at h
      obtain ⟨⟨B, rs₁⟩, hbase, h⟩ := h
      dsimp only at h
      split_ifs at h with hround
      · obtain ⟨hlength, hall⟩ := ih B B rs₁ h
        rw [bases, hbase]
        exact ⟨by rw [List.length_cons, hlength], List.forall_mem_cons.mpr ⟨hround, hall⟩⟩
      · cases h

-- A base below 2^32, as Random(X) makes it for an `X` of two limbs.
structure Base (A : BigNum) : Prop where
  length : A.length = 1
  signal : A.signal = 0
  limb_lt : A.limb 0 < 2 ^ 32

theorem Base.value (h : Base A) : A.value = A.limb 0 := by
  rw [BigNum.value, if_pos h.signal, mag, h.length, Positional.value_one]

theorem random_base {A' : BigNum} (hX : X.length = len2) (h : random 32 X A rs = some (A', rs')) : Base A' := by
  rw [random, if_pos (by rw [hX]; decide), hX] at h
  obtain ⟨hlength, hsignal, -, hlt⟩ := randomLimbs_spec (len2 - 1) 0 _ rs (by decide) h
  exact ⟨hlength, hsignal, hlt 0 le_rfl (by decide)⟩

theorem redraw_base (hX : X.length = len2) (fuel : Nat) (A : BigNum) (rs : List Nat) (hA : Base A) {A' : BigNum}
    {rs' : List Nat} (h : redraw 32 X T fuel A rs = some (A', rs')) : Base A' ∧ ¬SameLimbs A' T := by
  induction fuel generalizing A rs with
  | zero => cases h
  | succ fuel ih =>
      have hsized : A.Sized := ⟨hA.length.ge, by rw [hA.length]; decide⟩
      obtain ⟨order, horder, hsame⟩ := compare_two_iff (B := T) hsized
      rw [redraw, horder, Option.bind_eq_bind, Option.bind_some] at h
      split_ifs at h with htwo
      · obtain ⟨⟨B, rs₁⟩, hdraw, h⟩ := Option.bind_eq_some_iff.mp h
        exact ih B rs₁ (random_base hX hdraw) h
      · cases h
        exact ⟨hA, fun hlimbs => htwo (hsame.mpr hlimbs)⟩

theorem nextBase_base {A' : BigNum} (hX : X.length = len2) (h : nextBase 32 X A T rs = some (A', rs')) :
    Base A' ∧ ¬SameLimbs A' T := by
  rw [nextBase, Option.bind_eq_bind, Option.bind_eq_some_iff] at h
  obtain ⟨⟨B, rs₁⟩, hdraw, h⟩ := h
  exact redraw_base hX _ B rs₁ (random_base hX hdraw) h

theorem bases_base (hX : X.length = len2) (n : Nat) (A T : BigNum) (rs : List Nat) :
    ∀ B ∈ bases 32 X n A T rs, Base B := by
  induction n generalizing A T rs with
  | zero => exact nofun
  | succ n ih =>
      rw [bases]
      cases hbase : nextBase 32 X A T rs with
      | none => exact nofun
      | some drawn => exact List.forall_mem_cons.mpr ⟨(nextBase_base hX hbase).1, ih drawn.1 drawn.1 drawn.2⟩

-- The first base is compared with zero, so that only a later one can be zero.
theorem bases_tail_iff (hX : X.length = len2) (n : Nat) (A : BigNum) (rs : List Nat) :
    (∀ B ∈ bases 32 X n A BigNum.zero rs, B.value ≠ 0) ↔ ∀ B ∈ (bases 32 X n A BigNum.zero rs).tail, B.value ≠ 0 := by
  refine ⟨fun h B hB => h B (List.mem_of_mem_tail hB), fun h => ?_⟩
  cases n with
  | zero => exact nofun
  | succ n =>
      rw [bases] at h ⊢
      cases hbase : nextBase 32 X A BigNum.zero rs with
      | none => exact nofun
      | some drawn =>
          obtain ⟨hB, hne⟩ := nextBase_base hX hbase
          rw [hbase] at h
          refine List.forall_mem_cons.mpr ⟨fun hzero => hne ⟨hB.length, fun i hi => ?_⟩, h⟩
          rw [hB.value, Nat.cast_eq_zero] at hzero
          rw [hB.length, Nat.lt_one_iff] at hi
          rw [hi, hzero]
          rfl

-- Two bases in a row are different.
theorem bases_chain (hX : X.length = len2) (n : Nat) (A T : BigNum) (rs : List Nat) :
    (bases 32 X n A T rs).IsChain fun B C => B.value ≠ C.value := by
  induction n generalizing A T rs with
  | zero => exact .nil
  | succ n ih =>
      rw [bases]
      cases hbase : nextBase 32 X A T rs with
      | none => exact .nil
      | some drawn =>
          obtain ⟨B, rs₁⟩ := drawn
          refine List.isChain_cons.mpr ⟨fun C hC => ?_, ih B B rs₁⟩
          cases n with
          | zero => cases hC
          | succ n =>
              rw [bases] at hC
              cases hnext : nextBase 32 X B B rs₁ with
              | none =>
                  rw [hnext] at hC
                  cases hC
              | some drawn =>
                  rw [hnext] at hC
                  cases hC
                  obtain ⟨hC, hne⟩ := nextBase_base hX hnext
                  have hB := (nextBase_base hX hbase).1
                  intro hvalue
                  rw [hB.value, hC.value, Nat.cast_inj] at hvalue
                  refine hne ⟨hC.length.trans hB.length.symm, fun i hi => ?_⟩
                  rw [hC.length, Nat.lt_one_iff] at hi
                  rw [hi, hvalue]

end Rounds

section Runs

open BigNum

variable {w : Nat} {this X : BigNum} {rs rs₁ rest : List Nat}

-- Whatever the loop returns is the last number it has drawn.
theorem drawn_of_generateLoop (fuel : Nat) (this : BigNum) (rs : List Nat)
    (h : generateLoop w fuel this rs = some (X, rest)) :
    ∃ rs₁, Drawn w this rs X rs₁ ∧ rabinMillerRest w X rs₁ = some (true, rest) := by
  induction fuel generalizing this rs with
  | zero => cases h
  | succ fuel ih =>
      rw [generateLoop, Option.bind_eq_bind, Option.bind_eq_some_iff] at h
      obtain ⟨⟨Y, rs₁⟩, hdraw, h⟩ := h
      obtain ⟨⟨answer, rs₂⟩, htest, h⟩ := Option.bind_eq_some_iff.mp h
      cases answer with
      | true =>
          cases h
          exact ⟨rs₁, .here hdraw, htest⟩
      | false =>
          obtain ⟨rs₃, hdrawn, hlast⟩ := ih Y rs₂ h
          exact ⟨rs₃, .next hdraw htest hdrawn, hlast⟩

theorem generateLoop_length (fuel : Nat) (this : BigNum) (rs : List Nat)
    (h : generateLoop w fuel this rs = some (X, rest)) : rest.length < rs.length := by
  induction fuel generalizing this rs with
  | zero => cases h
  | succ fuel ih =>
      rw [generateLoop, Option.bind_eq_bind, Option.bind_eq_some_iff] at h
      obtain ⟨⟨Y, rs₁⟩, hdraw, h⟩ := h
      obtain ⟨⟨answer, rs₂⟩, htest, h⟩ := Option.bind_eq_some_iff.mp h
      have := candidate_length hdraw
      have := rabinMillerRest_length htest
      cases answer with
      | true =>
          cases h
          omega
      | false =>
          have := ih Y rs₂ h
          omega

-- The loop comes to every number drawn, and goes on behind it if the test says so.
theorem Drawn.generateLoop_eq (h : Drawn w this rs X rs₁) {answer : Bool}
    (htest : rabinMillerRest w X rs₁ = some (answer, rest)) (fuel : Nat) (hfuel : rs.length < fuel) :
    ∃ fuel', generateLoop w fuel this rs = if answer then some (X, rest) else generateLoop w fuel' X rest := by
  induction h generalizing fuel with
  | here hdraw =>
      obtain ⟨fuel, rfl⟩ : ∃ n, fuel = n + 1 := ⟨fuel - 1, by omega⟩
      refine ⟨fuel, ?_⟩
      rw [generateLoop, hdraw, Option.bind_eq_bind, Option.bind_some]
      dsimp only
      rw [htest]
      rfl
  | next hdraw hfalse hlater ih =>
      obtain ⟨fuel, rfl⟩ : ∃ n, fuel = n + 1 := ⟨fuel - 1, by omega⟩
      have := candidate_length hdraw
      have := rabinMillerRest_length hfalse
      obtain ⟨fuel', heq⟩ := ih htest fuel (by omega)
      refine ⟨fuel', ?_⟩
      rw [generateLoop, hdraw, Option.bind_eq_bind, Option.bind_some]
      dsimp only
      rw [hfalse]
      exact heq

theorem Drawn.generatePrime_iff (h : Drawn w this rs X rs₁) {answer : Bool}
    (htest : rabinMillerRest w X rs₁ = some (answer, rest)) :
    generatePrime w this rs = some (X, rest) ↔ answer = true := by
  obtain ⟨fuel', heq⟩ := h.generateLoop_eq htest (rs.length + 1) (Nat.lt_succ_self _)
  rw [generatePrime, heq]
  cases answer with
  | true => exact iff_of_true rfl rfl
  | false => exact iff_of_false (fun hrest => (generateLoop_length _ _ _ hrest).ne rfl) Bool.false_ne_true

theorem Drawn.candidate (hthis : ∀ i, len2 ≤ i → this.limb i = 0) (h : Drawn 32 this rs X rs₁) : Candidate X := by
  induction h with
  | here hdraw => exact candidate_spec hthis hdraw
  | next hdraw htest hlater ih =>
      have hY := candidate_spec hthis hdraw
      exact ih fun i hi => hY.canonical.zero_above i (hY.length ▸ hi)

-- No number of such limbs is one that the operators are made for.
theorem Drawn.wide (h : Drawn 64 this rs X rs₁) : ¬X.Canonical := by
  induction h with
  | here hdraw => exact candidate_wide hdraw
  | next hdraw htest hlater ih => exact ih

theorem Candidate.value (h : Candidate X) : X.value = X.mag := by
  rw [BigNum.value, if_pos h.signal]

-- The test to the base `A`, with `X - 1` as a power of two times an odd number.
def StrongProbablePrime (X A : Int) : Prop :=
  ∃ r m : Nat, Odd m ∧ X - 1 = 2 ^ r * m ∧ (A ^ m ≡ 1 [ZMOD X] ∨ ∃ j < r, A ^ (2 ^ j * m) ≡ -1 [ZMOD X])

theorem Candidate.parts (h : Candidate X) : ∃ r m : Nat, Odd m ∧ X.mag - 1 = 2 ^ r * m := by
  have hlower := h.lower
  obtain ⟨n, hn⟩ := Int.eq_ofNat_of_zero_le (show 0 ≤ X.mag by omega)
  obtain ⟨r, m, hm, hsplit⟩ := Nat.exists_eq_two_pow_mul_odd (show n - 1 ≠ 0 by omega)
  refine ⟨r, m, hm, ?_⟩
  have hcast : ((n - 1 : Nat) : Int) = ((2 ^ r * m : Nat) : Int) := by rw [hsplit]
  push_cast [show 1 ≤ n by omega] at hcast
  rw [hn]
  exact hcast

-- The table says nothing about a number of this size unless it finds a factor.
theorem Candidate.rabinMillerRest_eq (h : Candidate X) {r m : Nat} (hm : Odd m) (hsplit : X.mag - 1 = 2 ^ r * m)
    (htrial : trialLoop X.mag primes = none) :
    rabinMillerRest 32 X rs = roundsRest 32 X r m 5 BigNum.zero BigNum.zero rs := by
  rw [rabinMillerRest, h.value, htrial, split_eq hm hsplit]
  rfl

theorem Candidate.trialLoop_of_true (h : Candidate X) (htest : rabinMillerRest 32 X rs = some (true, rest)) :
    trialLoop X.mag primes = none := by
  have hlarge : ∀ p ∈ primes, (p : Int) < X.mag := fun p hp => by
    have := le_of_mem_primes p hp
    have := h.lower
    omega
  rw [rabinMillerRest, h.value] at htest
  cases htrial : trialLoop X.mag primes with
  | none => rfl
  | some answer =>
      rw [htrial] at htest
      cases htest
      exact absurd htrial (trialLoop_ne_true hlarge)

-- What GeneratePrime returns: an odd number of 64 bits without a factor up to 25409, which five bases below 2^32, each
-- different from the one before, could not tell from a prime.
theorem generatePrime_spec (hthis : ∀ i, len2 ≤ i → this.limb i = 0)
    (h : generatePrime 32 this rs = some (X, rest)) :
    Candidate X ∧ (∀ q : Nat, q.Prime → (q : Int) ∣ X.mag → 25409 < q) ∧
      ∃ as : List Int, as.length = 5 ∧ as.IsChain (· ≠ ·) ∧
        ∀ A ∈ as, 0 ≤ A ∧ A < 2 ^ 32 ∧ StrongProbablePrime X.mag A := by
  obtain ⟨rs₁, hdrawn, htest⟩ := drawn_of_generateLoop _ _ _ h
  have hX := hdrawn.candidate hthis
  have htrial := hX.trialLoop_of_true htest
  refine ⟨hX, fun q hq hdvd => ?_, ?_⟩
  · by_contra hle
    have hodd : Odd q := hq.odd_of_ne_two fun htwo => by
      rw [htwo] at hdvd
      exact Int.not_even_iff_odd.mpr hX.odd (even_iff_two_dvd.mpr hdvd)
    exact trialLoop_none htrial q (mem_primes hq hodd (by omega)) hdvd
  · obtain ⟨r, m, hm, hsplit⟩ := hX.parts
    rw [hX.rabinMillerRest_eq hm hsplit htrial] at htest
    obtain ⟨hlength, hall⟩ := roundsRest_true 5 _ _ _ htest
    refine ⟨(bases 32 X 5 BigNum.zero BigNum.zero rs₁).map BigNum.value, by rw [List.length_map, hlength], ?_, ?_⟩
    · exact (List.isChain_map _).mpr (bases_chain hX.length 5 _ _ _)
    · rw [List.forall_mem_map]
      intro B hB
      have hbase := bases_base hX.length 5 _ _ _ B hB
      have hlimb := hbase.limb_lt
      have hlower := hX.lower
      refine ⟨by rw [hbase.value]; omega, by rw [hbase.value]; omega, r, m, hm, hsplit, ?_⟩
      have hround := hall B hB
      rw [hX.value, witnessRound_iff (by omega)] at hround
      refine hround.imp_right ?_
      rintro ⟨j, hj, hpow⟩
      refine ⟨j, hj.lt_of_ne ?_, hpow⟩
      rintro rfl
      exact pow_pred_not_neg_one hX.odd (by omega) hsplit _ hpow

-- 27 * 2 ^ 59 + 1 and the bases 2, 3, 5, 7 and 11.
def number : BigNum := ofLimbs BigNum.zero.signal [1, 0xD8000000]

def rands : List Nat := [0, 0, 22528, 0, 0, 2, 0, 3, 0, 5, 0, 7, 0, 11]

theorem generatePrime_rands : generatePrime 32 BigNum.zero rands = some (number, []) := by
  decide +kernel

theorem generatePrime_spec_rands :
    Candidate number ∧ (∀ q : Nat, q.Prime → (q : Int) ∣ number.mag → 25409 < q) ∧
      ∃ as : List Int, as.length = 5 ∧ as.IsChain (· ≠ ·) ∧
        ∀ A ∈ as, 0 ≤ A ∧ A < 2 ^ 32 ∧ StrongProbablePrime number.mag A :=
  generatePrime_spec (fun i _ => limb_zeros 0 1 i) generatePrime_rands

-- A prime that has been drawn is passed over exactly where one of the bases after the first is zero.
theorem generatePrime_prime_iff (hthis : ∀ i, len2 ≤ i → this.limb i = 0) (hdrawn : Drawn 32 this rs X rs₁) {p : Nat}
    (hp : p.Prime) (hX : X.mag = p) {answer : Bool} (htest : rabinMillerRest 32 X rs₁ = some (answer, rest)) :
    generatePrime 32 this rs = some (X, rest) ↔
      ∀ A ∈ (bases 32 X 5 BigNum.zero BigNum.zero rs₁).tail, A.value ≠ 0 := by
  have hcandidate := hdrawn.candidate hthis
  have hlower := hcandidate.lower
  have hnot : p ∉ primes := fun hmem => by
    have := le_of_mem_primes p hmem
    omega
  have htrial : trialLoop X.mag primes = none := by
    rw [hX, trialLoop_prime hp primes two_le_of_mem_primes, if_neg hnot]
  obtain ⟨r, m, hm, hsplit⟩ := hcandidate.parts
  have hsplit' : p - 1 = 2 ^ r * m := by
    zify [hp.one_le]
    rw [← hsplit, hX]
  rw [hcandidate.rabinMillerRest_eq hm hsplit htrial] at htest
  have hrounds : rounds 32 X r m 5 BigNum.zero BigNum.zero rs₁ = some answer := by
    rw [← roundsRest_fst, htest, Option.map_some]
  have hround : ∀ A, witnessRound X.value r m A = true ↔ ¬X.value ∣ A := by
    rw [hcandidate.value, hX]
    exact witnessRound_prime_iff hp hm hsplit'
  have hanswer : answer = true ↔ NoZeroBase 32 X 5 BigNum.zero BigNum.zero rs₁ := by
    rw [← rounds_true_iff hround, hrounds]
    simp
  rw [hdrawn.generatePrime_iff ((hcandidate.rabinMillerRest_eq hm hsplit htrial).trans htest), hanswer, noZeroBase_iff,
    ← bases_tail_iff hcandidate.length]
  refine forall₂_congr fun B hB => not_congr ?_
  have hbase := bases_base hcandidate.length 5 _ _ _ B hB
  have hlimb := hbase.limb_lt
  rw [hcandidate.value, hbase.value]
  constructor
  · intro hdvd
    exact Int.eq_zero_of_dvd_of_nonneg_of_lt (by omega) (by omega) hdvd
  · intro hzero
    rw [hzero]
    exact dvd_zero _

-- The second base is zero, and the prime is lost.
theorem generatePrime_prime_zeroBase :
    ¬generatePrime 32 BigNum.zero [0, 0, 22528, 0, 0, 2, 0, 0] = some (number, []) := by
  have hdrawn : Drawn 32 BigNum.zero [0, 0, 22528, 0, 0, 2, 0, 0] number [0, 2, 0, 0] := .here (by decide +kernel)
  have htest : rabinMillerRest 32 number [0, 2, 0, 0] = some (false, []) := by decide +kernel
  have hmag : number.mag = (27 * 2 ^ 59 + 1 : Nat) := by decide +kernel
  intro hrun
  have hall := (generatePrime_prime_iff (fun i _ => limb_zeros 0 1 i) hdrawn Paillier.prime_key_p hmag htest).mp hrun
  have hzero : (bases 32 number 5 BigNum.zero BigNum.zero [0, 2, 0, 0]).tail.any (fun A => A.value = 0) = true := by
    decide +kernel
  obtain ⟨A, hA, hvalue⟩ := List.any_eq_true.mp hzero
  exact hall A hA (of_decide_eq_true hvalue)

end Runs

end RichardTest.RabinMiller
