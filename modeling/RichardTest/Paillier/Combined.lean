import RichardTest.Paillier.Theorems
import RichardTest.BigNumCpp.Modulo
import RichardTest.BigNumCpp.Text

namespace RichardTest.Paillier

section Product

variable {p q : Nat} (hp : p.Prime) (hq : q.Prime) (hpq : p ≠ q)

include hp hq hpq

omit hpq in
-- What Lfunction extracts from a power that is known modulo `n * n`.
theorem lFunction_modEq {c a : Int} (hc : c ^ Nat.lcm (p - 1) (q - 1) ≡ 1 + p * q * a [ZMOD p * q * (p * q)]) :
    lFunction (p * q) (powerMod c (Nat.lcm (p - 1) (q - 1)) (p * q * (p * q))) ≡ a [ZMOD p * q] := by
  have hn := two_le_modulus hp hq
  have hmod := powerMod_modEq c (Nat.lcm (p - 1) (q - 1)) (two_le_modulus_sq hp hq)
  rw [Int.natAbs_natCast] at hmod
  generalize powerMod c (Nat.lcm (p - 1) (q - 1)) (p * q * (p * q)) = y at *
  have hy := hmod.trans hc
  have hone : y ≡ 1 [ZMOD p * q] := by
    refine (hy.of_mul_left (p * q)).trans ?_
    exact Int.modEq_of_dvd ⟨-a, by ring⟩
  rw [← lFunction_spec hone] at hy
  exact Int.ModEq.mul_left_cancel' (by omega) (hy.add_left_cancel' 1)

-- The coefficients add up where the ciphertexts are multiplied.
theorem product_pow_modEq {g : Int} (hg : Int.gcd g (p * q) = 1) (ms : List (Int × Int))
    (hms : ∀ x ∈ ms, 0 ≤ x.1 ∧ Int.gcd x.2 (p * q) = 1) :
    (ms.map fun x => encrypt (p * q) g x.2 x.1).prod ^ Nat.lcm (p - 1) (q - 1) ≡
      1 + p * q * ((ms.map Prod.fst).sum * lFunction (p * q)
        (powerMod g (Nat.lcm (p - 1) (q - 1)) (p * q * (p * q)))) [ZMOD p * q * (p * q)] := by
  induction ms with
  | nil => simp
  | cons x ms ih =>
      obtain ⟨hm, hr⟩ := hms x List.mem_cons_self
      have hhead := encrypt_pow_modEq hp hq hpq hg hr hm
      have htail := ih fun y hy => hms y (List.mem_cons_of_mem x hy)
      generalize lFunction (p * q) (powerMod g (Nat.lcm (p - 1) (q - 1)) (p * q * (p * q))) = Lg at *
      rw [List.map_cons, List.prod_cons, List.map_cons, List.sum_cons, mul_pow]
      refine (hhead.mul htail).trans ?_
      apply Int.modEq_of_dvd
      refine ⟨-(x.1 * Lg * ((ms.map Prod.fst).sum * Lg)), ?_⟩
      ring

-- A product of ciphertexts decrypts to the sum of the messages, reduced; a single one to its own message.
theorem decrypt_product {g : Int} (hg : Int.gcd g (p * q) = 1)
    (hL : ∀ priKey, lcm (p - 1 : Int) (q - 1) = some priKey →
      Int.gcd (lFunction (p * q) (powerMod g priKey (p * q * (p * q)))) (p * q) = 1)
    (ms : List (Int × Int)) (hms : ∀ x ∈ ms, 0 ≤ x.1 ∧ Int.gcd x.2 (p * q) = 1) (c : Int)
    (hc : c ≡ (ms.map fun x => encrypt (p * q) g x.2 x.1).prod [ZMOD p * q * (p * q)]) :
    decrypt p q g c = some ((ms.map Prod.fst).sum % (p * q)) := by
  have hn := two_le_modulus hp hq
  have hkey : lcm (p - 1 : Int) (q - 1) = some (Nat.lcm (p - 1) (q - 1) : Int) := by
    have h2 := hq.two_le
    have := lcm_spec (p - 1) (q - 1) (by omega)
    rwa [Nat.cast_sub hp.one_le, Nat.cast_sub hq.one_le, Nat.cast_one] at this
  obtain ⟨u, hu, hinv⟩ := exEuclid_spec (lFunction_nonneg hp hq hpq hg) (by omega) (hL _ hkey)
  have hLc := lFunction_modEq hp hq ((hc.pow _).trans (product_pow_modEq hp hq hpq hg ms hms))
  rw [decrypt, hkey]
  simp only [Option.bind_eq_bind, Option.bind_some, hu, powerMod_one _ hn, Option.some.injEq]
  generalize lFunction (p * q) (powerMod g (Nat.lcm (p - 1) (q - 1)) (p * q * (p * q))) = Lg at *
  have hfinal := (hLc.mul_right u).trans ((mul_assoc _ Lg u).symm ▸ hinv.mul_left _)
  rw [hfinal.eq, mul_one]

omit hp hq hpq

-- The key of the example: two 64-bit primes and `g = n + 1`.
def keyP : Nat := 27 * 2 ^ 59 + 1

def keyQ : Nat := 71 * 2 ^ 57 + 1

def keyG : Int := keyP * keyQ + 1

theorem keyG_coprime : Int.gcd keyG (keyP * keyQ) = 1 := by decide

theorem keyL_coprime (priKey : Int) (hkey : lcm (keyP - 1) (keyQ - 1) = some priKey) :
    Int.gcd (lFunction (keyP * keyQ) (powerMod keyG priKey (keyP * keyQ * (keyP * keyQ)))) (keyP * keyQ) = 1 := by
  have hval : lcm (keyP - 1) (keyQ - 1) = some (27 * 71 * 2 ^ 59) := by decide
  rw [hval, Option.some.injEq] at hkey
  subst hkey
  decide +kernel

-- 42 and 58 are added under the encryption.
theorem decrypt_product_hundred :
    decrypt keyP keyQ keyG (encrypt (keyP * keyQ) keyG 2 42 * encrypt (keyP * keyQ) keyG 3 58) = some 100 := by
  have hproduct : ([(42, 2), (58, 3)].map fun x : Int × Int => encrypt (keyP * keyQ) keyG x.2 x.1).prod =
      encrypt (keyP * keyQ) keyG 2 42 * encrypt (keyP * keyQ) keyG 3 58 := by
    rw [List.map_cons, List.map_singleton, List.prod_cons, List.prod_singleton]
  have hsum := decrypt_product (p := keyP) (q := keyQ) prime_key_p prime_key_q (by decide) keyG_coprime
    keyL_coprime [(42, 2), (58, 3)] (by decide) _ (Int.ModEq.refl _)
  rw [hproduct] at hsum
  refine hsum.trans ?_
  decide

end Product

section Text

open RichardTest.BigNumCpp BigNum

-- The bytes of the last cell that the text does not push out of it.
def leftOver (memory : BigNum) (s : List (BitVec 8)) : List (BitVec 8) :=
  (bytes (memory.limb ((s.length - 1) / 4))).drop ((s.length - 1) % 4 + 1)

theorem smearBy_of_ascii {c : BitVec 8} (hc : c.msb = false) : smearBy c = id := by
  funext d
  rw [smearBy, if_neg (by simp [hc]), id]

theorem bytes_foldl (x : Nat) {t : List (BitVec 8)} (ht : t.length ≤ 4) (hascii : ∀ c ∈ t, c.msb = false) :
    bytes (t.foldl (push 32) x) = (bytes x).drop t.length ++ t := by
  induction t using List.reverseRecOn with
  | nil => simp
  | append_singleton t c ih =>
      rw [List.length_append, List.length_singleton] at ht
      have hlow := ih (by omega) fun d hd => hascii d (List.mem_append_left [c] hd)
      have hdrop : (bytes x).drop t.length ≠ [] := by
        rw [← List.length_pos_iff, List.length_drop]
        simp only [bytes, List.length_cons, List.length_nil]
        omega
      rw [List.foldl_append, List.foldl_cons, List.foldl_nil, bytes_push (Nat.le_refl 32), hlow,
        smearBy_of_ascii (hascii c (by simp)), List.map_id, List.length_append, List.length_singleton,
        List.tail_append_of_ne_nil hdrop, List.tail_drop, List.append_assoc]

theorem push_lt (x : Nat) (c : BitVec 8) : push 32 x c < 2 ^ 32 :=
  Nat.or_lt_two_pow (Nat.mod_lt _ (by decide)) (BitVec.isLt _)

theorem foldl_push_lt (x : Nat) {t : List (BitVec 8)} (hne : t ≠ []) : t.foldl (push 32) x < 2 ^ 32 := by
  obtain ⟨front, c, rfl⟩ := (List.eq_nil_or_concat' t).resolve_left hne
  rw [List.foldl_append]
  exact push_lt _ c

-- The lowest byte of a limb is the last character that went into it.
theorem foldl_push_ne_zero (x : Nat) {t : List (BitVec 8)} (hne : t ≠ []) (hnul : ∀ c ∈ t, c ≠ 0) :
    t.foldl (push 32) x ≠ 0 := by
  obtain ⟨front, c, rfl⟩ := (List.eq_nil_or_concat' t).resolve_left hne
  intro hzero
  have hlow := byte_push_zero (Nat.le_refl 32) (front.foldl (push 32) x) c
  rw [List.foldl_append] at hzero
  rw [show push 32 (front.foldl (push 32) x) c = 0 from hzero] at hlow
  exact hnul c (by simp) hlow.symm

theorem flatMap_block (s : List (BitVec 8)) (n : Nat) : (List.range n).flatMap (block s) = s.take (4 * n) := by
  induction n with
  | zero => rfl
  | succ n ih =>
      rw [List.range_succ, List.flatMap_append, List.flatMap_singleton, ih, Nat.mul_succ, List.take_add, block]

-- The number without what lies above its length.
def used (B : BigNum) : BigNum :=
  { BigNum.zero with
    length := B.length
    array := Vector.ofFn fun i => if i.val < B.length then B.limb i.val else 0 }

@[simp] theorem length_used (B : BigNum) : (used B).length = B.length := rfl

theorem limb_used {B : BigNum} (hlen : B.length ≤ len1) (i : Nat) :
    (used B).limb i = if i < B.length then B.limb i else 0 := by
  rw [limb, used]
  by_cases hi : i < len1
  · simp [hi]
  · rw [Vector.getElem?_eq_none (by omega), if_neg (by omega)]
    rfl

theorem mag_used {B : BigNum} (hlen : B.length ≤ len1) : (used B).mag = B.mag := by
  refine Positional.value_congr fun i hi => ?_
  rw [limb_used hlen, if_pos (show i < B.length from hi)]

theorem ofString_foldl (memory : BigNum) {s : List (BitVec 8)} (hne : s ≠ []) (hlen : s.length ≤ 500) :
    ∃ B, ofString 32 memory s = some B ∧ B.length = (s.length - 1) / 4 + 1 ∧
      ∀ k, B.limb k = (block s k).foldl (push 32) (memory.limb k) := by
  have hpos := List.length_pos_iff.mpr hne
  have hlen1 : len1 = 128 := rfl
  obtain ⟨B, hrun, hlimb⟩ := packLoop_foldl (w := 32) (s := s) (by omega) memory
  have hlength : ((s.length + (2 ^ 64 - 1)) % 2 ^ 64 / 4 + 1) % 2 ^ 32 = (s.length - 1) / 4 + 1 := by omega
  refine ⟨{ B with length := (s.length - 1) / 4 + 1 }, ?_, rfl, hlimb⟩
  rw [ofString, hrun, hlength]
  rfl

section Ascii

variable (memory : BigNum) {s : List (BitVec 8)} (hascii : ∀ c ∈ s, c ≠ 0 ∧ c.msb = false)

include hascii

theorem mem_block {k : Nat} {c : BitVec 8} (hc : c ∈ block s k) : c ≠ 0 ∧ c.msb = false :=
  hascii c (List.mem_of_mem_drop (List.mem_of_mem_take hc))

theorem printLimb_foldl (x k : Nat) :
    printLimb ((block s k).foldl (push 32) x) =
      ((bytes x).drop (block s k).length).filter (· ≠ 0) ++ block s k := by
  have hlow : ∀ c ∈ block s k, c.msb = false := fun c hc => (mem_block hascii hc).2
  have hnul : ∀ c ∈ block s k, decide (c ≠ 0) = true := fun c hc => decide_eq_true (mem_block hascii hc).1
  have hle : (block s k).length ≤ 4 := List.length_take_le 4 _
  rw [printLimb_eq, bytes_foldl x hle hlow, List.filter_append, List.filter_eq_self.mpr hnul]

-- The limbs that are full give back their characters only.
theorem flatMap_full {n : Nat} (hn : 4 * n ≤ s.length) :
    ((List.range n).flatMap fun k => printLimb ((block s k).foldl (push 32) (memory.limb k))) = s.take (4 * n) := by
  rw [← flatMap_block]
  refine List.flatMap_congr fun k hk => ?_
  have hfull : (block s k).length = (bytes (memory.limb k)).length := by
    rw [List.mem_range] at hk
    rw [block, List.length_take, List.length_drop]
    simp only [bytes, List.length_cons, List.length_nil]
    omega
  rw [printLimb_foldl hascii, hfull, List.drop_length, List.filter_nil, List.nil_append]

theorem flatMap_limbs (hne : s ≠ []) :
    ((List.range ((s.length - 1) / 4 + 1)).flatMap fun k =>
        printLimb ((block s k).foldl (push 32) (memory.limb k))) =
      s.take (4 * ((s.length - 1) / 4)) ++
        ((leftOver memory s).filter (· ≠ 0) ++ s.drop (4 * ((s.length - 1) / 4))) := by
  have hpos := List.length_pos_iff.mpr hne
  have hlast : block s ((s.length - 1) / 4) = s.drop (4 * ((s.length - 1) / 4)) := by
    rw [block, List.take_of_length_le]
    rw [List.length_drop]
    omega
  have hlength : (block s ((s.length - 1) / 4)).length = (s.length - 1) % 4 + 1 := by
    rw [hlast, List.length_drop]
    omega
  rw [List.range_succ, List.flatMap_append, flatMap_full memory hascii (by omega), List.flatMap_singleton,
    printLimb_foldl hascii, hlength, hlast, leftOver]

-- What an ASCII text leaves of the memory that it is packed into, and what is printed of that.
theorem ofString_ascii (hne : s ≠ []) (hlen : s.length ≤ 500) :
    ∃ B, ofString 32 memory s = some B ∧ (used B).Canonical ∧ (used B).mag = B.mag ∧
      printS (used B) = some (s.take (4 * ((s.length - 1) / 4)) ++
        ((leftOver memory s).filter (· ≠ 0) ++ s.drop (4 * ((s.length - 1) / 4))) ++ [10]) := by
  have hlen1 : len1 = 128 := rfl
  obtain ⟨B, hof, hlength, hlimb⟩ := ofString_foldl memory hne hlen
  have hle : B.length ≤ len1 := by omega
  have hblock : ∀ k < B.length, block s k ≠ [] := fun k hk => by
    have hpos := List.length_pos_iff.mpr hne
    rw [← List.length_pos_iff, block, List.length_take, List.length_drop]
    omega
  have hlimbs : ∀ k ∈ List.range B.length, printLimb ((used B).limb (0 + k)) =
      printLimb ((block s k).foldl (push 32) (memory.limb k)) := fun k hk => by
    rw [Nat.zero_add, limb_used hle, if_pos (List.mem_range.mp hk), hlimb]
  refine ⟨B, hof, ⟨by simp [hlength], hle, fun k => ?_, fun k hk => ?_, Or.inr ?_⟩, mag_used hle, ?_⟩
  · rw [limb_used hle, hlimb]
    split_ifs with hk
    · exact foldl_push_lt _ (hblock k hk)
    · decide
  · rw [length_used] at hk
    rw [limb_used hle, if_neg (Nat.not_lt.mpr hk)]
  · have hk : B.length - 1 < B.length := by omega
    rw [length_used, limb_used hle, if_pos hk, hlimb]
    exact foldl_push_ne_zero _ (hblock _ hk) fun c hc => (mem_block hascii hc).1
  · have habove : printLimb ((used B).limb (0 + B.length)) = [] := by
      rw [Nat.zero_add, limb_used hle, if_neg (Nat.lt_irrefl _)]
      rfl
    rw [printS, printLoop_eq _ _ _ (by simp only [length_used]; omega), length_used, List.range_succ,
      List.flatMap_append, List.flatMap_singleton, habove, List.append_nil, List.flatMap_congr hlimbs, hlength,
      flatMap_limbs memory hascii hne]
    rfl

end Ascii

-- printS only looks at the limbs.
theorem printS_congr {A B : BigNum} (hA : A.Canonical) (hB : B.Canonical) (h : A.mag = B.mag) :
    printS A = printS B := by
  obtain ⟨hlength, hlimb⟩ := hA.eq_of_mag_eq hB h
  have hget : A.get = B.get := by
    funext i
    by_cases hi : i < len1
    · rw [get_of_lt hi, get_of_lt hi, hlimb]
    · rw [BigNum.get, BigNum.get, Vector.getElem?_eq_none (by omega), Vector.getElem?_eq_none (by omega)]
  have hloop : ∀ n i, printLoop A n i = printLoop B n i := fun n => by
    induction n with
    | zero => exact fun _ => rfl
    | succ n ih =>
        intro i
        rw [printLoop, printLoop, hget, ih]
  rw [printS, printS, hloop, hlength]

end Text

section Main

open RichardTest.BigNumCpp BigNum

-- main: from the string that is read to what is printed behind the decryption. `memory` is what stood where
-- the temporary `BigNum(A)` is built: that constructor sets the length only. power_mod reads the limbs of
-- `middle` and not its sign. The number that is decrypted is printed as the operators leave it, without leading
-- zeros.
def main (memory : BigNum) (p q g r : Int) (s : List (BitVec 8)) : Option (List (BitVec 8)) := do
  let middle ← ofString 32 memory s
  let c ← decrypt p q g (encrypt (p * q) g r middle.mag)
  (← BigNum.ofNat c.toNat).printS

variable {p q : Nat} (hp : p.Prime) (hq : q.Prime) (hpq : p ≠ q)

include hp hq hpq

-- Before the last limb's characters comes what the memory held: an ASCII text whose number is below the modulus
-- is printed again where these bytes are zero, and only there.
theorem main_prints_leftOver (memory : BigNum) {g r : Int} (hg : Int.gcd g (p * q) = 1) (hr : Int.gcd r (p * q) = 1)
    (hL : ∀ priKey, lcm (p - 1 : Int) (q - 1) = some priKey →
      Int.gcd (lFunction (p * q) (powerMod g priKey (p * q * (p * q)))) (p * q) = 1)
    {s : List (BitVec 8)} (hne : s ≠ []) (hlen : s.length ≤ 500) (hascii : ∀ c ∈ s, c ≠ 0 ∧ c.msb = false)
    (hfits : ∀ middle, ofString 32 memory s = some middle → middle.mag < p * q) :
    main memory p q g r s = some (s.take (4 * ((s.length - 1) / 4)) ++
        ((leftOver memory s).filter (· ≠ 0) ++ s.drop (4 * ((s.length - 1) / 4))) ++ [10]) ∧
      (main memory p q g r s = some (s ++ [10]) ↔ ∀ c ∈ leftOver memory s, c = 0) := by
  obtain ⟨B, hB, hcan, hmag, hprint⟩ := ofString_ascii memory hascii hne hlen
  have hpos : 0 ≤ B.mag := mag_nonneg B
  have hdec := decrypt_product hp hq hpq hg hL [(B.mag, r)] (by simpa using ⟨hpos, hr⟩)
    (encrypt (p * q) g r B.mag) (by simp)
  rw [List.map_singleton, List.sum_singleton, Int.emod_eq_of_lt hpos (hfits B hB)] at hdec
  have hbound : ((B.mag.toNat : Nat) : Int) < base ^ len1 := by
    rw [Int.toNat_of_nonneg hpos, ← hmag]
    exact hcan.mag_lt.trans_le (pow_le_pow_right₀ base_one_le hcan.length_le)
  obtain ⟨C, hC, hCcan, -, hCmag⟩ := ofNat_exact hbound
  rw [Int.toNat_of_nonneg hpos, ← hmag] at hCmag
  have hmain : main memory p q g r s = printS (used B) := by
    rw [main, hB]
    simp only [Option.bind_eq_bind, Option.bind_some, hdec, hC]
    exact printS_congr hCcan hcan hCmag
  refine ⟨hmain.trans hprint, ?_⟩
  rw [hmain, hprint, Option.some.injEq, List.append_left_inj]
  have hsplit := List.take_append_drop (4 * ((s.length - 1) / 4)) s
  have hzero : (leftOver memory s).filter (· ≠ 0) = [] ↔ ∀ c ∈ leftOver memory s, c = 0 := by
    simp [List.filter_eq_nil_iff]
  rw [← hzero]
  constructor
  · intro h
    have hlength := congrArg List.length h
    have hlength' := congrArg List.length hsplit
    simp only [List.length_append] at hlength hlength'
    exact List.length_eq_zero_iff.mp (by omega)
  · intro h
    rw [h, List.nil_append, hsplit]

omit hp hq hpq

def hello : List (BitVec 8) := [0x48, 0x65, 0x6c, 0x6c, 0x6f]

-- Memory with `x` in both cells that "Hello" goes to.
def filledWith (x : Nat) : BigNum := { zero with array := (zero.array.setIfInBounds 0 x).setIfInBounds 1 x }

theorem hello_fits {x : Nat} {n : Int} (hvalue : (ofString 32 (filledWith x) hello).map mag = some n)
    (hn : n < keyP * keyQ) (middle : BigNum) (hmiddle : ofString 32 (filledWith x) hello = some middle) :
    middle.mag < keyP * keyQ := by
  rw [hmiddle, Option.map_some, Option.some.injEq] at hvalue
  rwa [hvalue]

-- "Hello" comes back from cells of which only the highest byte is set, and as "Helllo" where they hold an 'l'.
theorem main_prints_hello :
    main (filledWith 0x6c000000) keyP keyQ keyG 2 hello = some (hello ++ [10]) ∧
      main (filledWith 0x6c) keyP keyQ keyG 2 hello = some [0x48, 0x65, 0x6c, 0x6c, 0x6c, 0x6f, 10] := by
  constructor
  · exact (main_prints_leftOver prime_key_p prime_key_q (by decide) _ keyG_coprime (by decide)
      keyL_coprime (by decide) (by decide) (by decide)
      (hello_fits (n := 0x6f48656c6c) (by decide +kernel) (by decide))).2.mpr (by decide +kernel)
  · refine (main_prints_leftOver prime_key_p prime_key_q (by decide) _ keyG_coprime (by decide)
      keyL_coprime (by decide) (by decide) (by decide)
      (hello_fits (n := 0x6c6f48656c6c) (by decide +kernel) (by decide))).1.trans ?_
    decide +kernel

end Main

end RichardTest.Paillier
