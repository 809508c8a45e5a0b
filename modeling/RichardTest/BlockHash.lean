import Mathlib.Data.BitVec
import Mathlib.Data.Nat.Digits.Defs
import Mathlib.Data.Nat.Prime.Basic
import Mathlib.Data.Int.GCD

namespace RichardTest.BlockHash

-- Hashes that take their input in block by block, and the word operations that lose nothing.

open Function

section Words

variable {w : Nat}

-- An odd word has an inverse.
theorem isUnit_of_odd {m : BitVec w} (hm : m.toNat % 2 = 1) : IsUnit m := by
  have hcoprime : m.toNat.Coprime (2 ^ w) :=
    (Nat.coprime_two_right.mpr (Nat.odd_iff.mpr hm)).pow_right w
  obtain ⟨n, -, hn⟩ := Nat.exists_mul_mod_eq_of_coprime 1 hcoprime (by positivity)
  refine IsUnit.of_mul_eq_one (BitVec.ofNat w n) (BitVec.eq_of_toNat_eq ?_)
  rw [BitVec.toNat_mul, BitVec.toNat_ofNat, Nat.mul_mod_mod, hn]
  exact (BitVec.toNat_ofNat 1 w).symm

-- A bit and the higher bits give the bit back, from the top of the word down.
theorem xor_ushiftRight_injective {r : Nat} (hr : 0 < r) : Injective fun x : BitVec w => x ^^^ x >>> r := by
  intro x y hxy
  have hbits : ∀ n i, w ≤ i + n → x.getLsbD i = y.getLsbD i := by
    intro n
    induction n with
    | zero =>
        intro i hi
        rw [BitVec.getLsbD_of_ge x i hi, BitVec.getLsbD_of_ge y i hi]
    | succ n ih =>
        intro i hi
        have hbit := congrArg (fun z : BitVec w => z.getLsbD i) hxy
        simp only [BitVec.getLsbD_xor, BitVec.getLsbD_ushiftRight] at hbit
        rw [ih (r + i) (by omega)] at hbit
        exact Bool.xor_left_inj.mp hbit
  exact BitVec.eq_of_getLsbD_eq fun i _ => hbits w i (by omega)

-- The word that bytes make, the lowest byte first.
def ofBytes (w : Nat) (bytes : List (BitVec 8)) : BitVec w :=
  BitVec.ofNat w (Nat.ofDigits 256 (bytes.map BitVec.toNat))

theorem ofBytes_inj {a b : List (BitVec 8)} (hlen : a.length = b.length) (hw : 8 * a.length ≤ w)
    (h : ofBytes w a = ofBytes w b) : a = b := by
  have hdigit : ∀ bytes : List (BitVec 8), ∀ d ∈ bytes.map BitVec.toNat, d < 256 := by
    intro bytes d hd
    obtain ⟨byte, -, rfl⟩ := List.mem_map.mp hd
    exact byte.isLt
  have hfit : ∀ bytes : List (BitVec 8), 8 * bytes.length ≤ w →
      Nat.ofDigits 256 (bytes.map BitVec.toNat) < 2 ^ w := by
    intro bytes hbytes
    have hlt := Nat.ofDigits_lt_base_pow_length (by norm_num) (hdigit bytes)
    rw [List.length_map] at hlt
    calc Nat.ofDigits 256 (bytes.map BitVec.toNat) < (2 ^ 8) ^ bytes.length := hlt
      _ = 2 ^ (8 * bytes.length) := (pow_mul 2 8 bytes.length).symm
      _ ≤ 2 ^ w := Nat.pow_le_pow_right Nat.two_pos hbytes
  have hvalue := congrArg BitVec.toNat h
  rw [ofBytes, ofBytes, BitVec.toNat_ofNat, BitVec.toNat_ofNat, Nat.mod_eq_of_lt (hfit a hw),
    Nat.mod_eq_of_lt (hfit b (by omega))] at hvalue
  have hmap := Nat.ofDigits_inj_of_len_eq (by norm_num) (by simpa using hlen) (hdigit a) (hdigit b) hvalue
  exact List.map_injective_iff.mpr BitVec.toNat_injective hmap

end Words

section Digest

variable {σ τ β : Type}

-- The state after all the full blocks of `n`, and what is left over. `fuel` rounds are enough for as many
-- elements.
def absorb (n : Nat) (step : σ → List β → σ) : (fuel : Nat) → σ → List β → σ × List β
  | 0, s, data => (s, data)
  | fuel + 1, s, data =>
      if n ≤ data.length then absorb n step fuel (step s (data.take n)) (data.drop n) else (s, data)

def digest (n : Nat) (step : σ → List β → σ) (last : σ → List β → τ) (fuel : Nat) (s : σ) (data : List β) : τ :=
  last (absorb n step fuel s data).1 (absorb n step fuel s data).2

-- Two inputs of one length that differ within one block, be it the shorter one at the end.
structure DifferInBlock (n : Nat) (a b : List β) : Prop where
  ne : a ≠ b
  length : a.length = b.length
  block : ∃ i, ∀ j, j / n ≠ i → a[j]? = b[j]?

variable {n : Nat} {step : σ → List β → σ} {last : σ → List β → τ}

theorem digest_short (fuel : Nat) (s : σ) {data : List β} (h : data.length < n) :
    digest n step last fuel s data = last s data := by
  cases fuel with
  | zero => rfl
  | succ fuel => rw [digest, absorb, if_neg (by omega)]

theorem digest_full (fuel : Nat) (s : σ) {data : List β} (h : n ≤ data.length) :
    digest n step last (fuel + 1) s data = digest n step last fuel (step s (data.take n)) (data.drop n) := by
  rw [digest, absorb, if_pos h, digest]

-- Where no block merges two states, two states stay apart to the end.
theorem digest_injective (hstep : ∀ x, Injective fun s => step s x) (hlast : ∀ x, Injective fun s => last s x)
    (fuel : Nat) (data : List β) : Injective fun s => digest n step last fuel s data := by
  induction fuel generalizing data with
  | zero => exact hlast data
  | succ fuel ih =>
      intro s t hst
      simp only at hst
      by_cases hfull : n ≤ data.length
      · rw [digest_full fuel s hfull, digest_full fuel t hfull] at hst
        exact hstep _ (ih _ hst)
      · rw [digest_short _ s (by omega), digest_short _ t (by omega)] at hst
        exact hlast data hst

theorem DifferInBlock.take_or_drop {a b : List β} (hn : 0 < n) (h : DifferInBlock n a b) :
    (a.take n ≠ b.take n ∧ a.drop n = b.drop n) ∨
      (a.take n = b.take n ∧ DifferInBlock n (a.drop n) (b.drop n)) := by
  obtain ⟨i, hi⟩ := h.block
  have hlen := h.length
  cases i with
  | zero =>
      have hdrop : a.drop n = b.drop n := by
        apply List.ext_getElem?
        intro j
        rw [List.getElem?_drop, List.getElem?_drop]
        apply hi
        rw [Nat.add_div_left j hn]
        exact Nat.succ_ne_zero _
      refine Or.inl ⟨fun htake => h.ne ?_, hdrop⟩
      rw [← List.take_append_drop n a, htake, hdrop, List.take_append_drop]
  | succ i =>
      have htake : a.take n = b.take n := by
        apply List.ext_getElem?
        intro j
        rw [List.getElem?_take, List.getElem?_take]
        split_ifs with hj
        · apply hi
          rw [Nat.div_eq_of_lt hj]
          omega
        · rfl
      refine Or.inr ⟨htake, ⟨fun hdrop => h.ne ?_, ?_, i, fun j hj => ?_⟩⟩
      · rw [← List.take_append_drop n a, htake, hdrop, List.take_append_drop]
      · rw [List.length_drop, List.length_drop, hlen]
      · rw [List.getElem?_drop, List.getElem?_drop]
        apply hi
        rw [Nat.add_div_left j hn]
        exact fun heq => hj (Nat.succ.inj heq)

-- A change within one block changes the state there, and the state never comes together again.
theorem digest_ne_of_block (hn : 0 < n) (hstep : ∀ x, Injective fun s => step s x)
    (hlast : ∀ x, Injective fun s => last s x)
    (hblock : ∀ s x y, x.length = n → y.length = n → step s x = step s y → x = y)
    (hrest : ∀ s x y, x.length = y.length → x.length < n → last s x = last s y → x = y)
    (fuel : Nat) {a b : List β} (hfuel : a.length ≤ fuel) (hdiffer : DifferInBlock n a b) (s : σ) :
    digest n step last fuel s a ≠ digest n step last fuel s b := by
  induction fuel generalizing a b s with
  | zero =>
      have ha := List.length_eq_zero_iff.mp (Nat.le_zero.mp hfuel)
      have hb := List.length_eq_zero_iff.mp (hdiffer.length ▸ Nat.le_zero.mp hfuel)
      exact absurd (ha.trans hb.symm) hdiffer.ne
  | succ fuel ih =>
      have hlen := hdiffer.length
      by_cases hfull : n ≤ a.length
      · rw [digest_full fuel s hfull, digest_full fuel s (by omega)]
        rcases hdiffer.take_or_drop hn with ⟨htake, hdrop⟩ | ⟨htake, hdrop⟩
        · rw [hdrop]
          intro heq
          apply htake
          apply hblock s
          · rw [List.length_take, Nat.min_eq_left hfull]
          · rw [List.length_take, Nat.min_eq_left (hlen ▸ hfull)]
          · exact digest_injective hstep hlast fuel _ heq
        · rw [htake]
          apply ih _ hdrop
          rw [List.length_drop]
          omega
      · rw [digest_short _ s (by omega), digest_short _ s (by omega)]
        intro heq
        exact hdiffer.ne (hrest s a b hlen (by omega) heq)

end Digest

end RichardTest.BlockHash
