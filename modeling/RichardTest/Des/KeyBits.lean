import RichardTest.Des.KeySchedule

namespace RichardTest.Des

section Positions

-- Where the bit `j` of the permuted key after `i` rounds comes from in the key.
def keyIndex : Nat → Nat → Nat
  | 0, j => (pc1Tbl[j]?).getD 0 - 1
  | i + 1, j =>
    let mv := (mvTbl[i]?).getD 0
    keyIndex i (if j < 28 then (j + mv) % 28 else 28 + (j - 28 + mv) % 28)

theorem bit_keyBits (key : Chars 8) (i : Nat) {j : Nat} (hj : j < 56) :
    bit (keyBits key i) j = bit (byteToBit key 64) (keyIndex i j) := by
  induction i generalizing j with
  | zero => rw [keyBits, permute, bit_ofFn _ hj, keyIndex]
  | succ i ih =>
      rw [keyBits, bit_rotateHalves _ _ hj, keyIndex]
      split_ifs with h
      · exact ih (by omega)
      · exact ih (by omega)

theorem pc2Tbl_lt : ∀ p < 48, (pc2Tbl[p]?).getD 0 - 1 < 56 := by decide

theorem bit_subKeys (key : Chars 8) {i p : Nat} (hi : i < 16) (hp : p < 48) :
    bit (subKeys key)[i] p = bit (byteToBit key 64) (keyIndex (i + 1) ((pc2Tbl[p]?).getD 0 - 1)) := by
  rw [subKeys, Vector.getElem_ofFn, permute, bit_ofFn _ hp, bit_keyBits key _ (pc2Tbl_lt p hp)]

-- Bit 7 of a key byte is in no sub-key.
theorem keyIndex_mod_lt (i : Nat) {j : Nat} (hj : j < 56) : keyIndex i j < 64 ∧ keyIndex i j % 8 < 7 := by
  induction i generalizing j with
  | zero =>
      have hall : ∀ j < 56, (pc1Tbl[j]?).getD 0 - 1 < 64 ∧ ((pc1Tbl[j]?).getD 0 - 1) % 8 < 7 := by decide
      exact hall j hj
  | succ i ih =>
      rw [keyIndex]
      split_ifs with hleft
      · exact ih (by omega)
      · exact ih (by omega)

-- Each of the others is in a sub-key, although pc2_tbl passes over nine positions in every round.
theorem exists_keyIndex_eq : ∀ q < 64, q % 8 < 7 →
    ∃ i < 16, ∃ p < 48, keyIndex (i + 1) ((pc2Tbl[p]?).getD 0 - 1) = q := by
  decide +kernel

theorem subKeys_eq_iff (k1 k2 : Chars 8) :
    subKeys k1 = subKeys k2 ↔
      ∀ q < 64, q % 8 < 7 → bit (byteToBit k1 64) q = bit (byteToBit k2 64) q := by
  constructor
  · intro h q hq hmod
    obtain ⟨i, hi, p, hp, rfl⟩ := exists_keyIndex_eq q hq hmod
    rw [← bit_subKeys k1 hi hp, ← bit_subKeys k2 hi hp, h]
  · intro h
    apply Vector.ext
    intro i hi
    apply eq_of_bit
    intro p hp
    obtain ⟨hlt, hmod⟩ := keyIndex_mod_lt (i + 1) (pc2Tbl_lt p hp)
    rw [bit_subKeys k1 hi hp, bit_subKeys k2 hi hp, h _ hlt hmod]

end Positions

section Bytes

theorem bit_byteToBit_key (key : Chars 8) {b k : Nat} (hb : b < 8) (hk : k < 8) :
    bit (byteToBit key 64) (8 * b + k) = key[b].getLsbD k := by
  rw [bit_byteToBit _ (by omega), show (8 * b + k) / 8 = b by omega, show (8 * b + k) % 8 = k by omega,
    Vector.getElem?_eq_getElem hb, Option.getD_some]

theorem and_low_eq_iff (x y : BitVec 8) :
    x &&& 0x7f = y &&& 0x7f ↔ ∀ k < 7, x.getLsbD k = y.getLsbD k := by
  have hmask : ∀ k < 8, (0x7f : BitVec 8).getLsbD k = decide (k < 7) := by decide
  constructor
  · intro h k hk
    have hbit := congrArg (fun z => BitVec.getLsbD z k) h
    simpa only [BitVec.getLsbD_and, hmask k (by omega), hk, decide_true, Bool.and_true] using hbit
  · intro h
    apply BitVec.eq_of_getLsbD_eq
    intro k hk
    rw [BitVec.getLsbD_and, BitVec.getLsbD_and, hmask k hk]
    by_cases hk7 : k < 7
    · rw [h k hk7]
    · simp only [hk7, decide_false, Bool.and_false]

-- Two keys have one schedule exactly if they differ in nothing but bit 7 of their bytes.
theorem setKey_subKey_eq_iff (s t : Statics) (k1 k2 : Chars 8) :
    (setKey s k1).subKey = (setKey t k2).subKey ↔
      ∀ b : Fin 8, k1.get b &&& 0x7f = k2.get b &&& 0x7f := by
  rw [setKey_subKey, setKey_subKey, subKeys_eq_iff]
  constructor
  · intro h b
    rw [and_low_eq_iff]
    intro k hk
    have hbit := h (8 * b.val + k) (by omega) (by omega)
    rwa [bit_byteToBit_key _ b.isLt (by omega), bit_byteToBit_key _ b.isLt (by omega)] at hbit
  · intro h q hq hmod
    have hbit := (and_low_eq_iff _ _).mp (h ⟨q / 8, by omega⟩) (q % 8) hmod
    rw [← Nat.div_add_mod q 8, bit_byteToBit_key _ (by omega) (by omega), bit_byteToBit_key _ (by omega) (by omega)]
    exact hbit

end Bytes

end RichardTest.Des
