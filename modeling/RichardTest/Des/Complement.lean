import RichardTest.Des.KeySchedule

namespace RichardTest.Des

open Feistel

section Complement

variable {m n : Nat}

-- Every bit the other way.
def complement (v : Bits n) : Bits n := Vector.ofFn fun i => !bit v i.val

def complementBytes (c : Chars n) : Chars n := c.map fun x => ~~~x

theorem bit_complement (v : Bits n) {i : Nat} (hi : i < n) : bit (complement v) i = !bit v i := by
  rw [complement, bit_ofFn _ hi]

theorem byteBit_not (c : BitVec 8) {k : Nat} (hk : k < 8) : byteBit (~~~c) k = !byteBit c k := by
  rw [byteBit_eq_getLsbD _ hk, byteBit_eq_getLsbD _ hk, BitVec.getLsbD_not, decide_eq_true hk, Bool.true_and]

theorem byteToBit_complementBytes (c : Chars 8) :
    byteToBit (complementBytes c) 64 = complement (byteToBit c 64) := by
  apply eq_of_bit
  intro i hi
  have hq : i / 8 < 8 := by omega
  rw [bit_complement _ hi, byteToBit, bit_ofFn _ hi, byteToBit, bit_ofFn _ hi]
  simp only [complementBytes, Vector.getElem?_eq_getElem hq, Vector.getElem_map, Option.getD_some]
  exact byteBit_not _ (Nat.mod_lt i (by norm_num))

-- A table that names only cells of its argument.
theorem permute_complement (table : Vector Nat n) (v : Bits m) (h : ∀ i < n, (table[i]?).getD 0 - 1 < m) :
    permute table (complement v) = complement (permute table v) := by
  apply eq_of_bit
  intro i hi
  rw [bit_complement _ hi, permute, bit_ofFn _ hi, permute, bit_ofFn _ hi, bit_complement _ (h i hi)]

theorem window_complement (v : Bits m) {off : Nat} (h : off + n ≤ m) :
    window (complement v) off n = complement (window v off n) := by
  apply eq_of_bit
  intro i hi
  rw [bit_complement _ hi, bit_window _ _ hi, bit_window _ _ hi, bit_complement _ (by omega)]

theorem split_complement (v : Bits 64) :
    split (complement v) = Prod.map complement complement (split v) := by
  simp only [split, Prod.map, window_complement v (show 0 + 32 ≤ 64 by norm_num),
    window_complement v (show 32 + 32 ≤ 64 by norm_num)]

theorem join_complement (p : Bits 32 × Bits 32) :
    join (Prod.map complement complement p) = complement (join p) := by
  apply eq_of_bit
  intro i hi
  rw [bit_complement _ hi, bit_join _ hi, bit_join _ hi]
  split_ifs with h
  · exact bit_complement _ h
  · exact bit_complement _ (by omega)

theorem xor_complement (a b : Bits n) : xor a (complement b) = complement (xor a b) := by
  apply eq_of_bit
  intro i hi
  rw [bit_complement _ hi, bit_xor _ _ hi, bit_xor _ _ hi, bit_complement _ hi, Bool.xor_not]

theorem xor_complement_complement (a b : Bits n) : xor (complement a) (complement b) = xor a b := by
  apply eq_of_bit
  intro i hi
  rw [bit_xor _ _ hi, bit_xor _ _ hi, bit_complement _ hi, bit_complement _ hi, Bool.not_xor_not]

end Complement

section Cipher

theorem rotateHalves_complement (k : Bits 56) (n : Nat) :
    rotateHalves (complement k) n = complement (rotateHalves k n) := by
  apply eq_of_bit
  intro j hj
  rw [bit_complement _ hj, bit_rotateHalves _ _ hj, bit_rotateHalves _ _ hj]
  split_ifs with h
  · exact bit_complement _ (by omega)
  · exact bit_complement _ (by omega)

theorem keyBits_complementBytes (key : Chars 8) (i : Nat) :
    keyBits (complementBytes key) i = complement (keyBits key i) := by
  induction i with
  | zero => rw [keyBits, keyBits, byteToBit_complementBytes, permute_complement _ _ (by decide)]
  | succ i ih => rw [keyBits, keyBits, ih, rotateHalves_complement]

theorem subKeys_complementBytes (key : Chars 8) :
    subKeys (complementBytes key) = (subKeys key).map complement := by
  apply Vector.ext
  intro i hi
  rw [subKeys, subKeys, Vector.getElem_map, Vector.getElem_ofFn, Vector.getElem_ofFn,
    keyBits_complementBytes, permute_complement _ _ (by decide)]

-- The round function sees the half block and the sub-key only through their xor.
theorem feistel_complement (key : Bits 48) (r : Bits 32) :
    feistel (complement key) (complement r) = feistel key r := by
  rw [feistel, permute_complement eTbl r (by decide), xor_complement_complement, ← feistel]

theorem enciphered_complement (subKey : Vector (Bits 48) 16) (v : Bits 64) :
    enciphered (subKey.map complement) (complement v) = complement (enciphered subKey v) := by
  rw [enciphered, split_complement, Vector.toList_map,
    rounds_map xor feistel feistel_complement xor_complement, join_complement, ← enciphered]

-- The complemented block under the complemented key gives the digits of the complemented cypher text,
-- whatever the static arrays held before either call of set_key.
theorem encrypt_complement (s t : Statics) (key plain : Chars 8) :
    (encrypt (setKey s (complementBytes key)) (complementBytes plain)).1 =
      bitToHex (complement (hexToBit (encrypt (setKey t key) plain).1)) := by
  rw [(encrypt_eq _ _).1, (encrypt_eq _ _).1, setKey_subKey, setKey_subKey, hexToBit_bitToHex,
    subKeys_complementBytes, byteToBit_complementBytes, permute_complement _ _ (by decide),
    enciphered_complement, permute_complement _ _ (by decide)]

end Cipher

end RichardTest.Des
