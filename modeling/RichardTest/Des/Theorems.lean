import RichardTest.Des
import Mathlib.Tactic.IntervalCases

namespace RichardTest.Des

open Feistel

section Bits

variable {m n : Nat}

theorem bit_ofFn (f : Fin n → Bool) {i : Nat} (hi : i < n) : bit (Vector.ofFn f) i = f ⟨i, hi⟩ := by
  simp [bit, hi]

theorem eq_of_bit {a b : Bits n} (h : ∀ i < n, bit a i = bit b i) : a = b := by
  ext i hi
  have := h i hi
  unfold bit at this
  rwa [Vector.getElem?_eq_getElem hi, Vector.getElem?_eq_getElem hi] at this

theorem bit_window (v : Bits m) (off : Nat) {i : Nat} (hi : i < n) :
    bit (window v off n) i = bit v (off + i) := by
  rw [window, bit_ofFn _ hi]

theorem bit_bitCpy (dataOut : Bits n) (off : Nat) (dataIn : Bits m) (num : Nat) {i : Nat} (hi : i < n) :
    bit (bitCpy dataOut off dataIn num) i =
      if off ≤ i ∧ i < off + num then bit dataIn (i - off) else bit dataOut i := by
  rw [bitCpy, bit_ofFn _ hi]

theorem bit_xor (a b : Bits n) {i : Nat} (hi : i < n) : bit (xor a b) i = (bit a i ^^ bit b i) := by
  rw [xor, bit_ofFn _ hi]

theorem xor_xor_cancel (a b : Bits n) : xor a (xor a b) = b := by
  apply eq_of_bit
  intro i hi
  rw [bit_xor _ _ hi, bit_xor _ _ hi, ← Bool.xor_assoc, Bool.xor_self, Bool.false_xor]

theorem xor_xor_right (a b : Bits n) : xor (xor a b) b = a := by
  apply eq_of_bit
  intro i hi
  rw [bit_xor _ _ hi, bit_xor _ _ hi, Bool.xor_assoc, Bool.xor_self, Bool.xor_false]

theorem xor_xor_left (a b : Bits n) : xor (xor a b) a = b := by
  apply eq_of_bit
  intro i hi
  rw [bit_xor _ _ hi, bit_xor _ _ hi, Bool.xor_comm, ← Bool.xor_assoc, Bool.xor_self, Bool.false_xor]

theorem bit_replicate_false (i : Nat) : bit (Vector.replicate n false) i = false := by
  rw [bit]
  by_cases hi : i < n
  · rw [Vector.getElem?_eq_getElem hi, Vector.getElem_replicate, Option.getD_some]
  · rw [Vector.getElem?_eq_none (by omega), Option.getD_none]

-- The two halves of `msg_bit`.
def split (v : Bits 64) : Bits 32 × Bits 32 := (window v 0 32, window v 32 32)

def join (p : Bits 32 × Bits 32) : Bits 64 :=
  Vector.ofFn fun i => if i.val < 32 then bit p.1 i.val else bit p.2 (i.val - 32)

theorem bit_join (p : Bits 32 × Bits 32) {i : Nat} (hi : i < 64) :
    bit (join p) i = if i < 32 then bit p.1 i else bit p.2 (i - 32) := by
  rw [join, bit_ofFn _ hi]

theorem split_join (p : Bits 32 × Bits 32) : split (join p) = p := by
  apply Prod.ext
  · apply eq_of_bit
    intro i hi
    rw [split, bit_window _ _ hi, bit_join _ (by omega), if_pos (by omega), Nat.zero_add]
  · apply eq_of_bit
    intro i hi
    rw [split, bit_window _ _ hi, bit_join _ (by omega), if_neg (by omega), Nat.add_sub_cancel_left]

theorem join_split (v : Bits 64) : join (split v) = v := by
  apply eq_of_bit
  intro i hi
  rw [bit_join _ hi]
  split_ifs with h
  · rw [split, bit_window _ _ h, Nat.zero_add]
  · rw [split, bit_window _ _ (by omega), Nat.add_sub_cancel' (by omega)]

end Bits

section Tables

variable {l m n : Nat}

-- What tbl_replace computes.
def permute (table : Vector Nat n) (v : Bits m) : Bits n :=
  Vector.ofFn fun i => bit v ((table[i.val]?).getD 0 - 1)

-- The scratch array does not show in the result.
theorem tblReplace_fst (s : Statics) (v : Bits m) (table : Vector Nat n) (hn : n ≤ 256) :
    (tblReplace s v table).1 = permute table v := by
  apply eq_of_bit
  intro i hi
  simp only [tblReplace, permute, bit_window _ _ hi, Nat.zero_add, bit_ofFn _ hi]
  rw [bit_ofFn _ (by omega)]
  simp only [hi, if_true]

theorem permute_replicate_false (table : Vector Nat n) :
    permute table (Vector.replicate m false) = Vector.replicate n false := by
  apply eq_of_bit
  intro i hi
  rw [permute, bit_ofFn _ hi, bit_replicate_false, bit_replicate_false]

theorem permute_permute_eq_self {t u : Vector Nat 64} (v : Bits 64)
    (h : ∀ i < 64, (u[i]?).getD 0 - 1 < 64 ∧ (t[(u[i]?).getD 0 - 1]?).getD 0 - 1 = i) :
    permute u (permute t v) = v := by
  apply eq_of_bit
  intro i hi
  obtain ⟨hlt, hinv⟩ := h i hi
  rw [permute, bit_ofFn _ hi, permute, bit_ofFn _ hlt]
  simp only [hinv]

theorem permute_ipr_ip (v : Bits 64) : permute iprTbl (permute ipTbl v) = v :=
  permute_permute_eq_self v (by decide)

theorem permute_ip_ipr (v : Bits 64) : permute ipTbl (permute iprTbl v) = v :=
  permute_permute_eq_self v (by decide)

end Tables

section Codecs

theorem byteBit_eq_getLsbD (c : BitVec 8) {k : Nat} (hk : k < 8) : byteBit c k = c.getLsbD k := by
  rw [byteBit, BitVec.getLsbD_sshiftRight]
  simp [hk]

theorem bit_byteToBit {m n : Nat} (dataIn : Chars m) {i : Nat} (hi : i < n) :
    bit (byteToBit dataIn n) i = ((dataIn[i / 8]?).getD 0).getLsbD (i % 8) := by
  rw [byteToBit, bit_ofFn _ hi, byteBit_eq_getLsbD _ (Nat.mod_lt i (by norm_num))]

-- The four digits of an entry of `s_box`.
theorem bit_digits (v : BitVec 8) {j : Nat} (hj : j < 4) : bit (byteToBit #v[v] 4) j = v.getLsbD j := by
  have hbyte : j / 8 = 0 := by omega
  rw [bit_byteToBit _ hj, hbyte, Nat.mod_eq_of_lt (by omega)]
  rfl

theorem hexBit_hexDigit (b0 b1 b2 b3 : Bool) :
    hexBit (hexDigit b0 b1 b2 b3) 0 = b0 ∧ hexBit (hexDigit b0 b1 b2 b3) 1 = b1 ∧
      hexBit (hexDigit b0 b1 b2 b3) 2 = b2 ∧ hexBit (hexDigit b0 b1 b2 b3) 3 = b3 := by
  revert b0 b1 b2 b3
  decide

-- The characters '0'..'9' and 'A'..'F'.
def IsUpperHex (c : BitVec 8) : Prop := (48 ≤ c.toNat ∧ c.toNat ≤ 57) ∨ (65 ≤ c.toNat ∧ c.toNat ≤ 70)

instance (c : BitVec 8) : Decidable (IsUpperHex c) := inferInstanceAs (Decidable (_ ∨ _))

theorem hexDigit_hexBit (c : BitVec 8) (h : IsUpperHex c) :
    hexDigit (hexBit c 0) (hexBit c 1) (hexBit c 2) (hexBit c 3) = c := by
  revert c
  decide

theorem hexToBit_bitToHex (v : Bits 64) : hexToBit (bitToHex v) = v := by
  apply eq_of_bit
  intro i hi
  have hq : i / 4 < 16 := by omega
  obtain ⟨h0, h1, h2, h3⟩ := hexBit_hexDigit (bit v (4 * (i / 4))) (bit v (4 * (i / 4) + 1))
    (bit v (4 * (i / 4) + 2)) (bit v (4 * (i / 4) + 3))
  rw [hexToBit, bit_ofFn _ hi]
  simp only [bitToHex, Vector.getElem?_ofFn, hq, dif_pos, Option.getD_some]
  have hr : i % 4 < 4 := Nat.mod_lt i (by norm_num)
  have hsplit : i = 4 * (i / 4) + i % 4 := (Nat.div_add_mod i 4).symm
  generalize i / 4 = q at *
  generalize i % 4 = r at *
  subst hsplit
  interval_cases r
  · exact h0
  · exact h1
  · exact h2
  · exact h3

theorem bitToHex_hexToBit (c : Chars 16) (h : ∀ i : Fin 16, IsUpperHex (c.get i)) :
    bitToHex (hexToBit c) = c := by
  apply Vector.ext
  intro i hi
  have hc := hexDigit_hexBit _ (h ⟨i, hi⟩)
  have hget : ∀ k < 4, bit (hexToBit c) (4 * i + k) = hexBit (c.get ⟨i, hi⟩) k := fun k hk => by
    rw [hexToBit, bit_ofFn _ (by omega)]
    simp only
    rw [show (4 * i + k) / 4 = i by omega, show (4 * i + k) % 4 = k by omega,
      Vector.getElem?_eq_getElem hi]
    rfl
  simp only [bitToHex, Vector.getElem_ofFn]
  have h0 := hget 0 (by norm_num)
  rw [Nat.add_zero] at h0
  rw [h0, hget 1 (by norm_num), hget 2 (by norm_num), hget 3 (by norm_num)]
  exact hc

theorem getLsbD_foldl_or {w : Nat} (b : Nat → Bool) (n : Nat) {k : Nat} (hk : k < w) :
    ((List.range n).foldl (fun acc j => acc ||| BitVec.ofNat w ((b j).toNat <<< j)) 0).getLsbD k =
      (decide (k < n) && b k) := by
  induction n with
  | zero => simp
  | succ n ih =>
      rw [List.range_succ, List.foldl_append, List.foldl_cons, List.foldl_nil, BitVec.getLsbD_or, ih,
        BitVec.getLsbD_ofNat, Nat.testBit_shiftLeft, Nat.testBit_bool_toNat]
      rcases Nat.lt_trichotomy k n with hlt | heq | hgt
      · simp [hlt, show k < n + 1 by omega, show ¬n ≤ k by omega]
      · simp [heq, heq ▸ hk]
      · simp [show ¬k < n by omega, show ¬k < n + 1 by omega, show ¬k - n = 0 by omega]

theorem byteBit_byteOf (b : Nat → Bool) (k : Nat) (hk : k < 8) : byteBit (byteOf b) k = b k := by
  rw [byteBit_eq_getLsbD _ hk, byteOf, getLsbD_foldl_or b 8 hk, decide_eq_true hk, Bool.true_and]

theorem byteOf_byteBit (c : BitVec 8) : byteOf (byteBit c) = c := by
  apply BitVec.eq_of_getLsbD_eq
  intro k hk
  rw [← byteBit_eq_getLsbD _ hk, byteBit_byteOf _ k hk, byteBit_eq_getLsbD c hk]

theorem byteToBit_bitToByte (v : Bits 64) : byteToBit (bitToByte v) 64 = v := by
  apply eq_of_bit
  intro i hi
  have hq : i / 8 < 8 := by omega
  rw [byteToBit, bit_ofFn _ hi]
  simp only [bitToByte, Vector.getElem?_ofFn, hq, dif_pos, Option.getD_some]
  rw [byteBit_byteOf _ _ (Nat.mod_lt i (by norm_num)), Nat.div_add_mod]

theorem bitToByte_byteToBit (c : Chars 8) : bitToByte (byteToBit c 64) = c := by
  apply Vector.ext
  intro k hk
  have hbyte := byteOf_byteBit (c.get ⟨k, hk⟩)
  simp only [bitToByte, Vector.getElem_ofFn]
  have hbits : ∀ j < 8, bit (byteToBit c 64) (8 * k + j) = byteBit (c.get ⟨k, hk⟩) j := fun j hj => by
    rw [byteToBit, bit_ofFn _ (by omega)]
    simp only
    rw [show (8 * k + j) / 8 = k by omega, show (8 * k + j) % 8 = j by omega,
      Vector.getElem?_eq_getElem hk, Option.getD_some]
    rfl
  refine Eq.trans ?_ hbyte
  rw [byteOf]
  apply List.foldl_ext
  intro acc j hj
  simp only [hbits j (List.mem_range.mp hj)]

end Codecs

section Rounds

-- The round function of the network: f_change without its scratch arrays.
def feistel (key : Bits 48) (r : Bits 32) : Bits 32 :=
  permute pTbl (sChange (xor (permute eTbl r) key))

theorem fChange_fst (s : Statics) (r : Bits 32) (key : Bits 48) :
    (fChange s r key).1 = feistel key r := by
  simp only [fChange, tblReplace_fst _ _ eTbl (by norm_num)]
  exact tblReplace_fst _ _ pTbl (by norm_num)

section Frame

-- tbl_replace and f_change leave the static arrays of their callers alone.
variable {m n : Nat} (s : Statics) (v : Bits m) (table : Vector Nat n) (r : Bits 32) (key : Bits 48)

@[simp] theorem tblReplace_subKey : (tblReplace s v table).2.subKey = s.subKey := by
  simp only [tblReplace]

@[simp] theorem tblReplace_keyBit : (tblReplace s v table).2.keyBit = s.keyBit := by
  simp only [tblReplace]

@[simp] theorem fChange_subKey : (fChange s r key).2.subKey = s.subKey := by
  simp only [fChange, tblReplace]

@[simp] theorem fChange_encryptBit : (fChange s r key).2.encryptBit = s.encryptBit := by
  simp only [fChange, tblReplace]

@[simp] theorem fChange_encryptTmp : (fChange s r key).2.encryptTmp = s.encryptTmp := by
  simp only [fChange, tblReplace]

@[simp] theorem fChange_decryptBit : (fChange s r key).2.decryptBit = s.decryptBit := by
  simp only [fChange, tblReplace]

@[simp] theorem fChange_decryptTmp : (fChange s r key).2.decryptTmp = s.decryptTmp := by
  simp only [fChange, tblReplace]

end Frame

theorem encryptRound_bit (s : Statics) (key : Bits 48) :
    (encryptRound s key).encryptBit = join (forward xor feistel (split s.encryptBit) key) ∧
      (encryptRound s key).subKey = s.subKey := by
  rw [encryptRound]
  simp only [fChange_fst, fChange_subKey, fChange_encryptBit, fChange_encryptTmp, and_true]
  apply eq_of_bit
  intro i hi
  rw [bit_join _ hi, bit_bitCpy _ _ _ _ hi]
  simp only [forward, split]
  split_ifs with h1 h2 h2
  · rw [bit_bitCpy _ _ _ _ (by omega), if_pos (by omega)]
    simp
  · omega
  · omega
  · rw [bit_bitCpy _ _ _ _ hi, if_pos (by omega), bit_xor _ _ (by omega), bit_xor _ _ (by omega),
      bit_window _ _ (by omega), bit_window _ _ (by omega), bit_bitCpy _ _ _ _ (by omega),
      bit_bitCpy _ _ _ _ (by omega), if_pos (by omega), if_neg (by omega), bit_window _ _ (by omega)]
    congr 2
    omega

theorem decryptRound_bit (s : Statics) (key : Bits 48) :
    (decryptRound s key).decryptBit = join (backward xor feistel (split s.decryptBit) key) ∧
      (decryptRound s key).subKey = s.subKey := by
  rw [decryptRound]
  simp only [fChange_fst, fChange_subKey, fChange_decryptBit, fChange_decryptTmp, and_true]
  apply eq_of_bit
  intro i hi
  rw [bit_join _ hi, bit_bitCpy _ _ _ _ hi]
  simp only [backward, split]
  split_ifs with h1 h2 h2
  · omega
  · rw [bit_bitCpy _ _ _ _ (by omega), if_pos (by omega)]
    simp
  · rw [bit_bitCpy _ _ _ _ hi, if_pos (by omega), bit_xor _ _ (by omega), bit_xor _ _ (by omega),
      bit_window _ _ (by omega), bit_window _ _ (by omega), bit_bitCpy _ _ _ _ (by omega),
      bit_bitCpy _ _ _ _ (by omega), if_pos (by omega), if_neg (by omega), bit_window _ _ (by omega)]
    congr 2
    omega
  · omega

theorem encryptRounds_bit (keys : List (Bits 48)) (s : Statics) :
    (keys.foldl encryptRound s).encryptBit = join (rounds xor feistel keys (split s.encryptBit)) ∧
      (keys.foldl encryptRound s).subKey = s.subKey := by
  induction keys generalizing s with
  | nil => simp only [List.foldl_nil, rounds, join_split, and_self]
  | cons key keys ih =>
      obtain ⟨hbit, hkey⟩ := encryptRound_bit s key
      obtain ⟨hbits, hkeys⟩ := ih (encryptRound s key)
      rw [hbit, split_join] at hbits
      rw [List.foldl_cons, hbits, hkeys, hkey]
      simp only [rounds, List.foldl_cons, and_self]

theorem decryptRounds_bit (keys : List (Bits 48)) (s : Statics) :
    (keys.foldl decryptRound s).decryptBit =
        join (keys.foldl (backward xor feistel) (split s.decryptBit)) ∧
      (keys.foldl decryptRound s).subKey = s.subKey := by
  induction keys generalizing s with
  | nil => simp only [List.foldl_nil, join_split, and_self]
  | cons key keys ih =>
      obtain ⟨hbit, hkey⟩ := decryptRound_bit s key
      obtain ⟨hbits, hkeys⟩ := ih (decryptRound s key)
      rw [hbit, split_join] at hbits
      rw [List.foldl_cons, hbits, hkeys, hkey]
      simp only [List.foldl_cons, and_self]

end Rounds

section Cipher

-- The sixteen rounds on a whole block, between the two permutations.
def enciphered (subKey : Vector (Bits 48) 16) (v : Bits 64) : Bits 64 :=
  join (rounds xor feistel subKey.toList (split v))

def deciphered (subKey : Vector (Bits 48) 16) (v : Bits 64) : Bits 64 :=
  join (inverseRounds xor feistel subKey.toList (split v))

theorem deciphered_enciphered (subKey : Vector (Bits 48) 16) (v : Bits 64) :
    deciphered subKey (enciphered subKey v) = v := by
  unfold deciphered enciphered
  rw [split_join, inverseRounds_rounds feistel xor_xor_cancel, join_split]

theorem enciphered_deciphered (subKey : Vector (Bits 48) 16) (v : Bits 64) :
    enciphered subKey (deciphered subKey v) = v := by
  unfold deciphered enciphered
  rw [split_join, rounds_inverseRounds feistel xor_xor_cancel, join_split]

-- encrypt reads nothing of the static arrays but the sub-keys.
theorem encrypt_eq (s : Statics) (plain : Chars 8) :
    (encrypt s plain).1 =
        bitToHex (permute iprTbl (enciphered s.subKey (permute ipTbl (byteToBit plain 64)))) ∧
      (encrypt s plain).2.subKey = s.subKey := by
  unfold encrypt enciphered
  simp only [tblReplace_fst _ _ ipTbl (by norm_num), tblReplace_fst _ _ iprTbl (by norm_num)]
  simp only [encryptRounds_bit, tblReplace, and_self]

theorem decrypt_eq (s : Statics) (cypher : Chars 16) :
    (decrypt s cypher).1 =
        bitToByte (permute iprTbl (deciphered s.subKey (permute ipTbl (hexToBit cypher)))) ∧
      (decrypt s cypher).2.subKey = s.subKey := by
  unfold decrypt deciphered inverseRounds
  simp only [tblReplace_fst _ _ ipTbl (by norm_num), tblReplace_fst _ _ iprTbl (by norm_num)]
  simp only [decryptRounds_bit, tblReplace, and_self]

-- For any sub-keys, and whatever earlier calls left in the other static arrays, each of the two
-- functions undoes the other.
theorem encrypt_decrypt_inverse (s : Statics) :
    (∀ plain : Chars 8, (decrypt (encrypt s plain).2 (encrypt s plain).1).1 = plain) ∧
      ∀ cypher : Chars 16, (∀ i : Fin 16, IsUpperHex (cypher.get i)) →
        (encrypt (decrypt s cypher).2 (decrypt s cypher).1).1 = cypher := by
  constructor
  · intro plain
    obtain ⟨htext, hkey⟩ := encrypt_eq s plain
    rw [(decrypt_eq _ _).1, hkey, htext, hexToBit_bitToHex, permute_ip_ipr, deciphered_enciphered,
      permute_ipr_ip, bitToByte_byteToBit]
  · intro cypher hhex
    obtain ⟨htext, hkey⟩ := decrypt_eq s cypher
    rw [(encrypt_eq _ _).1, hkey, htext, byteToBit_bitToByte, permute_ip_ipr, enciphered_deciphered,
      permute_ipr_ip, bitToHex_hexToBit cypher hhex]

-- The static arrays of a program that has just started.
def initStatics : Statics where
  subKey := Vector.replicate 16 (Vector.replicate 48 false)
  replaceTmp := Vector.replicate 256 false
  loopTmp := Vector.replicate 256 false
  keyBit := Vector.replicate 64 false
  msgE := Vector.replicate 48 false
  encryptBit := Vector.replicate 64 false
  encryptTmp := Vector.replicate 32 false
  decryptBit := Vector.replicate 64 false
  decryptTmp := Vector.replicate 32 false

-- The text "0123456789ABCDEF", with the sub-keys of a program that never called set_key.
theorem encrypt_decrypt_inverse_digits :
    let cypher : Chars 16 := #v[48, 49, 50, 51, 52, 53, 54, 55, 56, 57, 65, 66, 67, 68, 69, 70]
    (∀ i : Fin 16, IsUpperHex (cypher.get i)) ∧
      (encrypt (decrypt initStatics cypher).2 (decrypt initStatics cypher).1).1 = cypher :=
  ⟨by decide, (encrypt_decrypt_inverse initStatics).2 _ (by decide)⟩

end Cipher

end RichardTest.Des
