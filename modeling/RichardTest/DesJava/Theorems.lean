import RichardTest.Des.KeySchedule
import RichardTest.DesJava

namespace RichardTest.DesJava

open Des (Bits Chars Statics bit bit_ofFn eq_of_bit permute permute_replicate_false rotateHalves_replicate_false
  enciphered deciphered subKeys IsUpperHex)
open Feistel

section Parts

-- The parts of DES3 that do what their counterparts in the C file do.

theorem toNat_rows_injective {m w : Nat} :
    Function.Injective fun rows : Vector (Vector (BitVec w) 16) m =>
      rows.toList.map fun row => row.toList.map BitVec.toNat := by
  have hcells : Function.Injective (List.map (BitVec.toNat : BitVec w → Nat)) :=
    List.map_injective_iff.mpr fun _ _ => BitVec.eq_of_toNat_eq
  have hrow : Function.Injective fun row : Vector (BitVec w) 16 => row.toList.map BitVec.toNat :=
    fun _ _ h => Vector.toList_inj.mp (hcells h)
  exact fun _ _ h => Vector.toList_inj.mp (List.map_injective_iff.mpr hrow h)

theorem sBox_eq : (sBox.map fun rows => rows.map fun row => row.map fun x => x.setWidth 8) = Des.sBox := by
  apply Vector.toList_inj.mp
  apply List.map_injective_iff.mpr toNat_rows_injective
  simp only [Vector.toList_map, List.map_map, Function.comp_def]
  rfl

-- The characters of a table as numbers.
def numbers {n : Nat} (table : JChars n) : Vector Nat n := table.map BitVec.toNat

theorem numbers_eq {n : Nat} {table : JChars n} {tbl : Vector Nat n}
    (h : table.toList.map BitVec.toNat = tbl.toList) : numbers table = tbl := by
  apply Vector.toList_inj.mp
  rw [numbers, Vector.toList_map, h]

theorem toNat_getD {n : Nat} (table : JChars n) (i : Nat) :
    ((table[i]?).getD 0).toNat = ((numbers table)[i]?).getD 0 := by
  rw [numbers, Vector.getElem?_map]
  cases table[i]? <;> rfl

theorem tables_eq :
    numbers ipTbl = Des.ipTbl ∧ numbers iprTbl = Des.iprTbl ∧ numbers eTbl = Des.eTbl ∧
      numbers pc1Tbl = Des.pc1Tbl ∧ numbers pc2Tbl = Des.pc2Tbl ∧ numbers mvTbl = Des.mvTbl ∧
        numbers pTbl = Des.pTbl ∧
          (sBox.map fun rows => rows.map fun row => row.map fun x => x.setWidth 8) = Des.sBox :=
  ⟨numbers_eq rfl, numbers_eq rfl, numbers_eq rfl, numbers_eq rfl, numbers_eq rfl, numbers_eq rfl, numbers_eq rfl,
    sBox_eq⟩

theorem byteToBit_eq {m : Nat} (dataIn : Chars m) (num : Nat) : byteToBit dataIn num = Des.byteToBit dataIn num := by
  apply eq_of_bit
  intro i hi
  have hlt : i % 8 < 8 := Nat.mod_lt i (by norm_num)
  have hint : i % 8 < 32 := by omega
  rw [byteToBit, bit_ofFn _ hi, Des.bit_byteToBit _ hi, byteBit, BitVec.getLsbD_sshiftRight]
  simp only [hint, add_zero, Nat.reduceLeDiff, decide_false, Bool.not_false, Bool.true_and, if_true]
  rw [BitVec.getLsbD_signExtend, if_pos hlt, decide_eq_true hint, Bool.true_and]

section Copies

variable {m n : Nat} (dataOut : Bits n) (off : Nat) (dataIn : Bits m) (num : Nat)

theorem bitCpy_eq : bitCpy dataOut dataIn num = Des.bitCpy dataOut 0 dataIn num := by
  apply eq_of_bit
  intro i hi
  rw [bitCpy, bit_ofFn _ hi, Des.bit_bitCpy _ _ _ _ hi]
  simp only [Nat.zero_le, true_and, Nat.zero_add, Nat.sub_zero]

theorem copyTo_eq : copyTo dataOut off dataIn num = Des.bitCpy dataOut off dataIn num := rfl

end Copies

end Parts

section Codecs

-- The characters of the C program as characters of the port.
def widen {n : Nat} (c : Chars n) : JChars n := c.map fun x => x.setWidth 16

theorem toBytes_widen {n : Nat} (c : Chars n) : toBytes (widen c) = c := by
  apply Vector.ext
  intro i hi
  rw [toBytes, widen, Vector.getElem_map, Vector.getElem_map, BitVec.setWidth_setWidth_of_le _ (by decide),
    BitVec.setWidth_eq]

theorem widen_inj {n : Nat} {a b : Chars n} : widen a = widen b ↔ a = b := by
  refine ⟨fun h => ?_, fun h => by rw [h]⟩
  rw [← toBytes_widen a, h, toBytes_widen]

theorem bitToHex_eq (v : Bits 64) : bitToHex v = widen (Des.bitToHex v) := by
  have hdigit : ∀ b0 b1 b2 b3 : Bool,
      hexDigit b0 b1 b2 b3 = (Des.hexDigit b0 b1 b2 b3).setWidth 16 := by decide
  apply Vector.ext
  intro i hi
  simp only [bitToHex, widen, Des.bitToHex, Vector.getElem_map, Vector.getElem_ofFn, hdigit]

theorem hexToBit_widen (c : Chars 16) (h : ∀ i : Fin 16, IsUpperHex (c.get i)) :
    hexToBit (widen c) = Des.hexToBit c := by
  have hbit : ∀ x : BitVec 8, IsUpperHex x → ∀ k, hexBit (x.setWidth 16) k = Des.hexBit x k := by
    intro x hx k
    have hlt : x.toNat < 128 := by
      unfold IsUpperHex at hx
      omega
    rw [hexBit, Des.hexBit, BitVec.toNat_setWidth, Nat.mod_eq_of_lt (by omega),
      BitVec.toInt_eq_toNat_of_lt (by omega)]
    simp only [Nat.cast_le_ofNat]
  apply eq_of_bit
  intro i hi
  have hq : i / 4 < 16 := by omega
  rw [hexToBit, bit_ofFn _ hi, Des.hexToBit, bit_ofFn _ hi]
  simp only [widen, Vector.getElem?_eq_getElem hq, Vector.getElem_map, Option.getD_some]
  exact hbit _ (h ⟨i / 4, hq⟩) _

theorem byteOf_eq (b : Nat → Bool) : byteOf b = (Des.byteOf b).setWidth 16 := by
  apply BitVec.eq_of_getLsbD_eq
  intro k hk
  rw [byteOf, Des.getLsbD_foldl_or b 8 hk, BitVec.getLsbD_setWidth, decide_eq_true hk, Bool.true_and]
  by_cases hlt : k < 8
  · rw [Des.byteOf, Des.getLsbD_foldl_or b 8 hlt]
  · rw [BitVec.getLsbD_of_ge _ _ (by omega), decide_eq_false hlt, Bool.false_and]

theorem bitToByte_eq (v : Bits 64) : bitToByte v = widen (Des.bitToByte v) := by
  apply Vector.ext
  intro i hi
  simp only [bitToByte, widen, Des.bitToByte, Vector.getElem_map, Vector.getElem_ofFn, byteOf_eq]

end Codecs

section Port

theorem tblReplace_eq {m n : Nat} (v : Bits m) (table : JChars n) :
    tblReplace v table = permute (numbers table) v := by
  apply eq_of_bit
  intro i hi
  rw [tblReplace, bit_ofFn _ hi, permute, bit_ofFn _ hi, toNat_getD]

theorem permute_ipr_ip (v : Bits 64) : permute (numbers iprTbl) (permute (numbers ipTbl) v) = v := by
  obtain ⟨hip, hipr, -⟩ := tables_eq
  rw [hip, hipr, Des.permute_ipr_ip]

-- The port only writes its argument in the other alphabet, whatever the sub-keys.
theorem encrypt_widen (plain : Chars 8) (subKey : Vector (Bits 48) 16) :
    encrypt (widen plain) subKey = widen (Des.bitToHex (Des.byteToBit plain 64)) := by
  simp only [encrypt, tblReplace_eq, permute_ipr_ip, bitToHex_eq, toBytes_widen, byteToBit_eq]

theorem decrypt_widen (cypher : Chars 16) (h : ∀ i : Fin 16, IsUpperHex (cypher.get i))
    (decSubKey : Vector (Bits 48) 16) :
    decrypt (widen cypher) decSubKey = widen (Des.bitToByte (Des.hexToBit cypher)) := by
  simp only [decrypt, tblReplace_eq, permute_ipr_ip, bitToByte_eq, hexToBit_widen cypher h]

-- The halves of the permuted block are followed by fourteen more that close a ring under f_change, so that
-- what the port drops has no effect in the end.
def BeginsRing (subKey : Vector (Bits 48) 16) (v : Bits 64) : Prop :=
  ∃ x, (x 0, x 1) = Des.split (permute Des.ipTbl v) ∧ Ring Des.xor Des.feistel subKey.toList x

theorem enciphered_eq_self_iff (subKey : Vector (Bits 48) 16) (v : Bits 64) :
    enciphered subKey (permute Des.ipTbl v) = permute Des.ipTbl v ↔ BeginsRing subKey v := by
  rw [BeginsRing, ← rounds_eq_self_iff, enciphered]
  constructor
  · intro h
    rw [← Des.split_join (rounds _ _ _ _), h]
  · intro h
    rw [h, Des.join_split]

theorem deciphered_eq_self_iff (subKey : Vector (Bits 48) 16) (v : Bits 64) :
    deciphered subKey (permute Des.ipTbl v) = permute Des.ipTbl v ↔ BeginsRing subKey v := by
  rw [← enciphered_eq_self_iff]
  constructor
  · intro h
    rw [← h, Des.enciphered_deciphered, h]
  · intro h
    rw [← h, Des.deciphered_enciphered, h]

theorem eq_permute_ipr_iff (v w : Bits 64) : v = permute Des.iprTbl w ↔ w = permute Des.ipTbl v := by
  constructor
  · intro h
    rw [h, Des.permute_ip_ipr]
  · intro h
    rw [h, Des.permute_ipr_ip]

variable (s : Statics) (key : Chars 8)

theorem encrypt_agrees_iff (plain : Chars 8) :
    encrypt (widen plain) (setKey (widen key)) = widen (Des.encrypt (Des.setKey s key) plain).1 ↔
      BeginsRing (subKeys key) (Des.byteToBit plain 64) := by
  have hinj : Function.Injective Des.bitToHex := fun a b hab => by
    rw [← Des.hexToBit_bitToHex a, hab, Des.hexToBit_bitToHex]
  rw [encrypt_widen, widen_inj, (Des.encrypt_eq _ _).1, hinj.eq_iff, Des.setKey_subKey, eq_permute_ipr_iff,
    enciphered_eq_self_iff]

theorem decrypt_agrees_iff (cypher : Chars 16) (h : ∀ i : Fin 16, IsUpperHex (cypher.get i)) :
    decrypt (widen cypher) (setKey (widen key)) = widen (Des.decrypt (Des.setKey s key) cypher).1 ↔
      BeginsRing (subKeys key) (Des.hexToBit cypher) := by
  have hinj : Function.Injective Des.bitToByte := fun a b hab => by
    rw [← Des.byteToBit_bitToByte a, hab, Des.byteToBit_bitToByte]
  rw [decrypt_widen _ h, widen_inj, (Des.decrypt_eq _ _).1, hinj.eq_iff, Des.setKey_subKey,
    eq_permute_ipr_iff, deciphered_eq_self_iff]

end Port

section Schedule

-- The rotation touches the first 28 cells and keeps the others.
theorem bit_loopBit {n : Nat} (v : Bits n) {mvStep : Nat} (hmv : mvStep ≤ 28) {j : Nat} (hj : j < n)
    (hn : 28 ≤ n) :
    bit (loopBit v mvStep 28) j = if j < 28 then bit v ((j + mvStep) % 28) else bit v j := by
  simp only [loopBit, bitCpy_eq, copyTo_eq]
  rw [Des.bit_bitCpy _ _ _ _ hj]
  split_ifs with h1 h2 h2
  · rw [Des.bit_bitCpy _ _ _ _ (by omega), if_pos (by omega)]
    congr 1
    omega
  · omega
  · rw [Des.bit_bitCpy _ _ _ _ hj, if_pos (by omega), bit_ofFn _ (by omega)]
    congr 1
    simp only
    omega
  · rw [Des.bit_bitCpy _ _ _ _ hj, if_neg (by omega)]

theorem setKeyRound_eq (keyBit : Bits 56) (i : Nat) :
    setKeyRound keyBit i = Des.rotateHalves keyBit ((Des.mvTbl[i]?).getD 0) := by
  obtain ⟨-, -, -, -, -, hmvTbl, -⟩ := tables_eq
  have hmv := Des.mvTbl_le i
  apply eq_of_bit
  intro j hj
  simp only [setKeyRound, copyTo_eq, toNat_getD, hmvTbl]
  rw [Des.bit_bitCpy _ _ _ _ hj, Des.bit_rotateHalves _ _ hj]
  split_ifs with h1 h2 h2
  · omega
  · rw [bit_loopBit _ hmv (by omega) le_rfl, if_pos (by omega), bit_ofFn _ (by omega),
      bit_loopBit _ hmv (by omega) (by omega), if_neg (by omega), Nat.add_comm]
  · rw [bit_loopBit _ hmv hj (by omega), if_pos h2]
  · omega

-- By induction on the number of rounds, as for the C program.
theorem setKeyRounds (key : Chars 8) (subKey : Vector (Bits 48) 16) (n : Nat) (hn : n ≤ 16) :
    let p := (List.range n).foldl (fun (p : Bits 56 × Vector (Bits 48) 16) i =>
      let keyBit := setKeyRound p.1 i
      (keyBit, p.2.setIfInBounds i (tblReplace keyBit pc2Tbl))) (Des.keyBits key 0, subKey)
    p.1 = Des.keyBits key n ∧
      ∀ i < n, p.2[i]? = some (permute Des.pc2Tbl (Des.keyBits key (i + 1))) := by
  induction n with
  | zero => simp only [List.range_zero, List.foldl_nil, Nat.not_lt_zero, false_implies, implies_true,
      and_self]
  | succ n ih =>
      obtain ⟨hkey, hsub⟩ := ih (by omega)
      rw [List.range_succ, List.foldl_append, List.foldl_cons, List.foldl_nil]
      generalize (List.range n).foldl _ _ = p at hkey hsub
      have hkey' : setKeyRound p.1 n = Des.keyBits key (n + 1) := by
        rw [setKeyRound_eq, hkey, Des.keyBits]
      refine ⟨hkey', ?_⟩
      obtain ⟨-, -, -, -, hpc2, -⟩ := tables_eq
      simp only [hkey', tblReplace_eq, hpc2]
      exact Des.getElem?_subKey_concat (f := fun i => permute Des.pc2Tbl (Des.keyBits key (i + 1))) hn hsub

theorem setKey_eq (key : JChars 8) : setKey key = subKeys (toBytes key) := by
  obtain ⟨-, -, -, hpc1, -⟩ := tables_eq
  have hstart : tblReplace (byteToBit (toBytes key) 64) pc1Tbl = Des.keyBits (toBytes key) 0 := by
    rw [byteToBit_eq, tblReplace_eq, hpc1, Des.keyBits]
  apply Vector.ext
  intro i hi
  apply Option.some.inj
  rw [← Vector.getElem?_eq_getElem hi, subKeys, Vector.getElem_ofFn, setKey]
  simp only [hstart]
  exact (setKeyRounds (toBytes key) _ 16 le_rfl).2 i hi

theorem toBytes_eq_of_toNat_eq {n : Nat} {key : JChars n} {myKey : Chars n}
    (h : ∀ i : Fin n, (key.get i).toNat = (myKey.get i).toNat) : toBytes key = myKey := by
  apply Vector.ext
  intro i hi
  have hchar : key[i].toNat = myKey[i].toNat := h ⟨i, hi⟩
  rw [toBytes, Vector.getElem_map]
  apply BitVec.eq_of_toNat_eq
  rw [BitVec.toNat_setWidth, hchar, Nat.mod_eq_of_lt myKey[i].isLt]

-- On the same eight characters, all below 256, the port returns the sub-keys that the C program leaves.
theorem setKey_agrees (s : Statics) (key : JChars 8) (myKey : Chars 8)
    (h : ∀ i : Fin 8, (key.get i).toNat = (myKey.get i).toNat) :
    setKey key = (Des.setKey s myKey).subKey := by
  rw [setKey_eq, toBytes_eq_of_toNat_eq h, Des.setKey_subKey]

-- The key "hellokey".
theorem setKey_agrees_hellokey :
    let key : JChars 8 := #v[104, 101, 108, 108, 111, 107, 101, 121]
    let myKey : Chars 8 := #v[104, 101, 108, 108, 111, 107, 101, 121]
    (∀ i : Fin 8, (key.get i).toNat = (myKey.get i).toNat) ∧
      setKey key = (Des.setKey Des.initStatics myKey).subKey :=
  ⟨by decide, setKey_agrees Des.initStatics _ _ (by decide)⟩

end Schedule

section Cycle

-- A half block from the bits of a number, the lowest first.
def halfBlock (w : Nat) : Bits 32 := Vector.ofFn fun i => w.testBit i.val

theorem bit_halfBlock (w : Nat) {j : Nat} (hj : j < 32) : bit (halfBlock w) j = w.testBit j := by
  rw [halfBlock, bit_ofFn _ hj]

-- f_change under the zero sub-key, one bit at a time.
def feistelBit (w j : Nat) : Bool :=
  let boxBit i := w.testBit ((Des.eTbl[i]?).getD 0 - 1)
  let i := (Des.pTbl[j]?).getD 0 - 1
  (Des.sEntry (i / 4)
    ((boxBit (6 * (i / 4))).toNat * 2 + (boxBit (6 * (i / 4) + 5)).toNat * 1)
    ((boxBit (6 * (i / 4) + 1)).toNat * 8 + (boxBit (6 * (i / 4) + 2)).toNat * 4 +
      (boxBit (6 * (i / 4) + 3)).toNat * 2 + (boxBit (6 * (i / 4) + 4)).toNat * 1)).getLsbD (i % 4)

theorem feistel_halfBlock {w a b : Nat} (h : ∀ j < 32, feistelBit w j = (a.testBit j ^^ b.testBit j)) :
    Des.feistel (Vector.replicate 48 false) (halfBlock w) = Des.xor (halfBlock a) (halfBlock b) := by
  have hp : ∀ j < 32, (Des.pTbl[j]?).getD 0 - 1 < 32 := by decide
  have he : ∀ i < 48, (Des.eTbl[i]?).getD 0 - 1 < 32 := by decide
  have hbox : ∀ i < 48, bit (Des.xor (permute Des.eTbl (halfBlock w)) (Vector.replicate 48 false)) i =
      w.testBit ((Des.eTbl[i]?).getD 0 - 1) := by
    intro i hi
    rw [Des.bit_xor _ _ hi, Des.bit_replicate_false, Bool.xor_false, permute, bit_ofFn _ hi,
      bit_halfBlock _ (he i hi)]
  apply eq_of_bit
  intro j hj
  have hi := hp j hj
  rw [Des.bit_xor _ _ hj, bit_halfBlock _ hj, bit_halfBlock _ hj, ← h j hj, Des.feistel, permute, bit_ofFn _ hj,
    Des.sChange, bit_ofFn _ hi]
  simp only
  rw [Des.bit_digits _ (Nat.mod_lt _ (by norm_num)), Des.sRow, Des.sCol, hbox _ (by omega), hbox _ (by omega),
    hbox _ (by omega), hbox _ (by omega), hbox _ (by omega), hbox _ (by omega)]
  rfl

theorem permute_ip_byteToBit {dataIn : Chars 8} {a b : Nat}
    (h : ∀ i < 64,
      ((dataIn[((Des.ipTbl[i]?).getD 0 - 1) / 8]?).getD 0).getLsbD (((Des.ipTbl[i]?).getD 0 - 1) % 8) =
        if i < 32 then a.testBit i else b.testBit (i - 32)) :
    permute Des.ipTbl (Des.byteToBit dataIn 64) = Des.join (halfBlock a, halfBlock b) := by
  have hip : ∀ i < 64, (Des.ipTbl[i]?).getD 0 - 1 < 64 := by decide
  apply eq_of_bit
  intro i hi
  rw [permute, bit_ofFn _ hi, Des.bit_byteToBit _ (hip i hi), h i hi, Des.bit_join _ hi]
  split_ifs with hleft
  · exact (bit_halfBlock a hleft).symm
  · exact (bit_halfBlock b (by omega)).symm

def zeroKey : Chars 8 := Vector.replicate 8 0

theorem keyBits_zeroKey (i : Nat) : Des.keyBits zeroKey i = Vector.replicate 56 false := by
  induction i with
  | zero =>
      have hbits : Des.byteToBit zeroKey 64 = Vector.replicate 64 false := by
        apply eq_of_bit
        intro i hi
        rw [Des.bit_byteToBit _ hi, Des.bit_replicate_false, zeroKey, Vector.getElem?_replicate]
        split_ifs <;> simp
      rw [Des.keyBits, hbits, permute_replicate_false]
  | succ i ih => rw [Des.keyBits, ih, rotateHalves_replicate_false]

theorem subKeys_zeroKey : subKeys zeroKey = Vector.replicate 16 (Vector.replicate 48 false) := by
  apply Vector.ext
  intro i hi
  rw [subKeys, Vector.getElem_ofFn, Vector.getElem_replicate, keyBits_zeroKey, permute_replicate_false]

-- Half blocks that follow each other with period four: the round function gives both of them the difference.
def pairs (a b : Bits 32) (i : Nat) : Bits 32 := [a, a, b, b].getD (i % 4) a

theorem pairs_step {F : Bits 32 → Bits 32} {a b : Bits 32} (ha : F a = Des.xor a b) (hb : F b = Des.xor a b)
    (i : Nat) : pairs a b (i + 2) = Des.xor (F (pairs a b (i + 1))) (pairs a b i) := by
  have hsucc : (i + 1) % 4 = (i % 4 + 1) % 4 ∧ (i + 2) % 4 = (i % 4 + 2) % 4 := by omega
  have hlt : i % 4 < 4 := Nat.mod_lt i (by norm_num)
  unfold pairs
  rw [hsucc.1, hsucc.2]
  generalize i % 4 = r at hlt
  interval_cases r
  · change b = Des.xor (F a) a
    rw [ha, Des.xor_xor_left]
  · change b = Des.xor (F b) a
    rw [hb, Des.xor_xor_left]
  · change a = Des.xor (F b) b
    rw [hb, Des.xor_xor_right]
  · change a = Des.xor (F a) b
    rw [ha, Des.xor_xor_right]

theorem ring_pairs {k : Bits 48} {a b : Bits 32} (ha : Des.feistel k a = Des.xor a b)
    (hb : Des.feistel k b = Des.xor a b) : Ring Des.xor Des.feistel (List.replicate 16 k) (pairs a b) where
  step i hi := by
    rw [List.get_eq_getElem, List.getElem_replicate]
    exact pairs_step ha hb i
  closes := by
    rw [List.length_replicate]
    exact ⟨rfl, rfl⟩

-- Bytes CC C0 0C F0 CF 33 03 33, and what the two programs make of them under the zero key.
def ringPlain : Chars 8 := #v[0xcc, 0xc0, 0x0c, 0xf0, 0xcf, 0x33, 0x03, 0x33]

def ringCypher : Chars 16 := #v[67, 67, 48, 67, 67, 48, 48, 70, 70, 67, 51, 51, 51, 48, 51, 51]

theorem beginsRing_ringPlain : BeginsRing (subKeys zeroKey) (Des.byteToBit ringPlain 64) := by
  have hring := ring_pairs (k := Vector.replicate 48 false) (a := halfBlock 0xd815a80f) (b := halfBlock 0xda15a80f)
    (feistel_halfBlock (by decide)) (feistel_halfBlock (by decide))
  refine ⟨pairs (halfBlock 0xd815a80f) (halfBlock 0xda15a80f), ?_, ?_⟩
  · have hplain : permute Des.ipTbl (Des.byteToBit ringPlain 64) =
        Des.join (halfBlock 0xd815a80f, halfBlock 0xd815a80f) := permute_ip_byteToBit (by decide)
    rw [hplain, Des.split_join]
    rfl
  · rw [subKeys_zeroKey, Vector.toList_replicate]
    exact hring

-- Half blocks that follow each other with period six.
def cycle (a b c : Bits 32) (i : Nat) : Bits 32 := [a, a, b, c, c, b].getD (i % 6) a

theorem cycle_step {F : Bits 32 → Bits 32} {a b c : Bits 32} (ha : F a = Des.xor a b)
    (hb : F b = Des.xor a c) (hc : F c = Des.xor c b) (i : Nat) :
    cycle a b c (i + 2) = Des.xor (F (cycle a b c (i + 1))) (cycle a b c i) := by
  have hsucc : (i + 1) % 6 = (i % 6 + 1) % 6 ∧ (i + 2) % 6 = (i % 6 + 2) % 6 := by omega
  have hlt : i % 6 < 6 := Nat.mod_lt i (by norm_num)
  unfold cycle
  rw [hsucc.1, hsucc.2]
  generalize i % 6 = r at hlt
  interval_cases r
  · change b = Des.xor (F a) a
    rw [ha, Des.xor_xor_left]
  · change c = Des.xor (F b) a
    rw [hb, Des.xor_xor_left]
  · change c = Des.xor (F c) b
    rw [hc, Des.xor_xor_right]
  · change b = Des.xor (F c) c
    rw [hc, Des.xor_xor_left]
  · change a = Des.xor (F b) c
    rw [hb, Des.xor_xor_right]
  · change a = Des.xor (F a) b
    rw [ha, Des.xor_xor_right]

-- With equal sub-keys the sixteen rounds go four places on in such a cycle.
theorem rounds_cycle {k : Bits 48} {a b c : Bits 32} (ha : Des.feistel k a = Des.xor a b)
    (hb : Des.feistel k b = Des.xor a c) (hc : Des.feistel k c = Des.xor c b) :
    rounds Des.xor Des.feistel (List.replicate 16 k) (a, a) = (c, b) := by
  have htrace := rounds_eq_of_trace Des.xor Des.feistel (List.replicate 16 k) (cycle a b c) fun i hi => by
    rw [List.get_eq_getElem, List.getElem_replicate]
    exact cycle_step ha hb hc i
  rw [List.length_replicate] at htrace
  exact htrace

-- Bytes 3F 30 3C 0F 30 C3 FF 0C: the two halves of the permuted block are equal.
def cyclePlain : Chars 8 := #v[0x3f, 0x30, 0x3c, 0x0f, 0x30, 0xc3, 0xff, 0x0c]

theorem not_beginsRing_cyclePlain : ¬ BeginsRing (subKeys zeroKey) (Des.byteToBit cyclePlain 64) := by
  have hplain : permute Des.ipTbl (Des.byteToBit cyclePlain 64) =
      Des.join (halfBlock 0x06eab396, halfBlock 0x06eab396) := permute_ip_byteToBit (by decide)
  have hrounds := rounds_cycle (k := Vector.replicate 48 false) (a := halfBlock 0x06eab396)
    (b := halfBlock 0xd71a782b) (c := halfBlock 0x7b7d134f) (feistel_halfBlock (by decide))
    (feistel_halfBlock (by decide)) (feistel_halfBlock (by decide))
  rw [← enciphered_eq_self_iff]
  intro h
  rw [hplain, enciphered, Des.split_join, subKeys_zeroKey, Vector.toList_replicate, hrounds] at h
  have hsplit := congrArg Des.split h
  rw [Des.split_join, Des.split_join] at hsplit
  exact absurd (congrArg (fun p => bit p.1 0) hsplit) (by decide)

end Cycle

end RichardTest.DesJava
