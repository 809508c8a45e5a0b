import RichardTest.Des.KeySchedule
import Mathlib.Data.List.GetD

namespace RichardTest.Des.Fips

open Feistel

-- DES as FIPS 46-3 has it. The standard numbers the bits of a block from 1 on, so its bit 1 is the cell 0.

section Standard

def ip : List Nat := [
    58, 50, 42, 34, 26, 18, 10, 2, 60, 52, 44, 36, 28, 20, 12, 4,
    62, 54, 46, 38, 30, 22, 14, 6, 64, 56, 48, 40, 32, 24, 16, 8,
    57, 49, 41, 33, 25, 17, 9, 1, 59, 51, 43, 35, 27, 19, 11, 3,
    61, 53, 45, 37, 29, 21, 13, 5, 63, 55, 47, 39, 31, 23, 15, 7]

def ipInverse : List Nat := [
    40, 8, 48, 16, 56, 24, 64, 32, 39, 7, 47, 15, 55, 23, 63, 31,
    38, 6, 46, 14, 54, 22, 62, 30, 37, 5, 45, 13, 53, 21, 61, 29,
    36, 4, 44, 12, 52, 20, 60, 28, 35, 3, 43, 11, 51, 19, 59, 27,
    34, 2, 42, 10, 50, 18, 58, 26, 33, 1, 41, 9, 49, 17, 57, 25]

def e : List Nat := [
    32, 1, 2, 3, 4, 5, 4, 5, 6, 7, 8, 9,
    8, 9, 10, 11, 12, 13, 12, 13, 14, 15, 16, 17,
    16, 17, 18, 19, 20, 21, 20, 21, 22, 23, 24, 25,
    24, 25, 26, 27, 28, 29, 28, 29, 30, 31, 32, 1]

def p : List Nat := [
    16, 7, 20, 21, 29, 12, 28, 17, 1, 15, 23, 26, 5, 18, 31, 10,
    2, 8, 24, 14, 32, 27, 3, 9, 19, 13, 30, 6, 22, 11, 4, 25]

def pc1 : List Nat := [
    57, 49, 41, 33, 25, 17, 9, 1, 58, 50, 42, 34, 26, 18,
    10, 2, 59, 51, 43, 35, 27, 19, 11, 3, 60, 52, 44, 36,
    63, 55, 47, 39, 31, 23, 15, 7, 62, 54, 46, 38, 30, 22,
    14, 6, 61, 53, 45, 37, 29, 21, 13, 5, 28, 20, 12, 4]

def pc2 : List Nat := [
    14, 17, 11, 24, 1, 5, 3, 28, 15, 6, 21, 10,
    23, 19, 12, 4, 26, 8, 16, 7, 27, 20, 13, 2,
    41, 52, 31, 37, 47, 55, 30, 40, 51, 45, 33, 48,
    44, 49, 39, 56, 34, 53, 46, 42, 50, 36, 29, 32]

def leftShifts : List Nat := [1, 1, 2, 2, 2, 2, 2, 2, 1, 2, 2, 2, 2, 2, 2, 1]

def selection : List (List (List Nat)) := [
    [
      [14, 4, 13, 1, 2, 15, 11, 8, 3, 10, 6, 12, 5, 9, 0, 7],
      [0, 15, 7, 4, 14, 2, 13, 1, 10, 6, 12, 11, 9, 5, 3, 8],
      [4, 1, 14, 8, 13, 6, 2, 11, 15, 12, 9, 7, 3, 10, 5, 0],
      [15, 12, 8, 2, 4, 9, 1, 7, 5, 11, 3, 14, 10, 0, 6, 13]],
    [
      [15, 1, 8, 14, 6, 11, 3, 4, 9, 7, 2, 13, 12, 0, 5, 10],
      [3, 13, 4, 7, 15, 2, 8, 14, 12, 0, 1, 10, 6, 9, 11, 5],
      [0, 14, 7, 11, 10, 4, 13, 1, 5, 8, 12, 6, 9, 3, 2, 15],
      [13, 8, 10, 1, 3, 15, 4, 2, 11, 6, 7, 12, 0, 5, 14, 9]],
    [
      [10, 0, 9, 14, 6, 3, 15, 5, 1, 13, 12, 7, 11, 4, 2, 8],
      [13, 7, 0, 9, 3, 4, 6, 10, 2, 8, 5, 14, 12, 11, 15, 1],
      [13, 6, 4, 9, 8, 15, 3, 0, 11, 1, 2, 12, 5, 10, 14, 7],
      [1, 10, 13, 0, 6, 9, 8, 7, 4, 15, 14, 3, 11, 5, 2, 12]],
    [
      [7, 13, 14, 3, 0, 6, 9, 10, 1, 2, 8, 5, 11, 12, 4, 15],
      [13, 8, 11, 5, 6, 15, 0, 3, 4, 7, 2, 12, 1, 10, 14, 9],
      [10, 6, 9, 0, 12, 11, 7, 13, 15, 1, 3, 14, 5, 2, 8, 4],
      [3, 15, 0, 6, 10, 1, 13, 8, 9, 4, 5, 11, 12, 7, 2, 14]],
    [
      [2, 12, 4, 1, 7, 10, 11, 6, 8, 5, 3, 15, 13, 0, 14, 9],
      [14, 11, 2, 12, 4, 7, 13, 1, 5, 0, 15, 10, 3, 9, 8, 6],
      [4, 2, 1, 11, 10, 13, 7, 8, 15, 9, 12, 5, 6, 3, 0, 14],
      [11, 8, 12, 7, 1, 14, 2, 13, 6, 15, 0, 9, 10, 4, 5, 3]],
    [
      [12, 1, 10, 15, 9, 2, 6, 8, 0, 13, 3, 4, 14, 7, 5, 11],
      [10, 15, 4, 2, 7, 12, 9, 5, 6, 1, 13, 14, 0, 11, 3, 8],
      [9, 14, 15, 5, 2, 8, 12, 3, 7, 0, 4, 10, 1, 13, 11, 6],
      [4, 3, 2, 12, 9, 5, 15, 10, 11, 14, 1, 7, 6, 0, 8, 13]],
    [
      [4, 11, 2, 14, 15, 0, 8, 13, 3, 12, 9, 7, 5, 10, 6, 1],
      [13, 0, 11, 7, 4, 9, 1, 10, 14, 3, 5, 12, 2, 15, 8, 6],
      [1, 4, 11, 13, 12, 3, 7, 14, 10, 15, 6, 8, 0, 5, 9, 2],
      [6, 11, 13, 8, 1, 4, 10, 7, 9, 5, 0, 15, 14, 2, 3, 12]],
    [
      [13, 2, 8, 4, 6, 15, 11, 1, 10, 9, 3, 14, 5, 0, 12, 7],
      [1, 15, 13, 8, 10, 3, 7, 4, 12, 5, 6, 11, 0, 14, 9, 2],
      [7, 11, 4, 1, 9, 12, 14, 2, 0, 6, 10, 13, 15, 3, 5, 8],
      [2, 1, 14, 7, 4, 10, 8, 13, 15, 12, 9, 0, 3, 5, 6, 11]]]

-- A permutation, expansion or permuted choice: cell `i` of the result is the bit that entry `i` of the table names.
def pick {m : Nat} (n : Nat) (table : List Nat) (v : Bits m) : Bits n :=
  Vector.ofFn fun i => bit v (table.getD i.val 0 - 1)

-- Bits as a number, the first of them the highest.
def number (bits : List Bool) : Nat := bits.foldl (fun n b => 2 * n + b.toNat) 0

def row (b : Bits 48) (i : Nat) : Nat := number [bit b (6 * i), bit b (6 * i + 5)]

def column (b : Bits 48) (i : Nat) : Nat :=
  number [bit b (6 * i + 1), bit b (6 * i + 2), bit b (6 * i + 3), bit b (6 * i + 4)]

def entry (i r c : Nat) : Nat := ((selection.getD i []).getD r []).getD c 0

-- Where an implementation may lay out the bits otherwise than the standard: which binary digit of the number
-- that a selection function yields is its output bit `j`, and how the last two halves make a block.
structure Layout where
  digit : Nat → Nat
  preoutput : Bits 32 × Bits 32 → Bits 64

-- The standard's own: the highest digit first, and R16 before L16.
def standard : Layout where
  digit j := 3 - j
  preoutput h := join (h.2, h.1)

def select (y : Layout) (b : Bits 48) : Bits 32 :=
  Vector.ofFn fun i => (entry (i.val / 4) (row b (i.val / 4)) (column b (i.val / 4))).testBit (y.digit (i.val % 4))

def f (y : Layout) (k : Bits 48) (r : Bits 32) : Bits 32 := pick 32 p (select y (xor (pick 48 e r) k))

-- C and D after `n` left shifts.
def shifted (key : Bits 64) : Nat → Bits 56
  | 0 => pick 56 pc1 key
  | n + 1 => rotateHalves (shifted key n) (leftShifts.getD n 0)

def keySchedule (key : Bits 64) : List (Bits 48) := (List.range 16).map fun n => pick 48 pc2 (shifted key (n + 1))

def encipher (y : Layout) (key block : Bits 64) : Bits 64 :=
  pick 64 ipInverse (y.preoutput (rounds xor (f y) (keySchedule key) (split (pick 64 ip block))))

end Standard

section File

-- The layout of 3des.c: an entry of an S-box goes through byte_to_bit, lowest digit first, and the halves
-- stay where the last round left them, in encrypt as in decrypt.
def ofFile : Layout where
  digit j := j
  preoutput := join

-- Box, row and column of the two cells of `s_box` that hold 0 where the standard has 9.
def misprints : List (Nat × Nat × Nat) := [(5, 1, 6), (6, 1, 5)]

def Misprinted (b : Bits 48) : Prop := ∃ i < 8, (i, row b i, column b i) ∈ misprints

instance (b : Bits 48) : Decidable (Misprinted b) := inferInstanceAs (Decidable (∃ i < 8, _ ∈ _))

-- The inputs on which no wrong entry of a table shows: the bits 34 and 45 of C and D, of which `pc2_tbl` reads
-- the first in the other's place, agree after each left shift, and no round looks up a wrong cell.
structure Spared (key block : Bits 64) : Prop where
  keyBits : ∀ n < 16, bit (shifted key (n + 1)) 33 = bit (shifted key (n + 1)) 44
  cells : Along xor (f ofFile) (fun k r => ¬Misprinted (xor (pick 48 e r) k)) (keySchedule key)
    (split (pick 64 ip block))

theorem row_eq (b : Bits 48) (i : Nat) : row b i = sRow b i := by
  simp only [row, number, sRow, List.foldl_cons, List.foldl_nil]
  omega

theorem column_eq (b : Bits 48) (i : Nat) : column b i = sCol b i := by
  simp only [column, number, sCol, List.foldl_cons, List.foldl_nil]
  omega

theorem sRow_lt (b : Bits 48) (i : Nat) : sRow b i < 4 := by
  have h0 := (bit b (6 * i)).toNat_lt
  have h5 := (bit b (6 * i + 5)).toNat_lt
  unfold sRow
  omega

theorem sCol_lt (b : Bits 48) (i : Nat) : sCol b i < 16 := by
  have h1 := (bit b (6 * i + 1)).toNat_lt
  have h2 := (bit b (6 * i + 2)).toNat_lt
  have h3 := (bit b (6 * i + 3)).toNat_lt
  have h4 := (bit b (6 * i + 4)).toNat_lt
  unfold sCol
  omega

section Tables

variable {m n : Nat} {tbl : Vector Nat n} {table : List Nat} (h : tbl.toList = table)

include h

theorem getD_eq (i : Nat) : (tbl[i]?).getD 0 = table.getD i 0 := by
  rw [← h, List.getD_eq_getElem?_getD, Vector.getElem?_toList]

-- tbl_replace with a table of the standard.
theorem permute_eq_pick (v : Bits m) : permute tbl v = pick n table v := by
  apply eq_of_bit
  intro i hi
  rw [permute, bit_ofFn _ hi, pick, bit_ofFn _ hi, getD_eq h]

end Tables

-- All other cells of `s_box` are those of the standard.
theorem sEntry_eq (i : Fin 8) (r : Fin 4) (c : Fin 16) :
    entry i r c < 16 ∧ ((i.val, r.val, c.val) ∈ misprints ∨ sEntry i r c = BitVec.ofNat 8 (entry i r c)) := by
  revert i r c
  decide

theorem sChange_eq (b : Bits 48) (h : ¬Misprinted b) : sChange b = select ofFile b := by
  apply eq_of_bit
  intro i hi
  have hbox : i / 4 < 8 := by omega
  have hrow := sRow_lt b (i / 4)
  have hcol := sCol_lt b (i / 4)
  have hcell : (i / 4, sRow b (i / 4), sCol b (i / 4)) ∉ misprints := by
    rw [← row_eq, ← column_eq]
    exact fun hcell => h ⟨i / 4, hbox, hcell⟩
  have hsame := (sEntry_eq ⟨_, hbox⟩ ⟨_, hrow⟩ ⟨_, hcol⟩).2.resolve_left hcell
  rw [sChange, bit_ofFn _ hi, select, bit_ofFn _ hi, row_eq, column_eq]
  have hdigit : i % 4 < 8 := by omega
  rw [bit_digits _ (Nat.mod_lt i (by norm_num)), hsame, BitVec.getLsbD_ofNat, ofFile]
  simp [hdigit]

theorem feistel_eq (k : Bits 48) (r : Bits 32) (h : ¬Misprinted (xor (pick 48 e r) k)) :
    feistel k r = f ofFile k r := by
  rw [feistel, permute_eq_pick (show eTbl.toList = e from rfl), sChange_eq _ h,
    permute_eq_pick (show pTbl.toList = p from rfl), ← f]

theorem permute_pc2Tbl (v : Bits 56) (h : bit v 33 = bit v 44) : permute pc2Tbl v = pick 48 pc2 v := by
  have hsame : ∀ i < 48, i ≠ 33 → (pc2Tbl[i]?).getD 0 = pc2.getD i 0 := by decide
  apply eq_of_bit
  intro i hi
  rw [permute, bit_ofFn _ hi, pick, bit_ofFn _ hi]
  by_cases h33 : i = 33
  · subst h33
    exact h
  · simp only [hsame i hi h33]

theorem keyBits_eq (key : Chars 8) (n : Nat) : Des.keyBits key n = shifted (byteToBit key 64) n := by
  induction n with
  | zero => rw [Des.keyBits, permute_eq_pick (show pc1Tbl.toList = pc1 from rfl), shifted]
  | succ n ih => rw [Des.keyBits, ih, getD_eq (show mvTbl.toList = leftShifts from rfl), shifted]

theorem subKeys_eq (key : Chars 8)
    (h : ∀ n < 16, bit (shifted (byteToBit key 64) (n + 1)) 33 = bit (shifted (byteToBit key 64) (n + 1)) 44) :
    (subKeys key).toList = keySchedule (byteToBit key 64) := by
  rw [subKeys, Vector.toList_ofFn]
  apply List.ext_getElem
  · simp [keySchedule]
  · intro n hn _
    rw [List.length_ofFn] at hn
    simp only [keySchedule, List.getElem_ofFn, List.getElem_map, List.getElem_range, keyBits_eq]
    exact permute_pc2Tbl _ (h n hn)

theorem enciphered_eq (key : Chars 8) (block : Bits 64) (h : Spared (byteToBit key 64) block) :
    permute iprTbl (enciphered (subKeys key) (permute ipTbl block)) =
      encipher ofFile (byteToBit key 64) block := by
  rw [enciphered, subKeys_eq key h.keyBits, permute_eq_pick (show ipTbl.toList = ip from rfl),
    rounds_congr xor (f ofFile) feistel_eq _ _ h.cells, permute_eq_pick (show iprTbl.toList = ipInverse from rfl)]
  rfl

-- Where no wrong entry shows, set_key and encrypt compute DES in the layout of the file.
theorem encrypt_eq_encipher (s : Statics) (key plain : Chars 8)
    (h : Spared (byteToBit key 64) (byteToBit plain 64)) :
    (encrypt (setKey s key) plain).1 =
      bitToHex (encipher ofFile (byteToBit key 64) (byteToBit plain 64)) := by
  rw [(encrypt_eq _ _).1, setKey_subKey, enciphered_eq key _ h]

end File

section Steps

-- The halves of the standard after `n` rounds.
def halvesAfter (key block : Bits 64) (n : Nat) : Bits 32 × Bits 32 :=
  rounds xor (f standard) ((keySchedule key).take n) (split (pick 64 ip block))

-- `msg_bit` of encrypt after `n` turns of its loop.
def msgBitAfter (s : Statics) (plain : Chars 8) (n : Nat) : Bits 64 :=
  let s := { s with encryptBit := byteToBit plain 64 }
  let (b, s) := tblReplace s s.encryptBit ipTbl
  let s := { s with encryptBit := b }
  ((s.subKey.toList.take n).foldl encryptRound s).encryptBit

-- set_key and encrypt go the way of the standard: the same sub-keys, the same halves after every round and the
-- same cypher text.
structure Follows (s : Statics) (key plain : Chars 8) : Prop where
  subKeys : (setKey s key).subKey.toList = keySchedule (byteToBit key 64)
  halves : ∀ n ≤ 16,
    msgBitAfter (setKey s key) plain n = join (halvesAfter (byteToBit key 64) (byteToBit plain 64) n)
  cypher : (encrypt (setKey s key) plain).1 =
    bitToHex (encipher standard (byteToBit key 64) (byteToBit plain 64))

-- Every box is looked up in a cell that the file has as the standard does and whose four binary digits read
-- the same from both ends.
def Palindromic (b : Bits 48) : Prop :=
  ∀ i < 8, (i, row b i, column b i) ∉ misprints ∧ entry i (row b i) (column b i) ∈ [0, 6, 9, 15]

-- The inputs on which nothing of what the file does otherwise shows: neither the wrong entry of `pc2_tbl`, nor
-- the order of the digits and the wrong cells of `s_box`, nor the exchange of the halves that is left out.
structure Harmless (key block : Bits 64) : Prop where
  keyBits : ∀ n < 16, bit (shifted key (n + 1)) 33 = bit (shifted key (n + 1)) 44
  cells : Along xor (f standard) (fun k r => Palindromic (xor (pick 48 e r) k)) (keySchedule key)
    (split (pick 64 ip block))
  halves : (halvesAfter key block 16).1 = (halvesAfter key block 16).2

theorem msgBitAfter_eq (s : Statics) (plain : Chars 8) (n : Nat) :
    msgBitAfter s plain n =
      join (rounds xor feistel (s.subKey.toList.take n) (split (permute ipTbl (byteToBit plain 64)))) := by
  unfold msgBitAfter
  simp only [tblReplace_fst _ _ ipTbl (by norm_num)]
  simp only [encryptRounds_bit, tblReplace]

theorem digits_eq_iff (i : Fin 8) (r : Fin 4) (c : Fin 16) :
    (∀ j : Fin 4, bit (byteToBit #v[sEntry i r c] 4) j = (entry i r c).testBit (standard.digit j)) ↔
      (i.val, r.val, c.val) ∉ misprints ∧ entry i r c ∈ [0, 6, 9, 15] := by
  have hwrong : ∀ cell ∈ misprints, ¬∀ j : Fin 4, (sEntry cell.1 cell.2.1 cell.2.2).getLsbD j =
      (entry cell.1 cell.2.1 cell.2.2).testBit (standard.digit j) := by decide
  have hdigits : ∀ v < 16, (∀ j : Fin 4, (BitVec.ofNat 8 v).getLsbD j = v.testBit (standard.digit j)) ↔
      v ∈ [0, 6, 9, 15] := by decide
  simp only [bit_digits _ (Fin.isLt _)]
  by_cases hcell : (i.val, r.val, c.val) ∈ misprints
  · exact iff_of_false (hwrong (i.val, r.val, c.val) hcell) fun h => h.1 hcell
  · obtain ⟨hlt, hsame⟩ := sEntry_eq i r c
    rw [hsame.resolve_left hcell, hdigits _ hlt]
    exact (and_iff_right hcell).symm

theorem sChange_eq_select_iff (b : Bits 48) : sChange b = select standard b ↔ Palindromic b := by
  have hcell : ∀ i (hi : i < 8),
      (∀ j : Fin 4, bit (sChange b) (4 * i + j) = bit (select standard b) (4 * i + j)) ↔
        (i, row b i, column b i) ∉ misprints ∧ entry i (row b i) (column b i) ∈ [0, 6, 9, 15] := by
    intro i hi
    rw [row_eq, column_eq]
    refine Iff.trans ?_ (digits_eq_iff ⟨i, hi⟩ ⟨_, sRow_lt b i⟩ ⟨_, sCol_lt b i⟩)
    refine forall_congr' fun j => ?_
    have hbox : (4 * i + j.val) / 4 = i := by omega
    have hdigit : (4 * i + j.val) % 4 = j := by omega
    rw [sChange, bit_ofFn _ (by omega), select, bit_ofFn _ (by omega)]
    simp only [hbox, hdigit, row_eq, column_eq]
  constructor
  · intro h i hi
    rw [← hcell i hi]
    exact fun j => by rw [h]
  · intro h
    apply eq_of_bit
    intro q hq
    have hbits := (hcell (q / 4) (by omega)).mpr (h (q / 4) (by omega)) ⟨q % 4, by omega⟩
    rwa [Nat.div_add_mod] at hbits

-- `p` names every bit of its argument.
theorem pick_p_injective : Function.Injective (pick 32 p : Bits 32 → Bits 32) := by
  have hall : ∀ i < 32, ∃ q < 32, p.getD q 0 - 1 = i := by decide
  intro u v h
  apply eq_of_bit
  intro i hi
  obtain ⟨q, hq, rfl⟩ := hall i hi
  have hbit := congrArg (fun w => bit w q) h
  simp only [pick] at hbit
  rwa [bit_ofFn _ hq, bit_ofFn _ hq] at hbit

theorem feistel_eq_f_iff (k : Bits 48) (r : Bits 32) :
    feistel k r = f standard k r ↔ Palindromic (xor (pick 48 e r) k) := by
  rw [feistel, f, permute_eq_pick (show eTbl.toList = e from rfl), permute_eq_pick (show pTbl.toList = p from rfl),
    pick_p_injective.eq_iff, sChange_eq_select_iff]

theorem permute_pc2Tbl_eq_iff (v : Bits 56) : permute pc2Tbl v = pick 48 pc2 v ↔ bit v 33 = bit v 44 := by
  refine ⟨fun h => ?_, permute_pc2Tbl v⟩
  have hbit := congrArg (fun w => bit w 33) h
  simp only [permute, pick] at hbit
  rwa [bit_ofFn _ (by norm_num), bit_ofFn _ (by norm_num)] at hbit

theorem subKeys_eq_iff (key : Chars 8) :
    (subKeys key).toList = keySchedule (byteToBit key 64) ↔
      ∀ n < 16, bit (shifted (byteToBit key 64) (n + 1)) 33 = bit (shifted (byteToBit key 64) (n + 1)) 44 := by
  refine ⟨fun h n hn => ?_, subKeys_eq key⟩
  have hkey := congrArg (fun ks => ks[n]?) h
  simp only [subKeys, keySchedule, Vector.toList_ofFn, List.getElem?_ofFn, List.getElem?_map,
    List.getElem?_range hn, hn, dif_pos, Option.map_some, Option.some.injEq, keyBits_eq] at hkey
  exact (permute_pc2Tbl_eq_iff _).mp hkey

theorem pick_ipInverse_injective : Function.Injective (pick 64 ipInverse : Bits 64 → Bits 64) := by
  intro u v h
  rw [← permute_eq_pick (show iprTbl.toList = ipInverse from rfl),
    ← permute_eq_pick (show iprTbl.toList = ipInverse from rfl)] at h
  rw [← permute_ip_ipr u, h, permute_ip_ipr]

theorem join_injective : Function.Injective join := fun a b h => by
  rw [← split_join a, h, split_join]

theorem length_keySchedule (key : Bits 64) : (keySchedule key).length = 16 := by
  rw [keySchedule, List.length_map, List.length_range]

theorem take_keySchedule (key : Bits 64) : (keySchedule key).take 16 = keySchedule key :=
  List.take_of_length_le (length_keySchedule key).le

theorem encipher_standard (key block : Bits 64) :
    encipher standard key block = pick 64 ipInverse (join (halvesAfter key block 16).swap) := by
  rw [halvesAfter, take_keySchedule]
  rfl

section Runs

variable (s : Statics) {key : Chars 8} (plain : Chars 8)
  (hkeys : (subKeys key).toList = keySchedule (byteToBit key 64))

include hkeys

theorem halves_eq_iff :
    (∀ n ≤ 16, msgBitAfter (setKey s key) plain n =
      join (halvesAfter (byteToBit key 64) (byteToBit plain 64) n)) ↔
      Along xor (f standard) (fun k r => Palindromic (xor (pick 48 e r) k)) (keySchedule (byteToBit key 64))
        (split (pick 64 ip (byteToBit plain 64))) := by
  rw [← along_iff xor (f standard) feistel_eq_f_iff, ← rounds_take_eq_iff xor (f standard) xor_xor_right,
    length_keySchedule]
  refine forall_congr' fun n => forall_congr' fun _ => ?_
  rw [msgBitAfter_eq, setKey_subKey, hkeys, join_injective.eq_iff,
    permute_eq_pick (show ipTbl.toList = ip from rfl), halvesAfter]

-- With the halves of the standard, only their order in the block is left.
theorem cypher_eq_iff (hrun : ∀ n ≤ 16, msgBitAfter (setKey s key) plain n =
      join (halvesAfter (byteToBit key 64) (byteToBit plain 64) n)) :
    (encrypt (setKey s key) plain).1 = bitToHex (encipher standard (byteToBit key 64) (byteToBit plain 64)) ↔
      (halvesAfter (byteToBit key 64) (byteToBit plain 64) 16).1 =
        (halvesAfter (byteToBit key 64) (byteToBit plain 64) 16).2 := by
  have hhex : Function.Injective bitToHex := fun a b hab => by
    rw [← hexToBit_bitToHex a, hab, hexToBit_bitToHex]
  have hlast := hrun 16 le_rfl
  rw [msgBitAfter_eq, setKey_subKey, hkeys, take_keySchedule] at hlast
  rw [(encrypt_eq _ _).1, setKey_subKey, hhex.eq_iff, enciphered, hkeys, hlast, encipher_standard,
    permute_eq_pick (show iprTbl.toList = ipInverse from rfl), pick_ipInverse_injective.eq_iff, join_injective.eq_iff]
  generalize halvesAfter (byteToBit key 64) (byteToBit plain 64) 16 = h
  rw [Prod.ext_iff, Prod.fst_swap, Prod.snd_swap]
  exact ⟨And.left, fun hsame => ⟨hsame, hsame.symm⟩⟩

end Runs

end Steps

section Numbers

-- Runs on fixed inputs, in numbers whose binary digits, the highest first, are the bits of a half block, a block,
-- a sub-key, or C and D.

def half (w : Nat) : Bits 32 := Vector.ofFn fun i => w.testBit (31 - i.val)

def whole (w : Nat) : Bits 64 := Vector.ofFn fun i => w.testBit (63 - i.val)

def roundKey (w : Nat) : Bits 48 := Vector.ofFn fun i => w.testBit (47 - i.val)

def registers (w : Nat) : Bits 56 := Vector.ofFn fun i => w.testBit (55 - i.val)

theorem byteToBit_eq_whole {dataIn : Chars 8} {w : Nat}
    (h : ∀ i < 64, ((dataIn[i / 8]?).getD 0).getLsbD (i % 8) = w.testBit (63 - i)) :
    byteToBit dataIn 64 = whole w := by
  apply eq_of_bit
  intro i hi
  rw [bit_byteToBit _ hi, whole, bit_ofFn _ hi, h i hi]

theorem bit_half (w : Nat) {j : Nat} (hj : j < 32) : bit (half w) j = w.testBit (31 - j) := by
  rw [half, bit_ofFn _ hj]

theorem split_ip_whole {w a b : Nat}
    (h : ∀ i < 32, w.testBit (63 - (ip.getD i 0 - 1)) = a.testBit (31 - i) ∧
      w.testBit (63 - (ip.getD (32 + i) 0 - 1)) = b.testBit (31 - i)) :
    split (pick 64 ip (whole w)) = (half a, half b) := by
  have hlt : ∀ i < 64, ip.getD i 0 - 1 < 64 := by decide
  have hbit : ∀ i < 64, bit (pick 64 ip (whole w)) i = w.testBit (63 - (ip.getD i 0 - 1)) := by
    intro i hi
    rw [pick, bit_ofFn _ hi, whole, bit_ofFn _ (hlt i hi)]
  refine Prod.ext (eq_of_bit fun i hi => ?_) (eq_of_bit fun i hi => ?_)
  · rw [split, bit_window _ _ hi, Nat.zero_add, hbit _ (by omega)]
    exact (h i hi).1.trans (bit_half a hi).symm
  · rw [split, bit_window _ _ hi, hbit _ (by omega)]
    exact (h i hi).2.trans (bit_half b hi).symm

theorem pick_ipInverse_join {a b w : Nat}
    (h : ∀ i < 64, (if ipInverse.getD i 0 - 1 < 32 then a.testBit (31 - (ipInverse.getD i 0 - 1))
      else b.testBit (63 - (ipInverse.getD i 0 - 1))) = w.testBit (63 - i)) :
    pick 64 ipInverse (join (half a, half b)) = whole w := by
  have hlt : ∀ i < 64, ipInverse.getD i 0 - 1 < 64 := by decide
  apply eq_of_bit
  intro i hi
  have hq := hlt i hi
  rw [whole, bit_ofFn _ hi, pick, bit_ofFn _ hi, bit_join _ hq]
  refine Eq.trans ?_ (h i hi)
  split_ifs with hleft
  · exact bit_half a hleft
  · have hright : 31 - (ipInverse.getD i 0 - 1 - 32) = 63 - (ipInverse.getD i 0 - 1) := by omega
    rw [← hright]
    exact bit_half b (by omega)

theorem bit_registers (w : Nat) {j : Nat} (hj : j < 56) : bit (registers w) j = w.testBit (55 - j) := by
  rw [registers, bit_ofFn _ hj]

section Schedule

-- The numbers of C and D after each left shift, and those of the sub-keys, for the key `key`.
structure IsSchedule (key : Nat) (cd ks : List Nat) : Prop where
  chosen : ∀ j < 56, (cd.getD 0 0).testBit (55 - j) = key.testBit (63 - (pc1.getD j 0 - 1))
  shifts : ∀ n < 16, ∀ j < 56, (cd.getD (n + 1) 0).testBit (55 - j) =
    (cd.getD n 0).testBit (55 - if j < 28 then (j + leftShifts.getD n 0) % 28
      else 28 + (j - 28 + leftShifts.getD n 0) % 28)
  subKeys : ∀ n < 16, ∀ i < 48, (ks.getD n 0).testBit (47 - i) = (cd.getD (n + 1) 0).testBit (55 - (pc2.getD i 0 - 1))

variable {key : Nat} {cd ks : List Nat} (h : IsSchedule key cd ks)

include h

theorem IsSchedule.shifted_eq {n : Nat} (hn : n ≤ 16) : shifted (whole key) n = registers (cd.getD n 0) := by
  induction n with
  | zero =>
      have hlt : ∀ j < 56, pc1.getD j 0 - 1 < 64 := by decide
      apply eq_of_bit
      intro j hj
      rw [shifted, pick, bit_ofFn _ hj, whole, bit_ofFn _ (hlt j hj), bit_registers _ hj]
      exact (h.chosen j hj).symm
  | succ n ih =>
      apply eq_of_bit
      intro j hj
      rw [shifted, ih (by omega), bit_rotateHalves _ _ hj, bit_registers _ hj]
      refine Eq.trans ?_ (h.shifts n (by omega) j hj).symm
      split_ifs
      · rw [bit_registers _ (by omega)]
      · rw [bit_registers _ (by omega)]

theorem IsSchedule.keySchedule_eq (hlength : ks.length = 16) : keySchedule (whole key) = ks.map roundKey := by
  have hlt : ∀ i < 48, pc2.getD i 0 - 1 < 56 := by decide
  apply List.ext_getElem
  · rw [length_keySchedule, List.length_map, hlength]
  · intro n hn hn'
    rw [length_keySchedule] at hn
    have hround : n < ks.length := by omega
    have hget : ks[n] = ks.getD n 0 := by
      rw [List.getD_eq_getElem?_getD, List.getElem?_eq_getElem hround, Option.getD_some]
    simp only [keySchedule, List.getElem_map, List.getElem_range]
    rw [h.shifted_eq (by omega), hget]
    apply eq_of_bit
    intro i hi
    rw [pick, bit_ofFn _ hi, bit_registers _ (hlt i hi), roundKey, bit_ofFn _ hi]
    exact (h.subKeys n hn i hi).symm

theorem IsSchedule.keyBits (hbits : ∀ n < 16, (cd.getD (n + 1) 0).testBit 22 = (cd.getD (n + 1) 0).testBit 11) :
    ∀ n < 16, bit (shifted (whole key) (n + 1)) 33 = bit (shifted (whole key) (n + 1)) 44 := by
  intro n hn
  rw [h.shifted_eq (by omega), bit_registers _ (by norm_num), bit_registers _ (by norm_num)]
  exact hbits n hn

end Schedule

section Trace

-- The bit `m` that the box `i` is given of a half block and a sub-key.
def boxBit (w k i m : Nat) : Bool := w.testBit (32 - e.getD (6 * i + m) 0) ^^ k.testBit (47 - (6 * i + m))

def boxRow (w k i : Nat) : Nat := number [boxBit w k i 0, boxBit w k i 5]

def boxColumn (w k i : Nat) : Nat := number [boxBit w k i 1, boxBit w k i 2, boxBit w k i 3, boxBit w k i 4]

theorem bit_expanded (w k : Nat) {i m : Nat} (hi : i < 8) (hm : m < 6) :
    bit (xor (pick 48 e (half w)) (roundKey k)) (6 * i + m) = boxBit w k i m := by
  have hlt : ∀ q < 48, 1 ≤ e.getD q 0 ∧ e.getD q 0 ≤ 32 := by decide
  have hq : 6 * i + m < 48 := by omega
  obtain ⟨hpos, hle⟩ := hlt _ hq
  rw [bit_xor _ _ hq, roundKey, bit_ofFn _ hq, pick, bit_ofFn _ hq, half, bit_ofFn _ (by simp only; omega), boxBit]
  congr 2
  simp only
  omega

theorem row_expanded (w k : Nat) {i : Nat} (hi : i < 8) :
    row (xor (pick 48 e (half w)) (roundKey k)) i = boxRow w k i := by
  have h0 := bit_expanded w k hi (show 0 < 6 by norm_num)
  rw [Nat.add_zero] at h0
  rw [row, boxRow, h0, bit_expanded w k hi (by norm_num)]

theorem column_expanded (w k : Nat) {i : Nat} (hi : i < 8) :
    column (xor (pick 48 e (half w)) (roundKey k)) i = boxColumn w k i := by
  rw [column, boxColumn, bit_expanded w k hi (by norm_num), bit_expanded w k hi (by norm_num),
    bit_expanded w k hi (by norm_num), bit_expanded w k hi (by norm_num)]

-- The round function, one bit at a time.
def fBit (y : Layout) (w k j : Nat) : Bool :=
  let i := p.getD j 0 - 1
  (entry (i / 4) (boxRow w k (i / 4)) (boxColumn w k (i / 4))).testBit (y.digit (i % 4))

theorem bit_f (y : Layout) (w k : Nat) {j : Nat} (hj : j < 32) :
    bit (f y (roundKey k) (half w)) j = fBit y w k j := by
  have hlt : ∀ j < 32, p.getD j 0 - 1 < 32 := by decide
  have hi := hlt j hj
  rw [f, pick, bit_ofFn _ hj, select, bit_ofFn _ hi]
  simp only
  rw [row_expanded w k (by omega), column_expanded w k (by omega)]
  rfl

-- Numbers that follow each other in a run, the half blocks of its rounds. Bit by bit in the order of the boxes, so
-- that each entry is looked up once.
def IsTrace (y : Layout) (ks x : List Nat) : Prop :=
  ∀ i < 16, ∀ b < 8, ∀ m < 4, (x.getD (i + 2) 0).testBit (31 - p.idxOf (4 * b + m + 1)) =
    ((entry b (boxRow (x.getD (i + 1) 0) (ks.getD i 0) b)
      (boxColumn (x.getD (i + 1) 0) (ks.getD i 0) b)).testBit (y.digit m) ^^
        (x.getD i 0).testBit (31 - p.idxOf (4 * b + m + 1)))

instance (y : Layout) (ks x : List Nat) : Decidable (IsTrace y ks x) :=
  inferInstanceAs (Decidable (∀ i < 16, ∀ b < 8, ∀ m < 4, _ = _))

-- No round of the run looks up a wrong cell.
def MissesMisprints (ks x : List Nat) : Prop :=
  ∀ i < 16, ∀ b < 8,
    (b, boxRow (x.getD (i + 1) 0) (ks.getD i 0) b, boxColumn (x.getD (i + 1) 0) (ks.getD i 0) b) ∉ misprints

instance (ks x : List Nat) : Decidable (MissesMisprints ks x) :=
  inferInstanceAs (Decidable (∀ i < 16, ∀ b < 8, _ ∉ misprints))

variable {y : Layout} {ks x : List Nat} (h : IsTrace y ks x) (hlength : ks.length = 16)

include h

theorem IsTrace.testBit {i j : Nat} (hi : i < 16) (hj : j < 32) :
    (x.getD (i + 2) 0).testBit (31 - j) =
      (fBit y (x.getD (i + 1) 0) (ks.getD i 0) j ^^ (x.getD i 0).testBit (31 - j)) := by
  have hplace : ∀ j < 32, p.getD j 0 - 1 < 32 ∧ p.idxOf (p.getD j 0 - 1 + 1) = j := by decide
  obtain ⟨hlt, hidx⟩ := hplace j hj
  have hbit := h i hi ((p.getD j 0 - 1) / 4) (by omega) ((p.getD j 0 - 1) % 4) (Nat.mod_lt _ (by norm_num))
  rwa [Nat.div_add_mod, hidx] at hbit

include hlength

theorem IsTrace.step (i : Nat) (hi : i < (ks.map roundKey).length) :
    half (x.getD (i + 2) 0) =
      xor (f y ((ks.map roundKey).get ⟨i, hi⟩) (half (x.getD (i + 1) 0))) (half (x.getD i 0)) := by
  rw [List.length_map] at hi
  have hget : (ks.map roundKey).get ⟨i, by rwa [List.length_map]⟩ = roundKey (ks.getD i 0) := by
    rw [List.get_eq_getElem, List.getElem_map, List.getD_eq_getElem?_getD, List.getElem?_eq_getElem hi,
      Option.getD_some]
  rw [hget]
  apply eq_of_bit
  intro j hj
  rw [bit_xor _ _ hj, bit_f y _ _ hj, half, bit_ofFn _ hj, half, bit_ofFn _ hj]
  exact h.testBit (by omega) hj

variable {key block : Bits 64} (hkeys : keySchedule key = ks.map roundKey)
  (hblock : split (pick 64 ip block) = (half (x.getD 0 0), half (x.getD 1 0)))

include hkeys hblock

theorem IsTrace.encipher_eq :
    encipher y key block = pick 64 ipInverse (y.preoutput (half (x.getD 16 0), half (x.getD 17 0))) := by
  have hrun := rounds_eq_of_trace xor (f y) (ks.map roundKey) (fun i => half (x.getD i 0)) (h.step hlength)
  simp only [List.length_map, hlength] at hrun
  rw [encipher, hkeys, hblock, hrun]

theorem IsTrace.along (hcells : MissesMisprints ks x) :
    Along xor (f y) (fun k r => ¬Misprinted (xor (pick 48 e r) k)) (keySchedule key) (split (pick 64 ip block)) := by
  have halong := along_of_trace xor (f y) (P := fun k r => ¬Misprinted (xor (pick 48 e r) k))
    (ks.map roundKey) (fun i => half (x.getD i 0)) (h.step hlength) fun i hi => by
      rw [List.length_map] at hi
      rw [List.get_eq_getElem, List.getElem_map]
      rintro ⟨b, hb, hcell⟩
      have hget : ks[i] = ks.getD i 0 := by
        rw [List.getD_eq_getElem?_getD, List.getElem?_eq_getElem hi, Option.getD_some]
      rw [hget, row_expanded _ _ hb, column_expanded _ _ hb] at hcell
      exact hcells i (by omega) b hb hcell
  rw [hkeys, hblock]
  exact halong

end Trace

end Numbers

section Zero

-- The zero block under the zero key, all of whose sub-keys are zero.

def zeroBytes : Chars 8 := Vector.replicate 8 0

def noKeys : List Nat := List.replicate 16 0

theorem byteToBit_zeroBytes : byteToBit zeroBytes 64 = whole 0 :=
  byteToBit_eq_whole (by decide)

theorem getD_zeros (m n : Nat) : (List.replicate m 0).getD n 0 = 0 := by
  rw [List.getD_eq_getElem?_getD, List.getElem?_getD_replicate_default_eq]

theorem isSchedule_zero : IsSchedule 0 (List.replicate 17 0) noKeys where
  chosen j _ := by simp only [getD_zeros, Nat.zero_testBit]
  shifts n _ j _ := by simp only [getD_zeros, Nat.zero_testBit]
  subKeys n _ i _ := by simp only [noKeys, getD_zeros, Nat.zero_testBit]

theorem keySchedule_zeroBytes : keySchedule (byteToBit zeroBytes 64) = noKeys.map roundKey := by
  rw [byteToBit_zeroBytes, isSchedule_zero.keySchedule_eq (List.length_replicate ..)]

theorem split_zeroBytes : split (pick 64 ip (byteToBit zeroBytes 64)) = (half 0, half 0) := by
  rw [byteToBit_zeroBytes]
  exact split_ip_whole (by decide)

def standardRun : List Nat := [0, 0, 0xD8D8DBBC, 0xE73AED4F, 0x5BFA6BA6, 0x5E45E257, 0x8B197BE0, 0xFDE9894A,
  0x19DF0B5C, 0x907A13F0, 0x88190C50, 0x25D1517C, 0xF3EF917E, 0x96E39712, 0x5A5DA34A, 0x058CAD0A, 0xBBEA0DC2,
  0x1C2087FC]

def fileRun : List Nat := [0, 0, 0x4C6FFE52, 0xD107E24E, 0x00EF830C, 0x6C384590, 0xCF19F4EF, 0x5A7DA522,
  0xA9482C26, 0x1242875C, 0x41431252, 0x066C3714, 0xD84A8C0C, 0x45C5009D, 0xD09ABFB3, 0x3BABE0FF, 0x14CB53BF,
  0x1C53CC2A]

theorem zeroRuns_areTraces :
    IsTrace standard noKeys standardRun ∧ IsTrace ofFile noKeys fileRun ∧ MissesMisprints noKeys fileRun := by
  decide

-- The published cypher text of the zero block under the zero key.
theorem encipher_standard_zeroBytes :
    encipher standard (byteToBit zeroBytes 64) (byteToBit zeroBytes 64) = whole 0x8CA64DE9C1B123A7 := by
  rw [zeroRuns_areTraces.1.encipher_eq (List.length_replicate ..) keySchedule_zeroBytes split_zeroBytes]
  exact pick_ipInverse_join (by decide)

theorem encipher_ofFile_zeroBytes :
    encipher ofFile (byteToBit zeroBytes 64) (byteToBit zeroBytes 64) = whole 0x3537C99BE5033C19 := by
  rw [zeroRuns_areTraces.2.1.encipher_eq (List.length_replicate ..) keySchedule_zeroBytes split_zeroBytes]
  exact pick_ipInverse_join (by decide)

theorem spared_zeroBytes : Spared (byteToBit zeroBytes 64) (byteToBit zeroBytes 64) where
  keyBits := by
    rw [byteToBit_zeroBytes]
    exact isSchedule_zero.keyBits (by decide)
  cells :=
    zeroRuns_areTraces.2.1.along (List.length_replicate ..) keySchedule_zeroBytes split_zeroBytes zeroRuns_areTraces.2.2

end Zero

section Hellotxt

-- The block "hellotxt" under the key "gxbZySsw".

def hellotxt : Chars 8 := #v[104, 101, 108, 108, 111, 116, 120, 116]

def gxbZySsw : Chars 8 := #v[103, 120, 98, 90, 121, 83, 115, 119]

def gxbZySswShifted : List Nat := [
  0xF1ED811FFD7FAA, 0xE3DB023FFAFF55, 0xC7B6047FF5FEAB, 0x1ED811FFD7FAAF, 0x7B6047CF5FEABF, 0xED811F1D7FAAFF,
  0xB6047C75FEABFF, 0xD811F1E7FAAFFD, 0x6047C7BFEABFF5, 0xC08F8F6FD57FEB, 0x023E3DBF55FFAF, 0x08F8F6CD57FEBF,
  0x23E3DB055FFAFF, 0x8F8F6C057FEBFD, 0x3E3DB025FFAFF5, 0xF8F6C087FEBFD5, 0xF1ED811FFD7FAA]

def gxbZySswKeys : List Nat := [
  0x0B9A7BFA7BBF, 0xA9C2D9AFEDF7, 0x15539EAFEFD7, 0x3619D1FFC7D7, 0x1F6865DFC7CF, 0x8B659CDEF7CD,
  0x5C07ADFAF7ED, 0xD39829FAFFAB, 0xD8A8AB2FFDFF, 0xB1A61EAFDDF7, 0x641E86CFCFF7, 0x72B874DFCFDD,
  0x8CE472DBD7DD, 0xE6473EDBF7AD, 0xEE9301FA7FAD, 0xFB11633FFCF7]

def hellotxtRun : List Nat := [
  0x105DFF00, 0x12BEE0FF, 0x4A70EC45, 0x415C660D, 0x47E6ADF1, 0x6C254B8F, 0xF0DC22F5, 0xC7202F5A, 0x2C0F063D,
  0x343AF210, 0xD9CBF5C3, 0x17C66382, 0xDA15EFC3, 0xE3DBE7CB, 0x341AB2B4, 0x7921F810, 0x9AF4D25F, 0x4CE68BBA]

theorem byteToBit_gxbZySsw : byteToBit gxbZySsw 64 = whole 0xE61E465A9ECACEEE :=
  byteToBit_eq_whole (by decide)

theorem isSchedule_gxbZySsw : IsSchedule 0xE61E465A9ECACEEE gxbZySswShifted gxbZySswKeys where
  chosen := by decide
  shifts := by decide
  subKeys := by decide

theorem keySchedule_gxbZySsw : keySchedule (byteToBit gxbZySsw 64) = gxbZySswKeys.map roundKey := by
  rw [byteToBit_gxbZySsw, isSchedule_gxbZySsw.keySchedule_eq rfl]

theorem byteToBit_hellotxt : byteToBit hellotxt 64 = whole 0x16A63636F62E1E2E :=
  byteToBit_eq_whole (by decide)

theorem split_hellotxt : split (pick 64 ip (byteToBit hellotxt 64)) = (half 0x105DFF00, half 0x12BEE0FF) := by
  rw [byteToBit_hellotxt]
  exact split_ip_whole (by decide)

theorem hellotxtRun_isTrace :
    IsTrace ofFile gxbZySswKeys hellotxtRun ∧ MissesMisprints gxbZySswKeys hellotxtRun := by
  decide

theorem spared_hellotxt : Spared (byteToBit gxbZySsw 64) (byteToBit hellotxt 64) where
  keyBits := by
    rw [byteToBit_gxbZySsw]
    exact isSchedule_gxbZySsw.keyBits (by decide)
  cells := hellotxtRun_isTrace.1.along rfl keySchedule_gxbZySsw split_hellotxt hellotxtRun_isTrace.2

theorem encrypt_eq_encipher_hellotxt :
    (encrypt (setKey initStatics gxbZySsw) hellotxt).1 = bitToHex (whole 0x096FB1CB5732B57E) := by
  rw [encrypt_eq_encipher initStatics gxbZySsw hellotxt spared_hellotxt,
    hellotxtRun_isTrace.1.encipher_eq rfl keySchedule_gxbZySsw split_hellotxt]
  exact congrArg bitToHex (pick_ipInverse_join (by decide))

end Hellotxt

end RichardTest.Des.Fips
