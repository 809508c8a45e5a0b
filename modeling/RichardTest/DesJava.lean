import RichardTest.Des

namespace RichardTest.DesJava

-- The cells and arrays are those of the model of the C file; tables and functions are DES3's own. A `byte[]`
-- of bits holds zeros and ones only.
open Des (Bits Chars bit)

-- A `char` of Java: sixteen bits, unsigned.
abbrev JChars (n : Nat) := Vector (BitVec 16) n

def ipTbl : JChars 64 := #v[
    58, 50, 42, 34, 26, 18, 10, 2, 60, 52, 44, 36, 28, 20, 12, 4,
    62, 54, 46, 38, 30, 22, 14, 6, 64, 56, 48, 40, 32, 24, 16, 8,
    57, 49, 41, 33, 25, 17, 9, 1, 59, 51, 43, 35, 27, 19, 11, 3,
    61, 53, 45, 37, 29, 21, 13, 5, 63, 55, 47, 39, 31, 23, 15, 7]

def iprTbl : JChars 64 := #v[
    40, 8, 48, 16, 56, 24, 64, 32, 39, 7, 47, 15, 55, 23, 63, 31,
    38, 6, 46, 14, 54, 22, 62, 30, 37, 5, 45, 13, 53, 21, 61, 29,
    36, 4, 44, 12, 52, 20, 60, 28, 35, 3, 43, 11, 51, 19, 59, 27,
    34, 2, 42, 10, 50, 18, 58, 26, 33, 1, 41, 9, 49, 17, 57, 25]

def eTbl : JChars 48 := #v[
    32, 1, 2, 3, 4, 5, 4, 5, 6, 7, 8, 9,
    8, 9, 10, 11, 12, 13, 12, 13, 14, 15, 16, 17,
    16, 17, 18, 19, 20, 21, 20, 21, 22, 23, 24, 25,
    24, 25, 26, 27, 28, 29, 28, 29, 30, 31, 32, 1]

def pc1Tbl : JChars 56 := #v[
    57, 49, 41, 33, 25, 17, 9, 1, 58, 50, 42, 34, 26, 18,
    10, 2, 59, 51, 43, 35, 27, 19, 11, 3, 60, 52, 44, 36,
    63, 55, 47, 39, 31, 23, 15, 7, 62, 54, 46, 38, 30, 22,
    14, 6, 61, 53, 45, 37, 29, 21, 13, 5, 28, 20, 12, 4]

def pc2Tbl : JChars 48 := #v[
    14, 17, 11, 24, 1, 5, 3, 28, 15, 6, 21, 10,
    23, 19, 12, 4, 26, 8, 16, 7, 27, 20, 13, 2,
    41, 52, 31, 37, 47, 55, 30, 40, 51, 34, 33, 48,
    44, 49, 39, 56, 34, 53, 46, 42, 50, 36, 29, 32]

def mvTbl : JChars 16 := #v[1, 1, 2, 2, 2, 2, 2, 2, 1, 2, 2, 2, 2, 2, 2, 1]

def pTbl : JChars 32 := #v[
    16, 7, 20, 21, 29, 12, 28, 17, 1, 15, 23, 26, 5, 18, 31, 10,
    2, 8, 24, 14, 32, 27, 3, 9, 19, 13, 30, 6, 22, 11, 4, 25]

-- An `int` each.
def sBox : Vector (Vector (Vector (BitVec 32) 16) 4) 8 := #v[
    #v[
      #v[14, 4, 13, 1, 2, 15, 11, 8, 3, 10, 6, 12, 5, 9, 0, 7],
      #v[0, 15, 7, 4, 14, 2, 13, 1, 10, 6, 12, 11, 9, 5, 3, 8],
      #v[4, 1, 14, 8, 13, 6, 2, 11, 15, 12, 9, 7, 3, 10, 5, 0],
      #v[15, 12, 8, 2, 4, 9, 1, 7, 5, 11, 3, 14, 10, 0, 6, 13]],
    #v[
      #v[15, 1, 8, 14, 6, 11, 3, 4, 9, 7, 2, 13, 12, 0, 5, 10],
      #v[3, 13, 4, 7, 15, 2, 8, 14, 12, 0, 1, 10, 6, 9, 11, 5],
      #v[0, 14, 7, 11, 10, 4, 13, 1, 5, 8, 12, 6, 9, 3, 2, 15],
      #v[13, 8, 10, 1, 3, 15, 4, 2, 11, 6, 7, 12, 0, 5, 14, 9]],
    #v[
      #v[10, 0, 9, 14, 6, 3, 15, 5, 1, 13, 12, 7, 11, 4, 2, 8],
      #v[13, 7, 0, 9, 3, 4, 6, 10, 2, 8, 5, 14, 12, 11, 15, 1],
      #v[13, 6, 4, 9, 8, 15, 3, 0, 11, 1, 2, 12, 5, 10, 14, 7],
      #v[1, 10, 13, 0, 6, 9, 8, 7, 4, 15, 14, 3, 11, 5, 2, 12]],
    #v[
      #v[7, 13, 14, 3, 0, 6, 9, 10, 1, 2, 8, 5, 11, 12, 4, 15],
      #v[13, 8, 11, 5, 6, 15, 0, 3, 4, 7, 2, 12, 1, 10, 14, 9],
      #v[10, 6, 9, 0, 12, 11, 7, 13, 15, 1, 3, 14, 5, 2, 8, 4],
      #v[3, 15, 0, 6, 10, 1, 13, 8, 9, 4, 5, 11, 12, 7, 2, 14]],
    #v[
      #v[2, 12, 4, 1, 7, 10, 11, 6, 8, 5, 3, 15, 13, 0, 14, 9],
      #v[14, 11, 2, 12, 4, 7, 13, 1, 5, 0, 15, 10, 3, 9, 8, 6],
      #v[4, 2, 1, 11, 10, 13, 7, 8, 15, 9, 12, 5, 6, 3, 0, 14],
      #v[11, 8, 12, 7, 1, 14, 2, 13, 6, 15, 0, 9, 10, 4, 5, 3]],
    #v[
      #v[12, 1, 10, 15, 9, 2, 6, 8, 0, 13, 3, 4, 14, 7, 5, 11],
      #v[10, 15, 4, 2, 7, 12, 0, 5, 6, 1, 13, 14, 0, 11, 3, 8],
      #v[9, 14, 15, 5, 2, 8, 12, 3, 7, 0, 4, 10, 1, 13, 11, 6],
      #v[4, 3, 2, 12, 9, 5, 15, 10, 11, 14, 1, 7, 6, 0, 8, 13]],
    #v[
      #v[4, 11, 2, 14, 15, 0, 8, 13, 3, 12, 9, 7, 5, 10, 6, 1],
      #v[13, 0, 11, 7, 4, 0, 1, 10, 14, 3, 5, 12, 2, 15, 8, 6],
      #v[1, 4, 11, 13, 12, 3, 7, 14, 10, 15, 6, 8, 0, 5, 9, 2],
      #v[6, 11, 13, 8, 1, 4, 10, 7, 9, 5, 0, 15, 14, 2, 3, 12]],
    #v[
      #v[13, 2, 8, 4, 6, 15, 11, 1, 10, 9, 3, 14, 5, 0, 12, 7],
      #v[1, 15, 13, 8, 10, 3, 7, 4, 12, 5, 6, 11, 0, 14, 9, 2],
      #v[7, 11, 4, 1, 9, 12, 14, 2, 0, 6, 10, 13, 15, 3, 5, 8],
      #v[2, 1, 14, 7, 4, 10, 8, 13, 15, 12, 9, 0, 3, 5, 6, 11]]]

-- `(byte)c` for each character.
def toBytes {n : Nat} (c : JChars n) : Chars n := c.map fun x => x.setWidth 8

def bitCpy {m n : Nat} (dataOut : Bits n) (dataIn : Bits m) (num : Nat) : Bits n :=
  Vector.ofFn fun i => if i.val < num then bit dataIn i.val else bit dataOut i.val

-- The loops that stand for a bit_cpy to a pointer with an offset.
def copyTo {m n : Nat} (dataOut : Bits n) (off : Nat) (dataIn : Bits m) (num : Nat) : Bits n :=
  Vector.ofFn fun i =>
    if off ≤ i.val ∧ i.val < off + num then bit dataIn (i.val - off) else bit dataOut i.val

-- `(c >> k) & 0x01`, where the byte is made an `int` first.
def byteBit (c : BitVec 8) (k : Nat) : Bool := ((c.signExtend 32).sshiftRight k).getLsbD 0

def byteToBit {m : Nat} (dataIn : Chars m) (num : Nat) : Bits num :=
  Vector.ofFn fun i => byteBit ((dataIn[i.val / 8]?).getD 0) (i.val % 8)

def hexDigit (b0 b1 b2 b3 : Bool) : BitVec 16 :=
  let v := b0.toNat + b1.toNat * 2 + b2.toNat * 4 + b3.toNat * 8
  if v % 16 > 9 then BitVec.ofNat 16 (v % 16 + 55) else BitVec.ofNat 16 (v % 16 + 48)

def bitToHex (dataIn : Bits 64) : JChars 16 :=
  Vector.ofFn fun i => hexDigit (bit dataIn (4 * i.val)) (bit dataIn (4 * i.val + 1))
    (bit dataIn (4 * i.val + 2)) (bit dataIn (4 * i.val + 3))

def hexBit (c : BitVec 16) (k : Nat) : Bool :=
  if c.toNat ≤ 57 then (((c.toNat : Int) - 48) >>> k) % 2 = 1 else (((c.toNat : Int) - 55) >>> k) % 2 = 1

def hexToBit (dataIn : JChars 16) : Bits 64 :=
  Vector.ofFn fun i => hexBit ((dataIn[i.val / 4]?).getD 0) (i.val % 4)

def byteOf (b : Nat → Bool) : BitVec 16 :=
  (List.range 8).foldl (fun acc j => acc ||| BitVec.ofNat 16 ((b j).toNat <<< j)) 0

def bitToByte (msgIn : Bits 64) : JChars 8 :=
  Vector.ofFn fun k => byteOf fun j => bit msgIn (8 * k.val + j)

def tblReplace {m n : Nat} (dataIn : Bits m) (table : JChars n) : Bits n :=
  Vector.ofFn fun i => bit dataIn (((table[i.val]?).getD 0).toNat - 1)

-- Changes its argument in place, on the first `len` cells.
def loopBit {n : Nat} (dataOut : Bits n) (mvStep len : Nat) : Bits n :=
  let tmp : Bits mvStep := bitCpy (Vector.replicate mvStep false) dataOut mvStep
  let dataOutMvStep : Bits (n - mvStep) := Vector.ofFn fun i => bit dataOut (i.val + mvStep)
  let dataOut := bitCpy dataOut dataOutMvStep (len - mvStep)
  copyTo dataOut (len - mvStep) tmp mvStep

-- A new array; the arguments stay as they are.
def xor {n : Nat} (msgOut msgIn : Bits n) : Bits n :=
  Vector.ofFn fun i => bit msgOut i.val ^^ bit msgIn i.val

def setKeyRound (keyBit : Bits 56) (i : Nat) : Bits 56 :=
  let keyBit := loopBit keyBit ((mvTbl[i]?).getD 0).toNat 28
  let keyBitR : Bits 28 := Vector.ofFn fun j => bit keyBit (j.val + 28)
  let keyBitR := loopBit keyBitR ((mvTbl[i]?).getD 0).toNat 28
  copyTo keyBit 28 keyBitR 28

def setKey (myKey : JChars 8) : Vector (Bits 48) 16 :=
  let keyBit := byteToBit (toBytes myKey) 64
  let keyBit := tblReplace keyBit pc1Tbl
  let subKey : Vector (Bits 48) 16 := Vector.replicate 16 (Vector.replicate 48 false)
  ((List.range 16).foldl (fun (p : Bits 56 × Vector (Bits 48) 16) i =>
    let keyBit := setKeyRound p.1 i
    (keyBit, p.2.setIfInBounds i (tblReplace keyBit pc2Tbl))) (keyBit, subKey)).2

-- Row and column of the S-box `i`.
def sRow (dataIn : Bits 48) (i : Nat) : Nat :=
  (bit dataIn (6 * i)).toNat * 2 + (bit dataIn (6 * i + 5)).toNat * 1

def sCol (dataIn : Bits 48) (i : Nat) : Nat :=
  (bit dataIn (6 * i + 1)).toNat * 8 + (bit dataIn (6 * i + 2)).toNat * 4 +
    (bit dataIn (6 * i + 3)).toNat * 2 + (bit dataIn (6 * i + 4)).toNat * 1

-- The rest of a row from the column on, as bytes; byte_to_bit reads the first of them.
def sEntry (i r c : Nat) : BitVec 8 :=
  (((((sBox[i]?).getD default)[r]?.getD default)[c]?).getD 0).setWidth 8

-- Every turn of the loop gives `data_out_tmp` a new array, so the last box is what comes back. The
-- argument data_out is only read, into an array that is dropped.
def sChange (_dataOut : Bits 32) (dataIn : Bits 48) : Option (Bits 4) :=
  (List.range 8).foldl (fun _ i => some (byteToBit #v[sEntry i (sRow dataIn i) (sCol dataIn i)] 4)) none

-- The result of s_change is not used.
def fChange (dataOut : Bits 32) (dataIn : Bits 48) : Bits 32 :=
  let msgE := tblReplace dataOut eTbl
  let msgE := xor msgE dataIn
  let _ := sChange dataOut msgE
  tblReplace dataOut pTbl

-- The local arrays of encrypt and decrypt.
structure Halves where
  msgBitL : Bits 32
  msgBitR : Bits 32
  tmp : Bits 32

def halves (msgBit : Bits 64) : Halves where
  msgBitL := Vector.ofFn fun i => bit msgBit i.val
  msgBitR := Vector.ofFn fun i => bit msgBit (32 + i.val)
  tmp := Vector.replicate 32 false

-- The results of f_change and xor are not used.
def encryptRound (h : Halves) (key : Bits 48) : Halves :=
  let h := { h with tmp := bitCpy h.tmp h.msgBitR 32 }
  let _ := fChange h.msgBitR key
  let _ := xor h.msgBitR h.msgBitL
  { h with msgBitL := bitCpy h.msgBitL h.tmp 32 }

-- The halves are copies of `msg_bit` and are not written back to it.
def encrypt (plainTxt : JChars 8) (subKey : Vector (Bits 48) 16) : JChars 16 :=
  let msgBit := byteToBit (toBytes plainTxt) 64
  let msgBit := tblReplace msgBit ipTbl
  let _ := subKey.toList.foldl encryptRound (halves msgBit)
  let msgBit := tblReplace msgBit iprTbl
  bitToHex msgBit

def decryptRound (h : Halves) (key : Bits 48) : Halves :=
  let h := { h with tmp := bitCpy h.tmp h.msgBitL 32 }
  let _ := fChange h.msgBitL key
  let _ := xor h.msgBitL h.msgBitR
  { h with msgBitR := bitCpy h.msgBitR h.tmp 32 }

def decrypt (cypher : JChars 16) (decSubKey : Vector (Bits 48) 16) : JChars 8 :=
  let msgBit := hexToBit cypher
  let msgBit := tblReplace msgBit ipTbl
  let _ := decSubKey.toList.reverse.foldl decryptRound (halves msgBit)
  let msgBit := tblReplace msgBit iprTbl
  bitToByte msgBit

end RichardTest.DesJava
