import RichardTest.Feistel

namespace RichardTest.Des

-- A `bool` array of `n` cells.
abbrev Bits (n : Nat) := Vector Bool n

-- A `char` of C: eight bits, signed in comparisons and shifts.
abbrev Chars (n : Nat) := Vector (BitVec 8) n

def bit {n : Nat} (v : Bits n) (i : Nat) : Bool := (v[i]?).getD false

def ipTbl : Vector Nat 64 := #v[
    58, 50, 42, 34, 26, 18, 10, 2, 60, 52, 44, 36, 28, 20, 12, 4,
    62, 54, 46, 38, 30, 22, 14, 6, 64, 56, 48, 40, 32, 24, 16, 8,
    57, 49, 41, 33, 25, 17, 9, 1, 59, 51, 43, 35, 27, 19, 11, 3,
    61, 53, 45, 37, 29, 21, 13, 5, 63, 55, 47, 39, 31, 23, 15, 7]

def iprTbl : Vector Nat 64 := #v[
    40, 8, 48, 16, 56, 24, 64, 32, 39, 7, 47, 15, 55, 23, 63, 31,
    38, 6, 46, 14, 54, 22, 62, 30, 37, 5, 45, 13, 53, 21, 61, 29,
    36, 4, 44, 12, 52, 20, 60, 28, 35, 3, 43, 11, 51, 19, 59, 27,
    34, 2, 42, 10, 50, 18, 58, 26, 33, 1, 41, 9, 49, 17, 57, 25]

def eTbl : Vector Nat 48 := #v[
    32, 1, 2, 3, 4, 5, 4, 5, 6, 7, 8, 9,
    8, 9, 10, 11, 12, 13, 12, 13, 14, 15, 16, 17,
    16, 17, 18, 19, 20, 21, 20, 21, 22, 23, 24, 25,
    24, 25, 26, 27, 28, 29, 28, 29, 30, 31, 32, 1]

def pc1Tbl : Vector Nat 56 := #v[
    57, 49, 41, 33, 25, 17, 9, 1, 58, 50, 42, 34, 26, 18,
    10, 2, 59, 51, 43, 35, 27, 19, 11, 3, 60, 52, 44, 36,
    63, 55, 47, 39, 31, 23, 15, 7, 62, 54, 46, 38, 30, 22,
    14, 6, 61, 53, 45, 37, 29, 21, 13, 5, 28, 20, 12, 4]

-- The 34th entry is 34, as the 41st is.
def pc2Tbl : Vector Nat 48 := #v[
    14, 17, 11, 24, 1, 5, 3, 28, 15, 6, 21, 10,
    23, 19, 12, 4, 26, 8, 16, 7, 27, 20, 13, 2,
    41, 52, 31, 37, 47, 55, 30, 40, 51, 34, 33, 48,
    44, 49, 39, 56, 34, 53, 46, 42, 50, 36, 29, 32]

def mvTbl : Vector Nat 16 := #v[1, 1, 2, 2, 2, 2, 2, 2, 1, 2, 2, 2, 2, 2, 2, 1]

def pTbl : Vector Nat 32 := #v[
    16, 7, 20, 21, 29, 12, 28, 17, 1, 15, 23, 26, 5, 18, 31, 10,
    2, 8, 24, 14, 32, 27, 3, 9, 19, 13, 30, 6, 22, 11, 4, 25]

def sBox : Vector (Vector (Vector (BitVec 8) 16) 4) 8 := #v[
    #v[
      #v[14, 4, 13, 1, 2, 15, 11, 8, 3, 10, 6, 12, 5, 9, 0, 7],
      #v[0, 15, 7, 4, 14, 2, 13, 1, 10, 6, 12, 11, 9, 5, 3, 8],
      #v[4, 1, 14, 8, 13, 6, 2, 11, 15, 12, 9, 7, 3, 10, 5, 0],
      #v[15, 12, 8, 2, 4, 9, 1, 7, 5, 11, 3, 14, 10, 0, 6, 13]],
    #v[
      #v[15, 1, 8, 14, 6, 11, 3, 4, 9, 7, 2, 13, 12, 0, 5, 10],
      #v[3, 13, 4, 7, 15, 2, 8, 14, 12, 0, 1, 10, 6, 9, 11, 5],
      #v[0, 14, 7, 11, 10, 4, 13, 1, 5, 8, 12, 6, 9, 3, 2, 15],
      #v[13, 8, 10, 1, 3, 15, 4, 2, 11, 6, 7, 12, 0, 5, 14, 9]],
    #v[
      #v[10, 0, 9, 14, 6, 3, 15, 5, 1, 13, 12, 7, 11, 4, 2, 8],
      #v[13, 7, 0, 9, 3, 4, 6, 10, 2, 8, 5, 14, 12, 11, 15, 1],
      #v[13, 6, 4, 9, 8, 15, 3, 0, 11, 1, 2, 12, 5, 10, 14, 7],
      #v[1, 10, 13, 0, 6, 9, 8, 7, 4, 15, 14, 3, 11, 5, 2, 12]],
    #v[
      #v[7, 13, 14, 3, 0, 6, 9, 10, 1, 2, 8, 5, 11, 12, 4, 15],
      #v[13, 8, 11, 5, 6, 15, 0, 3, 4, 7, 2, 12, 1, 10, 14, 9],
      #v[10, 6, 9, 0, 12, 11, 7, 13, 15, 1, 3, 14, 5, 2, 8, 4],
      #v[3, 15, 0, 6, 10, 1, 13, 8, 9, 4, 5, 11, 12, 7, 2, 14]],
    #v[
      #v[2, 12, 4, 1, 7, 10, 11, 6, 8, 5, 3, 15, 13, 0, 14, 9],
      #v[14, 11, 2, 12, 4, 7, 13, 1, 5, 0, 15, 10, 3, 9, 8, 6],
      #v[4, 2, 1, 11, 10, 13, 7, 8, 15, 9, 12, 5, 6, 3, 0, 14],
      #v[11, 8, 12, 7, 1, 14, 2, 13, 6, 15, 0, 9, 10, 4, 5, 3]],
    #v[
      #v[12, 1, 10, 15, 9, 2, 6, 8, 0, 13, 3, 4, 14, 7, 5, 11],
      #v[10, 15, 4, 2, 7, 12, 0, 5, 6, 1, 13, 14, 0, 11, 3, 8],
      #v[9, 14, 15, 5, 2, 8, 12, 3, 7, 0, 4, 10, 1, 13, 11, 6],
      #v[4, 3, 2, 12, 9, 5, 15, 10, 11, 14, 1, 7, 6, 0, 8, 13]],
    #v[
      #v[4, 11, 2, 14, 15, 0, 8, 13, 3, 12, 9, 7, 5, 10, 6, 1],
      #v[13, 0, 11, 7, 4, 0, 1, 10, 14, 3, 5, 12, 2, 15, 8, 6],
      #v[1, 4, 11, 13, 12, 3, 7, 14, 10, 15, 6, 8, 0, 5, 9, 2],
      #v[6, 11, 13, 8, 1, 4, 10, 7, 9, 5, 0, 15, 14, 2, 3, 12]],
    #v[
      #v[13, 2, 8, 4, 6, 15, 11, 1, 10, 9, 3, 14, 5, 0, 12, 7],
      #v[1, 15, 13, 8, 10, 3, 7, 4, 12, 5, 6, 11, 0, 14, 9, 2],
      #v[7, 11, 4, 1, 9, 12, 14, 2, 0, 6, 10, 13, 15, 3, 5, 8],
      #v[2, 1, 14, 7, 4, 10, 8, 13, 15, 12, 9, 0, 3, 5, 6, 11]]]

-- The static arrays of the file. They keep their contents from one call to the next.
structure Statics where
  subKey : Vector (Bits 48) 16
  -- `tmp` of tbl_replace and of loop_bit
  replaceTmp : Bits 256
  loopTmp : Bits 256
  keyBit : Bits 64
  msgE : Bits 48
  -- `msg_bit` and `tmp` of encrypt and of decrypt
  encryptBit : Bits 64
  encryptTmp : Bits 32
  decryptBit : Bits 64
  decryptTmp : Bits 32

-- A pointer into an array is the array and an offset; `window` is what a callee sees through it.
def window {n : Nat} (v : Bits n) (off len : Nat) : Bits len := Vector.ofFn fun i => bit v (off + i.val)

-- `bit_cpy(data_out + off, data_in, num)`. Where the source overlaps the target it lies above it, and
-- the loop runs upwards.
def bitCpy {m n : Nat} (dataOut : Bits n) (off : Nat) (dataIn : Bits m) (num : Nat) : Bits n :=
  Vector.ofFn fun i =>
    if off ≤ i.val ∧ i.val < off + num then bit dataIn (i.val - off) else bit dataOut i.val

-- `(c >> k) & 0x01`.
def byteBit (c : BitVec 8) (k : Nat) : Bool := (c.sshiftRight k).getLsbD 0

def byteToBit {m : Nat} (dataIn : Chars m) (num : Nat) : Bits num :=
  Vector.ofFn fun i => byteBit ((dataIn[i.val / 8]?).getD 0) (i.val % 8)

-- The hex digit of four bits, lowest first.
def hexDigit (b0 b1 b2 b3 : Bool) : BitVec 8 :=
  let v := b0.toNat + b1.toNat * 2 + b2.toNat * 4 + b3.toNat * 8
  if v % 16 > 9 then BitVec.ofNat 8 (v % 16 + 55) else BitVec.ofNat 8 (v % 16 + 48)

def bitToHex (dataIn : Bits 64) : Chars 16 :=
  Vector.ofFn fun i => hexDigit (bit dataIn (4 * i.val)) (bit dataIn (4 * i.val + 1))
    (bit dataIn (4 * i.val + 2)) (bit dataIn (4 * i.val + 3))

-- Bit `k` of a hex digit: the character less '0' or less '7', shifted as an `int`.
def hexBit (c : BitVec 8) (k : Nat) : Bool :=
  if c.toInt ≤ 57 then ((c.toInt - 48) >>> k) % 2 = 1 else ((c.toInt - 55) >>> k) % 2 = 1

def hexToBit (dataIn : Chars 16) : Bits 64 :=
  Vector.ofFn fun i => hexBit ((dataIn[i.val / 4]?).getD 0) (i.val % 4)

-- `my_msg[i / 8] |= msg_in[i] << (i % 8)` over the eight bits of one byte.
def byteOf (b : Nat → Bool) : BitVec 8 :=
  (List.range 8).foldl (fun acc j => acc ||| BitVec.ofNat 8 ((b j).toNat <<< j)) 0

def bitToByte (msgIn : Bits 64) : Chars 8 :=
  Vector.ofFn fun k => byteOf fun j => bit msgIn (8 * k.val + j)

def tblReplace {m n : Nat} (s : Statics) (dataIn : Bits m) (table : Vector Nat n) :
    Bits n × Statics :=
  let tmp : Bits 256 := Vector.ofFn fun i =>
    if i.val < n then bit dataIn ((table[i.val]?).getD 0 - 1) else bit s.replaceTmp i.val
  (window tmp 0 n, { s with replaceTmp := tmp })

def loopBit (s : Statics) (dataOut : Bits 28) (mvStep : Nat) : Bits 28 × Statics :=
  let tmp := bitCpy s.loopTmp 0 dataOut mvStep
  let dataOut := bitCpy dataOut 0 (window dataOut mvStep (28 - mvStep)) (28 - mvStep)
  let dataOut := bitCpy dataOut (28 - mvStep) tmp mvStep
  (dataOut, { s with loopTmp := tmp })

def xor {n : Nat} (msgOut msgIn : Bits n) : Bits n :=
  Vector.ofFn fun i => bit msgOut i.val ^^ bit msgIn i.val

-- One round of the key schedule.
def setKeyRound (s : Statics) (i : Nat) : Statics :=
  let (l, s) := loopBit s (window s.keyBit 0 28) ((mvTbl[i]?).getD 0)
  let s := { s with keyBit := bitCpy s.keyBit 0 l 28 }
  let (r, s) := loopBit s (window s.keyBit 28 28) ((mvTbl[i]?).getD 0)
  let s := { s with keyBit := bitCpy s.keyBit 28 r 28 }
  let (k, s) := tblReplace s s.keyBit pc2Tbl
  { s with subKey := s.subKey.setIfInBounds i k }

def setKey (s : Statics) (myKey : Chars 8) : Statics :=
  let s := { s with keyBit := byteToBit myKey 64 }
  let (k, s) := tblReplace s s.keyBit pc1Tbl
  let s := { s with keyBit := bitCpy s.keyBit 0 k 56 }
  (List.range 16).foldl setKeyRound s

-- Row and column of the S-box `i`.
def sRow (dataIn : Bits 48) (i : Nat) : Nat :=
  (bit dataIn (6 * i)).toNat * 2 + (bit dataIn (6 * i + 5)).toNat * 1

def sCol (dataIn : Bits 48) (i : Nat) : Nat :=
  (bit dataIn (6 * i + 1)).toNat * 8 + (bit dataIn (6 * i + 2)).toNat * 4 +
    (bit dataIn (6 * i + 3)).toNat * 2 + (bit dataIn (6 * i + 4)).toNat * 1

def sEntry (i r c : Nat) : BitVec 8 :=
  ((((sBox[i]?).getD default)[r]?.getD default)[c]?).getD 0

def sChange (dataIn : Bits 48) : Bits 32 :=
  Vector.ofFn fun i =>
    let entry := sEntry (i.val / 4) (sRow dataIn (i.val / 4)) (sCol dataIn (i.val / 4))
    bit (byteToBit #v[entry] 4) (i.val % 4)

def fChange (s : Statics) (dataOut : Bits 32) (dataIn : Bits 48) : Bits 32 × Statics :=
  let (msgE, s) := tblReplace s dataOut eTbl
  let msgE := xor msgE dataIn
  let s := { s with msgE := msgE }
  let dataOut := sChange msgE
  tblReplace s dataOut pTbl

-- One round of encrypt on the halves of `msg_bit`.
def encryptRound (s : Statics) (key : Bits 48) : Statics :=
  let s := { s with encryptTmp := bitCpy s.encryptTmp 0 (window s.encryptBit 32 32) 32 }
  let (r, s) := fChange s (window s.encryptBit 32 32) key
  let s := { s with encryptBit := bitCpy s.encryptBit 32 r 32 }
  let r := xor (window s.encryptBit 32 32) (window s.encryptBit 0 32)
  let s := { s with encryptBit := bitCpy s.encryptBit 32 r 32 }
  { s with encryptBit := bitCpy s.encryptBit 0 s.encryptTmp 32 }

def encrypt (s : Statics) (plain : Chars 8) : Chars 16 × Statics :=
  let s := { s with encryptBit := byteToBit plain 64 }
  let (b, s) := tblReplace s s.encryptBit ipTbl
  let s := { s with encryptBit := b }
  let s := s.subKey.toList.foldl encryptRound s
  let (b, s) := tblReplace s s.encryptBit iprTbl
  let s := { s with encryptBit := b }
  (bitToHex s.encryptBit, s)

-- One round of decrypt, with the halves in each other's place.
def decryptRound (s : Statics) (key : Bits 48) : Statics :=
  let s := { s with decryptTmp := bitCpy s.decryptTmp 0 (window s.decryptBit 0 32) 32 }
  let (l, s) := fChange s (window s.decryptBit 0 32) key
  let s := { s with decryptBit := bitCpy s.decryptBit 0 l 32 }
  let l := xor (window s.decryptBit 0 32) (window s.decryptBit 32 32)
  let s := { s with decryptBit := bitCpy s.decryptBit 0 l 32 }
  { s with decryptBit := bitCpy s.decryptBit 32 s.decryptTmp 32 }

def decrypt (s : Statics) (cypher : Chars 16) : Chars 8 × Statics :=
  let s := { s with decryptBit := hexToBit cypher }
  let (b, s) := tblReplace s s.decryptBit ipTbl
  let s := { s with decryptBit := b }
  let s := s.subKey.toList.reverse.foldl decryptRound s
  let (b, s) := tblReplace s s.decryptBit iprTbl
  let s := { s with decryptBit := b }
  (bitToByte s.decryptBit, s)

end RichardTest.Des
