import Mathlib.Data.List.Basic

namespace RichardTest.RsaAlgorithm

-- `int`, and a plain `char`, which is signed.
abbrev CInt := BitVec 32
abbrev SChar := BitVec 8

def SIZE : Nat := 20

-- A product of ints that does not fit an int is undefined.
def mulInt (a b : CInt) : Option CInt := if a.smulOverflow b then none else some (a * b)

def remInt (a b : CInt) : Option CInt :=
  if b = 0#32 ∨ a = BitVec.intMin 32 ∧ b = -1#32 then none else some (a.srem b)

-- `flag` after `j` rounds of the inner loop of encrypt_dt.
def flagAfter (n plainNum : CInt) : Nat → Option CInt
  | 0 => some 1#32
  | j + 1 => do
      let flag ← flagAfter n plainNum j
      remInt (← mulInt flag plainNum) n

-- `plain_txt` is the memory from that address on.
def encryptDt (e n : CInt) (plainTxt : List SChar) : Option (List CInt) :=
  if SIZE ≤ plainTxt.length then
    ((plainTxt.take SIZE).map (BitVec.signExtend 32)).mapM fun plainNum => flagAfter n plainNum e.toInt.toNat
  else none

end RichardTest.RsaAlgorithm
