import Mathlib.Logic.Function.Iterate

namespace RichardTest.RsaDemo

-- `unsigned int`, with the wrap of its products.
abbrev UInt := BitVec 32

-- A plain `char`, which is signed.
abbrev SChar := BitVec 8

def getComDiv (p q : UInt) : UInt :=
  let a := if p > q then p else q
  let b := if p > q then q else p
  if b = 0#32 then a else getComDiv b (a % b)
termination_by (if p > q then q else p).toNat
decreasing_by
  rename_i hb
  have hlt : a % b < b := BitVec.umod_lt a ((BitVec.pos_iff_ne_zero b).mpr hb)
  rw [if_pos hlt]
  exact hlt

-- `return -1` behind the loop.
def privateKeyErr : UInt := -1#32

def getPrivateKey (e t : UInt) : UInt :=
  match (List.range t.toNat).find? fun d => e * BitVec.ofNat 32 d % t = 1#32 with
  | some d => BitVec.ofNat 32 d
  | none => privateKeyErr

-- `flag` after `j` rounds of the inner loops. A product is reduced to 32 bits before it is reduced by `n`.
def flagAfter (m n : UInt) (j : Nat) : UInt := (fun flag => flag * m % n)^[j] 1#32

def encryptDt (e n : UInt) (plain : List SChar) : List UInt :=
  plain.map fun c => flagAfter (c.signExtend 32) n e.toNat

def decryptDt (d n : UInt) (cypher : List UInt) : List SChar :=
  cypher.map fun c => (flagAfter c n d.toNat).setWidth 8

end RichardTest.RsaDemo
