import Mathlib.Logic.Function.Iterate

namespace RichardTest.RsaJava

-- Java's `int`, `long` and `char`. `%` on the signed types is `srem`.
abbrev JInt := BitVec 32
abbrev JLong := BitVec 64
abbrev JChar := BitVec 16

def P : JInt := 97#32

def Q : JInt := 43#32

-- The loop of is_co_prime_number, up to `num2 == 0`.
def coPrimeLoop (num1 num2 : JLong) : JLong :=
  if num2 = 0#64 then num1 else coPrimeLoop num2 (num1.srem num2)
termination_by num2.toInt.natAbs
decreasing_by
  rename_i hne
  rw [BitVec.toInt_srem, Int.natAbs_tmod]
  exact Nat.mod_lt _ (Int.natAbs_pos.mpr fun h => hne (BitVec.eq_of_toInt_eq h))

def isCoPrimeNumber (p q : JLong) : Bool :=
  if p.slt q then coPrimeLoop q p = 1#64 else coPrimeLoop p q = 1#64

def isPrime (s : JInt) : Bool :=
  (List.range' 2 (s.toInt.toNat - 2)).all fun i => s.srem (BitVec.ofNat 32 i) ≠ 0#32

-- The tests of main before it generates the keys.
def mainChecks (P Q : JInt) : Except String Unit :=
  let p := toString P.toInt
  let q := toString Q.toInt
  if ¬isPrime P then
    .error ("p=" ++ p ++ " 不是素数(p=" ++ p ++ " is not a prime)")
  else if ¬isPrime Q then
    .error ("q=" ++ q ++ " 不是素数(q=" ++ q ++ " is not a prime)")
  else if ¬isCoPrimeNumber (P.signExtend 64) (Q.signExtend 64) then
    .error (p ++ " 和 " ++ q ++ " 互为质数不成立(" ++ p ++ " and " ++ q ++ " is not with a co-prime relation)")
  else .ok ()

-- `e * d` is a product of ints. `t` comes from an int, so that `d` reaches it.
def getPrivateKey (e : JInt) (t : JLong) : Except String JInt :=
  match (List.range t.toInt.toNat).find? fun d => ((e * BitVec.ofNat 32 d).signExtend 64).srem t = 1#64 with
  | some d => .ok (BitVec.ofNat 32 d)
  | none => .error "获取私钥发生错误(get_private_key_err)"

-- The list holds what `random.nextInt()` will return; without a suitable number the loop goes on.
def getRandom (p q : JInt) : List JInt → Option JInt
  | [] => none
  | r :: rs =>
      let t := (p - 1#32) * (q - 1#32)
      if r.slt 0#32 then getRandom p q rs
      else
        let e := r.srem t
        if isCoPrimeNumber (e.signExtend 64) (t.signExtend 64) then some e else getRandom p q rs

-- The keys that main generates.
def generateKeys (P Q : JInt) (rs : List JInt) : Option (Except String (JInt × JInt)) :=
  match mainChecks P Q with
  | .error message => some (.error message)
  | .ok () =>
      (getRandom P Q rs).map fun e =>
        (getPrivateKey e (((P - 1#32) * (Q - 1#32)).signExtend 64)).map fun d => (e, d)

-- `flag` behind the inner loop of encrypt_dt.
def encryptFlag (e n : JInt) (c : JChar) : JInt :=
  (fun flag : JInt => (flag * c.setWidth 32).srem n)^[e.toInt.toNat] 1#32

def encryptDt (e n : JInt) (plainTxt : List JChar) : List JInt := plainTxt.map (encryptFlag e n)

-- In decrypt_dt the products are taken in longs.
def decryptFlag (d n c : JInt) : JLong :=
  (fun flag : JLong => (flag * c.signExtend 64).srem (n.signExtend 64))^[d.toInt.toNat] 1#64

def decryptDt (d n : JInt) (cypher : List JInt) : List JChar :=
  cypher.map fun c => (decryptFlag d n c).setWidth 16

abbrev JByte := BitVec 8

def getBytes (a : JInt) : List JByte :=
  [(a.sshiftRight 24 &&& 0xFF#32).setWidth 8, (a.sshiftRight 16 &&& 0xFF#32).setWidth 8,
    (a.sshiftRight 8 &&& 0xFF#32).setWidth 8, (a &&& 0xFF#32).setWidth 8]

def getCharOffset (i : Nat) : Nat := if i < 10 then 0x30 else 0x37

def int2char (i : Nat) : Char := Char.ofNat (i + getCharOffset i)

-- The mask takes the sign off the byte.
def getHexByte (b : JByte) : List Char :=
  if b = 0#8 then ['0', '0']
  else
    let a := b.toNat
    [int2char (a / 16), int2char (a % 16)]

def getHex (b : List JByte) : List Char := b.flatMap getHexByte

-- The text that main prints for the cypher.
def cypherHex (cypher : List JInt) : List Char := getHex (cypher.flatMap getBytes)

end RichardTest.RsaJava
