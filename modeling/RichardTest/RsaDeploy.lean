import RichardTest.RsaJava
import Mathlib.Algebra.Ring.Int.Defs

namespace RichardTest.RsaDeploy

open RichardTest.RsaJava (JInt)

def SIZE : Nat := 20

def isSpace (c : Char) : Bool :=
  c = ' ' || c = '\t' || c = '\n' || c = '\x0b' || c = '\x0c' || c = '\r'

def hexDigit? (c : Char) : Option Nat :=
  if '0' ≤ c ∧ c ≤ '9' then some (c.toNat - 48)
  else if 'A' ≤ c ∧ c ≤ 'F' then some (c.toNat - 55)
  else if 'a' ≤ c ∧ c ≤ 'f' then some (c.toNat - 87)
  else none

-- The digits in front of the first character that is none. Beyond the readable memory it faults.
def digitRun : List Char → Option (List Nat)
  | [] => none
  | c :: s =>
      match hexDigit? c with
      | some d => (digitRun s).map (d :: ·)
      | none => some []

def digitsValue (ds : List Nat) : Nat := ds.foldl (fun v d => v * 16 + d) 0

-- A value that does not fit into a `long` becomes the nearest one that does.
def toLong (x : Int) : Int := max (-2 ^ 63) (min x (2 ^ 63 - 1))

def skipHexPrefix : List Char → List Char
  | '0' :: x :: c :: s => if (x = 'x' ∨ x = 'X') ∧ (hexDigit? c).isSome then c :: s else '0' :: x :: c :: s
  | s => s

-- `strtol(s, NULL, 16)`, for the memory from `s` on.
def strtol (s : List Char) : Option Int :=
  match s.dropWhile isSpace with
  | '-' :: s => (digitRun (skipHexPrefix s)).map fun ds => toLong (-(digitsValue ds : Int))
  | '+' :: s => (digitRun (skipHexPrefix s)).map fun ds => toLong (digitsValue ds)
  | s => (digitRun (skipHexPrefix s)).map fun ds => toLong (digitsValue ds)

-- `strncpy(int_str, s, 8)` for the characters of a string.
def strncpyStep (s : List Char) : List Char := s.take 8 ++ List.replicate (8 - s.length) '\x00'

-- One round of the loop in main. `behind` is the memory behind int_str, which has room for the 8 digits only.
def parseInt (cypherHex : List Char) (behind : List Char) (i : Nat) : Option JInt :=
  (strtol (strncpyStep (cypherHex.drop (i * 8)) ++ behind)).map (BitVec.ofInt 32)

-- `behind i` is what the memory holds in round `i`.
def parseLoop (cypherHex : List Char) (behind : Nat → List Char) : (rounds i : Nat) → Option (List JInt)
  | 0, _ => some []
  | rounds + 1, i => do
      let x ← parseInt cypherHex (behind i) i
      let xs ← parseLoop cypherHex behind rounds (i + 1)
      some (x :: xs)

def intCypher (cypherHex : List Char) (behind : Nat → List Char) : Option (List JInt) :=
  parseLoop cypherHex behind SIZE 0

def D : JInt := 3989#32

def N : JInt := 4171#32

-- `flag` behind the inner loop of decrypt_dt, an `unsigned long`.
def decryptFlag (d n c : JInt) : BitVec 64 :=
  (fun flag : BitVec 64 => flag * c.signExtend 64 % n.signExtend 64)^[d.toInt.toNat] 1#64

def decryptDt (d n : JInt) (cypher : List JInt) : List (BitVec 8) :=
  cypher.map fun c => (decryptFlag d n c).setWidth 8

def dec (cypher : List JInt) : List (BitVec 8) := decryptDt D N cypher

-- The characters of dec_str. There is no end behind them.
def main (cypherHex : List Char) (behind : Nat → List Char) : Option (List (BitVec 8)) :=
  (intCypher cypherHex behind).map dec

end RichardTest.RsaDeploy
