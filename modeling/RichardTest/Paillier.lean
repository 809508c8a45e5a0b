import Mathlib.Data.Int.GCD
import Mathlib.Data.Nat.Digits.Defs

namespace RichardTest.Paillier

-- The operators + - * / % of BigNum.cpp are exact integer arithmetic here.

-- operator!= answers 0 for numbers of different sign.
def notEqual (A B : Int) : Bool := if A < 0 ↔ B < 0 then A ≠ B else false

-- The 32-bit limbs of a magnitude, lowest first; zero has one limb.
def limbsWithin : Nat → Nat → List Nat
  | 0, _ => []
  | fuel + 1, A => if A < 2 ^ 32 then [A] else A % 2 ^ 32 :: limbsWithin fuel (A / 2 ^ 32)

def limbs (A : Int) : List Nat := limbsWithin (A.natAbs + 1) A.natAbs

-- `for (j = 0; j < 32; j++)` of power_mod, with `n` rounds left.
def bitLoop (B : Int) (limb : Nat) : Nat → Nat → Int → Int → Int × Int
  | 0, _, X, N => (X, N)
  | n + 1, j, X, N =>
      let X := if limb.testBit j then (X * N) % B else X
      bitLoop B limb n (j + 1) X ((N * N) % B)

def limbLoop (B : Int) : List Nat → Int → Int → Int × Int
  | [], X, N => (X, N)
  | limb :: rest, X, N =>
      let (X, N) := bitLoop B limb 32 0 X N
      limbLoop B rest X N

def powerMod (this A B : Int) : Int := (limbLoop B (limbs A) 1 (this % B)).1

-- The loop of ex_euclid. `B` decreases, so `b + 1` tests are enough.
def exEuclidLoop : Nat → Int → Int → Int → Int → Option Int
  | 0, _, _, _, _ => none
  | fuel + 1, X, U, A, B =>
      if notEqual B 0 then
        let Q := A / B
        let R := A % B
        exEuclidLoop fuel U (X - Q * U) B R
      else some X

def exEuclid (a b : Int) : Option Int := do
  let X ← exEuclidLoop (b.natAbs + 1) 1 0 a b
  some (if X < 0 then X + b else X)

-- The member function: `*this` after the call and what it returns.
def exEuclidMember (a b : Int) : Option (Int × Int) := do
  let X ← exEuclid a b
  let this := X
  some (this, this)

-- The do-while loop of Gcd; a division by zero does not return.
def gcdLoop : Nat → Int → Int → Option Int
  | 0, _, _ => none
  | fuel + 1, a, b =>
      if b = 0 then none
      else
        let i := a % b
        if notEqual i 0 then gcdLoop fuel b i else some b

def gcd (a b : Int) : Option Int := gcdLoop b.natAbs a b

def lcm (a b : Int) : Option Int := do
  let i ← gcd a b
  some (a * b / i)

-- `n` is the global modulus.
def lFunction (n a : Int) : Int := (a - 1) / n

-- main: the ciphertext of `middle` under the public key `n`, `g` and the random `r`.
def encrypt (n g r middle : Int) : Int :=
  let N := n * n
  let temp1 := powerMod g middle N
  let temp2 := powerMod r n N
  powerMod (temp1 * temp2) 1 N

-- main: the decryption of `b`, from the key generation on.
def decrypt (p q g b : Int) : Option Int := do
  let n := p * q
  let N := n * n
  let priKey ← lcm (p - 1) (q - 1)
  let u ← exEuclid (lFunction n (powerMod g priKey N)) n
  let c := lFunction n (powerMod b priKey N) * u
  some (powerMod c 1 n)

end RichardTest.Paillier
