import RichardTest.Paillier

namespace RichardTest.RabinMiller

open Paillier

-- `BigNum::Rabin_Miller`. The operators of BigNum.cpp are exact integer arithmetic here.

-- `while (!(m.array[0] & 1)) { r++; m = m / E; }`. For a positive `m` as many tests as `m` says are enough.
def splitLoop : Nat → Nat → Int → Option (Nat × Int)
  | 0, _, _ => none
  | fuel + 1, r, m => if m % 2 = 0 then splitLoop fuel (r + 1) (m / 2) else some (r, m)

-- `r` and `m` with X - 1 = 2^r * m.
def split (X : Int) : Option (Nat × Int) := splitLoop (X - 1).natAbs 0 (X - 1)

-- `O.Compare(Y) == 2`: Compare looks at the magnitudes.
def isZero (Y : Int) : Bool := Y.natAbs = 0

-- `for (int j = 0; j < r; j++)`, with `n` rounds left; the result is `flag`.
def squareLoop (X : Int) : Nat → Int → Bool
  | 0, _ => false
  | n + 1, Y =>
      let Y := (Y * Y) % X
      if isZero ((Y + 1) % X) then true else squareLoop X n Y

-- One pass of the loop over the bases: true where it continues with the next base, false where the function
-- returns 0.
def witnessRound (X : Int) (r : Nat) (m A : Int) : Bool :=
  let Y := powerMod A m X
  if isZero ((Y - 1) % X) || isZero ((Y + 1) % X) then true else squareLoop X r Y

end RichardTest.RabinMiller
