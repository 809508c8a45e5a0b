import RichardTest.BigNumC.Lemmas

namespace RichardTest.QSort

open BigNumC (int32)

-- An access of a partition to a cell outside of `a[left..right]`, or outside of the array, is a failure.
def read (left right : Int) (a : List Int) (i : Int) : Option Int :=
  if left ≤ i ∧ i ≤ right ∧ 0 ≤ i then a[i.toNat]? else none

def write (left right : Int) (a : List Int) (i x : Int) : Option (List Int) :=
  if left ≤ i ∧ i ≤ right ∧ 0 ≤ i ∧ i.toNat < a.length then some (a.set i.toNat x) else none

-- The variables of the partition, and the counter `round` of the file, which is only printed: it may wrap, as it does
-- on the machine, and nothing that is sorted or read depends on it.
structure State where
  a : List Int
  i : Int
  j : Int
  round : Int
deriving DecidableEq

section Partition

variable (left right key : Int)

-- `while (i < j && key <= a[j])`. A loop that has not ended after `fuel` tests is a failure.
def downLoop : (fuel : Nat) → State → Option State
  | 0, _ => none
  | fuel + 1, s =>
      if s.i < s.j then do
        if key ≤ (← read left right s.a s.j) then
          downLoop fuel { s with round := int32 (s.round + 1), j := int32 (s.j - 1) }
        else return s
      else return s

-- `while (i < j && key >= a[i])`.
def upLoop : (fuel : Nat) → State → Option State
  | 0, _ => none
  | fuel + 1, s =>
      if s.i < s.j then do
        if key ≥ (← read left right s.a s.i) then
          upLoop fuel { s with i := int32 (s.i + 1), round := int32 (s.round + 1) }
        else return s
      else return s

-- The body of `while (i < j)`.
def partRound (fuel : Nat) (s : State) : Option State := do
  let s ← downLoop left right key fuel s
  let a ← write left right s.a s.i (← read left right s.a s.j)
  let s ← upLoop left right key fuel { s with a }
  let a ← write left right s.a s.j (← read left right s.a s.i)
  return { s with a }

def partLoop (inner : Nat) : (fuel : Nat) → State → Option State
  | 0, _ => none
  | fuel + 1, s =>
      if s.i < s.j then do
        let s ← partRound left right key inner s
        partLoop inner fuel s
      else return s

end Partition

-- The array and `round` after the call. No loop tests its condition more often than the array has cells, and
-- once more.
def qSort : (fuel : Nat) → (a : List Int) → (left right round : Int) → Option (List Int × Int)
  | 0, _, _, _, _ => none
  | fuel + 1, a, left, right, round =>
      if left ≥ right then some (a, round)
      else do
        let key ← read left right a left
        let s ← partLoop left right key (a.length + 1) (a.length + 1) { a, i := left, j := right, round }
        let a ← write left right s.a s.i key
        let (a, round) ← qSort fuel a left (int32 (s.i - 1)) s.round
        qSort fuel a (int32 (s.i + 1)) right round

-- The call in `myqsort`, after the array of `l` cells is filled.
def myqsort (fuel : Nat) (a : List Int) : Option (List Int × Int) := qSort fuel a 0 (int32 (a.length - 1)) 0

end RichardTest.QSort
