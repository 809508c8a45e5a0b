import RichardTest.Positional
import RichardTest.Outcome
import Mathlib.Data.Int.Basic

namespace RichardTest.BigNumC

-- C `int` arithmetic, reduced to the 32-bit word the machine computes.
def int32 (x : Int) : Int := Int.bmod x (2 ^ 32)

-- The cells behind `arr` and the number of digits in use. The source always changes `_arrLen`
-- together with the allocation, so the capacity is the number of cells.
structure BigNum where
  arr : List Int
  wei : Nat
deriving DecidableEq, Repr

def BigNum.arrLen (b : BigNum) : Nat := b.arr.length

-- The contents of the cells that malloc and realloc hand out next.
abbrev Heap := Nat → Int

-- A computation faults when it touches a cell at or above the capacity.
abbrev Prog := StateT Heap Option

def fault {α : Type} : Prog α := fun _ => none

def malloc (n : Nat) : Prog (List Int) :=
  fun h => some ((List.range n).map h, fun i => h (i + n))

def BigNum.read (b : BigNum) (i : Nat) : Prog Int :=
  if i < b.arrLen then pure (b.arr.getD i 0) else fault

def BigNum.write (b : BigNum) (i : Nat) (x : Int) : Prog BigNum :=
  if i < b.arrLen then pure { b with arr := b.arr.set i x } else fault

-- `realloc` keeps the cells and exposes new ones up to size `n`.
def realloc (b : BigNum) (n : Nat) : Prog BigNum := do
  let more ← malloc (n - b.arrLen)
  pure { b with arr := b.arr ++ more }

def getZero : Prog BigNum := do
  let arr ← malloc 2
  BigNum.write { arr := arr, wei := 1 } 0 0

def extendBigNum (b : BigNum) : Prog BigNum :=
  realloc b (b.arrLen * 2)

-- `while (_arrLen < n) extend_big_num(..)`. From a positive capacity `n` rounds are enough; a
-- capacity of zero never grows and the loop does not end.
def growLoop (n : Nat) : Nat → BigNum → Prog BigNum
  | 0, b => if b.arrLen < n then fault else pure b
  | fuel + 1, b => if b.arrLen < n then do
      let b ← extendBigNum b
      growLoop n fuel b
    else pure b

def growTo (n : Nat) (b : BigNum) : Prog BigNum := growLoop n n b

-- `if (wei == _arrLen) extend_big_num(..)`.
def ensureRoom (b : BigNum) : Prog BigNum :=
  if b.wei = b.arrLen then extendBigNum b else pure b

def myPow (n : Int) (m : Nat) : Int :=
  if m = 0 then 1 else (fun res => int32 (res * n))^[m - 1] n

theorem toNat_tdiv_ten_lt (m : Int) (h : 0 < m.tdiv 10) : (m.tdiv 10).toNat < m.toNat := by
  have hm : 0 ≤ m := by
    by_contra hn
    have hneg := Int.tdiv_nonneg (a := -m) (b := 10) (by omega) (by omega)
    rw [Int.neg_tdiv] at hneg
    omega
  rw [Int.tdiv_eq_ediv_of_nonneg hm] at h ⊢
  omega

-- The do-while loop divides before it tests.
def countIntBit (m : Int) : Nat :=
  if 0 < m.tdiv 10 then countIntBit (m.tdiv 10) + 1 else 1
termination_by m.toNat
decreasing_by exact toNat_tdiv_ten_lt m ‹_›

-- `for (i = 1; i <= n; i++)` of int_to_big_num, with `n` rounds left.
def intDigitLoop (m : Int) : Nat → Nat → BigNum → Prog BigNum
  | 0, _, res => pure res
  | n + 1, i, res => do
      let dig := (m.tmod (myPow 10 i)).tdiv (myPow 10 (i - 1))
      let res ← res.write (i - 1) dig
      intDigitLoop m n (i + 1) res

def intToBigNum (m : Int) : Prog BigNum := do
  let n := countIntBit m
  let res ← getZero
  let res ← growTo n res
  let res ← intDigitLoop m n 1 res
  pure { res with wei := n }

def strDigitLoop (string : List Char) : Nat → Nat → BigNum → Prog BigNum
  | 0, _, res => pure res
  | n + 1, i, res => do
      let res ← res.write (string.length - i - 1) (((string.getD i '\x00').toNat : Int) - 48)
      strDigitLoop string n (i + 1) res

def strToBigNum (string : List Char) : Prog BigNum := do
  let res ← getZero
  let res ← growTo string.length res
  let res ← strDigitLoop string string.length 0 res
  pure { res with wei := string.length }

-- What two `BigNum *` arguments point to: two objects, or one object passed twice.
inductive Operands where
  | apart (b1 b2 : BigNum)
  | same (b : BigNum)
deriving DecidableEq, Repr

namespace Operands

def fst : Operands → BigNum
  | apart b1 _ => b1
  | same b => b

def snd : Operands → BigNum
  | apart _ b2 => b2
  | same b => b

def setFst : Operands → BigNum → Operands
  | apart _ b2, b => apart b b2
  | same _, b => same b

def setSnd : Operands → BigNum → Operands
  | apart b1 _, b => apart b1 b
  | same _, b => same b

def swap : Operands → Operands
  | apart b1 b2 => apart b2 b1
  | same b => same b

end Operands

-- `for (..; i < ..; i++) arr[i] = 0`, with `n` rounds left.
def zeroLoop : Nat → Nat → BigNum → Prog BigNum
  | 0, _, b => pure b
  | n + 1, i, b => do
      let b ← b.write i 0
      zeroLoop n (i + 1) b

-- `for (i = wei; i < _arrLen; i++) arr[i] = 0`.
def clearAbove (b : BigNum) : Prog BigNum := zeroLoop (b.arrLen - b.wei) b.wei b

-- `if (next == 1) arr[wei++] = 1`.
def carryOut (next : Int) (b : BigNum) : Prog BigNum :=
  if next = 1 then do
    let b ← b.write b.wei 1
    pure { b with wei := b.wei + 1 }
  else pure b

def doubleLoop : Nat → Nat → Int → BigNum → Prog (Int × BigNum)
  | 0, _, next, b => pure (next, b)
  | n + 1, i, next, b => do
      let x ← b.read i
      let res := int32 (x * 2 + next)
      if res < 10 then
        let b ← b.write i res
        doubleLoop n (i + 1) 0 b
      else
        let b ← b.write i (res - 10)
        doubleLoop n (i + 1) 1 b

def bigNumAdd0Self (bigN : BigNum) : Prog BigNum := do
  let top ← (if bigN.wei = 0 then fault else bigN.read (bigN.wei - 1))
  let bigN ← (if 5 ≤ top then ensureRoom bigN else pure bigN)
  let (next, bigN) ← doubleLoop bigN.wei 0 0 bigN
  carryOut next bigN

def copyLoop : Nat → Nat → Operands → Prog Operands
  | 0, _, ops => pure ops
  | n + 1, i, ops => do
      let x ← ops.snd.read i
      let b ← ops.fst.write i x
      copyLoop n (i + 1) (ops.setFst b)

def bigNumCpy (ops : Operands) : Prog Operands := do
  let b ← (if ops.fst.arrLen < ops.snd.arrLen then realloc ops.fst ops.snd.arrLen else pure ops.fst)
  let b ← zeroLoop b.arrLen 0 b
  let ops ← copyLoop (ops.setFst b).snd.wei 0 (ops.setFst b)
  pure (ops.setFst { ops.fst with wei := ops.snd.wei })

def cmpLoop (b1 b2 : BigNum) : Nat → Prog Int
  | 0 => pure 0
  | i + 1 => do
      let x ← b1.read i
      let y ← b2.read i
      if x > y then pure 1
      else if x < y then pure (-1)
      else cmpLoop b1 b2 i

def bigNumCmp (b1 b2 : BigNum) : Prog Int :=
  if b1.wei > b2.wei then pure 1
  else if b1.wei < b2.wei then pure (-1)
  else cmpLoop b1 b2 b1.wei

-- The digit loop of big_num_add and big_num_add_0: adds the second object into the first.
def addLoop : Nat → Nat → Int → Operands → Prog (Int × Operands)
  | 0, _, next, ops => pure (next, ops)
  | n + 1, i, next, ops => do
      let x ← ops.fst.read i
      let y ← ops.snd.read i
      let resNum := int32 (x + y + next)
      if resNum < 10 then
        let b ← ops.fst.write i resNum
        addLoop n (i + 1) 0 (ops.setFst b)
      else
        let b ← ops.fst.write i (resNum - 10)
        addLoop n (i + 1) 1 (ops.setFst b)

-- The returned operands are the caller's objects after the call, in the caller's order.
def bigNumAdd (ops : Operands) : Prog (BigNum × Operands) := do
  let flag ← bigNumCmp ops.fst ops.snd
  let ops := if flag = -1 then ops.swap else ops
  let res ← getZero
  let b1 ← ensureRoom ops.fst
  let ops := ops.setFst b1
  let copied ← bigNumCpy (.apart res ops.fst)
  let res := copied.fst
  let ops := ops.setFst copied.snd
  let b2 ← (if ops.snd.arrLen < res.arrLen then realloc ops.snd res.arrLen >>= clearAbove
    else pure ops.snd)
  let b2 ← growTo (res.arrLen + 1) b2
  let (next, added) ← addLoop res.wei 0 0 (.apart res b2)
  let ops := ops.setSnd added.snd
  let res ← carryOut next added.fst
  pure (res, if flag = -1 then ops.swap else ops)

-- `if (b2->wei > b1->wei) b1->wei = b2->wei`.
def BigNum.raiseWei (b : BigNum) (n : Nat) : BigNum :=
  if n > b.wei then { b with wei := n } else b

-- big_num_add_0 up to its last test: the digits of the second object are added into the first,
-- and the carry out of the second object's length is returned.
def sumInto (ops : Operands) : Prog (Int × Operands) := do
  let b1 ← ensureRoom ops.fst
  let ops := ops.setFst b1
  let flag ← bigNumCmp ops.fst ops.snd
  let b1 ← (if flag = -1 then growTo ops.snd.arrLen ops.fst >>= clearAbove else pure ops.fst)
  let (next, ops) ← addLoop (ops.setFst b1).snd.wei 0 0 (ops.setFst b1)
  pure (next, ops.setFst (ops.fst.raiseWei ops.snd.wei))

-- `if (next == 1) { arr[wei]++; wei++; }`: unlike in big_num_add the carry increments whatever the
-- cell above the digits holds.
def incrementTop (next : Int) (b : BigNum) : Prog BigNum :=
  if next = 1 then do
    let x ← b.read b.wei
    let b ← b.write b.wei (int32 (x + 1))
    pure { b with wei := b.wei + 1 }
  else pure b

def bigNumAdd0 (ops : Operands) : Prog Operands := do
  let (next, ops) ← sumInto ops
  let b1 ← incrementTop next ops.fst
  pure (ops.setFst b1)

def multiDigLoop (a : Int) : Nat → Nat → Int → BigNum → Prog (Int × BigNum)
  | 0, _, next, bgn => pure (next, bgn)
  | n + 1, i, next, bgn => do
      let x ← bgn.read i
      let resNum := int32 (x * a + next)
      if resNum < 10 then
        let bgn ← bgn.write i resNum
        multiDigLoop a n (i + 1) 0 bgn
      else
        let bgn ← bgn.write i (resNum.tmod 10)
        multiDigLoop a n (i + 1) (resNum.tdiv 10) bgn

def bigNumMultiDig (bgn : BigNum) (a : Int) : Prog BigNum :=
  if a = 0 then BigNum.write { bgn with wei := 1 } 0 0
  else do
    let bgn ← ensureRoom bgn
    let (next, bgn) ← multiDigLoop a bgn.wei 0 0 bgn
    if next ≠ 0 then
      let bgn ← bgn.write bgn.wei next
      pure { bgn with wei := bgn.wei + 1 }
    else pure bgn

-- `for (i = wei - 1; i >= 0; i--) arr[i + a] = arr[i]`.
def shiftLoop (a : Nat) : Nat → BigNum → Prog BigNum
  | 0, bgn => pure bgn
  | i + 1, bgn => do
      let x ← bgn.read i
      let bgn ← bgn.write (i + a) x
      shiftLoop a i bgn

def bigNumAppend0 (bgn : BigNum) (a : Int) : Prog BigNum :=
  if a ≤ 0 then pure bgn
  else do
    let bgn ← growTo (bgn.wei + a.toNat) bgn
    let bgn ← shiftLoop a.toNat bgn.wei bgn
    -- the zeroing loop counts in `int`: past INT_MAX its index leaves the array
    let bgn ← (if 2 ^ 31 ≤ a then fault else zeroLoop a.toNat 0 bgn)
    pure { bgn with wei := bgn.wei + a.toNat }

-- One pass of the loop of big_num_multi up to its last call: a copy of `b1` times the digit `w`,
-- moved `i` places up. Returns the new object and `b1` as the copy leaves it.
def partialProduct (b1 : BigNum) (w : Int) (i : Nat) : Prog (BigNum × BigNum) := do
  let newBg ← getZero
  let copied ← bigNumCpy (.apart newBg b1)
  let newBg ← bigNumMultiDig copied.fst w
  let newBg ← bigNumAppend0 newBg i
  pure (newBg, copied.snd)

def multiLoop : Nat → Nat → BigNum → Operands → Prog (BigNum × Operands)
  | 0, _, res, ops => pure (res, ops)
  | n + 1, i, res, ops => do
      let w ← ops.snd.read i
      let (newBg, b1) ← partialProduct ops.fst w i
      let added ← bigNumAdd0 (.apart res newBg)
      multiLoop n (i + 1) added.fst (ops.setFst b1)

def bigNumMulti (ops : Operands) : Prog (BigNum × Operands) := do
  let res ← getZero
  let flag ← bigNumCmp ops.fst ops.snd
  let ops := if flag = -1 then ops.swap else ops
  let (res, ops) ← multiLoop ops.snd.wei 0 res ops
  pure (res, if flag = -1 then ops.swap else ops)

-- `for (int i = 1; i <= n; i++)` of factorial, with `n` rounds left. The object that `i` is converted
-- to is destroyed after the product.
def factorialLoop : Nat → Nat → BigNum → Prog BigNum
  | 0, _, res => pure res
  | n + 1, i, res => do
      let bigI ← intToBigNum i
      let (res, _) ← bigNumMulti (.apart res bigI)
      factorialLoop n (i + 1) res

def factorial (n : Int) : Prog BigNum := do
  let res ← getZero
  let res ← res.write 0 1
  factorialLoop n.toNat 1 res

end RichardTest.BigNumC
