import RichardTest.Positional

namespace RichardTest.BigNumCpp

def len1 : Nat := 128

-- `signal` is 1 for a negative number. An `unsigned long` of `w` bits is a number below `2 ^ w`; the
-- operators take the width `w` as a parameter.
structure BigNum where
  length : Nat
  signal : Fin 2
  array : Vector Nat len1
deriving DecidableEq

namespace BigNum

-- An access outside `array` is a failure.
def get (A : BigNum) (i : Nat) : Option Nat := A.array[i]?

def set (A : BigNum) (i : Nat) (x : Nat) : Option BigNum :=
  if h : i < len1 then some { A with array := A.array.set i x h } else none

-- `BigNum()`.
def zero : BigNum := { length := 1, signal := 0, array := Vector.replicate len1 0 }

-- The unary minus.
def neg (A : BigNum) : BigNum := { A with signal := 1 - A.signal }

-- `while (length > 1) if (array[length - 1] == 0) length--; else break;` from length `n`.
def trim : Nat → BigNum → Option BigNum
  | 0, B => some { B with length := 0 }
  | 1, B => some { B with length := 1 }
  | n + 2, B => do
      let top ← B.get (n + 1)
      if top = 0 then trim (n + 1) B else some { B with length := n + 2 }

def compareLoop (A B : BigNum) : Nat → Option Nat
  | 0 => some 2
  | i + 1 => do
      let x ← A.get i
      let y ← B.get i
      if x > y then some 0
      else if x < y then some 1
      else compareLoop A B i

-- 1 for less, 0 for greater, 2 for equal magnitudes.
def compare (A B : BigNum) : Option Nat :=
  if A.length > B.length then some 0
  else if A.length < B.length then some 1
  else compareLoop A B A.length

-- `operator==`.
def opEq (this A : BigNum) : Option Bool :=
  if this.signal = A.signal then do
    let order ← this.compare A
    some (order = 2)
  else some false

-- `operator!=`.
def opNe (this A : BigNum) : Option Bool :=
  if this.signal = A.signal then do
    let order ← this.compare A
    some (order ≠ 2)
  else some false

-- `for (i = 0; i < SUM.length; i++)` of operator+, with `n` rounds left.
def addLoop (w : Nat) (this A : BigNum) : Nat → Nat → Nat → BigNum → Option BigNum
  | 0, _, _, SUM => some SUM
  | n + 1, i, C, SUM => do
      let x ← A.get i
      let y ← this.get i
      let sum := (x + y + C) % 2 ^ 64
      let C := if sum ≤ 0xffffffff then 0 else 1
      let SUM ← SUM.set i (sum % 2 ^ w)
      addLoop w this A n (i + 1) C SUM

-- operator+ on equal signs.
def addSame (w : Nat) (this A : BigNum) : Option BigNum := do
  let length := if this.length ≥ A.length then this.length + 1 else A.length + 1
  let SUM ← addLoop w this A length 0 0 { zero with signal := this.signal, length := length }
  trim SUM.length SUM

-- `for (i = 0; i < length; i++)` of operator-, with `n` rounds left; `sub` is an `unsigned int`.
def subLoop (w : Nat) (this A : BigNum) : Nat → Nat → Nat → BigNum → Option BigNum
  | 0, _, _, SUB => some SUB
  | n + 1, i, F, SUB => do
      let x ← this.get i
      let sub := (x + 2 ^ w - F) % 2 ^ w % 2 ^ 32
      let y ← A.get i
      let F := if sub < y then 1 else 0
      let SUB ← SUB.set i ((0xffffffff * F % 2 ^ 32 + (2 ^ w - y) + sub + F) % 2 ^ w)
      subLoop w this A n (i + 1) F SUB

-- operator- on equal signs.
def subSame (w : Nat) (this A : BigNum) : Option BigNum := do
  let order ← this.compare A
  let SUB ← (if order = 0 ∨ order = 2 then
      (subLoop w this A this.length 0 0 { zero with signal := if this.signal = 0 then 0 else 1 }).map
        fun SUB => { SUB with length := this.length }
    else
      (subLoop w A this A.length 0 0 { zero with signal := if this.signal = 0 then 1 else 0 }).map
        fun SUB => { SUB with length := A.length })
  trim SUB.length SUB

-- operator+ and operator- call each other through a sign change. The changed operand has the other's
-- sign, so the second call is the last.
mutual

def addWithin (w : Nat) : Nat → BigNum → BigNum → Option BigNum
  | 0, _, _ => none
  | calls + 1, this, A =>
      if this.signal = A.signal then addSame w this A
      else if this.signal = 0 then subWithin w calls this A.neg
      else subWithin w calls A this.neg

def subWithin (w : Nat) : Nat → BigNum → BigNum → Option BigNum
  | 0, _, _ => none
  | calls + 1, this, A =>
      if this.signal = A.signal then subSame w this A
      else addWithin w calls this A.neg

end

def add (w : Nat) (this A : BigNum) : Option BigNum := addWithin w 2 this A

def sub (w : Nat) (this A : BigNum) : Option BigNum := subWithin w 2 this A

-- `for (j = 0; j <= length; j++)` of operator*, with `n` rounds left.
def mulRow (w : Nat) (this A : BigNum) (i : Nat) :
    Nat → Nat → Nat → BigNum → Option (Nat × BigNum)
  | 0, _, C, PRO => some (C, PRO)
  | n + 1, j, C, PRO => do
      let x ← A.get i
      let y ← this.get j
      let pro := (x * y + C) % 2 ^ 64
      let p ← PRO.get (i + j)
      let sum := (p + pro) % 2 ^ 64
      let C := if sum > 0xffffffff then sum / 2 ^ 32 else 0
      let PRO ← PRO.set (i + j) ((p + pro % 2 ^ w) % 2 ^ w)
      mulRow w this A i n (j + 1) C PRO

-- The carry `C` is not reset between the rows.
def mulRows (w : Nat) (this A : BigNum) : Nat → Nat → Nat → BigNum → Option BigNum
  | 0, _, _, PRO => some PRO
  | n + 1, i, C, PRO => do
      let (C, PRO) ← mulRow w this A i (this.length + 1) 0 C PRO
      mulRows w this A n (i + 1) C PRO

def mul (w : Nat) (this A : BigNum) : Option BigNum := do
  let PRO ← mulRows w this A A.length 0 0
    { zero with signal := if this.signal = A.signal then 0 else 1, length := this.length + A.length }
  trim PRO.length PRO

-- `BigNum(uint64_t)`.
def ofUint64 (w A : Nat) : BigNum :=
  if A ≤ 0xffffffff then
    { length := 1, signal := 0, array := zero.array.setIfInBounds 0 (A % 2 ^ w) }
  else
    { length := 2
      signal := 0
      array := (zero.array.setIfInBounds 1 (A / 2 ^ 32 % 2 ^ w)).setIfInBounds 0 (A % 2 ^ w) }

-- A division by zero is a failure.
def quot (x y : Nat) : Option Nat := if y = 0 then none else some (x / y)

-- A trial quotient `div`, to be moved `len` limbs up.
structure Trial where
  div : Nat
  len : Nat
deriving DecidableEq, Repr

-- The three branches at the head of the loop of operator/; the last one leaves the loop. The loop runs
-- only while `X` is the larger number, so the lengths can be subtracted.
def divTrial (w : Nat) (X A : BigNum) : Option (Option Trial) := do
  let x ← X.get (X.length - 1)
  let a ← A.get (A.length - 1)
  if x > a then
    let div ← quot x ((a + 1) % 2 ^ w)
    some (some ⟨div, X.length - A.length⟩)
  else if X.length > A.length then
    let y ← X.get (X.length - 2)
    let temp := (x * 2 ^ 32 % 2 ^ 64 + y) % 2 ^ 64
    let div ← (if a = 0xffffffff then some (temp / 2 ^ 32) else quot temp ((a + 1) % 2 ^ w))
    some (some ⟨div, X.length - A.length - 1⟩)
  else some none

-- `for (i = Z.length - 1; i >= len; i--) Z.array[i] = Z.array[i - len]`, with `n` rounds left.
def shiftUp (len : Nat) : Nat → BigNum → Option BigNum
  | 0, Z => some Z
  | n + 1, Z => do
      let x ← Z.get n
      let Z ← Z.set (n + len) x
      shiftUp len n Z

-- `for (i = 0; i < len; i++) Z.array[i] = 0`, with `n` rounds left.
def clearLow : Nat → Nat → BigNum → Option BigNum
  | 0, _, Z => some Z
  | n + 1, i, Z => do
      let Z ← Z.set i 0
      clearLow n (i + 1) Z

-- `Z = BigNum(div)`, moved up.
def shifted (w : Nat) (t : Trial) : Option BigNum := do
  let Z := ofUint64 w t.div
  let Z ← shiftUp t.len Z.length { Z with length := Z.length + t.len }
  clearLow t.len 0 Z

-- operator% moves only by a positive `len`.
def shiftedIf (w : Nat) (t : Trial) : Option BigNum :=
  if t.len = 0 then some (ofUint64 w t.div) else shifted w t

section Division

-- operator- as operator/ and operator% call it.
variable (minus : BigNum → BigNum → Option BigNum)

-- The loop of operator/ on `X` and `Y`.
def divLoop (w : Nat) (A : BigNum) : Nat → BigNum → BigNum → Option (BigNum × BigNum)
  | 0, _, _ => none
  | fuel + 1, X, Y => do
      let order ← X.compare A
      if order = 0 then
        match ← divTrial w X A with
        | none => do
            let Y ← add w Y (ofUint64 w 1)
            some (X, Y)
        | some t => do
            let Z ← shifted w t
            let Y ← add w Y Z
            let Z ← mul w A Z
            let X ← minus X Z
            divLoop w A fuel X Y
      else some (X, Y)

-- The loop of operator/ for a divisor of one limb, with `n` limbs left and the remainder `F`.
def divLimbs (w : Nat) (A : BigNum) : Nat → Nat → BigNum → Option BigNum
  | 0, _, X => some X
  | n + 1, F, X => do
      let x ← X.get n
      let div := (F * 2 ^ 32 % 2 ^ 64 + x) % 2 ^ 64
      let a ← A.get 0
      let q ← quot div a
      let X ← X.set n (q % 2 ^ w)
      let mul := q * a % 2 ^ 64
      divLimbs w A n ((div + 2 ^ 64 - mul) % 2 ^ 64 % 2 ^ w) X

def div (w fuel : Nat) (this A : BigNum) : Option BigNum :=
  if A.length > 1 then do
    let (X, Y) ← divLoop minus w A fuel this zero
    let order ← X.compare A
    let Y ← (if order = 2 then add w Y (ofUint64 w 1) else some Y)
    some (if this.signal ≠ A.signal then { Y with signal := 1 } else Y)
  else if this.length = 1 then do
    let x ← this.get 0
    let a ← A.get 0
    let q ← quot x a
    this.set 0 q
  else do
    let X ← divLimbs w A this.length 0 this
    let top ← X.get (X.length - 1)
    some (if top = 0 then { X with length := X.length - 1 } else X)

-- The head of the loop of operator%, where `this` is the number the operator was called on.
def modTrial (this Y A : BigNum) : Option (Option Trial) := do
  let div ← Y.get (Y.length - 1)
  let temp ← A.get (A.length - 1)
  let len := Y.length - A.length
  if div = temp ∧ len = 0 then some none
  else if div ≤ temp ∧ this.length ≠ 0 then
    let y ← Y.get (Y.length - 2)
    let div ← quot ((div * 2 ^ 32 % 2 ^ 64 + y) % 2 ^ 64) ((temp + 1) % 2 ^ 64)
    some (some ⟨div, len - 1⟩)
  else
    let div ← quot div ((temp + 1) % 2 ^ 64)
    some (some ⟨div, len⟩)

def modLoop (w : Nat) (this A : BigNum) : Nat → BigNum → Option BigNum
  | 0, _ => none
  | fuel + 1, Y => do
      let order ← Y.compare A
      if order = 0 ∨ order = 2 then
        match ← modTrial this Y A with
        | none => minus Y A
        | some t => do
            let Z ← shiftedIf w t
            let T ← mul w A Z
            let Y ← minus Y T
            modLoop w this A fuel Y
      else some Y

-- The loop of operator% for a divisor of one limb, with `n` limbs left.
def modLimbs (this A : BigNum) : Nat → Nat → Option Nat
  | 0, F => some F
  | n + 1, F => do
      let x ← this.get n
      let a ← A.get 0
      if a = 0 then none else modLimbs this A n ((F * 2 ^ 32 % 2 ^ 64 ||| x) % a)

def mod (w fuel : Nat) (this A : BigNum) : Option BigNum :=
  if A.length > 1 then modLoop minus w this A fuel this
  else if this.length = 1 then do
    let x ← this.get 0
    let a ← A.get 0
    if a = 0 then none else some (ofUint64 w (x % a))
  else do
    let F ← modLimbs this A this.length 0
    some (ofUint64 w F)

end Division

section Text

-- An object in zero-filled memory.
def zeroFilled : BigNum := { length := 0, signal := 0, array := Vector.replicate len1 0 }

-- A signed `char` as an `unsigned long` of `w` bits.
def ofChar (w : Nat) (c : BitVec 8) : Nat := (c.signExtend w).toNat

-- `for (i = 0; i < s.size(); i++)` of BigNum(string), from `i`.
def packLoop (w : Nat) : List (BitVec 8) → Nat → BigNum → Option BigNum
  | [], _, B => some B
  | c :: s, i, B => do
      let x ← B.get (i / 4)
      let B ← B.set (i / 4) (x * 2 ^ 8 % 2 ^ w)
      let x ← B.get (i / 4)
      let B ← B.set (i / 4) (x ||| ofChar w c)
      packLoop w s (i + 1) B

-- `BigNum(string s)` over what the memory of the object holds.
def ofString (w : Nat) (memory : BigNum) (s : List (BitVec 8)) : Option BigNum := do
  let B ← packLoop w s 0 memory
  some { B with length := ((s.length + (2 ^ 64 - 1)) % 2 ^ 64 / 4 + 1) % 2 ^ 32 }

-- The characters that printS outputs for one limb.
def printLimb (x : Nat) : List (BitVec 8) :=
  ([3, 2, 1, 0].map fun j => BitVec.ofNat 8 (x / 2 ^ (j * 8))).filter (· ≠ 0)

-- `for (i = 0; i <= length; ++i)` of printS, with `n` rounds left.
def printLoop (B : BigNum) : Nat → Nat → Option (List (BitVec 8))
  | 0, _ => some []
  | n + 1, i => do
      let x ← B.get i
      let rest ← printLoop B n (i + 1)
      some (printLimb x ++ rest)

def printS (B : BigNum) : Option (List (BitVec 8)) := do
  let chars ← printLoop B (B.length + 1) 0
  some (chars ++ [10])

end Text

section Representation

-- The base of the representation.
def base : Int := 2 ^ 32

-- Limb `i`, or 0 past the end of the array.
def limb (A : BigNum) (i : Nat) : Nat := (A.array[i]?).getD 0

-- The magnitude: the number written by the limbs in use.
def mag (A : BigNum) : Int := Positional.value base (fun i => (A.limb i : Int)) A.length

-- The signed number.
def value (A : BigNum) : Int := if A.signal = 0 then A.mag else -A.mag

end Representation

section Longs

variable (this A : BigNum)

-- What round `j` of row `i` forms in `uint64_t`.
def roundLongs (i j C : Nat) (PRO : BigNum) : List Nat :=
  [A.limb i * this.limb j + C, PRO.limb (i + j) + (A.limb i * this.limb j + C) % 2 ^ 64]

-- The same for the rounds of a row that `mulRow` makes, before any of them is reduced.
def rowLongs (w i : Nat) : Nat → Nat → Nat → BigNum → List Nat
  | 0, _, _, _ => []
  | n + 1, j, C, PRO => roundLongs this A i j C PRO ++
      match mulRow w this A i 1 j C PRO with
      | some (C, PRO) => rowLongs w i n (j + 1) C PRO
      | none => []

def rowsLongs (w : Nat) : Nat → Nat → Nat → BigNum → List Nat
  | 0, _, _, _ => []
  | n + 1, i, C, PRO => rowLongs this A w i (this.length + 1) 0 C PRO ++
      match mulRow w this A i (this.length + 1) 0 C PRO with
      | some (C, PRO) => rowsLongs w n (i + 1) C PRO
      | none => []

def mulLongs (w : Nat) : List Nat :=
  rowsLongs this A w A.length 0 0
    { zero with signal := if this.signal = A.signal then 0 else 1, length := this.length + A.length }

end Longs

end BigNum

end RichardTest.BigNumCpp
