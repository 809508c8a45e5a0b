import RichardTest.BigNumC

namespace RichardTest.BigNumC

namespace BigNum

-- Cell `i` of the array, or 0 past its end.
def cell (b : BigNum) (i : Nat) : Int := b.arr.getD i 0

-- The decimal number in the cells in use.
def value (b : BigNum) : Int := Positional.value 10 b.cell b.wei

-- The cells in use lie inside the array and hold decimal digits.
structure Digits (b : BigNum) : Prop where
  wei_pos : 1 ≤ b.wei
  wei_le : b.wei ≤ b.arrLen
  digit : ∀ i < b.wei, 0 ≤ b.cell i ∧ b.cell i ≤ 9

instance (b : BigNum) : Decidable b.Digits :=
  decidable_of_iff (1 ≤ b.wei ∧ b.wei ≤ b.arrLen ∧ ∀ i < b.wei, 0 ≤ b.cell i ∧ b.cell i ≤ 9)
    ⟨fun h => ⟨h.1, h.2.1, h.2.2⟩, fun h => ⟨h.wei_pos, h.wei_le, h.digit⟩⟩

def NoLeadingZero (b : BigNum) : Prop := b.cell (b.wei - 1) ≠ 0 ∨ b.wei = 1

-- The capacity after the guard that doubles a full array.
def room (b : BigNum) : Nat := if b.wei = b.arrLen then b.arrLen * 2 else b.arrLen

-- The order that big_num_cmp decides.
def Less (b1 b2 : BigNum) : Prop := b1.wei < b2.wei ∨ (b1.wei = b2.wei ∧ b1.value < b2.value)

-- `b'` holds the same digits in a possibly larger array.
structure Extends (b b' : BigNum) : Prop where
  wei : b'.wei = b.wei
  arrLen : b.arrLen ≤ b'.arrLen
  cell : ∀ i < b.arrLen, b'.cell i = b.cell i

-- `b'` has the digits of `b`; the cells above them and the capacity may differ.
structure Keeps (b b' : BigNum) : Prop where
  wei : b'.wei = b.wei
  arrLen : b.arrLen ≤ b'.arrLen
  cell : ∀ i < b.wei, b'.cell i = b.cell i

end BigNum

-- The capacity a loop `while (_arrLen < n)` reaches from capacity `c`.
def doubled (n : Nat) : Nat → Nat → Nat
  | 0, c => c
  | fuel + 1, c => if c < n then doubled n fuel (c * 2) else c

def capAfter (n c : Nat) : Nat := doubled n n c

end RichardTest.BigNumC
