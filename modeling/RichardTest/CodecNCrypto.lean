import RichardTest.TokenJava

namespace RichardTest.CodecNCrypto

open RichardTest.TokenJava (JChar JString JInt jstr digit?)

-- `Character.isDigit`.
def isDigit (j : JChar) : Bool := (digit? j).isSome

-- `Character.isLowerCase` and `Character.isUpperCase` follow the tables of Unicode. The program relies on no
-- more of them than that '%' has no case.
structure Letters where
  isLowerCase : JChar → Bool
  isUpperCase : JChar → Bool
  lower_percent : isLowerCase 0x25#16 = false
  upper_percent : isUpperCase 0x25#16 = false

-- `Integer.toString(j, 16)`.
def toString16 (j : JChar) : JString := (Nat.toDigits 16 j.toNat).map fun c => BitVec.ofNat 16 c.toNat

section Escape

variable (letters : Letters)

def escapeChar (j : JChar) : JString :=
  if isDigit j || letters.isLowerCase j || letters.isUpperCase j then [j]
  else if j.toNat < 256 then jstr "%" ++ (if j.toNat < 16 then jstr "0" else []) ++ toString16 j
  else jstr "%u" ++ toString16 j

def escape (src : JString) : JString := src.flatMap (escapeChar letters)

end Escape

section Parse

-- `Character.digit(c, 16)`: decimal digits of any script, and the letters of ASCII and of the full width
-- forms.
def digit16? (c : JChar) : Option Nat :=
  (digit? c).or
    (if 0x41 ≤ c.toNat ∧ c.toNat ≤ 0x46 then some (c.toNat - 0x37)
    else if 0x61 ≤ c.toNat ∧ c.toNat ≤ 0x66 then some (c.toNat - 0x57)
    else if 0xFF21 ≤ c.toNat ∧ c.toNat ≤ 0xFF26 then some (c.toNat - 0xFF17)
    else if 0xFF41 ≤ c.toNat ∧ c.toNat ≤ 0xFF46 then some (c.toNat - 0xFF37)
    else none)

def digitsValue16 : JString → Nat → Option Nat
  | [], v => some v
  | c :: s, v => do
      let d ← digit16? c
      digitsValue16 s (v * 16 + d)

def unsignedValue16 (s : JString) : Option Nat := if s = [] then none else digitsValue16 s 0

def signedValue16 (s : JString) : Option Int :=
  if s.head? = some 0x2D#16 then (unsignedValue16 s.tail).map fun n : Nat => -(n : Int)
  else if s.head? = some 0x2B#16 then (unsignedValue16 s.tail).map fun n : Nat => (n : Int)
  else (unsignedValue16 s).map fun n : Nat => (n : Int)

inductive JException where
  | stringIndexOutOfBounds
  | numberFormat
deriving DecidableEq

-- `Integer.parseInt(s, 16)`.
def parseInt16 (s : JString) : Except JException JInt :=
  match signedValue16 s with
  | some x => if -2 ^ 31 ≤ x ∧ x < 2 ^ 31 then .ok (BitVec.ofInt 32 x) else .error .numberFormat
  | none => .error .numberFormat

end Parse

section Unescape

def charAt (src : JString) (i : Nat) : Except JException JChar :=
  match src[i]? with
  | some c => .ok c
  | none => .error .stringIndexOutOfBounds

def substring (src : JString) (i j : Nat) : Except JException JString :=
  if i ≤ j ∧ j ≤ src.length then .ok ((src.drop i).take (j - i)) else .error .stringIndexOutOfBounds

-- `src.indexOf("%", lastPos)`, where `none` stands for -1.
def indexOf (src : JString) (lastPos : Nat) : Option Nat :=
  ((src.drop lastPos).findIdx? (· = 0x25#16)).map (lastPos + ·)

-- One round of the loop: what is appended to `tmp`, and the next `lastPos`.
def unescapeRound (src : JString) (lastPos : Nat) : Except JException (JString × Nat) :=
  match indexOf src lastPos with
  | some pos =>
      if pos = lastPos then do
        if (← charAt src (pos + 1)) = 0x75#16 then
          let ch ← parseInt16 (← substring src (pos + 2) (pos + 6))
          return ([ch.setWidth 16], pos + 6)
        else
          let ch ← parseInt16 (← substring src (pos + 1) (pos + 3))
          return ([ch.setWidth 16], pos + 3)
      else return (← substring src lastPos pos, pos)
  | none => return (← substring src lastPos src.length, src.length)

-- `none` stands for a loop that has not ended after `fuel` rounds.
def unescapeLoop (src : JString) : (fuel lastPos : Nat) → JString → Option (Except JException JString)
  | 0, _, _ => none
  | fuel + 1, lastPos, tmp =>
      if lastPos < src.length then
        match unescapeRound src lastPos with
        | .ok (text, lastPos) => unescapeLoop src fuel lastPos (tmp ++ text)
        | .error ex => some (.error ex)
      else some (.ok tmp)

-- Each round moves on, so that the loop ends within these rounds.
def unescape (src : JString) : Option (Except JException JString) := unescapeLoop src (src.length + 1) 0 []

end Unescape

end RichardTest.CodecNCrypto
