import Mathlib.Logic.Function.Basic

namespace RichardTest.AtomicTest

abbrev JInt := BitVec 32

-- `inc ++` reads the volatile field and writes it back; the latch is counted down behind it.
inductive Position where
  | reads
  | writes (inc : JInt)
  | countsDown
deriving DecidableEq, Repr

structure Thread where
  j : Nat
  position : Position
deriving DecidableEq, Repr

structure System (threadCount : Nat) where
  inc : JInt
  latch : Nat
  started : Nat
  threads : Fin threadCount → Thread
  printed : Option JInt

inductive Event (threadCount : Nat) where
  | main
  | thread (i : Fin threadCount)

variable {threadCount : Nat}

def start (threadCount increaseCount : Nat) : System threadCount :=
  { inc := 0, latch := increaseCount, started := 0, threads := fun _ => ⟨0, .reads⟩, printed := none }

def System.goto (S : System threadCount) (i : Fin threadCount) (thread : Thread) : System threadCount :=
  { S with threads := Function.update S.threads i thread }

-- The threads are started one after the other, and `inc` is printed when the latch is open.
def mainStep (S : System threadCount) : Option (System threadCount) :=
  if S.started < threadCount then some { S with started := S.started + 1 }
  else if S.latch = 0 ∧ S.printed = none then some { S with printed := some S.inc }
  else none

def threadStep (increaseCount : Nat) (S : System threadCount) (i : Fin threadCount) : Option (System threadCount) :=
  if i < S.started then
    match S.threads i with
    | ⟨j, .reads⟩ => if j < increaseCount / threadCount then some (S.goto i ⟨j, .writes S.inc⟩) else none
    | ⟨j, .writes inc⟩ => some { S.goto i ⟨j, .countsDown⟩ with inc := inc + 1 }
    | ⟨j, .countsDown⟩ => some { S.goto i ⟨j + 1, .reads⟩ with latch := S.latch - 1 }
  else none

def step (increaseCount : Nat) (S : System threadCount) : Event threadCount → Option (System threadCount)
  | .main => mainStep S
  | .thread i => threadStep increaseCount S i

def run (increaseCount : Nat) (S : System threadCount) (events : List (Event threadCount)) :
    Option (System threadCount) :=
  events.foldlM (step increaseCount) S

end RichardTest.AtomicTest
