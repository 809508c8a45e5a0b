import RichardTest.Monitor

namespace RichardTest.FarmerChild

open Monitor (Op)

-- `Kuang.kuang` and what the two threads print.
structure Kuang where
  kuang : List String
  out : List String

-- `TestFarmerChild.main` starts one of each.
inductive Thread where
  | farmer
  | child
deriving DecidableEq, Repr

instance : Fintype Thread := ⟨{.farmer, .child}, fun i => by cases i <;> decide⟩

-- Where a thread is in the body of its loop: before the block, and then at what it does inside of it.
inductive Position where
  | top
  | test
  | change
  | wake
  | leave
deriving DecidableEq, Repr

def Farmer.line (size : Nat) : String := "农夫放了一个水果,目前筐里有" ++ toString size ++ "个水果"

def Child.line (size : Nat) : String := "小孩吃了一个水果,目前筐里有" ++ toString size ++ "个水果"

-- The basket is tested once, before the wait. The sleep behind the block is a turn of somebody else.
def Farmer.run : Position → Kuang → Op Position Kuang
  | .top, _ => .enter .test
  | .test, s => if s.kuang.length = 10 then .wait .change else .run .change s
  | .change, s =>
      let kuang := s.kuang ++ ["apple"]
      .run .wake ⟨kuang, s.out ++ [Farmer.line kuang.length]⟩
  | .wake, _ => .notify .leave
  | .leave, _ => .exit .top

-- `remove` takes the first apple, if there is one.
def Child.run : Position → Kuang → Op Position Kuang
  | .top, _ => .enter .test
  | .test, s => if s.kuang.length = 0 then .wait .change else .run .change s
  | .change, s =>
      let kuang := s.kuang.erase "apple"
      .run .wake ⟨kuang, s.out ++ [Child.line kuang.length]⟩
  | .wake, _ => .notify .leave
  | .leave, _ => .exit .top

def main : Thread → Position → Kuang → Op Position Kuang
  | .farmer => Farmer.run
  | .child => Child.run

abbrev State := Monitor.State Thread Position Kuang

def start : State := Monitor.start ⟨[], []⟩ fun _ => .top

end RichardTest.FarmerChild
