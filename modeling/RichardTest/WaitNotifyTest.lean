import RichardTest.Monitor

namespace RichardTest.WaitNotifyTest

open Monitor (Op)

-- `products` and what the two threads print.
structure Products where
  products : List String
  out : List String

def SIZE_LIMIT : Nat := 10

-- The threads of `main`.
inductive Thread where
  | t1
  | t2
deriving DecidableEq, Repr

instance : Fintype Thread := ⟨{.t1, .t2}, fun i => by cases i <;> decide⟩

-- Where the two threads are: before their synchronized block, inside of it, and behind it.
inductive Position where
  | top
  | started
  | add
  | limit
  | full
  | loop
  | removed
  | told
  | done
deriving DecidableEq, Repr

def Products.print (s : Products) (line : String) : Products :=
  { s with out := s.out ++ [line] }

-- `while (true)` has no end. The other positions are those of the consumer.
def produceProduct : Position → Products → Op Position Products
  | .top, _ => .enter .started
  | .started, s => .run .add (s.print "t1 线程启动生产任务")
  | .add, s =>
      let products := s.products ++ ["myProduct."]
      .run .limit (Products.print ⟨products, s.out⟩ ("t1 线程生产货物，总数" ++ toString products.length))
  | .limit, s =>
      if s.products.length = SIZE_LIMIT then .run .full (s.print "货物数量达到仓库上限，停止生产，等待消费。")
      else .run .add s
  | .full, _ => .wait .add
  | _, _ => .stop

def consumeProduct : Position → Products → Op Position Products
  | .top, _ => .enter .loop
  | .loop, s =>
      match s.products with
      | [] => .exit .done
      | _ :: products =>
          .run .removed (Products.print ⟨products, s.out⟩ ("t2 线程消费产品， " ++ toString products.length))
  | .removed, s => if s.products.length < SIZE_LIMIT then .notify .told else .run .loop s
  | .told, s => .run .loop (s.print ("t2 线程,仓库有空余位置，通知进行生产， " ++ toString s.products.length))
  | _, _ => .stop

def main : Thread → Position → Products → Op Position Products
  | .t1 => produceProduct
  | .t2 => consumeProduct

abbrev State := Monitor.State Thread Position Products

def start : State := Monitor.start ⟨[], []⟩ fun _ => .top

end RichardTest.WaitNotifyTest
