import Mathlib.Logic.Function.Basic

namespace RichardTest.Snowflake

-- A Java `long`.
abbrev Long := BitVec 64

def startTime : Long := 1498608000000#64
def workerIdBits : Nat := 5
def dataCenterIdBits : Nat := 5
def maxWorkerId : Long := -1#64 ^^^ (-1#64 <<< workerIdBits)
def maxDataCenterId : Long := -1#64 ^^^ (-1#64 <<< dataCenterIdBits)
def sequenceBits : Nat := 12
def workerIdMoveBits : Nat := sequenceBits
def dataCenterIdMoveBits : Nat := sequenceBits + workerIdBits
def timestampMoveBits : Nat := sequenceBits + workerIdBits + dataCenterIdBits
def sequenceMask : Long := -1#64 ^^^ (-1#64 <<< sequenceBits)

structure SnowflakeIdGenerator where
  workerId : Long
  dataCenterId : Long
  sequence : Long := 0#64
  lastTimestamp : Long := -1#64
deriving DecidableEq

def construct (workerId dataCenterId : Long) : Except String SnowflakeIdGenerator :=
  if maxWorkerId.slt workerId || workerId.slt 0#64 then
    .error ("Worker Id can't be greater than " ++ toString maxWorkerId.toInt ++ " or less than 0")
  else if maxDataCenterId.slt dataCenterId || dataCenterId.slt 0#64 then
    .error ("DataCenter Id can't be greater than " ++ toString maxDataCenterId.toInt ++ " or less than 0")
  else .ok { workerId := workerId, dataCenterId := dataCenterId }

-- How a call of nextId ends. It waits when the clock gives no further reading.
inductive Reply where
  | returns (id : Long)
  | throws (message : String)
  | waits
deriving DecidableEq

-- The clock is the list of what currentTime will return.
def blockTillNextMillis (lastTimestamp : Long) : List Long → Option (Long × List Long)
  | [] => none
  | timestamp :: clock =>
      if timestamp.sle lastTimestamp then blockTillNextMillis lastTimestamp clock
      else some (timestamp, clock)

def pack (timestamp dataCenterId workerId sequence : Long) : Long :=
  (timestamp - startTime) <<< timestampMoveBits ||| dataCenterId <<< dataCenterIdMoveBits |||
    workerId <<< workerIdMoveBits ||| sequence

-- The end of nextId, with the timestamp of the id.
def finish (g : SnowflakeIdGenerator) (timestamp : Long) (clock : List Long) :
    Reply × SnowflakeIdGenerator × List Long :=
  (.returns (pack timestamp g.dataCenterId g.workerId g.sequence), { g with lastTimestamp := timestamp }, clock)

def nextId (g : SnowflakeIdGenerator) : List Long → Reply × SnowflakeIdGenerator × List Long
  | [] => (.waits, g, [])
  | timestamp :: clock =>
      if timestamp.slt g.lastTimestamp then
        (.throws ("Clock moved backwards.  Refusing to generate id for " ++
          toString (g.lastTimestamp - timestamp).toInt ++ " milliseconds"), g, clock)
      else if g.lastTimestamp = timestamp then
        let g := { g with sequence := (g.sequence + 1#64) &&& sequenceMask }
        if g.sequence = 0#64 then
          match blockTillNextMillis g.lastTimestamp clock with
          | none => (.waits, g, [])
          | some (timestamp, clock) => finish g timestamp clock
        else finish g timestamp clock
      else finish { g with sequence := 0#64 } timestamp clock

-- A call and the generator behind it.
structure Event (ι : Type) where
  who : ι
  reply : Reply
  after : SnowflakeIdGenerator

-- Some generators, each with the readings that its clock will give.
structure System (ι : Type) where
  generator : ι → SnowflakeIdGenerator
  clock : ι → List Long

variable {ι : Type} [DecidableEq ι]

def System.call (S : System ι) (i : ι) : Event ι × System ι :=
  let r := nextId (S.generator i) (S.clock i)
  (⟨i, r.1, r.2.1⟩,
    { generator := Function.update S.generator i r.2.1, clock := Function.update S.clock i r.2.2 })

-- The calls are made in the order of the list.
def System.run (S : System ι) : List ι → List (Event ι)
  | [] => []
  | i :: calls => (S.call i).1 :: (S.call i).2.run calls

def Event.id? (e : Event ι) : Option Long :=
  match e.reply with
  | .returns id => some id
  | _ => none

def returnedIds (events : List (Event ι)) : List Long := events.filterMap Event.id?

-- The calls of one generator.
def calls (g : SnowflakeIdGenerator) (clock : List Long) (n : Nat) : List (Event Unit) :=
  System.run ⟨fun _ => g, fun _ => clock⟩ (List.replicate n ())

end RichardTest.Snowflake
