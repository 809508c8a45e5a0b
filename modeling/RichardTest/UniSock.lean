import Mathlib.Data.List.TakeWhile

namespace RichardTest.UniSock

abbrev Byte := BitVec 8
abbrev Bytes := List Byte

def MAXLINE : Nat := 80

def lf : Byte := 10

-- `toupper` in the C locale.
def toupper (c : Byte) : Byte := if 0x61 ≤ c.toNat ∧ c.toNat ≤ 0x7A then c - 0x20 else c

-- At most `k` bytes, up to the end of the line, and what is left.
def getLine : (k : Nat) → Bytes → Bytes × Bytes
  | 0, s => ([], s)
  | _ + 1, [] => ([], [])
  | k + 1, c :: s =>
      if c = lf then ([c], s)
      else
        let (line, s) := getLine k s
        (c :: line, s)

-- `fgets(buf, MAXLINE, stdin)`. No line is left at the end of the input.
def fgets (stdin : Bytes) : Option (Bytes × Bytes) := if stdin = [] then none else some (getLine (MAXLINE - 1) stdin)

-- The `strlen(buf)` bytes of a line that are sent.
def upToNul (line : Bytes) : Bytes := line.takeWhile (· ≠ 0)

inductive Client where
  | fgets
  | read
  | closed
deriving DecidableEq, Repr

-- The client, and the server behind the two directions of the socket: the array `buf` of the server, those of its bytes
-- that have been read and not yet written, and whether printf has run out of it.
structure System where
  client : Client
  stdin : Bytes
  stdout : Bytes
  toServer : Bytes
  array : Bytes
  buf : Bytes
  overrun : Bool
  toClient : Bytes
deriving DecidableEq

-- Nobody sets the array before the first read.
def start (array stdin : Bytes) : System :=
  { client := .fgets
    stdin
    stdout := []
    toServer := []
    array
    buf := []
    overrun := false
    toClient := [] }

-- A `read` may return with any part of what has come in.
inductive Event where
  | fgets
  | clientRead (n : Nat)
  | serverRead (n : Nat)
  | serverWrite
deriving DecidableEq, Repr

def canRead (n : Nat) (stream : Bytes) : Bool := 0 < n ∧ n ≤ MAXLINE ∧ n ≤ stream.length

-- printf takes the array up to a NUL, which `read` has not put there. Behind an array without one the run has no
-- meaning any more and ends.
def step (S : System) (e : Event) : Option System :=
  if S.overrun then none
  else
    match e with
    | .fgets =>
        if S.client = .fgets then
          match fgets S.stdin with
          | none => some { S with client := .closed }
          | some (line, stdin) => some { S with client := .read, stdin, toServer := S.toServer ++ upToNul line }
        else none
    | .clientRead n =>
        if S.client = .read ∧ canRead n S.toClient then
          some { S with client := .fgets, stdout := S.stdout ++ S.toClient.take n, toClient := S.toClient.drop n }
        else none
    | .serverRead n =>
        if S.buf = [] ∧ canRead n S.toServer then
          let buf := (S.toServer.take n).map toupper
          some { S with
            toServer := S.toServer.drop n
            array := buf ++ S.array.drop n
            buf
            overrun := 0 ∉ S.toServer.take n ++ S.array.drop n }
        else none
    | .serverWrite =>
        if S.buf ≠ [] then some { S with toClient := S.toClient ++ S.buf, buf := [] } else none

def run (S : System) (events : List Event) : Option System := events.foldlM step S

-- The texts that are sent for an input, one for each piece that fgets takes: a line, or 79 bytes of a longer one.
def textsWithin : Nat → Bytes → List Bytes
  | 0, _ => []
  | k + 1, stdin =>
      match fgets stdin with
      | none => []
      | some (line, stdin) => upToNul line :: textsWithin k stdin

def texts (stdin : Bytes) : List Bytes := textsWithin stdin.length stdin

end RichardTest.UniSock
