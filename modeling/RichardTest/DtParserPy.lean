import RichardTest.Json

namespace RichardTest.DtParserPy

open RichardTest.Json

-- The program is given hex strings, and so no text in it needs an escape.

-- `s[i:j]`.
def slice (s : List Char) (i j : Nat) : List Char := (s.drop i).take (j - i)

def dumps (v : Value) : List Char := render [' '] v

def loads (text : List Char) : Option Value := parse text

-- A run of `dt[key]=s[i:i+n]` and `i+=n`.
def takeFields (s : List Char) : List (String × Nat) → Nat → List (List Char × Value)
  | [], _ => []
  | (key, n) :: fields, i => (key.toList, .str (slice s i (i + n))) :: takeFields s fields (i + n)

def hexDigit (c : Char) : Option Nat :=
  if '0' ≤ c ∧ c ≤ '9' then some (c.toNat - 48)
  else if 'A' ≤ c ∧ c ≤ 'F' then some (c.toNat - 55)
  else if 'a' ≤ c ∧ c ≤ 'f' then some (c.toNat - 87)
  else none

-- `int(s, 16)` of a string of hex digits. Without any digit it raises an error.
def int16 (s : List Char) : Option Int :=
  if s = [] then none
  else s.foldlM (fun x c => (hexDigit c).map fun d => 16 * x + (d : Int)) 0

def cmdFields : List (String × Nat) := [("cr", 2), ("ctrl", 2), ("l", 2), ("c", 4), ("r", 4), ("seq", 2)]

def prsUpRptCmd (s : List Char) : Option (List Char) := do
  let dt := takeFields s cmdFields 0
  let seq ← int16 (slice s 14 16)
  if seq ≥ 0 ∨ some seq = int16 "80".toList then
    some (dumps (.obj (dt ++ takeFields s [("appId", 46)] 16 ++ [("dt".toList, .str (s.drop 62))])))
  else some (dumps (.obj (dt ++ [("dt".toList, .str (s.drop 16))])))

def unitFields : List (String × Nat) := [("ctrl", 2), ("n", 2), ("id", 4)]

def prsDtU (isNakeDt : Bool) (s : List Char) : List Char :=
  if isNakeDt then dumps (.obj [("dt".toList, .str s)])
  else dumps (.obj (takeFields s unitFields 0 ++ [("dt".toList, .str (s.drop 8))]))

def evtFields : List (String × Nat) := [("evt", 2), ("fvStdS1", 16)]

def evtDtFields : List (String × Nat) := [("date", 6), ("fVStd", 16), ("fV", 16)]

-- `rounds` rounds of the loop in prs_evt_ext.
def evtLoop (s : List Char) : (rounds i : Nat) → List Value
  | 0, _ => []
  | rounds + 1, i => .obj (takeFields s evtDtFields i) :: evtLoop s rounds (i + 38)

def prsEvtExt (s : List Char) : Value :=
  .obj (takeFields s evtFields 0 ++ [("dt".toList, .arr (evtLoop s 3 18))])

def prsAtExt (isNakeDt : Bool) (s : List Char) : Value :=
  if isNakeDt then .obj [("dt".toList, .str s)]
  else .obj (takeFields s [("date", 6)] 0 ++ [("dt".toList, .str (s.drop 6))])

def objFields : List (String × Nat) :=
  [("time", 12), ("sts", 8), ("iVStd", 16), ("iV", 16), ("fVStd", 16), ("fV", 16), ("flwRtStd", 8),
    ("flwRt", 8), ("t", 8), ("p", 8), ("engSum", 16), ("engDst", 8), ("acsV", 4), ("vlt", 4), ("pwr", 2),
    ("nb", 8), ("ecl", 4), ("cid", 12), ("rnf", 4)]

def prsUpRptDtObj (isNakeDt : Bool) (id s : List Char) : List Char :=
  if isNakeDt ∧ id = "8002".toList then dumps (.obj [("ext".toList, prsAtExt isNakeDt s)])
  else
    let dt := takeFields s objFields 0
    if id = "8003".toList then dumps (.obj (dt ++ [("ext".toList, prsEvtExt (s.drop 178))]))
    else if id = "8002".toList then dumps (.obj (dt ++ [("ext".toList, prsAtExt isNakeDt (s.drop 178))]))
    else dumps (.obj dt)

-- `v[key]`, where that is a string.
def item (v : Value) (key : String) : Option (List Char) :=
  match v.get (.key key.toList) with
  | some (.str s) => some s
  | _ => none

-- What the program prints for the option -c.
def main (cmd : List Char) : Option (List Char) :=
  -- an empty argument leaves dt without a value
  if cmd = [] then none
  else do
    let cmdObj ← loads (← prsUpRptCmd cmd)
    let ctrl ← item cmdObj "ctrl"
    let seq ← item cmdObj "seq"
    let isNakeDt : Bool := ctrl = "C2".toList ∧ seq = "81".toList
    let obj ← loads (prsDtU isNakeDt (← item cmdObj "dt"))
    let id ← if isNakeDt then some "8002".toList else item obj "id"
    some (prsUpRptDtObj isNakeDt id (← item obj "dt") ++ ['\n'])

end RichardTest.DtParserPy
