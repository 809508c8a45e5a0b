import RichardTest.Http

namespace RichardTest.DtParser

open RichardTest.Http (CString Buffer strlen lit upToNul cstr sprintf)

-- A `char *` argument is the memory from that address on.

-- `strcat` into an array of `size` cells that was cleared before its first use.
def strcat (size : Nat) (dt x : CString) : Option CString := sprintf size (dt ++ x)

-- Up to `n` characters from `s + i`. Reading behind the memory faults.
def chars (s : Buffer) (i n : Nat) : Option CString :=
  if '\x00' ∈ (s.drop i).take n ∨ i + n ≤ s.length then some (upToNul ((s.drop i).take n)) else none

-- `strncat(dt, s + i, n)`.
def strncat (size : Nat) (dt : CString) (s : Buffer) (i n : Nat) : Option CString := do
  strcat size dt (← chars s i n)

-- `x[k]` of a cleared array that holds the string `x`.
def charAt (x : CString) (k : Nat) : Char := x.chars.getD k '\x00'

-- A run of `strcat(dt, text); strncat(dt, s + i, n); i += n;`.
def catFields (size : Nat) (s : Buffer) : List (String × Nat) → Nat → CString → Option (Nat × CString)
  | [], i, dt => some (i, dt)
  | (text, n) :: fields, i, dt => do
      let dt ← strcat size dt (lit text)
      let dt ← strncat size dt s i n
      catFields size s fields (i + n) dt

def memset (size n : Nat) : Option Unit := if n ≤ size then some () else none

def evtFields : List (String × Nat) := [("\x7b\"evt\":\"", 2), ("\",\"fvStdS1\":\"", 16)]

def evtDtFields : List (String × Nat) := [("\x7b\"date\":\"", 6), ("\",\"fVStd\":\"", 16), ("\",\"fV\":\"", 16)]

-- `rounds` rounds of the loop in prs_evt_ext, from round `j` on.
def evtLoop (s : Buffer) : (rounds j i : Nat) → CString → Option CString
  | 0, _, _, dt => some dt
  | rounds + 1, j, i, dt => do
      let tmp ← strcat 128 (lit "") (if j > 0 then lit "," else lit "")
      let (i, tmp) ← catFields 128 s evtDtFields i tmp
      let tmp ← strcat 128 tmp (lit "\"\x7d")
      let dt ← strcat 1024 dt tmp
      evtLoop s rounds (j + 1) i dt

def prsEvtExt (s : Buffer) : Option CString := do
  let (i, dt) ← catFields 1024 s evtFields 0 (lit "")
  let dt ← strcat 1024 dt (lit "\",\"dt\":[")
  let dt ← evtLoop s 3 0 i dt
  strcat 1024 dt (lit "]\x7d")

def prsAtExt (s : Buffer) : Option CString := do
  let (i, dt) ← catFields 1024 s [("\x7b\"date\":\"", 6)] 0 (lit "")
  let dt ← strcat 1024 dt (lit "\",\"dt\":\"")
  let dt ← strcat 1024 dt (← cstr (s.drop i))
  strcat 1024 dt (lit "\"\x7d")

def objFields : List (String × Nat) :=
  [("\x7b\"time\":\"", 12), ("\",\"sts\":\"", 8), ("\",\"iVStd\":\"", 16), ("\",\"iV\":\"", 16),
    ("\",\"fVStd\":\"", 16), ("\",\"fV\":\"", 16), ("\",\"flwRtStd\":\"", 8), ("\",\"flwRt\":\"", 8),
    ("\",\"t\":\"", 8), ("\",\"p\":\"", 8), ("\",\"engSum\":\"", 16), ("\",\"engDst\":\"", 8),
    ("\",\"acsV\":\"", 4), ("\",\"vlt\":\"", 4), ("\",\"pwr\":\"", 2), ("\",\"nb\":\"", 8),
    ("\",\"ecl\":\"", 4), ("\",\"cid\":\"", 12), ("\",\"rnf\":\"", 4)]

def prsUpRptDtObj (id : CString) (s : Buffer) : Option CString := do
  let (i, dt) ← catFields 1024 s objFields 0 (lit "")
  let dt ← strcat 1024 dt (lit "\",\"ext\":")
  let dt ←
    if charAt id 3 = '3' then do strcat 1024 dt (← prsEvtExt (s.drop i))
    else if charAt id 3 = '2' then do strcat 1024 dt (← prsAtExt (s.drop i))
    else some dt
  strcat 1024 dt (lit "\x7d")

def unitFields : List (String × Nat) :=
  [("\x7b\"ctrl\":\"", 2), ("\",\"n\":\"", 2), ("\",\"id\":\"", 4)]

def prsDtU (s : Buffer) : Option CString := do
  let (i, dtU) ← catFields 1024 s unitFields 0 (lit "")
  let id ← strncat 5 (lit "") s 4 4
  let dtU ← strcat 1024 dtU (lit "\",\"dt\":\"")
  let dtU ← strcat 1024 dtU (← cstr (s.drop i))
  let _ ← strcat 1024 dtU (lit "\"\x7d")
  prsUpRptDtObj id (s.drop i)

def headerFields : List (String × Nat) :=
  [("\x7b\"cr\":\"", 2), ("\",\"ctrl\":\"", 2), ("\",\"l\":\"", 2), ("\",\"c\":\"", 4), ("\",\"r\":\"", 4),
    ("\",\"seq\":\"", 2)]

-- The bare data. dt_obj has 512 cells, but it is cleared with the size of dt.
def nakedObj (s : Buffer) : Option CString := do
  memset 512 1024
  let dtObj ← strcat 512 (lit "") (lit "\x7b\"ext\":\x7b\"dt\":\"")
  let dtObj ← strcat 512 dtObj (← cstr s)
  strcat 512 dtObj (lit "\"\x7d\x7d")

def prsUpRptDt (s : Buffer) : Option CString := do
  let (i, dt) ← catFields 1024 s headerFields 0 (lit "")
  let ctrl ← strncat 3 (lit "") s 2 2
  let seq ← strncat 3 (lit "") s 14 2
  let last ← s[i - 1]?
  let (i, dt) ← if last = '0' then catFields 1024 s [("\",\"appId\":\"", 46)] i dt else some (i, dt)
  let dt ← strcat 1024 dt (lit "\",\"dt\":\"")
  let dt ← strcat 1024 dt (← cstr (s.drop i))
  let _ ← strcat 1024 dt (lit "\"\x7d")
  if charAt ctrl 1 = '2' ∧ charAt seq 1 = '1' then nakedObj (s.drop i) else prsDtU (s.drop i)

-- `prs_dt`, which is `parsedt` in the http server.
def prsDt (s : Buffer) : Option CString := prsUpRptDt s

end RichardTest.DtParser
