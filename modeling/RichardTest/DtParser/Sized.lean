import RichardTest.DtParser

namespace RichardTest.DtParser.Sized

open RichardTest.Http (CString Buffer strlen lit cstr)

-- The parser with the sizes of its arrays left open.

-- There is an array `dt` in four of the functions.
structure Sizes where
  dt : Nat
  ctrl : Nat
  seq : Nat
  dtObj : Nat
  dtU : Nat
  id : Nat
  objDt : Nat
  evtDt : Nat
  tmp : Nat
  atDt : Nat

section Model

variable (z : Sizes)

def evtLoop (s : Buffer) : (rounds j i : Nat) → CString → Option CString
  | 0, _, _, dt => some dt
  | rounds + 1, j, i, dt => do
      let tmp ← strcat z.tmp (lit "") (if j > 0 then lit "," else lit "")
      let (i, tmp) ← catFields z.tmp s evtDtFields i tmp
      let tmp ← strcat z.tmp tmp (lit "\"\x7d")
      let dt ← strcat z.evtDt dt tmp
      evtLoop s rounds (j + 1) i dt

def prsEvtExt (s : Buffer) : Option CString := do
  let (i, dt) ← catFields z.evtDt s evtFields 0 (lit "")
  let dt ← strcat z.evtDt dt (lit "\",\"dt\":[")
  let dt ← evtLoop z s 3 0 i dt
  strcat z.evtDt dt (lit "]\x7d")

def prsAtExt (s : Buffer) : Option CString := do
  let (i, dt) ← catFields z.atDt s [("\x7b\"date\":\"", 6)] 0 (lit "")
  let dt ← strcat z.atDt dt (lit "\",\"dt\":\"")
  let dt ← strcat z.atDt dt (← cstr (s.drop i))
  strcat z.atDt dt (lit "\"\x7d")

def prsUpRptDtObj (id : CString) (s : Buffer) : Option CString := do
  let (i, dt) ← catFields z.objDt s objFields 0 (lit "")
  let dt ← strcat z.objDt dt (lit "\",\"ext\":")
  let dt ←
    if charAt id 3 = '3' then do strcat z.objDt dt (← prsEvtExt z (s.drop i))
    else if charAt id 3 = '2' then do strcat z.objDt dt (← prsAtExt z (s.drop i))
    else some dt
  strcat z.objDt dt (lit "\x7d")

def prsDtU (s : Buffer) : Option CString := do
  let (i, dtU) ← catFields z.dtU s unitFields 0 (lit "")
  let id ← strncat z.id (lit "") s 4 4
  let dtU ← strcat z.dtU dtU (lit "\",\"dt\":\"")
  let dtU ← strcat z.dtU dtU (← cstr (s.drop i))
  let _ ← strcat z.dtU dtU (lit "\"\x7d")
  prsUpRptDtObj z id (s.drop i)

def nakedObj (s : Buffer) : Option CString := do
  memset z.dtObj z.dt
  let dtObj ← strcat z.dtObj (lit "") (lit "\x7b\"ext\":\x7b\"dt\":\"")
  let dtObj ← strcat z.dtObj dtObj (← cstr s)
  strcat z.dtObj dtObj (lit "\"\x7d\x7d")

def prsUpRptDt (s : Buffer) : Option CString := do
  let (i, dt) ← catFields z.dt s headerFields 0 (lit "")
  let ctrl ← strncat z.ctrl (lit "") s 2 2
  let seq ← strncat z.seq (lit "") s 14 2
  let last ← s[i - 1]?
  let (i, dt) ← if last = '0' then catFields z.dt s [("\",\"appId\":\"", 46)] i dt else some (i, dt)
  let dt ← strcat z.dt dt (lit "\",\"dt\":\"")
  let dt ← strcat z.dt dt (← cstr (s.drop i))
  let _ ← strcat z.dt dt (lit "\"\x7d")
  if charAt ctrl 1 = '2' ∧ charAt seq 1 = '1' then nakedObj z (s.drop i) else prsDtU z (s.drop i)

def prsDt (s : Buffer) : Option CString := prsUpRptDt z s

end Model

section Declared

def declared : Sizes where
  dt := 1024
  ctrl := 3
  seq := 3
  dtObj := 512
  dtU := 1024
  id := 5
  objDt := 1024
  evtDt := 1024
  tmp := 128
  atDt := 1024

theorem evtLoop_declared (s : Buffer) (rounds j i : Nat) (dt : CString) :
    evtLoop declared s rounds j i dt = DtParser.evtLoop s rounds j i dt := by
  induction rounds generalizing j i dt with
  | zero => rfl
  | succ rounds ih =>
      simp only [evtLoop, DtParser.evtLoop, ih]
      rfl

theorem prsUpRptDtObj_declared (id : CString) (s : Buffer) :
    prsUpRptDtObj declared id s = DtParser.prsUpRptDtObj id s := by
  have hevt : prsEvtExt declared = DtParser.prsEvtExt := by
    funext s
    simp only [prsEvtExt, DtParser.prsEvtExt, evtLoop_declared]
    rfl
  simp only [prsUpRptDtObj, DtParser.prsUpRptDtObj, hevt]
  rfl

-- With the sizes of the source it is the parser.
theorem prsDt_declared (s : Buffer) : prsDt declared s = DtParser.prsDt s := by
  have hunit : prsDtU declared = DtParser.prsDtU := by
    funext s
    simp only [prsDtU, DtParser.prsDtU, prsUpRptDtObj_declared]
    rfl
  simp only [prsDt, prsUpRptDt, DtParser.prsDt, DtParser.prsUpRptDt, hunit]
  rfl

-- The arrays for a few characters are as large as in the source, and the others are not empty.
structure Usable (z : Sizes) : Prop where
  dt : 0 < z.dt
  ctrl : 3 ≤ z.ctrl
  seq : 3 ≤ z.seq
  dtU : 0 < z.dtU
  id : 5 ≤ z.id
  objDt : 0 < z.objDt
  evtDt : 0 < z.evtDt
  tmp : 128 ≤ z.tmp
  atDt : 0 < z.atDt

theorem usable_declared : Usable declared := by
  constructor <;> decide

end Declared

end RichardTest.DtParser.Sized
