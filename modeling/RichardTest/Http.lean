import Mathlib.Data.List.TakeWhile

namespace RichardTest.Http

-- A C string: the characters before the terminating NUL.
@[ext]
structure CString where
  chars : List Char
  nulFree : '\x00' ∉ chars
deriving DecidableEq

def strlen (s : CString) : Nat := s.chars.length

instance : Append CString where
  append s t := ⟨s.chars ++ t.chars, by simp [s.nulFree, t.nulFree]⟩

-- What is left of a sequence of characters when it is read as a string.
def upToNul (l : List Char) : CString :=
  ⟨l.takeWhile (· ≠ '\x00'), fun h => by simpa using List.mem_takeWhile_imp h⟩

def lit (s : String) : CString := upToNul s.toList

-- `strncmp(s, t, n) == 0`.
def strncmpEq (s t : CString) (n : Nat) : Bool := s.chars.take n = t.chars.take n

-- The cells of a `char` array.
abbrev Buffer := List Char

-- `char t[n] = {0}`.
def zeros (n : Nat) : Buffer := List.replicate n '\x00'

-- A write outside of the array faults.
def write (t : Buffer) (i : Nat) (c : Char) : Option Buffer :=
  if i < t.length then some (t.set i c) else none

-- Reading an array as a string faults when it holds no NUL.
def cstr (t : Buffer) : Option CString :=
  if '\x00' ∈ t then some (upToNul t) else none

theorem nul_notMem_toDigits (n : Nat) : '\x00' ∉ Nat.toDigits 10 n := fun h =>
  absurd (Nat.isDigit_of_mem_toDigits (by decide) (by decide) h) (by decide)

-- `%ld` of a length.
def printNat (n : Nat) : CString := ⟨Nat.toDigits 10 n, nul_notMem_toDigits n⟩

-- `%d`.
def printInt (x : Int) : CString := if x < 0 then lit "-" ++ printNat x.natAbs else printNat x.natAbs

-- A buffer of `size` cells has to hold the text and its NUL.
def sprintf (size : Nat) (text : CString) : Option CString :=
  if strlen text < size then some text else none

def reqHeader (ip : CString) (port : Int) (method path : CString) : CString :=
  method ++ lit " " ++ path ++ lit " HTTP/1.1\r\n" ++
    lit "Host: " ++ ip ++ lit ":" ++ printInt port ++ lit "\r\n" ++
    lit "Content-Type: application/json\r\n"

def reqText (header method body : CString) : CString :=
  if strncmpEq method (lit "GET") 3 then
    header ++ lit "Content-Length:0\r\n\r\n"
  else
    header ++ lit "Content-Length:" ++ printNat (strlen body) ++ lit "\r\n\r\n" ++ body

-- The command line that req prints.
def debugText (ip : CString) (port : Int) (method path body : CString) : CString :=
  lit "curl -X" ++ method ++ lit " --noproxy '*' 'http://" ++ ip ++ lit ":" ++ printInt port ++ path ++
    lit "' -H 'Content-Type: application/json;charset=UTF-8' -d'" ++ body ++ lit "'"

-- The message that req hands to writemsg. The command line comes first and has to fit as well.
def reqMessage (ip : CString) (port : Int) (method path body : CString) : Option CString := do
  let _ ← sprintf 1024 (debugText ip port method path body)
  let header ← sprintf 512 (reqHeader ip port method path)
  sprintf 1024 (reqText header method body)

-- In the loops below the first list is what the index has not passed yet. Each gives the index of the
-- terminator and the target.
def getmethodLoop (n : Nat) : List Char → Nat → Buffer → Option (Nat × Buffer)
  | [], i, t => some (i, t)
  | c :: s, i, t =>
      if i ≥ n then some (i, t)
      else if c = '\n' ∨ c = '\r' ∨ c = ' ' then some (i, t)
      else do
        let t ← write t i c
        getmethodLoop n s (i + 1) t

def getmethod (s : CString) (t : Buffer) (n : Nat) : Option Buffer := do
  let (i, t) ← getmethodLoop n s.chars 0 t
  write t i '\x00'

-- `j` counts the spaces before the uri.
def geturiLoop (n : Nat) : List Char → (j k : Nat) → Buffer → Option (Nat × Buffer)
  | [], _, k, t => some (k, t)
  | c :: s, j, k, t =>
      if j = 1 then
        if c = ' ' then some (k, t)
        else if k < n then do
          let t ← write t k c
          geturiLoop n s j (k + 1) t
        else some (k, t)
      else if c = ' ' then geturiLoop n s (j + 1) k t
      else geturiLoop n s j k t

def geturi (s : CString) (t : Buffer) (n : Nat) : Option Buffer := do
  let (k, t) ← geturiLoop n s.chars 0 0 t
  write t k '\x00'

-- `j` counts the line ends, each CR and each LF as one.
def getlnLoop (n : Nat) (l : Int) : List Char → (j k : Nat) → Buffer → Option (Nat × Buffer)
  | [], _, k, t => some (k, t)
  | c :: s, j, k, t =>
      if (j : Int) = l then
        if c = '\n' ∨ c = '\r' then some (k, t)
        else if k < n then do
          let t ← write t k c
          getlnLoop n l s j (k + 1) t
        else some (k, t)
      else if c = '\n' ∨ c = '\r' then getlnLoop n l s (j + 1) k t
      else getlnLoop n l s j k t

def getln (s : CString) (t : Buffer) (n : Nat) (l : Int) : Option Buffer := do
  let (k, t) ← getlnLoop n l s.chars 0 0 t
  write t k '\x00'

-- `k` is set once the characters `s[i - 3]` to `s[i]` have ended the header.
def getbodyLoop (s : List Char) (n : Nat) :
    List Char → (i j : Nat) → (k : Bool) → Buffer → Option (Nat × Buffer)
  | [], _, j, _, t => some (j, t)
  | c :: rest, i, j, k, t =>
      if i < 3 then getbodyLoop s n rest (i + 1) j k t
      else if j ≥ n then some (j, t)
      else if k then do
        let t ← write t j c
        getbodyLoop s n rest (i + 1) (j + 1) k t
      else if s.getD (i - 3) '\x00' = '\r' ∧ s.getD (i - 2) '\x00' = '\n' ∧
          s.getD (i - 1) '\x00' = '\r' ∧ c = '\n' then
        getbodyLoop s n rest (i + 1) j true t
      else getbodyLoop s n rest (i + 1) j k t

def getbody (s : CString) (t : Buffer) (n : Nat) : Option Buffer := do
  let (j, t) ← getbodyLoop s.chars n s.chars 0 0 false t
  write t j '\x00'

-- The loop of getjsonv once `k` is not 0 any more: `j` is the index in the target.
def getjsonvCopy (n : Nat) : List Char → (i j k : Nat) → Buffer → Option (Nat × Buffer)
  | [], i, _, _, t => some (i, t)
  | c :: s, i, j, k, t =>
      if k < 3 ∧ (c = ':' ∨ c = '"') then getjsonvCopy n s (i + 1) j (k + 1) t
      else if j < n ∧ c ≠ '"' then do
        let t ← write t j c
        getjsonvCopy n s (i + 1) (j + 1) k t
      else some (i, t)

-- The loop while `k` is 0, on a string of `len` characters. Where the key was found, the difference of the
-- lengths does not wrap. The jump over the key is followed by the `i++` of the loop.
def getjsonvFind (jsonk : List Char) (n len : Nat) : List Char → (i : Nat) → Buffer → Option (Nat × Buffer)
  | [], i, t => some (i, t)
  | c :: s, i, t =>
      if (c :: s).take jsonk.length ≠ jsonk then getjsonvFind jsonk n len s (i + 1) t
      else if i < len - jsonk.length then
        getjsonvCopy n ((c :: s).drop (jsonk.length + 1)) (i + jsonk.length + 1) 0 1 t
      else some (i, t)

-- The terminator goes to the index in the source.
def getjsonv (s : CString) (t : Buffer) (jsonk : CString) (n : Nat) : Option Buffer := do
  let (i, t) ← getjsonvFind jsonk.chars n (strlen s) s.chars 0 t
  write t i '\x00'

structure Fields where
  method : CString
  uri : CString
  body : CString
deriving DecidableEq

-- What dispatch takes out of a request before it chooses the route.
def dispatchFields (req : CString) : Option Fields := do
  let l0 ← getln req (zeros 100) 100 0
  let body ← getbody req (zeros 1024) 1024
  let method ← getmethod (← cstr l0) (zeros 5) 5
  let uri ← geturi (← cstr l0) (zeros 50) 50
  pure { method := ← cstr method, uri := ← cstr uri, body := ← cstr body }

end RichardTest.Http
