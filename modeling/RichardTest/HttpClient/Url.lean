import RichardTest.Http.Dispatch
import RichardTest.Http.JsonValue
import Mathlib.Algebra.Ring.Int.Defs

namespace RichardTest.HttpClient

open Http
open RichardTest.DtParser (rest)

section Definitions

-- The string from the first `c` on. The terminator counts.
def strchr (s : CString) (c : Char) : Option CString :=
  if c ∈ s.chars then
    some ⟨s.chars.dropWhile (· ≠ c), fun h => s.nulFree ((List.dropWhile_sublist _).subset h)⟩
  else if c = '\x00' then some (lit "")
  else none

-- A copy that does not fit into the array faults.
def memcpy (t : Buffer) (l : List Char) : Option Buffer :=
  if l.length ≤ t.length then some (l ++ t.drop l.length) else none

def isspace (c : Char) : Bool := c = ' ' ∨ ('\t' ≤ c ∧ c ≤ '\r')

def inInt (x : Int) : Option Int := if -2 ^ 31 ≤ x ∧ x < 2 ^ 31 then some x else none

-- The number that the digits at the front are.
def leadingNumber (l : List Char) : Nat := Nat.ofDigitChars 10 (l.takeWhile Char.isDigit) 0

-- A number that is not an `int` is a failure.
def atoi (s : CString) : Option Int :=
  match s.chars.dropWhile isspace with
  | '-' :: l => inInt (-leadingNumber l)
  | '+' :: l => inInt (leadingNumber l)
  | l => inInt (leadingNumber l)

-- `pA` behind the scheme.
def skipScheme (src : CString) : CString :=
  if strncmpEq src (lit "http://") 7 then rest src 7
  else if strncmpEq src (lit "https://") 8 then rest src 8
  else src

-- The copies to `web` and `file`, each with its NUL.
def storeParts (pA : CString) (web file : Buffer) : Option (Buffer × Buffer) :=
  match strchr pA '/' with
  | some pB => do
      let web ← memcpy web (pA.chars.take (strlen pA - strlen pB))
      let file ← memcpy file ((rest pB 1).chars.take (strlen pB - 1))
      let file ← write file (strlen pB - 1) '\x00'
      let web ← write web (strlen pA - strlen pB) '\x00'
      pure (web, file)
  | none => do
      let web ← memcpy web pA.chars
      let web ← write web (strlen pA) '\x00'
      pure (web, file)

def portOf (web : CString) : Option Int :=
  match strchr web ':' with
  | some colon => atoi (rest colon 1)
  | none => some 80

-- `web`, `file` and `*port` after the call. `sizeof` of a parameter is the size of a pointer.
def getHost (src : CString) (web file : Buffer) : Option (Buffer × Buffer × Int) := do
  let web ← memcpy web (zeros 8)
  let file ← memcpy file (zeros 8)
  if src = lit "" then pure (web, file, 0)
  else
    let (web, file) ← storeParts (skipScheme src) web file
    let port ← portOf (← cstr web)
    pure (web, file, port)

end Definitions

section Addresses

inductive Scheme where
  | http
  | https
  | absent
deriving DecidableEq

def Scheme.text : Scheme → CString
  | http => lit "http://"
  | https => lit "https://"
  | absent => lit ""

-- The parts of an address.
structure Address where
  scheme : Scheme
  host : CString
  port : Option Nat
  file : Option CString
  noSlash : '/' ∉ host.chars
  noColon : ':' ∉ host.chars
  port_range : ∀ p ∈ port, 1 ≤ p ∧ p ≤ 65535

namespace Address

variable (a : Address)

-- The host, and the port where there is one.
def authority : CString :=
  match a.port with
  | none => a.host
  | some p => a.host ++ (lit ":" ++ printNat p)

def path : CString :=
  match a.file with
  | none => lit ""
  | some f => lit "/" ++ f

def text : CString := a.scheme.text ++ (a.authority ++ a.path)

def fileText : CString := a.file.getD (lit "")

def portNumber : Int := (a.port.getD 80 : Nat)

end Address

-- The call takes the address apart.
def TakesApart (a : Address) (web file : Buffer) : Prop :=
  ∃ web' file', getHost a.text web file = some (web', file', a.portNumber) ∧
    cstr web' = some a.host ∧ cstr file' = some a.fileText

end Addresses

section Strings

@[simp] theorem chars_append (s t : CString) : (s ++ t).chars = s.chars ++ t.chars := rfl

theorem chars_slash : (lit "/").chars = ['/'] := rfl

theorem chars_colon : (lit ":").chars = [':'] := rfl

theorem strchr_of_notMem {s : CString} {c : Char} (hc : c ≠ '\x00') (h : c ∉ s.chars) : strchr s c = none := by
  rw [strchr, if_neg h, if_neg hc]

theorem isSome_strchr {s : CString} {c : Char} (hc : c ≠ '\x00') : (strchr s c).isSome = true ↔ c ∈ s.chars := by
  by_cases h : c ∈ s.chars
  · rw [strchr, if_pos h]
    exact iff_of_true rfl h
  · rw [strchr_of_notMem hc h]
    exact iff_of_false Bool.false_ne_true h

-- The first `c` of a text is the one behind a part without it.
theorem strchr_append {s t : CString} {c : Char} (hs : c ∉ s.chars) {l : List Char} (ht : t.chars = c :: l) :
    strchr (s ++ t) c = some t := by
  have hmem : c ∈ (s ++ t).chars := by
    rw [chars_append, ht]
    exact List.mem_append_right _ List.mem_cons_self
  have hdrop : (s ++ t).chars.dropWhile (· ≠ c) = t.chars := by
    have hall : ∀ d ∈ s.chars, decide (d ≠ c) = true := fun d hd => decide_eq_true (ne_of_mem_of_not_mem hd hs)
    rw [chars_append, List.dropWhile_append_of_pos hall, ht, List.dropWhile_cons_of_neg (by simp)]
  rw [strchr, if_pos hmem]
  congr 1
  exact CString.ext hdrop

-- What a text and its NUL leave of an array.
def stored (s : CString) (t : Buffer) : Buffer := s.chars ++ '\x00' :: t.drop (strlen s + 1)

theorem memcpy_of_le {t : Buffer} {l : List Char} (h : l.length ≤ t.length) :
    memcpy t l = some (l ++ t.drop l.length) := if_pos h

-- The copy of a text with its NUL.
def put (t : Buffer) (s : CString) : Option Buffer := (memcpy t s.chars).bind fun t => write t (strlen s) '\x00'

theorem put_eq (t : Buffer) (s : CString) : put t s = if strlen s < t.length then some (stored s t) else none := by
  unfold put stored strlen
  by_cases hle : s.chars.length ≤ t.length
  · have hlength : (s.chars ++ t.drop s.chars.length).length = t.length := by
      rw [List.length_append, List.length_drop]
      omega
    rw [memcpy_of_le hle, Option.bind_some, write, hlength]
    by_cases hlt : s.chars.length < t.length
    · rw [if_pos hlt, if_pos hlt, List.set_append_right _ _ (Nat.le_refl _), Nat.sub_self,
        List.drop_eq_getElem_cons hlt, List.set_cons_zero]
    · rw [if_neg hlt, if_neg hlt]
  · rw [memcpy, if_neg hle, if_neg fun hlt => hle (Nat.le_of_lt hlt)]
    rfl

theorem cstr_stored (s : CString) (t : Buffer) : cstr (stored s t) = some s := by
  rw [cstr_eq_some_iff, stored]
  exact ⟨t.drop (strlen s + 1), by rw [List.append_assoc, List.singleton_append]⟩

end Strings

section Ports

theorem not_isspace_of_isDigit {c : Char} (h : c.isDigit = true) : isspace c = false := by
  rw [Char.isDigit, Bool.and_eq_true, decide_eq_true_eq, decide_eq_true_eq] at h
  rw [isspace, decide_eq_false_iff_not, not_or, not_and, Char.not_le]
  have hcr : '\r' < c := Std.lt_of_lt_of_le (show '\r' < '0' by decide) h.1
  refine ⟨fun heq => ?_, fun _ => hcr⟩
  subst heq
  exact absurd h.1 (by decide)

theorem atoi_printNat {p : Nat} (hp : p ≤ 65535) : atoi (printNat p) = some (p : Int) := by
  have hdigits : ∀ c ∈ Nat.toDigits 10 p, c.isDigit = true := fun c hc =>
    Nat.isDigit_of_mem_toDigits (by decide) (by decide) hc
  have hspace : (printNat p).chars.dropWhile isspace = Nat.toDigits 10 p := by
    show (Nat.toDigits 10 p).dropWhile isspace = _
    cases h : Nat.toDigits 10 p with
    | nil => rfl
    | cons c l => exact List.dropWhile_cons_of_neg (by simp [not_isspace_of_isDigit (hdigits c (by simp [h]))])
  have hnumber : leadingNumber (Nat.toDigits 10 p) = p := by
    rw [leadingNumber, List.takeWhile_eq_self_iff.mpr hdigits]
    exact Nat.ofDigitChars_ten_toDigits
  unfold atoi
  rw [hspace]
  split
  next l h => exact absurd (hdigits '-' (by simp [h])) (by decide)
  next l h => exact absurd (hdigits '+' (by simp [h])) (by decide)
  next =>
    rw [hnumber, inInt, if_pos (by omega)]

theorem portOf_authority (a : Address) : portOf a.authority = some a.portNumber := by
  unfold portOf Address.authority Address.portNumber
  cases hport : a.port with
  | none =>
      rw [strchr_of_notMem (by decide) a.noColon]
      rfl
  | some p =>
      rw [strchr_append a.noColon (l := (printNat p).chars) rfl]
      exact atoi_printNat (a.port_range p hport).2

end Ports

section Storing

theorem slash_notMem_authority (a : Address) : '/' ∉ a.authority.chars := by
  unfold Address.authority
  cases a.port with
  | none => exact a.noSlash
  | some p =>
      intro h
      obtain h | h := List.mem_append.mp h
      · exact a.noSlash h
      · obtain h | h := List.mem_append.mp h
        · exact absurd h (by rw [chars_colon]; decide)
        · exact absurd (Nat.isDigit_of_mem_toDigits (by decide) (by decide) h) (by decide)

variable (s f : CString) (web file : Buffer)

theorem storeParts_of_no_slash (hs : '/' ∉ s.chars) :
    storeParts s web file = (put web s).map fun web => (web, file) := by
  rw [storeParts, strchr_of_notMem (by decide) hs, put]
  cases memcpy web s.chars with
  | none => rfl
  | some t =>
      simp only [Option.bind_eq_bind, Option.bind_some]
      cases write t (strlen s) '\x00' <;> rfl

-- The two terminators are written after both copies.
theorem storeParts_of_slash (hs : '/' ∉ s.chars) :
    storeParts (s ++ (lit "/" ++ f)) web file =
      (put web s).bind fun web => (put file f).map fun file => (web, file) := by
  have hpath : strlen (s ++ (lit "/" ++ f)) - strlen (lit "/" ++ f) = strlen s := by
    rw [strlen, strlen, chars_append, List.length_append, Nat.add_sub_cancel, strlen]
  have htake : (s ++ (lit "/" ++ f)).chars.take (strlen s) = s.chars := List.take_left
  have hfile : strlen (lit "/" ++ f) - 1 = strlen f := by
    rw [strlen, chars_append, chars_slash, List.singleton_append, List.length_cons, Nat.add_sub_cancel, strlen]
  have hrest : (rest (lit "/" ++ f) 1).chars.take (strlen f) = f.chars := List.take_length
  rw [storeParts, strchr_append hs rfl]
  simp only [hpath, htake, hfile, hrest, put, Option.bind_eq_bind]
  cases memcpy web s.chars with
  | none => rfl
  | some t =>
      simp only [Option.bind_some]
      cases memcpy file f.chars with
      | none => cases write t (strlen s) '\x00' <;> rfl
      | some t' =>
          simp only [Option.bind_some]
          cases write t (strlen s) '\x00' <;> cases write t' (strlen f) '\x00' <;> rfl

end Storing

section Schemes

-- An authority does not end like the scheme of a URL.
theorem authority_ne_append_colon (a : Address) (l : List Char) : a.authority.chars ≠ l ++ [':'] := by
  intro h
  have hlast : ':' ∈ a.authority.chars.getLast? := by rw [h, List.getLast?_concat]; rfl
  cases hport : a.port with
  | none =>
      have hchars : a.authority.chars = a.host.chars := by
        unfold Address.authority
        rw [hport]
      rw [hchars] at hlast
      exact a.noColon (List.mem_of_getLast? hlast)
  | some p =>
      have hchars : a.authority.chars = a.host.chars ++ [':'] ++ Nat.toDigits 10 p := by
        unfold Address.authority
        rw [hport, List.append_assoc]
        rfl
      rw [hchars, List.getLast?_append, List.getLast?_eq_some_getLast Nat.toDigits_ne_nil, Option.some_or] at hlast
      have hdigit : ((Nat.toDigits 10 p).getLast Nat.toDigits_ne_nil).isDigit = true :=
        Nat.isDigit_of_mem_toDigits (by decide) (by decide) (List.getLast_mem _)
      rw [Option.some.inj hlast] at hdigit
      exact absurd hdigit (by decide)

-- A prefix up to the first `/` is what comes before the path.
theorem not_scheme_isPrefix (a : Address) {l : List Char} (hl : '/' ∉ l) :
    ¬l ++ ':' :: ['/', '/'] <+: (a.authority ++ a.path).chars := by
  rintro ⟨r, hr⟩
  have hslash : ∀ c ∈ l ++ [':'], decide (c ≠ '/') = true := by
    intro c hc
    obtain hc | hc := List.mem_append.mp hc
    · exact decide_eq_true (ne_of_mem_of_not_mem hc hl)
    · rw [List.mem_singleton.mp hc]
      decide
  have hauth : ∀ c ∈ a.authority.chars, decide (c ≠ '/') = true := fun c hc =>
    decide_eq_true (ne_of_mem_of_not_mem hc (slash_notMem_authority a))
  have hpath : a.path.chars.takeWhile (fun c => decide (c ≠ '/')) = [] := by
    unfold Address.path
    cases a.file with
    | none => rfl
    | some f => rfl
  have hsplit : (l ++ [':']) ++ ('/' :: '/' :: r) = a.authority.chars ++ a.path.chars := by
    rw [← chars_append, ← hr, List.append_assoc, List.append_assoc]
    rfl
  have htake := congrArg (List.takeWhile fun c => decide (c ≠ '/')) hsplit
  rw [List.takeWhile_append_of_pos hslash, List.takeWhile_append_of_pos hauth, hpath,
    List.takeWhile_cons_of_neg (by decide), List.append_nil, List.append_nil] at htake
  exact authority_ne_append_colon a l htake.symm

theorem skipScheme_text (a : Address) : skipScheme a.text = a.authority ++ a.path := by
  have hhttp : strncmpEq a.text (lit "http://") 7 = true ↔ "http://".toList <+: a.text.chars :=
    strncmpEq_iff a.text (lit "http://")
  have hhttps : strncmpEq a.text (lit "https://") 8 = true ↔ "https://".toList <+: a.text.chars :=
    strncmpEq_iff a.text (lit "https://")
  have htext : a.text.chars = a.scheme.text.chars ++ (a.authority ++ a.path).chars := rfl
  have hdrop : ∀ n, a.scheme.text.chars.length = n → rest a.text n = a.authority ++ a.path := by
    rintro n rfl
    apply CString.ext
    show a.text.chars.drop _ = _
    rw [htext, List.drop_left]
  unfold skipScheme
  cases hscheme : a.scheme with
  | http =>
      rw [hscheme] at htext hdrop
      rw [if_pos (hhttp.mpr ⟨_, htext.symm⟩), hdrop 7 rfl]
  | https =>
      rw [hscheme] at htext hdrop
      have hnot : ¬"http://".toList <+: a.text.chars := by
        rw [htext]
        rintro ⟨r, hr⟩
        have hrest : ':' :: ('/' :: '/' :: r) = 's' :: ("://".toList ++ (a.authority ++ a.path).chars) :=
          @List.append_cancel_left _ "http".toList _ _ hr
        exact absurd (List.cons.inj hrest).1 (by decide)
      rw [if_neg (hhttp.not.mpr hnot), if_pos (hhttps.mpr ⟨_, htext.symm⟩), hdrop 8 rfl]
  | absent =>
      rw [hscheme] at htext
      have htext' : a.text = a.authority ++ a.path := CString.ext htext
      have hhttp' := not_scheme_isPrefix a (l := "http".toList) (by decide)
      have hhttps' := not_scheme_isPrefix a (l := "https".toList) (by decide)
      rw [htext'] at hhttp hhttps ⊢
      rw [if_neg fun h => hhttp' (hhttp.mp h), if_neg fun h => hhttps' (hhttps.mp h)]

end Schemes

section Cutting

variable (a : Address) {web file : Buffer}

-- Only the first cells are cleared, as many as a pointer has bytes.
def cleared (t : Buffer) : Buffer := zeros 8 ++ t.drop 8

theorem memcpy_zeros {t : Buffer} (h : 8 ≤ t.length) : memcpy t (zeros 8) = some (cleared t) := if_pos h

theorem length_cleared {t : Buffer} (h : 8 ≤ t.length) : (cleared t).length = t.length := by
  rw [cleared, List.length_append, List.length_drop, zeros, List.length_replicate]
  omega

-- `file` after the call.
def Address.fileAfter (t : Buffer) : Buffer :=
  match a.file with
  | none => t
  | some f => stored f t

theorem storeParts_eq {web file : Buffer} (hfile : 0 < file.length) :
    storeParts (a.authority ++ a.path) web file =
      if strlen a.authority < web.length ∧ strlen a.fileText < file.length then
        some (stored a.authority web, a.fileAfter file)
      else none := by
  unfold Address.path Address.fileText Address.fileAfter
  cases a.file with
  | none =>
      have hempty : a.authority ++ lit "" = a.authority := CString.ext (List.append_nil _)
      have hzero : strlen ((none : Option CString).getD (lit "")) < file.length := hfile
      rw [hempty, storeParts_of_no_slash _ _ _ (slash_notMem_authority a), put_eq]
      by_cases hlt : strlen a.authority < web.length
      · rw [if_pos hlt, if_pos ⟨hlt, hzero⟩]
        rfl
      · rw [if_neg hlt, if_neg fun h => hlt h.1]
        rfl
  | some f =>
      rw [storeParts_of_slash _ _ _ _ (slash_notMem_authority a), put_eq, Option.getD_some]
      by_cases hlt : strlen a.authority < web.length
      · rw [if_pos hlt, Option.bind_some, put_eq]
        by_cases hlt' : strlen f < file.length
        · rw [if_pos hlt', if_pos ⟨hlt, hlt'⟩]
          rfl
        · rw [if_neg hlt', if_neg fun h => hlt' h.2]
          rfl
      · rw [if_neg hlt, Option.bind_none, if_neg fun h => hlt h.1]

-- The port is read but stays in `web`.
theorem getHost_eq (hne : a.text ≠ lit "") (hweb : 8 ≤ web.length) (hfile : 8 ≤ file.length) :
    getHost a.text web file =
      if strlen a.authority < web.length ∧ strlen a.fileText < file.length then
        some (stored a.authority (cleared web), a.fileAfter (cleared file), a.portNumber)
      else none := by
  have hfile' : 0 < (cleared file).length := by
    rw [length_cleared hfile]
    omega
  rw [getHost, memcpy_zeros hweb, memcpy_zeros hfile, Option.bind_eq_bind, Option.bind_some, Option.bind_some,
    if_neg hne, skipScheme_text, storeParts_eq a hfile', length_cleared hweb, length_cleared hfile]
  by_cases hfits : strlen a.authority < web.length ∧ strlen a.fileText < file.length
  · rw [if_pos hfits, if_pos hfits]
    simp only [Option.bind_eq_bind, Option.bind_some, cstr_stored, portOf_authority]
    rfl
  · rw [if_neg hfits, if_neg hfits]
    rfl

theorem le_length_of_getHost {src : CString} {r : Buffer × Buffer × Int} (h : getHost src web file = some r) :
    8 ≤ web.length ∧ 8 ≤ file.length := by
  by_cases hweb : 8 ≤ web.length
  · by_cases hfile : 8 ≤ file.length
    · exact ⟨hweb, hfile⟩
    · have hnone : memcpy file (zeros 8) = none := if_neg hfile
      rw [getHost, memcpy_zeros hweb, hnone] at h
      exact absurd h.symm (Option.some_ne_none r)
  · have hnone : memcpy web (zeros 8) = none := if_neg hweb
    rw [getHost, hnone] at h
    exact absurd h.symm (Option.some_ne_none r)

theorem Address.portNumber_ne_zero : a.portNumber ≠ 0 := by
  unfold portNumber
  cases hport : a.port with
  | none => decide
  | some p => exact Int.natCast_ne_zero.mpr (Nat.ne_of_gt (a.port_range p hport).1)

theorem Address.authority_of_port_eq_none (h : a.port = none) : a.authority = a.host := by
  unfold authority
  rw [h]

theorem Address.port_eq_none_of_authority (h : a.authority = a.host) : a.port = none := by
  cases hport : a.port with
  | none => rfl
  | some p =>
      unfold authority at h
      rw [hport] at h
      have hlength := congrArg strlen h
      simp [strlen, chars_colon] at hlength

theorem cstr_fileAfter (t : Buffer) : cstr (a.fileAfter (cleared t)) = some a.fileText := by
  unfold Address.fileAfter Address.fileText
  cases a.file with
  | none => exact (cstr_eq_some_iff _ _).mpr ⟨zeros 7 ++ t.drop 8, rfl⟩
  | some f => exact cstr_stored f _

-- So the host is cut out of the addresses without a port that fit the arrays, the empty address apart.
theorem takesApart_iff (a : Address) (web file : Buffer) :
    TakesApart a web file ↔
      a.port = none ∧ a.text ≠ lit "" ∧ (8 ≤ web.length ∧ strlen a.host < web.length) ∧
        8 ≤ file.length ∧ strlen a.fileText < file.length := by
  constructor
  · rintro ⟨web', file', hrun, hhost, -⟩
    have hweb := le_length_of_getHost hrun
    have hne : a.text ≠ lit "" := by
      intro hempty
      rw [getHost, memcpy_zeros hweb.1, memcpy_zeros hweb.2, Option.bind_eq_bind, Option.bind_some,
        Option.bind_some, if_pos hempty] at hrun
      have hport : (0 : Int) = a.portNumber := congrArg (fun r => r.2.2) (Option.some.inj hrun)
      exact a.portNumber_ne_zero hport.symm
    rw [getHost_eq a hne hweb.1 hweb.2] at hrun
    split at hrun
    next hfits =>
      have hsame : stored a.authority (cleared web) = web' := congrArg Prod.fst (Option.some.inj hrun)
      rw [← hsame, cstr_stored] at hhost
      have hhost' := Option.some.inj hhost
      rw [hhost'] at hfits
      exact ⟨a.port_eq_none_of_authority hhost', hne, ⟨hweb.1, hfits.1⟩, hweb.2, hfits.2⟩
    next => exact absurd hrun.symm (Option.some_ne_none _)
  · rintro ⟨hport, hne, ⟨hweb, hhost⟩, hfile, hfits⟩
    have hauth := a.authority_of_port_eq_none hport
    refine ⟨stored a.host (cleared web), a.fileAfter (cleared file), ?_, cstr_stored a.host _,
      cstr_fileAfter a file⟩
    rw [getHost_eq a hne hweb hfile, hauth, if_pos ⟨hhost, hfits⟩]

-- `http://h:8080/f`.
def portedAddress : Address where
  scheme := .http
  host := lit "h"
  port := some 8080
  file := some (lit "f")
  noSlash := by decide
  noColon := by decide
  port_range := by simp

theorem length_zeros (n : Nat) : (zeros n).length = n := List.length_replicate

-- In the arrays of main, which are large enough for it.
theorem getHost_keeps_port :
    ¬∀ a : Address, a.text ≠ lit "" → strlen a.text < 256 → TakesApart a (zeros 256) (zeros 1024) := by
  intro hall
  have hne : portedAddress.text ≠ lit "" := by decide
  obtain ⟨web', file', hrun, hhost, -⟩ := hall portedAddress hne (by decide)
  rw [getHost_eq portedAddress hne (by rw [length_zeros]; decide) (by rw [length_zeros]; decide), length_zeros,
    length_zeros, if_pos (by decide)] at hrun
  have hsame : stored portedAddress.authority (cleared (zeros 256)) = web' :=
    congrArg Prod.fst (Option.some.inj hrun)
  rw [← hsame, cstr_stored] at hhost
  exact absurd (Option.some.inj hhost) (by decide)

end Cutting

end RichardTest.HttpClient
