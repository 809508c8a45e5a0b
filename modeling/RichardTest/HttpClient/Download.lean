import RichardTest.HttpClient
import RichardTest.HttpClient.Rstrchr

namespace RichardTest.HttpClient

open Http
open RichardTest.DtParser (rest)

section Definitions

-- How main ends before it has stored a response.
inductive Stop where
  | fault
  | gethostbyname
  | send
  | fopen
deriving DecidableEq

def orFault {α : Type} : Option α → Except Stop α
  | some a => .ok a
  | none => .error .fault

-- ToLowerCase, in the C locale.
def toLowerCase (s : CString) : CString := upToNul (s.chars.map Char.toLower)

def requestText (host_file host_addr : CString) (portnumber : Int) : CString :=
  lit "GET /" ++ host_file ++ lit " HTTP/1.1\r\nAccept: */*\r\nAccept-Language: zh-cn\r\n" ++
    lit "User-Agent: Mozilla/4.0 (compatible; MSIE 5.01; Windows NT 5.0)\r\nHost: " ++ host_addr ++ lit ":" ++
    printInt portnumber ++ lit "\r\nConnection: Close\r\n\r\n"

-- The name of the file that is written.
def localName (host_file : CString) : Option CString := do
  let pt ← if host_file = lit "" then some none else rstrchr host_file '/'
  let local_file ←
    match pt with
    | some i =>
        if rest host_file (i + 1) ≠ lit "" then put (zeros 256) (rest host_file (i + 1))
        else memcpy (zeros 256) (host_file.chars.take (strlen host_file - 1))
    | none => if host_file ≠ lit "" then put (zeros 256) host_file else put (zeros 256) (lit "index.html")
  cstr local_file

-- The loop that sends the request. Each call of `write` takes a part of what is left, or fails; without a further
-- call the loop does not end.
def sendLoop (request : List Char) (totalsend : Nat) : List (Option Nat) → Except Stop (List Char)
  | [] => if totalsend < request.length then .error .send else .ok []
  | taken :: parts =>
      if totalsend < request.length then
        match taken with
        | none => .error .send
        | some k => do
            let send := min k (request.length - totalsend)
            let more ← sendLoop request (totalsend + send) parts
            pure ((request.drop totalsend).take send ++ more)
      else .ok []

-- The network and the file system around a run.
structure World where
  resolves : CString → Bool
  parts : List (Option Nat)
  response : List Byte
  content : CString → Option (List Byte)

structure Download where
  host : CString
  port : Int
  sent : List Char
  name : CString
  stored : List Byte
deriving DecidableEq

-- `host_addr` and `host_file` are the arrays as they stand at the start.
def main (world : World) (argv1 : CString) (host_addr host_file : Buffer) : Except Stop Download := do
  let (host_addr, host_file, portnumber) ← orFault (getHost (toLowerCase argv1) host_addr host_file)
  let host ← orFault (cstr host_addr)
  let file ← orFault (cstr host_file)
  if world.resolves host = false then throw .gethostbyname
  let request ← orFault (sprintf 1024 (requestText file host portnumber))
  let name ← orFault (localName file)
  let sent ← sendLoop request.chars 0 world.parts
  match world.content name with
  | none => throw .fopen
  | some old => pure { host, port := portnumber, sent, name, stored := localFile old world.response }

end Definitions

section Sending

variable {request : List Char}

-- What has been sent is the request from `totalsend` on, whatever each call takes.
theorem sendLoop_eq_ok {totalsend : Nat} {parts : List (Option Nat)} {sent : List Char}
    (h : sendLoop request totalsend parts = .ok sent) : sent = request.drop totalsend := by
  induction parts generalizing totalsend sent with
  | nil =>
      rw [sendLoop] at h
      split_ifs at h with hlt
      cases h
      rw [List.drop_eq_nil_of_le (not_lt.mp hlt)]
  | cons taken parts ih =>
      unfold sendLoop at h
      split_ifs at h with hlt
      · cases taken with
        | none => cases h
        | some k =>
            dsimp only at h
            cases hmore : sendLoop request (totalsend + min k (request.length - totalsend)) parts with
            | error e =>
                rw [hmore] at h
                cases h
            | ok more =>
                rw [hmore] at h
                cases h
                rw [ih hmore, ← List.drop_drop, List.take_append_drop]
      · cases h
        rw [List.drop_eq_nil_of_le (not_lt.mp hlt)]

-- The calls take `n` bytes together before one of them fails.
def Carries (parts : List (Option Nat)) (n : Nat) : Prop :=
  ∃ (ks : List Nat) (rest : List (Option Nat)), parts = ks.map some ++ rest ∧ n ≤ ks.sum

theorem sendLoop_of_sum {totalsend : Nat} {ks : List Nat} (rest : List (Option Nat))
    (h : request.length ≤ totalsend + ks.sum) :
    sendLoop request totalsend (ks.map some ++ rest) = .ok (request.drop totalsend) := by
  induction ks generalizing totalsend with
  | nil =>
      have hle : request.length ≤ totalsend := h
      have hnot := not_lt.mpr hle
      rw [List.map_nil, List.nil_append, List.drop_eq_nil_of_le hle]
      cases rest with
      | nil => rw [sendLoop, if_neg hnot]
      | cons taken rest =>
          unfold sendLoop
          rw [if_neg hnot]
  | cons k ks ih =>
      rw [List.sum_cons] at h
      rw [List.map_cons, List.cons_append, sendLoop]
      split_ifs with hlt
      · dsimp only
        rw [ih (by omega)]
        show Except.ok _ = _
        rw [← List.drop_drop, List.take_append_drop]
      · rw [List.drop_eq_nil_of_le (not_lt.mp hlt)]

theorem carries_of_sendLoop {totalsend : Nat} {parts : List (Option Nat)} {sent : List Char}
    (h : sendLoop request totalsend parts = .ok sent) : Carries parts (request.length - totalsend) := by
  induction parts generalizing totalsend sent with
  | nil =>
      rw [sendLoop] at h
      split_ifs at h with hlt
      exact ⟨[], [], rfl, by omega⟩
  | cons taken parts ih =>
      unfold sendLoop at h
      split_ifs at h with hlt
      · cases taken with
        | none => cases h
        | some k =>
            dsimp only at h
            cases hmore : sendLoop request (totalsend + min k (request.length - totalsend)) parts with
            | error e =>
                rw [hmore] at h
                cases h
            | ok more =>
                obtain ⟨ks, rest, rfl, hsum⟩ := ih hmore
                exact ⟨k :: ks, rest, rfl, by rw [List.sum_cons]; omega⟩
      · exact ⟨[], taken :: parts, rfl, by omega⟩

theorem sendLoop_eq_ok_iff {parts : List (Option Nat)} {sent : List Char} :
    sendLoop request 0 parts = .ok sent ↔ sent = request ∧ Carries parts request.length := by
  constructor
  · intro h
    exact ⟨sendLoop_eq_ok h, carries_of_sendLoop h⟩
  · rintro ⟨rfl, ks, rest, rfl, hsum⟩
    exact sendLoop_of_sum rest (by rwa [Nat.zero_add])

end Sending

section Names

-- The last part of a path, or all in front of the slash where it ends with one.
def Names (file name : CString) : Prop :=
  (file = lit "" ∧ name = lit "index.html") ∨
    ∃ d n : CString, file = d ++ (lit "/" ++ n) ∧ '/' ∉ n.chars ∧ name = if n = lit "" then d else n

variable {file name d n : CString}

theorem chars_path (d n : CString) : (d ++ (lit "/" ++ n)).chars = d.chars ++ '/' :: n.chars := rfl

theorem path_of_isLast {p : Nat} (h : IsLast file '/' (some p)) :
    ∃ d : CString, file = d ++ (lit "/" ++ rest file (p + 1)) ∧ '/' ∉ (rest file (p + 1)).chars := by
  obtain ⟨hlt, hget⟩ := List.getElem?_eq_some_iff.mp h.1
  refine ⟨⟨file.chars.take p, fun hnul => file.nulFree (List.mem_of_mem_take hnul)⟩, ?_, h.2⟩
  apply CString.ext
  rw [chars_path, rest, ← hget, ← List.drop_eq_getElem_cons hlt, List.take_append_drop]

theorem path_unique {d' n' : CString} (hn : '/' ∉ n.chars) (hn' : '/' ∉ n'.chars)
    (h : d ++ (lit "/" ++ n) = d' ++ (lit "/" ++ n')) : d = d' ∧ n = n' := by
  have hchars : d.chars ++ '/' :: n.chars = d'.chars ++ '/' :: n'.chars := congrArg CString.chars h
  have hlast : ∀ {x y : List Char}, '/' ∉ y → (x ++ '/' :: y).rtakeWhile (· ≠ '/') = y := by
    intro x y hy
    have hall : ∀ c ∈ y.reverse, decide (c ≠ '/') = true := fun c hc =>
      decide_eq_true fun heq => hy (heq ▸ List.mem_reverse.mp hc)
    rw [List.rtakeWhile, List.reverse_append, List.reverse_cons, List.append_assoc, List.takeWhile_append_of_pos hall]
    simp
  have htail := hlast (x := d.chars) hn
  rw [hchars, hlast hn'] at htail
  rw [htail] at hchars
  exact ⟨CString.ext (List.append_cancel_right hchars), CString.ext htail.symm⟩

theorem names_path_iff (hn : '/' ∉ n.chars) :
    Names (d ++ (lit "/" ++ n)) name ↔ name = if n = lit "" then d else n := by
  constructor
  · rintro (⟨hempty, -⟩ | ⟨d', n', hfile, hn', rfl⟩)
    · have hchars := congrArg CString.chars hempty
      rw [chars_path] at hchars
      exact absurd hchars (List.append_ne_nil_of_right_ne_nil _ (List.cons_ne_nil _ _))
    · obtain ⟨rfl, rfl⟩ := path_unique hn hn' hfile
      rfl
  · intro hname
    exact Or.inr ⟨d, n, rfl, hn, hname⟩

theorem cstr_put (t : Buffer) (s : CString) :
    (put t s).bind cstr = if strlen s < t.length then some s else none := by
  rw [put_eq]
  split_ifs
  · exact cstr_stored s t
  · rfl

theorem cstr_memcpy_zeros {k : Nat} (d : CString) :
    (memcpy (zeros k) d.chars).bind cstr = if strlen d < k then some d else none := by
  rw [memcpy, zeros, List.length_replicate, List.drop_replicate]
  by_cases hlt : strlen d < k
  · obtain ⟨m, hm⟩ := Nat.exists_eq_add_of_lt hlt
    have hrest : k - d.chars.length = m + 1 := by
      rw [strlen] at hm
      omega
    rw [if_pos hlt, if_pos (show d.chars.length ≤ k from hlt.le), Option.bind_some, cstr_eq_some_iff, hrest,
      List.replicate_succ]
    exact ⟨List.replicate m '\x00', by rw [List.append_assoc, List.singleton_append]⟩
  · rw [if_neg hlt]
    split_ifs with hle
    · have hrest : k - d.chars.length = 0 := Nat.sub_eq_zero_of_le (not_lt.mp hlt)
      rw [Option.bind_some, hrest, List.replicate_zero, List.append_nil, cstr, if_neg d.nulFree]
    · rfl

-- Where no slash is left, Rstrchr reads in front of the string.
theorem rstrchr_slash (hne : file ≠ lit "") (hlen : strlen file < 2 ^ 31) :
    rstrchr file '/' = none ∧ '/' ∉ file.chars ∨ ∃ p, rstrchr file '/' = some (some p) ∧ IsLast file '/' (some p) := by
  have hstart : (BigNumC.int32 (strlen file)).toNat = strlen file := by
    rw [BigNumC.int32_eq (by omega) (by omega)]
    rfl
  rw [rstrchr, if_neg hne, hstart]
  by_cases hmem : '/' ∈ file.chars
  · refine Or.inr (rstrchrLoop_found (by decide) hmem (Nat.le_refl _) ?_)
    rw [strlen, List.drop_length]
    exact List.not_mem_nil
  · exact Or.inl ⟨rstrchrLoop_missing (by decide) hmem (Nat.le_refl _), hmem⟩

theorem localName_path (hn : '/' ∉ n.chars) (hlen : strlen (d ++ (lit "/" ++ n)) < 2 ^ 31) :
    localName (d ++ (lit "/" ++ n)) =
      if strlen (if n = lit "" then d else n) < 256 then some (if n = lit "" then d else n) else none := by
  have hmem : '/' ∈ (d ++ (lit "/" ++ n)).chars := List.mem_append_right _ List.mem_cons_self
  have hne : d ++ (lit "/" ++ n) ≠ lit "" := fun h => absurd (h ▸ hmem) List.not_mem_nil
  rcases rstrchr_slash hne hlen with ⟨-, hnone⟩ | ⟨p, hrun, hlast⟩
  · exact absurd hmem hnone
  · obtain ⟨d', hfile, hn'⟩ := path_of_isLast hlast
    obtain ⟨-, htail⟩ := path_unique hn hn' hfile
    rw [localName, if_neg hne, hrun, Option.bind_eq_bind, Option.bind_some]
    dsimp only
    rw [← htail]
    by_cases hempty : n = lit ""
    · have hfolder : (d ++ (lit "/" ++ n)).chars.take (strlen (d ++ (lit "/" ++ n)) - 1) = d.chars := by
        rw [hempty, strlen, chars_path, List.length_append]
        exact List.take_left
      rw [if_neg (not_not_intro hempty), hfolder, if_pos hempty]
      exact (cstr_memcpy_zeros d).trans rfl
    · rw [if_pos hempty, if_neg hempty]
      exact (cstr_put _ n).trans (by rw [length_zeros])

theorem localName_eq_some_iff (hlen : strlen file < 2 ^ 31) :
    localName file = some name ↔ Names file name ∧ strlen name < 256 := by
  by_cases hempty : file = lit ""
  · have hindex : localName file = some (lit "index.html") := by
      rw [hempty, localName, if_pos rfl, Option.bind_eq_bind, Option.bind_some]
      dsimp only
      rw [if_neg (not_not_intro rfl)]
      exact (cstr_put _ _).trans (by rw [length_zeros, if_pos (by decide)])
    rw [hindex, Option.some.injEq]
    constructor
    · rintro rfl
      exact ⟨Or.inl ⟨hempty, rfl⟩, by decide⟩
    · rintro ⟨⟨-, rfl⟩ | ⟨d, n, hfile, -, -⟩, -⟩
      · rfl
      · have hchars := congrArg CString.chars (hempty ▸ hfile)
        rw [chars_path] at hchars
        exact absurd hchars.symm (List.append_ne_nil_of_right_ne_nil _ (List.cons_ne_nil _ _))
  · rcases rstrchr_slash hempty hlen with ⟨hrun, hmem⟩ | ⟨p, -, hlast⟩
    · have hnone : localName file = none := by
        rw [localName, if_neg hempty, hrun]
        rfl
      rw [hnone]
      refine iff_of_false (Option.some_ne_none name).symm ?_
      rintro ⟨⟨h, -⟩ | ⟨d, n, rfl, -, -⟩, -⟩
      · exact hempty h
      · exact hmem (List.mem_append_right _ List.mem_cons_self)
    · obtain ⟨d, hfile, hn⟩ := path_of_isLast hlast
      rw [hfile] at hlen ⊢
      rw [localName_path hn hlen, names_path_iff hn]
      generalize (if rest file (p + 1) = lit "" then d else rest file (p + 1)) = name'
      by_cases hfits : strlen name' < 256
      · rw [if_pos hfits, Option.some.injEq]
        constructor
        · rintro rfl
          exact ⟨rfl, hfits⟩
        · rintro ⟨rfl, -⟩
          rfl
      · rw [if_neg hfits]
        refine iff_of_false (Option.some_ne_none name).symm ?_
        rintro ⟨rfl, h⟩
        exact hfits h

end Names

section Downloads

variable {a : Address} {host_addr host_file : Buffer}

theorem strlen_append (s t : CString) : strlen (s ++ t) = strlen s + strlen t := List.length_append

theorem strlen_file_lt (file host : CString) (port : Int) : strlen file < strlen (requestText file host port) := by
  simp only [requestText, strlen_append]
  have : strlen (lit "GET /") = 5 := rfl
  omega

-- What main takes out of an address without a port.
theorem getHost_parts (hne : a.text ≠ lit "") (hport : a.port = none) (haddr : host_addr.length = 256)
    (hfile : host_file.length = 1024) : getHost a.text host_addr host_file =
      if strlen a.host < 256 ∧ strlen a.fileText < 1024 then
        some (stored a.host (cleared host_addr), a.fileAfter (cleared host_file), 80)
      else none := by
  rw [getHost_eq a hne (by omega) (by omega), a.authority_of_port_eq_none hport, haddr, hfile, Address.portNumber,
    hport]
  rfl

-- The host is found, its name and the request fit their arrays, and the server gets the request.
def Requested (a : Address) (world : World) : Prop :=
  world.resolves a.host = true ∧ strlen a.host < 256 ∧ strlen (requestText a.fileText a.host 80) < 1024 ∧
    Carries world.parts (strlen (requestText a.fileText a.host 80))

variable {argv1 : CString} (hlower : toLowerCase argv1 = a.text) (hne : a.text ≠ lit "") (hport : a.port = none)
  (haddr : host_addr.length = 256) (hfile : host_file.length = 1024) {world : World}

include hlower hne hport haddr hfile

-- Behind the request only the name and the file are left.
theorem main_of_requested (h : Requested a world) :
    main world argv1 host_addr host_file = (orFault (localName a.fileText)).bind fun name =>
      match world.content name with
      | none => .error .fopen
      | some old => .ok { host := a.host, port := 80, sent := (requestText a.fileText a.host 80).chars, name,
                          stored := localFile old world.response } := by
  obtain ⟨hresolves, hhost, hrequest, hcarries⟩ := h
  have hsent : sendLoop (requestText a.fileText a.host 80).chars 0 world.parts =
      .ok (requestText a.fileText a.host 80).chars := sendLoop_eq_ok_iff.mpr ⟨rfl, hcarries⟩
  rw [main, hlower, getHost_parts hne hport haddr hfile,
    if_pos ⟨hhost, (strlen_file_lt a.fileText a.host 80).trans hrequest⟩]
  simp only [orFault, bind, Except.bind, cstr_stored, cstr_fileAfter, hresolves, sprintf, if_pos hrequest, hsent]
  rfl

theorem requested_of_main {download : Download} (h : main world argv1 host_addr host_file = .ok download) :
    Requested a world := by
  rw [main, hlower, getHost_parts hne hport haddr hfile] at h
  split_ifs at h with hfits
  · simp only [orFault, bind, Except.bind, cstr_stored, cstr_fileAfter] at h
    cases hresolves : world.resolves a.host with
    | false =>
        rw [hresolves] at h
        cases h
    | true =>
        by_cases hrequest : strlen (requestText a.fileText a.host 80) < 1024
        · refine ⟨hresolves, hfits.1, hrequest, ?_⟩
          simp only [hresolves, sprintf, if_pos hrequest] at h
          cases hname : localName a.fileText with
          | none =>
              rw [hname] at h
              cases h
          | some name =>
              rw [hname] at h
              cases hsent : sendLoop (requestText a.fileText a.host 80).chars 0 world.parts with
              | error e =>
                  simp only [hsent] at h
                  cases h
              | ok sent => exact (sendLoop_eq_ok_iff.mp hsent).2
        · simp only [hresolves, sprintf, if_neg hrequest] at h
          cases h
  · cases h

end Downloads

-- `http://g/d/f`, which may come as `http://G/d/f`.
def plainAddress : Address where
  scheme := .http
  host := lit "g"
  port := none
  file := some (lit "d/f")
  noSlash := by decide
  noColon := by decide
  port_range := by simp

-- The socket takes a hundred bytes at a time and fails behind the third time, and the local file is new.
def plainWorld : World where
  resolves _ := true
  parts := [some 100, some 100, some 100, none]
  response := [0x41] ++ [cr, lf, cr, lf] ++ [0x6f, 0x6b]
  content _ := some []

end RichardTest.HttpClient
