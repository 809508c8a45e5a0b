import RichardTest.Http.Dispatch
import RichardTest.Http.Peer

namespace RichardTest.Http

open RichardTest.DtParser (prsDt prsDt_eq_some_iff idOf unitAt extSpan)

section Model

-- One connection of the server: a single read into a cleared array, which then is read as a string.
def rcvdata (now : CString) (arrived : List Char) : Option CString := do
  dispatch now (← cstr (arrived ++ zeros (1024 - arrived.length)))

-- What req does behind the message: the line of the body that it hands out.
def readBody (net : Network) (resp : Buffer) (n : Nat) (bodyline : Int) : Option Buffer := do
  let (_, rawResp) ← writemsg net (zeros 4096)
  let rawBody ← getbody (← cstr rawResp) (zeros 4096) 4096
  getln (← cstr rawBody) resp n bodyline

-- The peer takes the message and gives its answers.
def req (peer : CString → Option Network) (ip : CString) (port : Int) (method path body : CString) (resp : Buffer)
    (n : Nat) (bodyline : Int) : Option Buffer := do
  let message ← reqMessage ip port method path body
  readBody (← peer message) resp n bodyline

-- What the connection does to the messages: how much of the request the one read takes, and how the response
-- is cut.
structure Link where
  firstRead : CString → Nat
  cut : CString → List Chunk
  whole : ∀ R, (cut R).flatMap Chunk.bytes = R.chars
  nonempty : ∀ R, ∀ c ∈ cut R, c.bytes ≠ []

-- The client against the server.
def exchange (now : CString) (link : Link) (ip : CString) (port : Int) (method path body : CString)
    (resp : Buffer) (n : Nat) (bodyline : Int) : Option Buffer :=
  req (fun message => do
      let response ← rcvdata now (message.chars.take (min (link.firstRead message) 1024))
      some ⟨true, (link.cut response).map Recv.bytes⟩)
    ip port method path body resp n bodyline

end Model

section Answer

-- What a caller in the same program gets for a body.
def answer (path body : CString) : Option CString :=
  if "/prs/dt".toList <+: path.chars then prsDt (filled 1024 body.chars) else some (lit "\x7b\"status\":200\x7d")

-- The paths that are answered, and the bodies that can be.
def Answered (path body : CString) : Prop :=
  ¬ "/up/dt".toList <+: path.chars ∧ ¬ "/dn/dt".toList <+: path.chars ∧
    ("/prs/dt".toList <+: path.chars → ReportFits body)

theorem route_answer (now : CString) {method : CString} (path body : CString)
    (hget : ¬ "GET".toList <+: method.chars) :
    (route now method path (filled 1024 body.chars)).bind Pointer.read =
      if "/up/dt".toList <+: path.chars ∨ "/dn/dt".toList <+: path.chars then none else answer path body := by
  have hget' : ¬ strncmpEq method (lit "GET") 3 = true := fun h => hget ((strncmpEq_iff _ (lit "GET")).mp h)
  have hprs : strncmpEq path (lit "/prs/dt") 7 = true ↔ "/prs/dt".toList <+: path.chars :=
    strncmpEq_iff _ (lit "/prs/dt")
  have hup : strncmpEq path (lit "/up/dt") 6 = true ↔ "/up/dt".toList <+: path.chars :=
    strncmpEq_iff _ (lit "/up/dt")
  have hdn : strncmpEq path (lit "/dn/dt") 6 = true ↔ "/dn/dt".toList <+: path.chars :=
    strncmpEq_iff _ (lit "/dn/dt")
  rw [route, if_neg hget', answer]
  simp only [hprs, hup, hdn]
  by_cases h : "/prs/dt".toList <+: path.chars
  · have hup' : ¬ "/up/dt".toList <+: path.chars := fun h' => absurd
      (List.prefix_of_prefix_length_le h' h (by decide)) (by decide)
    have hdn' : ¬ "/dn/dt".toList <+: path.chars := fun h' => absurd
      (List.prefix_of_prefix_length_le h' h (by decide)) (by decide)
    rw [if_pos h, if_neg (not_or_intro hup' hdn'), if_pos h]
    cases prsDt (filled 1024 body.chars) <;> rfl
  · rw [if_neg h, if_neg h]
    by_cases hup' : "/up/dt".toList <+: path.chars
    · rw [if_pos hup', if_pos (Or.inl hup')]
      rfl
    · rw [if_neg hup']
      by_cases hdn' : "/dn/dt".toList <+: path.chars
      · rw [if_pos hdn', if_pos (Or.inr hdn')]
        rfl
      · rw [if_neg hdn', if_neg (not_or_intro hup' hdn')]
        rfl

theorem answer_fits_iff (path body : CString) (hbody : strlen body < 1024) :
    (∃ x, answer path body = some x ∧ strlen (respText x) < 1024) ↔
      ("/prs/dt".toList <+: path.chars → ReportFits body) := by
  rw [answer]
  split_ifs with h
  · rw [report_answered_iff body hbody, imp_iff_right h]
  · have hfits : strlen (respText (lit "\x7b\"status\":200\x7d")) < 1024 := by decide
    exact iff_of_true ⟨_, rfl, hfits⟩ fun h' => absurd h' h

end Answer

section Line

-- A text in one line stays one however it is taken apart.
def InLine (t : CString) : Prop := ∀ c ∈ t.chars, inLine c = true

instance (t : CString) : Decidable (InLine t) := List.decidableBAll (fun c => inLine c = true) t.chars

theorem inLine_firstLine (t : CString) : InLine (firstLine t) := fun _ hc => List.mem_takeWhile_imp hc

theorem answer_nonempty {path body x : CString} (hbody : strlen body < 1024) (hx : answer path body = some x) :
    x.chars ≠ [] := by
  rw [answer] at hx
  split_ifs at hx
  · have hread : unitAt body + 186 + extSpan (idOf body) < strlen body + (1024 - strlen body) := by
      unfold unitAt extSpan
      split_ifs <;> omega
    obtain ⟨-, -, -, rfl⟩ := (prsDt_eq_some_iff (by omega) hread x).mp hx
    intro hempty
    have hlong := (strlen_report body).1
    rw [strlen, hempty] at hlong
    exact absurd hlong (by decide)
  · cases hx
    decide

end Line

section Truncated

-- What is behind the header in a part of the message is either nothing or all but the lost end.
theorem behindBlank_prefix {p s : List Char} (h : p <+: s) :
    behindBlank p = [] ∨
      behindBlank p <+: behindBlank s ∧
        (behindBlank p).length + s.length = (behindBlank s).length + p.length := by
  induction p generalizing s with
  | nil => exact Or.inl rfl
  | cons c p ih =>
      obtain ⟨q, rfl⟩ := h
      have hfront : c :: p <+: c :: (p ++ q) := ⟨q, rfl⟩
      rw [List.cons_append, behindBlank, behindBlank]
      by_cases hblank : ['\r', '\n', '\r', '\n'] <+: c :: p
      · have hlen : 4 ≤ p.length + 1 := hblank.length_le
        rw [if_pos hblank, if_pos (hblank.trans hfront), List.drop_append_of_le_length (by omega)]
        refine Or.inr ⟨List.prefix_append _ _, ?_⟩
        simp only [List.length_append, List.length_drop, List.length_cons]
        omega
      · rw [if_neg hblank]
        by_cases hblank' : ['\r', '\n', '\r', '\n'] <+: c :: (p ++ q)
        · -- the empty line is cut itself
          have hshort : ¬ 4 ≤ p.length + 1 := fun hlen =>
            hblank (List.prefix_of_prefix_length_le hblank' hfront hlen)
          exact Or.inl (behindBlank_of_length_lt p (by omega))
        · rw [if_neg hblank']
          refine (ih (List.prefix_append p q)).imp_right fun hih => ⟨hih.1, ?_⟩
          have hlen := hih.2
          simp only [List.length_cons]
          omega

theorem bodyOf_respText (x : CString) : bodyOf (respText x) = x := by
  have hstatus : (lit "HTTP/1.1 200 OK\r\n").chars = "HTTP/1.1 200 OK".toList ++ ['\r', '\n'] := by decide
  have htext : (respText x).chars =
      crlfLines ["HTTP/1.1 200 OK".toList, "Content-Length: ".toList ++ (printNat (strlen x)).chars] ++
        '\r' :: '\n' :: x.chars := by
    simp only [respText, chars_append, crlfLines_cons, hstatus]
    simp [lit, upToNul, crlfLines]
  apply CString.ext
  rw [bodyOf]
  dsimp only
  rw [htext, behindBlank_crlfLines _ _ x.chars (by decide)]
  intro a ha
  rw [List.mem_singleton.mp ha]
  refine ⟨by simp, fun h => ?_⟩
  rcases List.mem_append.mp h with h | h
  · exact absurd h (by decide)
  · exact (printNat_noBreak _ _ h).2 rfl

-- The client reads off a part of the response what it reads off the whole one exactly when nothing is lost.
theorem firstLine_received_iff {x p : CString} (hx : InLine x) (hne : x.chars ≠ [])
    (hp : p.chars <+: (respText x).chars) :
    firstLine (bodyOf p) = bodyOf p ∧ (bodyOf p = x ↔ p.chars = (respText x).chars) := by
  have hbody : (bodyOf (respText x)).chars = x.chars := congrArg CString.chars (bodyOf_respText x)
  have hall := behindBlank_prefix hp
  have hline : InLine (bodyOf p) := by
    intro c hc
    rcases hall with hnil | ⟨hpre, -⟩
    · rw [bodyOf] at hc
      dsimp only at hc
      rw [hnil] at hc
      exact absurd hc List.not_mem_nil
    · exact hx c (hbody ▸ hpre.subset hc)
  refine ⟨CString.ext (List.takeWhile_eq_self_iff.mpr hline), fun h => ?_, fun h => ?_⟩
  · rcases hall with hnil | ⟨hpre, hlen⟩
    · exact absurd (h ▸ hnil) hne
    · apply hp.eq_of_length
      have hsame : (behindBlank p.chars).length = (behindBlank (respText x).chars).length :=
        congrArg List.length ((congrArg CString.chars h).trans hbody.symm)
      omega
  · rw [CString.ext h, bodyOf_respText]

end Truncated

section Exchange

-- What the client reads of a response, however it is cut.
theorem readBody_respText {x : CString} (hfits : strlen (respText x) < 1024) (cs : List Chunk)
    (hcs : cs.flatMap Chunk.bytes = (respText x).chars) (n : Nat) :
    ∃ p : CString, p.chars = received cs ∧
      readBody ⟨true, cs.map Recv.bytes⟩ (zeros n) n 0 =
        if strlen (firstLine (bodyOf p)) < n then some (filled n (firstLine (bodyOf p)).chars) else none := by
  have hpre : received cs <+: (respText x).chars := hcs ▸ received_isPrefix cs
  have hlen := hpre.length_le
  obtain ⟨t, hrun, hcstr⟩ := writemsg_eq cs (zeros 4096) (cstr_zeros 4096 (by decide))
    (hcs ▸ (respText x).nulFree) (by rw [hcs, length_zeros]; exact hfits.trans (by decide))
  obtain ⟨p, hp, hchars⟩ := Option.map_eq_some_iff.mp hcstr
  have hbody : strlen (bodyOf p) < 4096 := by
    have hle := strlen_bodyOf_le p
    simp only [strlen] at hle hfits
    rw [hchars] at hle
    simp only [strlen]
    omega
  refine ⟨p, hchars, ?_⟩
  rw [readBody, hrun, Option.bind_eq_bind, Option.bind_some]
  simp only [hp, Option.bind_eq_bind, Option.bind_some, getbody_zeros p 4096 (by decide), if_pos hbody,
    cstr_filled hbody, getln_zeros]

-- The client hands out the text of the response when it is one line that fits and nothing of it is lost.
theorem readBody_reads_iff {x : CString} (hne : x.chars ≠ []) (hfits : strlen (respText x) < 1024)
    (cs : List Chunk) (hcs : cs.flatMap Chunk.bytes = (respText x).chars) (hcs' : ∀ c ∈ cs, c.bytes ≠ []) (n : Nat) :
    (∃ t, readBody ⟨true, cs.map Recv.bytes⟩ (zeros n) n 0 = some t ∧ cstr t = some x) ↔
      InLine x ∧ strlen x < n ∧ ∀ c ∈ cs.dropLast, c.bytes.length = 256 := by
  obtain ⟨p, hp, hread⟩ := readBody_respText hfits cs hcs n
  have hreads : (∃ t, readBody ⟨true, cs.map Recv.bytes⟩ (zeros n) n 0 = some t ∧ cstr t = some x) ↔
      strlen x < n ∧ firstLine (bodyOf p) = x := by
    rw [hread]
    constructor
    · rintro ⟨t, ht, hcstr⟩
      split_ifs at ht with hn
      cases ht
      have hsame := Option.some.inj ((cstr_filled hn).symm.trans hcstr)
      exact ⟨hsame ▸ hn, hsame⟩
    · rintro ⟨hn, hsame⟩
      rw [hsame, if_pos hn]
      exact ⟨_, rfl, cstr_filled hn⟩
  rw [hreads]
  by_cases hline : InLine x
  · have hpre : p.chars <+: (respText x).chars := by
      rw [hp, ← hcs]
      exact received_isPrefix cs
    obtain ⟨hfirst, hall⟩ := firstLine_received_iff hline hne hpre
    rw [hp, ← hcs, received_eq_iff cs hcs'] at hall
    rw [hfirst, hall, and_iff_right hline]
  · refine iff_of_false ?_ fun h => hline h.1
    rintro ⟨-, hsame⟩
    exact hline (hsame ▸ inLine_firstLine (bodyOf p))

-- The requests of a client whose parts fit the arrays of both sides.
structure Sendable (ip : CString) (port : Int) (method path body : CString) : Prop where
  methodLength : strlen method ≤ 4
  methodChars : ∀ c ∈ method.chars, c ≠ ' ' ∧ c ≠ '\r' ∧ c ≠ '\n'
  notGet : ¬ "GET".toList <+: method.chars
  pathLength : strlen path ≤ 49
  pathChars : ∀ c ∈ path.chars, c ≠ ' ' ∧ c ≠ '\r' ∧ c ≠ '\n'
  ipChars : ∀ c ∈ ip.chars, c ≠ '\r' ∧ c ≠ '\n'
  debugFits : strlen (debugText ip port method path body) < 1024
  headerFits : strlen (reqHeader ip port method path) < 512
  requestFits : strlen (reqText (reqHeader ip port method path) method body) < 1024

variable {ip : CString} {port : Int} {method path body : CString} (h : Sendable ip port method path body)

include h

-- What the server makes of the whole message.
theorem rcvdata_message (now : CString) :
    strlen body < 1024 ∧ rcvdata now (reqText (reqHeader ip port method path) method body).chars =
      if "/up/dt".toList <+: path.chars ∨ "/dn/dt".toList <+: path.chars then none
      else (answer path body).bind fun x => sprintf 1024 (respText x) := by
  have hfields := dispatchFields_reqText ip port method path body h.methodLength h.methodChars h.notGet h.pathLength
    h.pathChars h.ipChars h.requestFits
  rw [dispatchFields_scan] at hfields
  split_ifs at hfields with hscan
  obtain ⟨hmethod, huri, hbody⟩ := Fields.mk.inj (Option.some.inj hfields)
  refine ⟨hbody ▸ hscan.2.1, ?_⟩
  rw [rcvdata, show _ ++ zeros _ = filled 1024 _ from rfl, cstr_filled h.requestFits]
  simp only [Option.bind_eq_bind, Option.bind_some]
  rw [dispatch_eq, if_pos hscan, hmethod, huri, hbody, route_answer now path body h.notGet]
  split_ifs
  · rfl
  · rfl

theorem exchange_eq (now : CString) (link : Link)
    (hread : ∀ message, strlen message < 1024 → strlen message ≤ link.firstRead message) (n : Nat) :
    exchange now link ip port method path body (zeros n) n 0 =
      if "/up/dt".toList <+: path.chars ∨ "/dn/dt".toList <+: path.chars then none
      else ((answer path body).bind fun x => sprintf 1024 (respText x)).bind fun response =>
        readBody ⟨true, (link.cut response).map Recv.bytes⟩ (zeros n) n 0 := by
  have hmessage := reqMessage_eq h.headerFits h.requestFits
  rw [if_pos h.debugFits] at hmessage
  have htake : (reqText (reqHeader ip port method path) method body).chars.take
      (min (link.firstRead (reqText (reqHeader ip port method path) method body)) 1024) =
        (reqText (reqHeader ip port method path) method body).chars := by
    have hlen := hread _ h.requestFits
    have hfits := h.requestFits
    rw [strlen] at hlen hfits
    exact List.take_of_length_le (by omega)
  rw [exchange, req, hmessage]
  simp only [Option.bind_eq_bind, Option.bind_some, htake, (rcvdata_message h now).2]
  split_ifs
  · rfl
  · rw [Option.bind_assoc, Option.bind_assoc]
    simp only [Option.bind_some]
    exact (Option.bind_assoc ..).symm

end Exchange

section Clientreq

-- A link that takes the request at once and cuts the response only where it does not fit the buffer.
def onePiece : Link where
  firstRead _ := 1024
  cut R :=
    if h : R.chars.length ≤ 256 ∧ R.chars ≠ [] then [⟨R.chars, h.1⟩]
    else R.chars.map fun c => ⟨[c], by simp⟩
  whole R := by
    split_ifs
    · exact List.append_nil _
    · simp [List.flatMap_map]
  nonempty R := by
    split_ifs with h
    · simpa using h.2
    · simp

theorem forall_mem_of_all {P : Char → Prop} [DecidablePred P] {cs : List Char} (h : cs.all (P ·) = true) :
    ∀ c ∈ cs, P c :=
  fun c hc => of_decide_eq_true (List.all_eq_true.mp h c hc)

-- The call of `clientreq`.
theorem sendable_clientreq : Sendable (lit "127.0.0.1") 8083 (lit "POST") (lit "/") (lit "123") where
  methodLength := by decide
  methodChars := forall_mem_of_all (by decide)
  notGet := by decide
  pathLength := by decide
  pathChars := forall_mem_of_all (by decide)
  ipChars := forall_mem_of_all (by decide)
  debugFits := by
    have hcurl : strlen (lit "' -H 'Content-Type: application/json;charset=UTF-8' -d'") = 55 := rfl
    simp only [debugText, strlen_append, hcurl]
    decide
  headerFits := by decide
  requestFits := by decide

end Clientreq

end RichardTest.Http
