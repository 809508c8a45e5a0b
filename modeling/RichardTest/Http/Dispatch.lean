import RichardTest.Http.Scan
import RichardTest.DtParser.Texts

namespace RichardTest.Http

open RichardTest.DtParser (prsDt prsDt_eq_some_iff cells charAt unitAt idOf Naked rest extSpan objText
  strlen_headerText strlen_objText strlen_report_lt_iff sprintf_eq_some)

section Model

-- What the pointer respbd holds.
inductive Pointer where
  | unset
  -- an array of a block that has ended
  | ended
  | text (x : CString)

-- Only a live array can be read.
def Pointer.read : Pointer → Option CString
  | .unset => none
  | .ended => none
  | .text x => some x

def echoText (uri now : CString) : CString :=
  lit "\x7b\"uri\":\"" ++ uri ++ lit "\",\"timestamp\":\"" ++ now ++ lit "\",\"status\":200\x7d"

-- The routes of dispatch, with the text of gettime() as `now`.
def route (now method uri : CString) (body : Buffer) : Option Pointer :=
  if strncmpEq method (lit "GET") 3 then do
    let _ ← sprintf 512 (echoText uri now)
    some .ended
  else if strncmpEq uri (lit "/prs/dt") 7 then do
    some (.text (← prsDt body))
  else if strncmpEq uri (lit "/up/dt") 6 then some .ended
  else if strncmpEq uri (lit "/dn/dt") 6 then some .unset
  else some (.text (lit "\x7b\"status\":200\x7d"))

def respText (respbd : CString) : CString :=
  lit "HTTP/1.1 200 OK\r\n" ++ lit "Content-Length: " ++ printNat (strlen respbd) ++ lit "\r\n\r\n" ++ respbd

-- The text that dispatch leaves in the 1024 cells of resp.
def dispatch (now req : CString) : Option CString := do
  let l0 ← getln req (zeros 100) 100 0
  let body ← getbody req (zeros 1024) 1024
  let method ← getmethod (← cstr l0) (zeros 5) 5
  let uri ← geturi (← cstr l0) (zeros 50) 50
  let respbd ← (← route now (← cstr method) (← cstr uri) body).read
  sprintf 1024 (respText respbd)

end Model

section Response

-- A response with its body, in an array of 1024 cells.
structure Response (body resp : CString) : Prop where
  text : resp.chars = "HTTP/1.1 200 OK\r\n".toList ++ "Content-Length: ".toList ++
    Nat.toDigits 10 body.chars.length ++ "\r\n\r\n".toList ++ body.chars
  fits : resp.chars.length + 1 ≤ 1024

theorem respText_chars (body : CString) :
    (respText body).chars = "HTTP/1.1 200 OK\r\n".toList ++ "Content-Length: ".toList ++
      Nat.toDigits 10 body.chars.length ++ "\r\n\r\n".toList ++ body.chars := by
  have hstatus : (lit "HTTP/1.1 200 OK\r\n").chars = "HTTP/1.1 200 OK\r\n".toList := rfl
  have hlength : (lit "Content-Length: ").chars = "Content-Length: ".toList := rfl
  have hblank : (lit "\r\n\r\n").chars = "\r\n\r\n".toList := rfl
  simp only [respText, chars_append, hstatus, hlength, hblank]
  rfl

-- A body of at least a hundred characters takes a length of three digits or does not fit anyway.
theorem strlen_respText_lt_iff (body : CString) (hbody : 100 ≤ strlen body) :
    strlen (respText body) < 1024 ↔ strlen body ≤ 983 := by
  have hstatus : strlen (lit "HTTP/1.1 200 OK\r\n") = 17 := rfl
  have hlength : strlen (lit "Content-Length: ") = 16 := rfl
  have hblank : strlen (lit "\r\n\r\n") = 4 := rfl
  have htwo : ¬ strlen (printNat (strlen body)) ≤ 2 := fun h => by
    rw [strlen, printNat, Nat.length_toDigits_le_iff (by omega) (by omega)] at h
    omega
  have hthree : strlen (printNat (strlen body)) ≤ 3 ↔ strlen body < 1000 := by
    rw [strlen, printNat, Nat.length_toDigits_le_iff (by omega) (by omega)]
  simp only [respText, strlen_append, hstatus, hlength, hblank]
  omega

end Response

section Report

-- The bodies whose report the parser and the response can hold.
def ReportFits (body : CString) : Prop :=
  ¬ Naked body ∧ 57 + (if charAt body 15 = '0' then 11 else 0) + strlen body < 1024 ∧
    (charAt (idOf body) 3 = '2' → strlen body ≤ 781 + unitAt body)

instance (body : CString) : Decidable (ReportFits body) := inferInstanceAs (Decidable (_ ∧ _ ∧ _))

theorem strlen_report (t : CString) :
    191 ≤ strlen (objText (idOf t) (rest t (unitAt t + 8))) ∧
      (strlen (objText (idOf t) (rest t (unitAt t + 8))) ≤ 983 ↔
        (charAt (idOf t) 3 = '2' → strlen t ≤ 781 + unitAt t)) := by
  refine ⟨by rw [strlen_objText]; omega, ?_⟩
  rw [← Nat.lt_succ_iff, strlen_report_lt_iff t (by decide)]
  exact imp_congr_right fun _ => by omega

theorem report_answered_iff (t : CString) (ht : strlen t < 1024) :
    (∃ x, prsDt (filled 1024 t.chars) = some x ∧ strlen (respText x) < 1024) ↔ ReportFits t := by
  have hread : unitAt t + 186 + extSpan (idOf t) < strlen t + (1024 - strlen t) := by
    unfold unitAt extSpan
    split_ifs <;> omega
  have hreport := strlen_report t
  have hprs := prsDt_eq_some_iff (k := 1024 - strlen t) (by omega) hread
  simp only [show filled 1024 t.chars = cells t (1024 - strlen t) from rfl, hprs, strlen_headerText, ReportFits]
  constructor
  · rintro ⟨x, ⟨hnaked, hheader, -, rfl⟩, hfits⟩
    exact ⟨hnaked, hheader, hreport.2.mp ((strlen_respText_lt_iff _ (by omega)).mp hfits)⟩
  · rintro ⟨hnaked, hheader, hext⟩
    have hlen := hreport.2.mpr hext
    exact ⟨_, ⟨hnaked, hheader, by omega, rfl⟩, (strlen_respText_lt_iff _ (by omega)).mpr hlen⟩

end Report

section Routes

theorem strncmpEq_iff (s t : CString) : strncmpEq s t (strlen t) = true ↔ t.chars <+: s.chars := by
  rw [strncmpEq, decide_eq_true_eq, strlen, List.take_length, List.prefix_iff_eq_take, eq_comm]

-- The requests that reach a route with a body, and whose parts fit the arrays on the way.
structure Served (req : CString) : Prop where
  line : strlen (firstLine req) < 100
  method : strlen (methodOf (firstLine req)) < 5
  uri : strlen (uriOf (firstLine req)) < 50
  notGet : ¬ "GET".toList <+: (methodOf (firstLine req)).chars
  notUp : ¬ "/up/dt".toList <+: (uriOf (firstLine req)).chars
  notDn : ¬ "/dn/dt".toList <+: (uriOf (firstLine req)).chars
  report : "/prs/dt".toList <+: (uriOf (firstLine req)).chars → ReportFits (bodyOf req)

-- Each of the four routes that has no body of its own is named by its first characters.
theorem route_answered_iff (now method uri body : CString) (hbody : strlen body < 1024) :
    (∃ x, (route now method uri (filled 1024 body.chars)).bind Pointer.read = some x ∧
        strlen (respText x) < 1024) ↔
      ¬ "GET".toList <+: method.chars ∧ ¬ "/up/dt".toList <+: uri.chars ∧ ¬ "/dn/dt".toList <+: uri.chars ∧
        ("/prs/dt".toList <+: uri.chars → ReportFits body) := by
  have hget : strncmpEq method (lit "GET") 3 = true ↔ "GET".toList <+: method.chars :=
    strncmpEq_iff _ (lit "GET")
  have hprs : strncmpEq uri (lit "/prs/dt") 7 = true ↔ "/prs/dt".toList <+: uri.chars :=
    strncmpEq_iff _ (lit "/prs/dt")
  have hup : strncmpEq uri (lit "/up/dt") 6 = true ↔ "/up/dt".toList <+: uri.chars :=
    strncmpEq_iff _ (lit "/up/dt")
  have hdn : strncmpEq uri (lit "/dn/dt") 6 = true ↔ "/dn/dt".toList <+: uri.chars :=
    strncmpEq_iff _ (lit "/dn/dt")
  have hreport := report_answered_iff body hbody
  rw [route, ← hget, ← hprs, ← hup, ← hdn]
  split_ifs with h₁ h₂ h₃ h₄
  · -- the echo stands in an array that ends with its block
    have hecho : ((sprintf 512 (echoText uri now)).bind fun _ => some Pointer.ended).bind Pointer.read = none := by
      rw [Option.bind_assoc, Option.bind_eq_none_iff]
      exact fun _ _ => rfl
    simp [h₁, hecho]
  · have hup' : ¬ strncmpEq uri (lit "/up/dt") 6 = true := fun h => absurd
      (List.prefix_of_prefix_length_le (hup.mp h) (hprs.mp h₂) (by decide)) (by decide)
    have hdn' : ¬ strncmpEq uri (lit "/dn/dt") 6 = true := fun h => absurd
      (List.prefix_of_prefix_length_le (hdn.mp h) (hprs.mp h₂) (by decide)) (by decide)
    have hread : ((prsDt (filled 1024 body.chars)).bind fun x => some (Pointer.text x)).bind Pointer.read =
        prsDt (filled 1024 body.chars) := by
      rw [Option.bind_assoc]
      exact Option.bind_fun_some _
    simp only [Option.bind_eq_bind, hread, hreport]
    simp [h₁, h₂, hup', hdn']
  · simp [h₃, Pointer.read]
  · simp [h₄, Pointer.read]
  · have hfits : strlen (respText (lit "\x7b\"status\":200\x7d")) < 1024 := by decide
    simp [h₁, h₂, h₃, h₄, Pointer.read, hfits]

theorem dispatch_eq (now req : CString) :
    dispatch now req =
      if strlen (firstLine req) < 100 ∧ strlen (bodyOf req) < 1024 ∧ strlen (methodOf (firstLine req)) < 5 ∧
          strlen (uriOf (firstLine req)) < 50 then
        ((route now (methodOf (firstLine req)) (uriOf (firstLine req)) (filled 1024 (bodyOf req).chars)).bind
          Pointer.read).bind fun respbd => sprintf 1024 (respText respbd)
      else none := by
  refine (scan_bind req fun method uri body => (cstr method).bind fun method => (cstr uri).bind fun uri =>
    (route now method uri body).bind fun p => p.read.bind fun respbd => sprintf 1024 (respText respbd)).trans ?_
  split_ifs with h
  · obtain ⟨-, -, hmethod, huri⟩ := h
    rw [cstr_filled hmethod, cstr_filled huri, Option.bind_some, Option.bind_some, Option.bind_assoc]
  · rfl

theorem served_of_dispatch (now req resp : CString) (hresp : dispatch now req = some resp) : Served req := by
  rw [dispatch_eq] at hresp
  split_ifs at hresp with h
  obtain ⟨hline, hbody, hmethod, huri⟩ := h
  obtain ⟨x, hx, hfits⟩ := Option.bind_eq_some_iff.mp hresp
  obtain ⟨hget, hup, hdn, hreport⟩ :=
    (route_answered_iff now _ _ _ hbody).mp ⟨x, hx, (sprintf_eq_some.mp hfits).1⟩
  exact ⟨hline, hmethod, huri, hget, hup, hdn, hreport⟩

-- A request is answered with a whole response exactly when it is one of these.
theorem dispatch_answers_iff (now req : CString) (hreq : strlen req ≤ 1023) :
    (∃ body resp, dispatch now req = some resp ∧ Response body resp) ↔ Served req := by
  constructor
  · rintro ⟨body, resp, hresp, -⟩
    exact served_of_dispatch now req resp hresp
  · rintro ⟨hline, hmethod, huri, hget, hup, hdn, hreport⟩
    have hbody : strlen (bodyOf req) < 1024 := by
      have := strlen_bodyOf_le req
      omega
    obtain ⟨x, hx, hfits⟩ := (route_answered_iff now _ _ _ hbody).mpr ⟨hget, hup, hdn, hreport⟩
    have hresp : sprintf 1024 (respText x) = some (respText x) := if_pos hfits
    refine ⟨x, respText x, ?_, respText_chars x, hfits⟩
    rw [dispatch_eq, if_pos ⟨hline, hbody, hmethod, huri⟩, hx, Option.bind_some, hresp]

-- A report that stops behind the object id of the data unit.
theorem dispatch_answers_report :
    strlen (lit "POST /prs/dt HTTP/1.1\r\n\r\n88C3BB1BE2623881002300018001") ≤ 1023 ∧
      ∃ body resp, dispatch (lit "Sun Dec 12 09:14:14 2021")
        (lit "POST /prs/dt HTTP/1.1\r\n\r\n88C3BB1BE2623881002300018001") = some resp ∧ Response body resp :=
  ⟨by decide, (dispatch_answers_iff _ _ (by decide)).mpr
    ⟨by decide, by decide, by decide, by decide, by decide, by decide, fun _ => by decide⟩⟩

-- The body of any GET is gone when the response is written.
theorem dispatch_get_unanswered :
    strlen (lit "GET / HTTP/1.1\r\n\r\n") ≤ 1023 ∧
      ¬ ∃ body resp, dispatch (lit "Sun Dec 12 09:14:14 2021") (lit "GET / HTTP/1.1\r\n\r\n") = some resp ∧
        Response body resp := by
  refine ⟨by decide, ?_⟩
  rintro ⟨body, resp, hresp, -⟩
  exact (served_of_dispatch _ _ resp hresp).notGet (by decide)

end Routes

end RichardTest.Http
