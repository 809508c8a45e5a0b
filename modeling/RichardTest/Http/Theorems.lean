import RichardTest.Http.Scan

namespace RichardTest.Http

section Lines

-- Text lines, each ended by CRLF.
def crlfLines (lines : List (List Char)) : List Char := lines.flatMap fun a => a ++ ['\r', '\n']

theorem crlfLines_cons (a : List Char) (lines : List (List Char)) :
    crlfLines (a :: lines) = a ++ '\r' :: '\n' :: crlfLines lines := by
  simp [crlfLines]

-- The text of a line holds no LF, and neither does its CR.
theorem text_not_lineEnd (a rest : List Char) (hne : a ≠ []) (ha : '\n' ∉ a) (tail : List Char) :
    ¬ '\r' :: '\n' :: tail <+: a ++ '\r' :: rest := by
  intro h
  match a with
  | [c] => simp [List.cons_prefix_cons] at h
  | c :: d :: a =>
      rw [List.cons_append, List.cons_append, List.cons_prefix_cons, List.cons_prefix_cons] at h
      exact ha (h.2.1 ▸ List.mem_cons_of_mem c List.mem_cons_self)

theorem behindBlank_text (a rest : List Char) (ha : '\n' ∉ a) :
    behindBlank (a ++ '\r' :: rest) = behindBlank ('\r' :: rest) := by
  induction a with
  | nil => rfl
  | cons c a ih =>
      have hskip := text_not_lineEnd (c :: a) rest (List.cons_ne_nil c a) ha ['\r', '\n']
      rw [List.mem_cons, not_or] at ha
      rw [List.cons_append] at hskip ⊢
      rw [behindBlank, if_neg hskip, ih ha.2]

theorem behindBlank_lineEnd (a rest : List Char) (hne : a ≠ []) (ha : '\n' ∉ a) :
    behindBlank ('\r' :: '\n' :: (a ++ '\r' :: rest)) = behindBlank (a ++ '\r' :: rest) := by
  have hskip := text_not_lineEnd a rest hne ha []
  rw [behindBlank, if_neg fun h => hskip (by simpa [List.cons_prefix_cons] using h), behindBlank,
    if_neg fun h => by simp [List.cons_prefix_cons] at h]

-- By induction on the lines behind the first one.
theorem behindBlank_crlfLines (a : List Char) (lines : List (List Char)) (body : List Char)
    (ha : '\n' ∉ a) (hlines : ∀ b ∈ lines, b ≠ [] ∧ '\n' ∉ b) :
    behindBlank (crlfLines (a :: lines) ++ '\r' :: '\n' :: body) = body := by
  induction lines generalizing a with
  | nil =>
      rw [crlfLines_cons, List.append_assoc, List.cons_append, behindBlank_text a _ ha, behindBlank, if_pos]
      · rfl
      · exact ⟨body, rfl⟩
  | cons b lines ih =>
      obtain ⟨hne, hb⟩ := hlines b List.mem_cons_self
      have hih := ih b hb fun d hd => hlines d (List.mem_cons_of_mem b hd)
      rw [crlfLines_cons, List.append_assoc, List.cons_append] at hih
      rw [crlfLines_cons, List.append_assoc, List.cons_append, behindBlank_text a _ ha, crlfLines_cons,
        List.cons_append, List.append_assoc, List.cons_append, behindBlank_lineEnd b _ hne hb, hih]

end Lines

section Dispatch

theorem requestLine_noBreak {method path version : List Char}
    (hmethod : ∀ c ∈ method, c ≠ ' ' ∧ c ≠ '\r' ∧ c ≠ '\n')
    (hpath : ∀ c ∈ path, c ≠ ' ' ∧ c ≠ '\r' ∧ c ≠ '\n') (hversion : ∀ c ∈ version, c ≠ '\r' ∧ c ≠ '\n') :
    ∀ c ∈ method ++ ' ' :: (path ++ ' ' :: version), c ≠ '\r' ∧ c ≠ '\n' := by
  intro c hc
  rw [List.mem_append, List.mem_cons, List.mem_append, List.mem_cons] at hc
  rcases hc with hc | rfl | hc | rfl | hc
  · exact (hmethod c hc).2
  · decide
  · exact (hpath c hc).2
  · decide
  · exact hversion c hc

theorem takeWhile_stop {P : Char → Bool} {a : List Char} {c : Char} (rest : List Char) (hc : ¬ P c = true)
    (ha : ∀ x ∈ a, P x = true) : (a ++ c :: rest).takeWhile P = a := by
  rw [List.takeWhile_append_of_pos ha, List.takeWhile_cons_of_neg hc, List.append_nil]

-- The fields of any request whose request line and body fit the arrays of dispatch.
theorem dispatchFields_eq (msg method path body : CString) (version : List Char)
    (lines : List (List Char))
    (hmsg : msg.chars = crlfLines ((method.chars ++ ' ' :: (path.chars ++ ' ' :: version)) :: lines) ++
      '\r' :: '\n' :: body.chars)
    (hmethod : ∀ c ∈ method.chars, c ≠ ' ' ∧ c ≠ '\r' ∧ c ≠ '\n')
    (hpath : ∀ c ∈ path.chars, c ≠ ' ' ∧ c ≠ '\r' ∧ c ≠ '\n')
    (hversion : ∀ c ∈ version, c ≠ '\r' ∧ c ≠ '\n') (hlines : ∀ a ∈ lines, a ≠ [] ∧ '\n' ∉ a)
    (hlen : strlen method ≤ 4) (hlen' : strlen path ≤ 49) (hlen'' : version.length ≤ 44)
    (hbody : strlen body < 1024) :
    dispatchFields msg = some { method := method, uri := path, body := body } := by
  have hbreak := requestLine_noBreak hmethod hpath hversion
  have hbodyOf : bodyOf msg = body := by
    apply CString.ext
    rw [bodyOf]
    dsimp only
    rw [hmsg, behindBlank_crlfLines _ lines body.chars (fun h => (hbreak _ h).2 rfl) hlines]
  have hline : (firstLine msg).chars = method.chars ++ ' ' :: (path.chars ++ ' ' :: version) := by
    rw [firstLine, leading]
    dsimp only
    rw [hmsg, crlfLines_cons, List.append_assoc, List.cons_append, takeWhile_stop _ (by simp [inLine])]
    intro c hc
    exact decide_eq_true ⟨(hbreak c hc).2, (hbreak c hc).1⟩
  have hmethodOf : methodOf (firstLine msg) = method := by
    apply CString.ext
    rw [methodOf, leading]
    dsimp only
    rw [hline, takeWhile_stop _ (by simp [inMethod])]
    intro c hc
    exact decide_eq_true ⟨(hmethod c hc).2.2, (hmethod c hc).2.1, (hmethod c hc).1⟩
  have huriOf : uriOf (firstLine msg) = path := by
    have hskip : ∀ c ∈ method.chars, inUri c = true := fun c hc => decide_eq_true (hmethod c hc).1
    apply CString.ext
    rw [uriOf, leading, behindSpace]
    dsimp only
    rw [hline, List.dropWhile_append_of_pos hskip,
      List.dropWhile_cons_of_neg (by simp [inUri]), List.tail_cons, takeWhile_stop _ (by simp [inUri])]
    intro c hc
    exact decide_eq_true (hpath c hc).1
  have hlineLen : strlen (firstLine msg) < 100 := by
    unfold strlen at *
    simp only [hline, List.length_append, List.length_cons]
    omega
  rw [dispatchFields_scan, hmethodOf, huriOf, hbodyOf, if_pos ⟨hlineLen, hbody, by omega, by omega⟩]

end Dispatch

section RoundTrip

-- The header lines behind the request line, without their ends.
def headerLines (ip : CString) (port : Int) (body : CString) : List (List Char) :=
  ["Host: ".toList ++ (ip.chars ++ ':' :: (printInt port).chars),
    "Content-Type: application/json".toList,
    "Content-Length:".toList ++ (printNat (strlen body)).chars]

theorem reqText_chars (ip : CString) (port : Int) (method path body : CString)
    (hget : ¬ "GET".toList <+: method.chars) :
    (reqText (reqHeader ip port method path) method body).chars =
      crlfLines ((method.chars ++ ' ' :: (path.chars ++ ' ' :: "HTTP/1.1".toList)) ::
        headerLines ip port body) ++ '\r' :: '\n' :: body.chars := by
  have hcmp : ¬ strncmpEq method (lit "GET") 3 = true := by
    intro h
    rw [strncmpEq, decide_eq_true_eq] at h
    refine hget ⟨method.chars.drop 3, ?_⟩
    rw [← List.take_append_drop 3 method.chars, h]
    simp
    rfl
  have h1 : (lit " HTTP/1.1\r\n").chars = ' ' :: ("HTTP/1.1".toList ++ ['\r', '\n']) := by decide
  have h2 : (lit "Content-Type: application/json\r\n").chars =
    "Content-Type: application/json".toList ++ ['\r', '\n'] := by decide
  rw [reqText, if_neg hcmp]
  simp only [reqHeader, chars_append, headerLines, crlfLines_cons, h1, h2]
  simp [lit, upToNul, crlfLines]

-- A decimal number holds no line end.
theorem printNat_noBreak (n : Nat) : ∀ c ∈ (printNat n).chars, c ≠ '\r' ∧ c ≠ '\n' := by
  intro c hc
  have hdigit : c.isDigit = true := Nat.isDigit_of_mem_toDigits (by decide) (by decide) hc
  constructor
  · rintro rfl
    exact absurd hdigit (by decide)
  · rintro rfl
    exact absurd hdigit (by decide)

theorem printInt_noBreak (x : Int) : ∀ c ∈ (printInt x).chars, c ≠ '\r' ∧ c ≠ '\n' := by
  intro c hc
  unfold printInt at hc
  split_ifs at hc with hx
  · rw [chars_append, List.mem_append] at hc
    rcases hc with hc | hc
    · obtain rfl : c = '-' := by simpa [lit, upToNul] using hc
      decide
    · exact printNat_noBreak _ c hc
  · exact printNat_noBreak _ c hc

theorem headerLines_noBreak (ip : CString) (port : Int) (body : CString)
    (hip : ∀ c ∈ ip.chars, c ≠ '\r' ∧ c ≠ '\n') : ∀ a ∈ headerLines ip port body, a ≠ [] ∧ '\n' ∉ a := by
  intro a ha
  simp only [headerLines, List.mem_cons, List.not_mem_nil, or_false] at ha
  rcases ha with rfl | rfl | rfl
  · refine ⟨by simp, fun h => ?_⟩
    rw [List.mem_append, List.mem_append, List.mem_cons] at h
    rcases h with h | h | h | h
    · exact absurd h (by decide)
    · exact (hip _ h).2 rfl
    · exact absurd h (by decide)
    · exact (printInt_noBreak port _ h).2 rfl
  · decide
  · refine ⟨by simp, fun h => ?_⟩
    rcases List.mem_append.mp h with h | h
    · exact absurd h (by decide)
    · exact (printNat_noBreak _ _ h).2 rfl

-- What the server takes out of the request text is what the client put into it.
theorem dispatchFields_reqText (ip : CString) (port : Int) (method path body : CString)
    (hlen : strlen method ≤ 4) (hmethod : ∀ c ∈ method.chars, c ≠ ' ' ∧ c ≠ '\r' ∧ c ≠ '\n')
    (hget : ¬ "GET".toList <+: method.chars) (hlen' : strlen path ≤ 49)
    (hpath : ∀ c ∈ path.chars, c ≠ ' ' ∧ c ≠ '\r' ∧ c ≠ '\n')
    (hip : ∀ c ∈ ip.chars, c ≠ '\r' ∧ c ≠ '\n')
    (hreq : strlen (reqText (reqHeader ip port method path) method body) < 1024) :
    dispatchFields (reqText (reqHeader ip port method path) method body) =
      some { method := method, uri := path, body := body } := by
  have hchars := reqText_chars ip port method path body hget
  have hbody : strlen body < 1024 := by
    rw [strlen, hchars, List.length_append, List.length_cons, List.length_cons] at hreq
    rw [strlen]
    omega
  exact dispatchFields_eq _ method path body _ _ hchars hmethod hpath (by simp)
    (headerLines_noBreak ip port body hip) hlen hlen' (by decide) hbody

theorem strlen_debugText (ip : CString) (port : Int) (method path body : CString) :
    strlen (debugText ip port method path body) =
      strlen method + strlen ip + strlen (printInt port) + strlen path + strlen body + 87 := by
  have hcurl : strlen (lit "curl -X") = 7 := rfl
  have hproxy : strlen (lit " --noproxy '*' 'http://") = 23 := rfl
  have hcolon : strlen (lit ":") = 1 := rfl
  have htype : strlen (lit "' -H 'Content-Type: application/json;charset=UTF-8' -d'") = 55 := rfl
  have hquote : strlen (lit "'") = 1 := rfl
  simp only [debugText, strlen_append, hcurl, hproxy, hcolon, htype, hquote]
  omega

-- The request is made when all three texts fit their arrays.
theorem reqMessage_eq {ip : CString} {port : Int} {method path body : CString}
    (hheader : strlen (reqHeader ip port method path) < 512)
    (hreq : strlen (reqText (reqHeader ip port method path) method body) < 1024) :
    reqMessage ip port method path body =
      if strlen (debugText ip port method path body) < 1024 then
        some (reqText (reqHeader ip port method path) method body)
      else none := by
  by_cases hdebug : strlen (debugText ip port method path body) < 1024
  · simp only [reqMessage, sprintf, hdebug, hheader, hreq, if_true, Option.bind_eq_bind, Option.bind_some]
  · simp only [reqMessage, sprintf, hdebug, if_false, Option.bind_eq_bind, Option.bind_none]

-- A request whose text fits goes through to the fields of the server exactly when the command line that is
-- printed before it fits as well.
theorem request_round_trip_iff (ip : CString) (port : Int) (method path body : CString)
    (hlen : strlen method ≤ 4) (hmethod : ∀ c ∈ method.chars, c ≠ ' ' ∧ c ≠ '\r' ∧ c ≠ '\n')
    (hget : ¬ "GET".toList <+: method.chars) (hlen' : strlen path ≤ 49)
    (hpath : ∀ c ∈ path.chars, c ≠ ' ' ∧ c ≠ '\r' ∧ c ≠ '\n')
    (hip : ∀ c ∈ ip.chars, c ≠ '\r' ∧ c ≠ '\n')
    (hheader : strlen (reqHeader ip port method path) < 512)
    (hreq : strlen (reqText (reqHeader ip port method path) method body) < 1024) :
    (reqMessage ip port method path body).bind dispatchFields =
        some { method := method, uri := path, body := body } ↔
      strlen method + strlen ip + strlen (printInt port) + strlen path + strlen body < 937 := by
  rw [reqMessage_eq hheader hreq]
  have hdebug := strlen_debugText ip port method path body
  split_ifs with hfits
  · refine iff_of_true ?_ (by omega)
    exact dispatchFields_reqText ip port method path body hlen hmethod hget hlen' hpath hip hreq
  · refine iff_of_false ?_ (by omega)
    rw [Option.bind_none]
    exact Option.some_ne_none _ ∘ Eq.symm

-- A body with an empty line in it.
theorem request_round_trip_post :
    (reqMessage (lit "127.0.0.1") 8083 (lit "POST") (lit "/prs/dt") (lit "a b\r\n\r\nc")).bind dispatchFields =
      some { method := lit "POST", uri := lit "/prs/dt", body := lit "a b\r\n\r\nc" } :=
  (request_round_trip_iff _ _ _ _ _ (by decide) (by simp [lit, upToNul]) (by decide) (by decide)
    (by simp [lit, upToNul]) (by simp [lit, upToNul]) (by decide) (by decide)).mpr (by decide)

-- A body of `n` letters.
def letters (n : Nat) : CString :=
  ⟨List.replicate n 'a', fun h => absurd (List.eq_of_mem_replicate h) (by decide)⟩

theorem strlen_letters (n : Nat) : strlen (letters n) = n := List.length_replicate

-- A report of 913 letters: the request has 1012 characters, the command line 1024 and its NUL has no place.
theorem request_overruns_debug :
    ¬ ∀ (ip : CString) (port : Int) (method path body : CString), 1 ≤ strlen method → strlen method ≤ 4 →
      (∀ c ∈ method.chars, c ≠ ' ' ∧ c ≠ '\r' ∧ c ≠ '\n') → ¬ "GET".toList <+: method.chars →
      strlen path ≤ 49 → (∀ c ∈ path.chars, c ≠ ' ' ∧ c ≠ '\r' ∧ c ≠ '\n') →
      (∀ c ∈ ip.chars, c ≠ '\r' ∧ c ≠ '\n') → strlen (reqHeader ip port method path) < 512 →
      strlen (reqText (reqHeader ip port method path) method body) < 1024 →
      (reqMessage ip port method path body).bind dispatchFields =
        some { method := method, uri := path, body := body } := by
  intro h
  have hheader : strlen (reqHeader (lit "127.0.0.1") 8083 (lit "POST") (lit "/prs/dt")) = 77 := by decide
  have hcount : strlen (printNat 913) = 3 := by decide
  have hreq : strlen (reqText (reqHeader (lit "127.0.0.1") 8083 (lit "POST") (lit "/prs/dt")) (lit "POST")
      (letters 913)) < 1024 := by
    have hname : strlen (lit "Content-Length:") = 15 := rfl
    have hblank : strlen (lit "\r\n\r\n") = 4 := rfl
    rw [reqText, if_neg (by decide)]
    simp only [strlen_append, hheader, hname, hblank, strlen_letters, hcount]
    decide
  have hclaim := h (lit "127.0.0.1") 8083 (lit "POST") (lit "/prs/dt") (letters 913) (by decide) (by decide)
    (by simp [lit, upToNul]) (by decide) (by decide) (by simp [lit, upToNul]) (by simp [lit, upToNul])
    (by rw [hheader]; decide) hreq
  have hlong : ¬ strlen (debugText (lit "127.0.0.1") 8083 (lit "POST") (lit "/prs/dt") (letters 913)) < 1024 := by
    rw [strlen_debugText, strlen_letters]
    decide
  rw [reqMessage_eq (by rw [hheader]; decide) hreq, if_neg hlong] at hclaim
  cases hclaim

end RoundTrip

end RichardTest.Http
