import RichardTest.Http.Theorems
import Mathlib.Algebra.Ring.Int.Defs

namespace RichardTest.Http

-- What one call of recv delivers into a buffer of 256 cells.
structure Chunk where
  bytes : List Char
  fits : bytes.length ≤ 256
deriving DecidableEq

inductive Recv where
  | bytes (chunk : Chunk)
  | error
deriving DecidableEq

-- `m = recv(sock, buf, sizeof(buf), 0)`.
def Recv.count : Recv → Int
  | .bytes chunk => chunk.bytes.length
  | .error => -1

-- `buf` is cleared before the call.
def Recv.buf : Recv → Buffer
  | .bytes chunk => chunk.bytes ++ zeros (256 - chunk.bytes.length)
  | .error => zeros 256

def Recv.closed : Recv := .bytes ⟨[], Nat.zero_le _⟩

-- The answers of the system to one call of writemsg. The connection is closed behind the listed ones.
structure Network where
  connects : Bool
  answers : List Recv

def writeAll : Buffer → Nat → List Char → Option Buffer
  | t, _, [] => some t
  | t, i, c :: s => do
      let t ← write t i c
      writeAll t (i + 1) s

-- The count is passed as a `size_t`, so that -1 stands for no bound.
def strncat (t : Buffer) (s : Buffer) (m : Int) : Option Buffer := do
  let dest ← cstr t
  writeAll t (strlen dest) ((upToNul (s.take (m % 2 ^ 64).toNat)).chars ++ ['\x00'])

-- A chunk that does not fill `buf` ends the loop.
def writemsgLoop : List Recv → Int → Buffer → Option (Int × Buffer)
  | [], n, resp => do
      let resp ← strncat resp Recv.closed.buf Recv.closed.count
      some (n + Recv.closed.count, resp)
  | r :: rs, n, resp => do
      let resp ← strncat resp r.buf r.count
      if r.count ≠ 256 then some (n + r.count, resp) else writemsgLoop rs (n + r.count) resp

-- The request only goes to the peer, whose answers are arbitrary.
def writemsg (net : Network) (resp : Buffer) : Option (Int × Buffer) :=
  if net.connects then do
    let (n, resp) ← writemsgLoop net.answers 0 resp
    if n < 0 then none
    else do
      let resp ← write resp n.toNat '\x00'
      some (n, resp)
  else some (1, resp)

section Append

theorem writeAll_run (a done t : List Char) (h : done <+: t) (hlen : done.length + a.length ≤ t.length) :
    ∃ t', writeAll t done.length a = some t' ∧ done ++ a <+: t' ∧ t'.length = t.length := by
  induction a generalizing done t with
  | nil => exact ⟨t, rfl, by simpa using h, rfl⟩
  | cons c a ih =>
      rw [List.length_cons] at hlen
      obtain ⟨t₁, hwrite, hpre, hlen₁⟩ := write_snoc c h (by omega)
      obtain ⟨t₂, hrun, hpre', hlen₂⟩ := ih (done ++ [c]) t₁ hpre
        (by rw [List.length_append, List.length_singleton]; omega)
      refine ⟨t₂, ?_, by simpa using hpre', hlen₂.trans hlen₁⟩
      rw [writeAll, hwrite, Option.bind_eq_bind, Option.bind_some]
      simpa using hrun

theorem strncat_run (a b : CString) (s t : Buffer) (m : Int) (h : a.chars ++ ['\x00'] <+: t)
    (hb : upToNul (s.take (m % 2 ^ 64).toNat) = b) (hlen : strlen a + strlen b < t.length) :
    ∃ t', strncat t s m = some t' ∧ (a ++ b).chars ++ ['\x00'] <+: t' ∧ t'.length = t.length := by
  have hpre : a.chars <+: t := (List.prefix_append _ _).trans h
  obtain ⟨t', hrun, hpre', hlen'⟩ := writeAll_run (b.chars ++ ['\x00']) a.chars t hpre
    (by rw [List.length_append, List.length_singleton]; exact hlen)
  refine ⟨t', ?_, by simpa only [chars_append, List.append_assoc] using hpre', hlen'⟩
  rw [strncat, cstr_of_prefix a h, hb, Option.bind_eq_bind, Option.bind_some]
  exact hrun

end Append

section Receive

theorem nul_first_of_empty {t : Buffer} (h : cstr t = some (lit "")) : (lit "").chars ++ ['\x00'] <+: t := by
  cases t with
  | nil => simp [cstr] at h
  | cons c t =>
      have hc : c = '\x00' := by
        by_contra hc
        rw [cstr] at h
        split_ifs at h
        have := congrArg CString.chars (Option.some.inj h)
        simp [upToNul, hc, lit] at this
      rw [hc]
      exact ⟨t, rfl⟩

-- What the loop takes: the chunks up to the first one that is shorter than `buf`.
def received : List Chunk → List Char
  | [] => []
  | c :: cs => if c.bytes.length ≠ 256 then c.bytes else c.bytes ++ received cs

theorem received_isPrefix (cs : List Chunk) : received cs <+: cs.flatMap Chunk.bytes := by
  induction cs with
  | nil => exact List.nil_prefix
  | cons c cs ih =>
      rw [received, List.flatMap_cons]
      split_ifs
      · exact List.prefix_append _ _
      · exact (List.prefix_append_right_inj _).mpr ih

-- Nothing is left behind exactly when every chunk but the last fills `buf`.
theorem received_eq_iff (cs : List Chunk) (hne : ∀ c ∈ cs, c.bytes ≠ []) :
    received cs = cs.flatMap Chunk.bytes ↔ ∀ c ∈ cs.dropLast, c.bytes.length = 256 := by
  induction cs with
  | nil => simp [received]
  | cons c cs ih =>
      have ih := ih fun d hd => hne d (List.mem_cons_of_mem c hd)
      cases cs with
      | nil => simp [received]
      | cons d cs =>
          rw [received, List.flatMap_cons, List.dropLast_cons_of_ne_nil (List.cons_ne_nil d cs),
            List.forall_mem_cons, ← ih]
          split_ifs with hshort
          · have hd : d.bytes ≠ [] := hne d (List.mem_cons_of_mem c List.mem_cons_self)
            simp only [List.self_eq_append_right, List.flatMap_cons, List.append_eq_nil_iff, hd, false_and,
              hshort]
          · rw [not_not] at hshort
            simp only [List.append_cancel_left_eq, hshort, true_and]

theorem upToNul_take_buf (c : Chunk) (hnul : '\x00' ∉ c.bytes) :
    upToNul ((Recv.bytes c).buf.take ((Recv.bytes c).count % 2 ^ 64).toNat) = ⟨c.bytes, hnul⟩ := by
  have hcount : ((Recv.bytes c).count % 2 ^ 64).toNat = c.bytes.length := by
    have := c.fits
    rw [Recv.count]
    omega
  apply CString.ext
  rw [hcount, Recv.buf, List.take_left, upToNul, List.takeWhile_eq_self_iff]
  intro x hx
  exact decide_eq_true fun h => hnul (h ▸ hx)

-- By induction on the chunks, with the text received before them in front of the target.
theorem writemsgLoop_run (cs : List Chunk) (a : CString) (t : Buffer) (h : a.chars ++ ['\x00'] <+: t)
    (hnul : '\x00' ∉ cs.flatMap Chunk.bytes)
    (hlen : strlen a + (cs.flatMap Chunk.bytes).length < t.length) :
    ∃ t', writemsgLoop (cs.map Recv.bytes) (strlen a) t =
        some (((strlen a + (received cs).length : Nat) : Int), t') ∧
      a.chars ++ received cs ++ ['\x00'] <+: t' ∧ t'.length = t.length := by
  induction cs generalizing a t with
  | nil =>
      obtain ⟨t', hrun, hpre, hlen'⟩ := strncat_run a _ Recv.closed.buf t Recv.closed.count h
        (upToNul_take_buf ⟨[], _⟩ (by simp)) (by simpa [strlen] using hlen)
      refine ⟨t', ?_, by simpa [received, chars_append] using hpre, hlen'⟩
      rw [List.map_nil, writemsgLoop, hrun]
      simp [received, Recv.closed, Recv.count]
  | cons c cs ih =>
      rw [List.flatMap_cons, List.mem_append, not_or] at hnul
      rw [List.flatMap_cons, List.length_append] at hlen
      obtain ⟨t₁, hrun, hpre, hlen₁⟩ := strncat_run a _ _ t _ h (upToNul_take_buf c hnul.1)
        (by simp only [strlen] at hlen ⊢; omega)
      have hcount : (Recv.bytes c).count = (c.bytes.length : Int) := rfl
      rw [List.map_cons, writemsgLoop, hrun, Option.bind_eq_bind, Option.bind_some, received, hcount]
      by_cases hfull : c.bytes.length = 256
      · obtain ⟨t₂, hrun', hpre', hlen₂⟩ := ih _ t₁ hpre hnul.2
          (by rw [strlen_append]; simp only [strlen] at hlen ⊢; omega)
        rw [if_neg (by omega), if_neg (by omega)]
        refine ⟨t₂, ?_, by simpa only [chars_append, List.append_assoc] using hpre', hlen₂.trans hlen₁⟩
        rw [strlen_append, Int.natCast_add] at hrun'
        rw [List.length_append, ← Nat.add_assoc]
        exact hrun'
      · rw [if_pos (by omega), if_pos hfull]
        exact ⟨t₁, rfl, by simpa only [chars_append] using hpre, hlen₁⟩

-- What writemsg leaves and returns, however the peer's bytes are cut.
theorem writemsg_eq (cs : List Chunk) (resp : Buffer) (hempty : cstr resp = some (lit ""))
    (hnul : '\x00' ∉ cs.flatMap Chunk.bytes) (hlen : (cs.flatMap Chunk.bytes).length < resp.length) :
    ∃ resp', writemsg ⟨true, cs.map Recv.bytes⟩ resp = some (((received cs).length : Int), resp') ∧
      (cstr resp').map CString.chars = some (received cs) := by
  obtain ⟨t₁, hrun, hpre, hlen₁⟩ := writemsgLoop_run cs (lit "") resp (nul_first_of_empty hempty) hnul
    (by simpa [strlen, lit, upToNul] using hlen)
  have hle := (received_isPrefix cs).length_le
  rw [show strlen (lit "") = 0 from rfl, Nat.zero_add] at hrun
  rw [show (lit "").chars = [] from rfl, List.nil_append] at hpre
  obtain ⟨t₂, hwrite, hpre', -⟩ := write_snoc '\x00' ((List.prefix_append _ _).trans hpre) (by omega)
  have hreceived : '\x00' ∉ received cs := fun h => hnul ((received_isPrefix cs).subset h)
  refine ⟨t₂, ?_, ?_⟩
  · rw [writemsg, if_pos rfl]
    rw [Int.ofNat_zero] at hrun
    rw [hrun, Option.bind_eq_bind, Option.bind_some]
    simp only [Int.natCast_nonneg, Int.not_lt.mpr, if_false, Int.toNat_natCast, hwrite, Option.bind_eq_bind,
      Option.bind_some]
  · rw [ cstr_of_prefix ⟨received cs, hreceived⟩ hpre', Option.map_some]

end Receive

-- The response arrives whole exactly when recv cuts it into full buffers, the last chunk apart.
theorem writemsg_whole_iff (R : CString) (chunks : List Chunk) (resp : Buffer) (hlen : strlen R < 4096)
    (hsize : resp.length = 4096) (hempty : cstr resp = some (lit ""))
    (hne : ∀ c ∈ chunks, c.bytes ≠ []) (hR : chunks.flatMap Chunk.bytes = R.chars) :
    (∃ resp', writemsg ⟨true, chunks.map Recv.bytes⟩ resp = some ((strlen R : Int), resp') ∧
        cstr resp' = some R) ↔
      ∀ c ∈ chunks.dropLast, c.bytes.length = 256 := by
  rw [← received_eq_iff chunks hne]
  obtain ⟨t, hrun, hcstr⟩ := writemsg_eq chunks resp hempty (by rw [hR]; exact R.nulFree)
    (by rw [hR, hsize]; exact hlen)
  rw [hrun]
  constructor
  · intro h
    obtain ⟨resp', heq, hresp⟩ := h
    simp only [Option.some.injEq, Prod.mk.injEq] at heq
    rw [heq.2, hresp, Option.map_some, Option.some.injEq] at hcstr
    rw [hR, hcstr]
  · intro h
    rw [h, hR] at hcstr ⊢
    obtain ⟨s, hs, hchars⟩ := Option.map_eq_some_iff.mp hcstr
    exact ⟨t, rfl, by rw [hs, CString.ext hchars]⟩

theorem cstr_zeros (n : Nat) (h : 0 < n) : cstr (zeros n) = some (lit "") := by
  obtain ⟨m, rfl⟩ := Nat.exists_eq_add_of_lt h
  rw [Nat.zero_add]
  exact cstr_of_prefix (lit "") ⟨zeros m, rfl⟩

-- A response that arrives in two pieces, the first of which fills `buf`.
def twoPieces : List Chunk :=
  [⟨(letters 256).chars, Nat.le_of_eq (strlen_letters 256)⟩, ⟨['o', 'k'], by decide⟩]

theorem writemsg_whole_twoPieces :
    ∃ resp', writemsg ⟨true, twoPieces.map Recv.bytes⟩ (zeros 4096) = some (258, resp') ∧
      cstr resp' = some (letters 256 ++ lit "ok") := by
  have hlen : strlen (letters 256 ++ lit "ok") = 258 := by
    rw [strlen_append, strlen_letters]
    rfl
  have hne : ∀ c ∈ twoPieces, c.bytes ≠ [] := by
    rw [twoPieces, List.forall_mem_cons, List.forall_mem_singleton]
    exact ⟨List.cons_ne_nil _ _, by decide⟩
  have hfull : ∀ c ∈ twoPieces.dropLast, c.bytes.length = 256 := by
    rw [twoPieces, List.dropLast_cons_cons, List.dropLast_singleton, List.forall_mem_singleton]
    exact strlen_letters 256
  have hwhole := (writemsg_whole_iff (letters 256 ++ lit "ok") twoPieces (zeros 4096) (by rw [hlen]; decide)
    (length_zeros 4096) (cstr_zeros 4096 (by decide)) hne rfl).mpr hfull
  rw [hlen] at hwhole
  exact hwhole

-- Two bytes that arrive one by one: the second is never read.
theorem writemsg_loses_second_byte :
    ¬ ∀ (R : CString) (chunks : List Chunk) (resp : Buffer), strlen R < 4096 → resp.length = 4096 →
      cstr resp = some (lit "") → (∀ c ∈ chunks, c.bytes ≠ []) → chunks.flatMap Chunk.bytes = R.chars →
      ∃ resp', writemsg ⟨true, chunks.map Recv.bytes⟩ resp = some ((strlen R : Int), resp') ∧
        cstr resp' = some R := by
  intro h
  have hempty := cstr_zeros 4096 (by decide)
  obtain ⟨resp', hclaim, -⟩ := h (lit "ab") [⟨['a'], by decide⟩, ⟨['b'], by decide⟩] (zeros 4096) (by decide)
    (length_zeros 4096) hempty (by simp) rfl
  obtain ⟨resp'', hrun, -⟩ := writemsg_eq [⟨['a'], by decide⟩, ⟨['b'], by decide⟩] (zeros 4096) hempty
    (by simp) (by rw [length_zeros]; decide)
  rw [hclaim] at hrun
  have hcount : (2 : Int) = 1 := congrArg Prod.fst (Option.some.inj hrun)
  exact absurd hcount (by decide)

end RichardTest.Http
