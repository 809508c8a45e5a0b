import RichardTest.UniSock.Theorems
import Mathlib.Algebra.BigOperators.Group.List.Basic

namespace RichardTest.UniSock

theorem run_append {S T : System} {events events' : List Event} (h : run S events = some T) :
    run S (events ++ events') = run T events' := by
  rw [run, List.foldlM_append, ← run, h]
  rfl

theorem run_single {S S' : System} {e : Event} (hok : S.overrun = false) (hm : Move S e S') : run S [e] = some S' := by
  rw [run, List.foldlM_cons, step_eq_some_iff.mpr ⟨hok, hm⟩]
  rfl

section Deadlock

variable {S S' : System} {e : Event}

theorem zero_notMem_upToNul (line : Bytes) : 0 ∉ upToNul line := fun h => by
  simpa using List.mem_takeWhile_imp h

theorem canRead_all {stream : Bytes} (hne : stream ≠ []) (hmax : stream.length ≤ MAXLINE) :
    canRead stream.length stream = true :=
  canRead_iff.mpr ⟨List.length_pos_iff.mpr hne, hmax, Nat.le_refl _⟩

-- By induction on the length of the input, a text without a byte is reached with nothing on its way.
theorem exists_stuck (k : Nat) {S : System} (hlen : S.stdin.length ≤ k) (hS : Ready S) (hserver : S.toServer = [])
    (hempty : [] ∈ texts S.stdin) :
    ∃ events S', run S events = some S' ∧ (S'.overrun = true ∨ Stuck S' ∧ S'.client = .read) := by
  induction k generalizing S with
  | zero =>
      rw [List.length_eq_zero_iff.mp (Nat.le_zero.mp hlen)] at hempty
      cases hempty
  | succ k ih =>
      cases hline : fgets S.stdin with
      | none =>
          rw [texts_of_none hline] at hempty
          cases hempty
      | some p =>
          obtain ⟨line, rest⟩ := p
          obtain ⟨hsplit, hpos⟩ := fgets_length hline
          by_cases htext : upToNul line = []
          · have hmove := Move.sends line rest hS.fgets hline
            refine ⟨[.fgets], _, run_single hS.overrun hmove, Or.inr ⟨stuck_iff.mpr (Or.inr ⟨?_, ?_, ?_⟩), rfl⟩⟩
            · exact fun h => by cases h
            · show S.toServer ++ upToNul line = []
              rw [hserver, htext, List.append_nil]
            · exact ⟨hS.buf, fun _ => hS.toClient⟩
          · have hfits := (length_upToNul_le line).trans (fgets_spec hline).2.2.le
            have hn : canRead (upToNul line).length (S.toServer ++ upToNul line) = true := by
              rw [hserver, List.nil_append]
              exact canRead_all htext hfits
            by_cases hnul : 0 ∈ S.array.drop (upToNul line).length
            · rw [texts_of_some hline, List.mem_cons] at hempty
              have hread : (rounded S line rest (upToNul line).length).toServer = [] := by
                rw [rounded, hserver, List.nil_append]
                exact List.drop_length
              obtain ⟨events, S', hrun, hend⟩ := ih (S := rounded S line rest (upToNul line).length)
                (by show rest.length ≤ k; omega) (ready_rounded _) hread (hempty.resolve_left (Ne.symm htext))
              exact ⟨roundEvents (upToNul line).length ++ events, S',
                (run_append (run_round hS hline hn hnul)).trans hrun, hend⟩
            · have hclean : 0 ∉ S.toServer ++ upToNul line := by
                rw [hserver, List.nil_append]
                exact zero_notMem_upToNul line
              obtain ⟨S', hrun, hover⟩ := run_overrun hS hline hn hclean hnul
              exact ⟨_, S', hrun, Or.inl hover⟩

-- What can be waiting for the server at most: a client that takes one byte of each answer leaves the others behind.
def backlog (stdin : Bytes) : Nat := ((texts stdin).map fun text => text.length - 1).sum + 1

theorem backlog_of_some {stdin line rest : Bytes} (h : fgets stdin = some (line, rest)) :
    backlog stdin = (upToNul line).length - 1 + backlog rest := by
  rw [backlog, texts_of_some h, List.map_cons, List.sum_cons, Nat.add_assoc, backlog]

-- It does come to wait: one byte of each text but the last is read, and then all that has come together.
theorem exists_overrun (k : Nat) {S : System} (hlen : S.stdin.length ≤ k) (hS : Ready S) (hclean : 0 ∉ S.toServer)
    (htexts : [] ∉ texts S.stdin) (hne : texts S.stdin ≠ []) (harray : S.array.length ≤ MAXLINE)
    (hnul : 0 ∉ S.array.drop (S.toServer.length + backlog S.stdin)) :
    ∃ events S', run S events = some S' ∧ S'.overrun = true := by
  induction k generalizing S with
  | zero =>
      rw [List.length_eq_zero_iff.mp (Nat.le_zero.mp hlen)] at hne
      exact absurd rfl hne
  | succ k ih =>
      cases hline : fgets S.stdin with
      | none => exact absurd (texts_of_none hline) hne
      | some p =>
          obtain ⟨line, rest⟩ := p
          obtain ⟨hsplit, hpos⟩ := fgets_length hline
          rw [texts_of_some hline, List.mem_cons, not_or] at htexts
          have htext := List.length_pos_iff.mpr (Ne.symm htexts.1)
          have hbacklog := backlog_of_some hline
          have hcoming : 0 ∉ S.toServer ++ upToNul line := fun h =>
            (List.mem_append.mp h).elim hclean (zero_notMem_upToNul line)
          have hlength : (S.toServer ++ upToNul line).length = S.toServer.length + (upToNul line).length :=
            List.length_append
          by_cases hlast : texts rest = []
          · have hone : backlog rest = 1 := by rw [backlog, hlast]; rfl
            have hn : canRead (min MAXLINE (S.toServer ++ upToNul line).length) (S.toServer ++ upToNul line) = true :=
              canRead_iff.mpr ⟨by rw [MAXLINE]; omega, Nat.min_le_left _ _, Nat.min_le_right _ _⟩
            have hread : 0 ∉ S.array.drop (min MAXLINE (S.toServer ++ upToNul line).length) := by
              by_cases hfull : MAXLINE ≤ (S.toServer ++ upToNul line).length
              · rw [Nat.min_eq_left hfull, List.drop_eq_nil_of_le harray]
                exact List.not_mem_nil
              · rw [Nat.min_eq_right (Nat.le_of_not_le hfull), hlength]
                rwa [show S.toServer.length + (upToNul line).length = S.toServer.length + backlog S.stdin by omega]
            obtain ⟨S', hrun, hover⟩ := run_overrun hS hline hn hcoming hread
            exact ⟨_, S', hrun, hover⟩
          · have hn : canRead 1 (S.toServer ++ upToNul line) = true :=
              canRead_one fun h => Ne.symm htexts.1 (List.append_eq_nil_iff.mp h).2
            by_cases hfirst : 0 ∈ S.array.drop 1
            · have hleft : (rounded S line rest 1).toServer.length + backlog rest =
                  S.toServer.length + backlog S.stdin := by
                rw [rounded, List.length_drop, hlength]
                omega
              have hkept : (rounded S line rest 1).array.drop (S.toServer.length + backlog S.stdin) =
                  S.array.drop (S.toServer.length + backlog S.stdin) :=
                drop_overwritten S.array hn (by rw [backlog]; omega)
              obtain ⟨events, S', hrun, hover⟩ := ih (S := rounded S line rest 1) (by show rest.length ≤ k; omega)
                (ready_rounded 1) (fun h => hcoming (List.mem_of_mem_drop h)) htexts.2 hlast
                (length_rounded_array hn harray) (by show 0 ∉ List.drop (_ + backlog rest) _; rwa [hleft, hkept])
              exact ⟨roundEvents 1 ++ events, S', (run_append (run_round hS hline hn hfirst)).trans hrun, hover⟩
            · obtain ⟨S', hrun, hover⟩ := run_overrun hS hline hn hcoming hfirst
              exact ⟨_, S', hrun, hover⟩

-- What is on its way, and what can still come to it.
def pending (S : System) : Nat :=
  S.toServer.length + S.buf.length + S.toClient.length + ((texts S.stdin).map fun text => text.length - 1).sum +
    if S.client = .fgets then 1 else 0

-- While the client waits, something is on its way, and never more than `bound`, behind which the array has a NUL.
structure Awaited (bound : Nat) (S : System) : Prop where
  texts_ne_nil : [] ∉ texts S.stdin
  coming : S.client = .read → S.toServer ++ S.buf ++ S.toClient ≠ []
  pending_le : pending S ≤ bound
  nul : 0 ∈ S.array.drop bound ∨ S.stdin = [] ∧ S.toServer = []
  ok : S.overrun = false

theorem Awaited.step {bound : Nat} (hS : Awaited bound S) (h : UniSock.step S e = some S') : Awaited bound S' := by
  have hpending := hS.pending_le
  cases move_of_step h with
  | closes hclient hline =>
      refine ⟨hS.texts_ne_nil, (fun h => by cases h), ?_, hS.nul, hS.ok⟩
      simp only [pending, hclient, if_true, reduceCtorEq, if_false] at hpending ⊢
      omega
  | sends line stdin hclient hline =>
      have htexts := hS.texts_ne_nil
      rw [texts_of_some hline, List.mem_cons, not_or] at htexts
      have htext := List.length_pos_iff.mpr (Ne.symm htexts.1)
      have hnul := hS.nul.resolve_right fun h => by
        rw [fgets_eq_none.mpr h.1] at hline
        cases hline
      refine ⟨htexts.2, fun _ h => ?_, ?_, Or.inl hnul, hS.ok⟩
      · simp only [List.append_eq_nil_iff] at h
        exact htexts.1 h.1.1.2.symm
      · simp only [pending, hclient, if_true, texts_of_some hline, List.map_cons, List.sum_cons, List.length_append,
          reduceCtorEq, if_false] at hpending ⊢
        omega
  | gets n hclient hn =>
      obtain ⟨hpos, -, hle⟩ := canRead_iff.mp hn
      refine ⟨hS.texts_ne_nil, (fun h => by cases h), ?_, hS.nul, hS.ok⟩
      simp only [pending, hclient, if_true, List.length_drop, reduceCtorEq, if_false] at hpending ⊢
      omega
  | reads n hbuf hn =>
      obtain ⟨hpos, -, hle⟩ := canRead_iff.mp hn
      have hbound : n ≤ bound := by
        rw [pending] at hpending
        omega
      have hnul := hS.nul.resolve_right fun h => by
        rw [h.2] at hle
        exact absurd hle (Nat.not_le_of_lt hpos)
      have hkept := Move.array_kept (.reads n hbuf hn) (k := bound) fun m hm => by
        cases hm
        exact hbound
      refine ⟨hS.texts_ne_nil, fun _ h => ?_, ?_, Or.inl (by rw [hkept.1]; exact hnul), hkept.2 hnul hS.ok⟩
      · simp only [List.append_eq_nil_iff, List.map_eq_nil_iff, List.take_eq_nil_iff] at h
        rcases h.1.2 with hzero | hnil
        · omega
        · rw [hnil] at hle
          exact absurd hle (Nat.not_le_of_lt hpos)
      · simp only [pending, hbuf, List.length_drop, List.length_map, List.length_take, List.length_nil] at hpending ⊢
        omega
  | writes hbuf =>
      refine ⟨hS.texts_ne_nil, fun _ h => ?_, ?_, hS.nul, hS.ok⟩
      · simp only [List.append_eq_nil_iff] at h
        exact hbuf h.2.2
      · simp only [pending, List.length_append, List.length_nil] at hpending ⊢
        omega

-- Every run comes to an end, and the client has read the whole input then, exactly where every text has a byte and the
-- server's array has a NUL behind all that a read can bring.
theorem client_closes_iff (array : Vector Byte MAXLINE) (stdin : Bytes) :
    (∀ events S, run (start array.toList stdin) events = some S →
      events.length ≤ 4 * stdin.length + 1 ∧ S.overrun = false ∧ (Stuck S → S.client = .closed)) ↔
      [] ∉ texts stdin ∧ (stdin = [] ∨ 0 ∈ array.toList.drop (backlog stdin)) := by
  constructor
  · intro h
    have htexts : [] ∉ texts stdin := by
      intro hempty
      obtain ⟨events, S, hrun, hend⟩ := exists_stuck stdin.length (S := start array.toList stdin) (le_refl _)
        (ready_start array.toList stdin) rfl hempty
      obtain ⟨-, hok, hclosed⟩ := h events S hrun
      rcases hend with hover | ⟨hstuck, hread⟩
      · rw [hok] at hover
        cases hover
      · rw [hclosed hstuck] at hread
        cases hread
    refine ⟨htexts, or_iff_not_imp_left.mpr fun hne => ?_⟩
    by_contra hnul
    obtain ⟨events, S, hrun, hover⟩ := exists_overrun stdin.length (S := start array.toList stdin) (le_refl _)
      (ready_start array.toList stdin) List.not_mem_nil htexts (mt texts_eq_nil_iff.mp hne) array.length_toList.le
      (by simpa [start] using hnul)
    have hok := (h events S hrun).2.1
    rw [hover] at hok
    cases hok
  · rintro ⟨htexts, hroom⟩ events S hrun
    have hstart : Awaited (backlog stdin) (start array.toList stdin) :=
      ⟨htexts, (fun h => by cases h), (by simp [pending, start, backlog]), hroom.symm.imp_right fun h => ⟨h, rfl⟩, rfl⟩
    have hS : Awaited (backlog stdin) S :=
      Outcome.foldlM_invariant (I := Awaited (backlog stdin)) (fun _ _ _ hT hstep => hT.step hstep) events
        (start array.toList stdin) S hstart hrun
    refine ⟨?_, hS.ok, fun hstuck => ?_⟩
    · have hlen := length_run_le hrun
      have heffort : effort (start array.toList stdin) = 4 * stdin.length + 1 := rfl
      omega
    · obtain ⟨hclient, hserver, hbuf, hback⟩ :=
        (stuck_iff.mp hstuck).resolve_left fun hover => Bool.false_ne_true (hS.ok.symm.trans hover)
      cases hc : S.client with
      | fgets => exact absurd hc hclient
      | closed => rfl
      | read =>
          have hcoming := hS.coming hc
          rw [hserver, hbuf, hback hc] at hcoming
          exact absurd rfl hcoming

end Deadlock

section Prompt

variable {S S' : System} {e : Event}

-- A read that takes all that is there, as far as its buffer goes.
def Prompt (S : System) : Event → Bool
  | .clientRead n => n = min MAXLINE S.toClient.length
  | .serverRead n => n = min MAXLINE S.toServer.length
  | _ => true

def promptStep (S : System) (e : Event) : Option System := if Prompt S e then step S e else none

-- Nothing is on its way.
structure Idle (S : System) : Prop where
  toServer : S.toServer = []
  buf : S.buf = []
  toClient : S.toClient = []

-- One text at a time is on its way, whole, and in one place.
structure InStep (S : System) : Prop where
  fgets : S.client = .fgets → Idle S
  closed : S.client = .closed → S.stdin = [] ∧ S.toServer = [] ∧ S.buf = [] ∧ S.toClient = []
  fits : S.toServer.length + S.buf.length + S.toClient.length < MAXLINE
  once : S.toServer = [] ∧ S.buf = [] ∨ S.toServer = [] ∧ S.toClient = [] ∨ S.buf = [] ∧ S.toClient = []

theorem InStep.of_read (hclient : S.client = .read)
    (hfits : S.toServer.length + S.buf.length + S.toClient.length < MAXLINE)
    (honce : S.toServer = [] ∧ S.buf = [] ∨ S.toServer = [] ∧ S.toClient = [] ∨ S.buf = [] ∧ S.toClient = []) :
    InStep S where
  fgets h := by rw [hclient] at h; cases h
  closed h := by rw [hclient] at h; cases h
  fits := hfits
  once := honce

-- The client waits while something is on its way.
theorem InStep.client_read (hS : InStep S) (h : ¬Idle S) : S.client = .read := by
  cases hc : S.client with
  | read => rfl
  | fgets => exact absurd (hS.fgets hc) h
  | closed =>
      obtain ⟨-, hserver, hbuf, hback⟩ := hS.closed hc
      exact absurd ⟨hserver, hbuf, hback⟩ h

theorem InStep.step (hS : InStep S) (h : promptStep S e = some S') : InStep S' := by
  rw [promptStep] at h
  split_ifs at h with hprompt
  cases move_of_step h with
  | closes hclient hline =>
      have hidle := hS.fgets hclient
      exact ⟨(fun h => by cases h), fun _ => ⟨fgets_eq_none.mp hline, hidle.toServer, hidle.buf, hidle.toClient⟩,
        hS.fits, hS.once⟩
  | sends line stdin hclient hline =>
      have hidle := hS.fgets hclient
      have hlong := (length_upToNul_le line).trans_lt (fgets_spec hline).2.2
      refine .of_read rfl ?_ (Or.inr (Or.inr ⟨hidle.buf, hidle.toClient⟩))
      show (S.toServer ++ upToNul line).length + S.buf.length + S.toClient.length < MAXLINE
      rw [hidle.toServer, hidle.buf, hidle.toClient]
      exact hlong
  | gets n hclient hn =>
      have hall : n = min MAXLINE S.toClient.length := of_decide_eq_true hprompt
      obtain ⟨hpos, -, hle⟩ := canRead_iff.mp hn
      have hfits := hS.fits
      have hrest : S.toClient.drop n = [] := List.drop_eq_nil_of_le (by omega)
      have hne : S.toClient ≠ [] := List.length_pos_iff.mp (hpos.trans_le hle)
      have hothers : S.toServer = [] ∧ S.buf = [] := by
        rcases hS.once with h | h | h
        · exact h
        · exact absurd h.2 hne
        · exact absurd h.2 hne
      refine ⟨fun _ => ⟨hothers.1, hothers.2, hrest⟩, (fun h => by cases h), ?_, Or.inl hothers⟩
      simp only [hothers.1, hothers.2, hrest, List.length_nil]
      decide
  | reads n hbuf hn =>
      have hall : n = min MAXLINE S.toServer.length := of_decide_eq_true hprompt
      obtain ⟨hpos, -, hle⟩ := canRead_iff.mp hn
      have hfits := hS.fits
      have hrest : S.toServer.drop n = [] := List.drop_eq_nil_of_le (by omega)
      have hne : S.toServer ≠ [] := List.length_pos_iff.mp (hpos.trans_le hle)
      have hback : S.toClient = [] := by
        rcases hS.once with h | h | h
        · exact absurd h.1 hne
        · exact h.2
        · exact h.2
      refine .of_read (hS.client_read fun h => hne h.toServer) ?_ (Or.inr (Or.inl ⟨hrest, hback⟩))
      simp only [hrest, hback, List.length_nil, List.length_map, List.length_take]
      omega
  | writes hbuf =>
      have hfits := hS.fits
      have hserver : S.toServer = [] := by
        rcases hS.once with h | h | h
        · exact h.1
        · exact h.1
        · exact absurd h.1 hbuf
      refine .of_read (hS.client_read fun h => hbuf h.buf) ?_ (Or.inl ⟨hserver, rfl⟩)
      simp only [hserver, List.length_nil, List.length_append]
      omega

theorem run_of_promptRun {events : List Event} (h : events.foldlM promptStep S = some S') : run S events = some S' := by
  induction events generalizing S with
  | nil => exact h
  | cons e events ih =>
      rw [List.foldlM_cons] at h
      obtain ⟨T, hstep, hrest⟩ := Option.bind_eq_some_iff.mp h
      rw [promptStep] at hstep
      split_ifs at hstep
      rw [run, List.foldlM_cons, hstep]
      exact ih hrest

-- The server has a NUL behind the 79 bytes that a text can have.
structure Printed (array : Bytes) (S : System) : Prop where
  inStep : InStep S
  nul : S.array.drop 79 = array.drop 79
  ok : 0 ∈ array.drop 79 → S.overrun = false

theorem Printed.step {array : Bytes} (hS : Printed array S) (h : promptStep S e = some S') : Printed array S' := by
  have hinStep := hS.inStep.step h
  rw [promptStep] at h
  split_ifs at h with hprompt
  have hm := move_of_step h
  have hkept := hm.array_kept (k := 79) fun n hn => by
    subst hn
    have hall : n = min MAXLINE S.toServer.length := of_decide_eq_true hprompt
    have hfits := hS.inStep.fits
    rw [MAXLINE] at hfits
    omega
  exact ⟨hinStep, hkept.1.trans hS.nul, fun hnul => hkept.2 (hS.nul ▸ hnul) (hS.ok hnul)⟩

-- Where every read takes what is there, the client writes the whole answer to a text before it asks for the next one,
-- and a NUL at the end of the server's array is enough for printf.
theorem prompt_echo {array stdin : Bytes} {events : List Event}
    (h : events.foldlM promptStep (start array stdin) = some S) :
    (S.client ≠ .read → S.stdout ++ echo S.stdin = echo stdin) ∧ (0 ∈ array.drop 79 → S.overrun = false) := by
  have hinStep : InStep (start array stdin) :=
    ⟨fun _ => ⟨rfl, rfl, rfl⟩, (fun h => by cases h), Nat.zero_lt_succ 79, Or.inl ⟨rfl, rfl⟩⟩
  have hS : Printed array S := Outcome.foldlM_invariant (I := Printed array) (fun _ _ _ hT hstep => hT.step hstep)
    events (start array stdin) S ⟨hinStep, rfl, fun _ => rfl⟩ h
  refine ⟨fun hclient => ?_, hS.ok⟩
  have hpassed := passed_run (run_of_promptRun h)
  rw [passed_start, passed] at hpassed
  have hidle : Idle S := by_contra fun h => hclient (hS.inStep.client_read h)
  rw [hidle.toServer, hidle.buf, hidle.toClient] at hpassed
  exact hpassed

-- "hi" on a line, with a server that has zeros in its array.
theorem prompt_echo_hi :
    ∃ S, [.fgets, .serverRead 3, .serverWrite, .clientRead 3].foldlM promptStep
        (start (List.replicate 80 0) [0x68, 0x69, 0x0A]) = some S ∧
      S.stdout ++ echo S.stdin = echo [0x68, 0x69, 0x0A] ∧ S.overrun = false := by
  have h : [.fgets, .serverRead 3, .serverWrite, .clientRead 3].foldlM promptStep
      (start (List.replicate 80 0) [0x68, 0x69, 0x0A]) = some
        { client := .fgets, stdin := [], stdout := [0x48, 0x49, 0x0A], toServer := [],
          array := [0x48, 0x49, 0x0A] ++ List.replicate 77 0, buf := [], overrun := false, toClient := [] } := by decide
  exact ⟨_, h, (prompt_echo h).1 (by decide), (prompt_echo h).2 (by decide)⟩

end Prompt

section Parts

variable {S S' : System} {e : Event}

-- Every line but the one that is waited for has been answered with at least a byte.
def Counted (total : Nat) (S : System) : Prop :=
  total ≤ S.stdout.length + (texts S.stdin).length + (if S.client = .read then 1 else 0) ∧
    (S.client = .closed → S.stdin = [])

theorem Counted.step {total : Nat} (hS : Counted total S) (h : UniSock.step S e = some S') : Counted total S' := by
  obtain ⟨hle, hclosed⟩ := hS
  cases move_of_step h with
  | closes hclient hline =>
      rw [hclient, if_neg (by decide)] at hle
      exact ⟨hle, fun _ => fgets_eq_none.mp hline⟩
  | sends line stdin hclient hline =>
      rw [hclient, if_neg (by decide), texts_of_some hline, List.length_cons] at hle
      exact ⟨by simpa [Nat.add_assoc] using hle, fun h => by cases h⟩
  | gets n hclient hn =>
      obtain ⟨hpos, -, hn'⟩ := canRead_iff.mp hn
      rw [hclient, if_pos rfl] at hle
      refine ⟨?_, fun h => by cases h⟩
      simp only [List.length_append, List.length_take, reduceCtorEq, if_false]
      omega
  | reads n hbuf hn => exact ⟨hle, hclosed⟩
  | writes hbuf => exact ⟨hle, hclosed⟩

theorem exists_closed (hS : Ready S) (hnil : S.stdin = []) :
    ∃ events S', run S events = some S' ∧ S'.client = .closed ∧
      S'.stdout.length = S.stdout.length + (texts S.stdin).length := by
  have hmove := Move.closes hS.fgets (fgets_eq_none.mpr hnil)
  refine ⟨[.fgets], _, run_single hS.overrun hmove, rfl, ?_⟩
  rw [hnil]
  rfl

-- A reader that takes one byte of each answer is left behind as soon as a text has more.
theorem exists_one_by_one (k : Nat) {S : System} (hlen : S.stdin.length ≤ k) (hS : Ready S)
    (hnul : 0 ∈ S.array.drop 1) (htexts : [] ∉ texts S.stdin) :
    ∃ events S', run S events = some S' ∧ S'.client = .closed ∧
      S'.stdout.length = S.stdout.length + (texts S.stdin).length := by
  induction k generalizing S with
  | zero => exact exists_closed hS (List.length_eq_zero_iff.mp (Nat.le_zero.mp hlen))
  | succ k ih =>
      cases hline : fgets S.stdin with
      | none => exact exists_closed hS (fgets_eq_none.mp hline)
      | some p =>
          obtain ⟨line, rest⟩ := p
          obtain ⟨hsplit, hpos⟩ := fgets_length hline
          rw [texts_of_some hline, List.mem_cons, not_or] at htexts
          have hn : canRead 1 (S.toServer ++ upToNul line) = true :=
            canRead_one fun h => Ne.symm htexts.1 (List.append_eq_nil_iff.mp h).2
          have hread := length_take_of_canRead hn
          have hkept : (rounded S line rest 1).array.drop 1 = S.array.drop 1 := drop_overwritten S.array hn (le_refl 1)
          obtain ⟨events, S', hrun, hclosed, hcount⟩ := ih (S := rounded S line rest 1) (by show rest.length ≤ k; omega)
            (ready_rounded 1) (by rwa [hkept]) htexts.2
          refine ⟨roundEvents 1 ++ events, S', (run_append (run_round hS hline hn hnul)).trans hrun, hclosed, ?_⟩
          rw [hcount, texts_of_some hline, List.length_cons]
          simp only [rounded, List.length_append, List.length_map, hread]
          omega

theorem length_echo (stdin : Bytes) : (echo stdin).length = ((texts stdin).map List.length).sum := by
  rw [echo, List.length_map, List.length_flatten]

theorem forall_eq_one_of_sum {lines : List Bytes} (hpos : ∀ line ∈ lines, 1 ≤ line.length)
    (hsum : (lines.map List.length).sum = lines.length) : ∀ line ∈ lines, line.length = 1 := by
  induction lines with
  | nil => intro line hline; cases hline
  | cons text lines ih =>
      obtain ⟨htext, hlines⟩ := List.forall_mem_cons.mp hpos
      have hrest : lines.length ≤ (lines.map List.length).sum := by
        simpa using List.length_le_sum_of_one_le (lines.map List.length) (List.forall_mem_map.mpr hlines)
      rw [List.map_cons, List.sum_cons, List.length_cons] at hsum
      exact List.forall_mem_cons.mpr ⟨by omega, ih hlines (by omega)⟩

-- However the reads return, the client has written all of the answer in the end, exactly where every text that is sent
-- is a single byte.
theorem reliable_iff {array stdin : Bytes} (hnul : 0 ∈ array.drop 1) (htexts : [] ∉ texts stdin) :
    (∀ events S, run (start array stdin) events = some S → S.client = .closed → S.stdout = echo stdin) ↔
      ∀ text ∈ texts stdin, text.length = 1 := by
  have hpos : ∀ text ∈ texts stdin, 1 ≤ text.length := fun text htext =>
    List.length_pos_iff.mpr fun hnil => htexts (hnil ▸ htext)
  constructor
  · intro h
    obtain ⟨events, S, hrun, hclosed, hcount⟩ := exists_one_by_one stdin.length (S := start array stdin) (le_refl _)
      (ready_start array stdin) hnul htexts
    have hlength := congrArg List.length (h events S hrun hclosed)
    rw [hcount, length_echo] at hlength
    exact forall_eq_one_of_sum hpos (by simpa [start] using hlength.symm)
  · intro hone events S hrun hclosed
    have hS : Counted (texts stdin).length S := Outcome.foldlM_invariant (I := Counted (texts stdin).length)
      (fun _ _ _ hT hstep => hT.step hstep) events (start array stdin) S ⟨by simp [start], fun h => by cases h⟩ hrun
    obtain ⟨hle, hrest⟩ := hS
    have hnil : S.stdin = [] := hrest hclosed
    have hlength : (echo stdin).length = (texts stdin).length := by
      rw [length_echo, List.map_congr_left hone, List.map_const', List.sum_replicate, nsmul_one, Nat.cast_id]
    rw [hnil, hclosed, if_neg (by decide)] at hle
    have hpassed := passed_run hrun
    rw [passed_start, passed] at hpassed
    have hstart : S.stdout <+: echo stdin := ⟨_, hpassed⟩
    exact hstart.eq_of_length_le (hlength ▸ hle)

-- A letter and the end of its line are two bytes, and the client may ask for the next text with only one of them read.
theorem reliable_letter :
    ¬∀ events S, run (start (List.replicate 80 0) [0x61, 0x0A]) events = some S → S.client = .closed →
      S.stdout = echo [0x61, 0x0A] :=
  fun h => absurd ((@reliable_iff (List.replicate 80 0) [0x61, 0x0A] (by decide) (by decide)).mp h) (by decide)

end Parts

end RichardTest.UniSock
