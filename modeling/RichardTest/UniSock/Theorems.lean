import RichardTest.UniSock
import RichardTest.Outcome
import Mathlib.Algebra.Order.Ring.Nat

namespace RichardTest.UniSock

section Lines

variable {stdin line rest : Bytes}

theorem getLine_append (k : Nat) (s : Bytes) : (getLine k s).1 ++ (getLine k s).2 = s := by
  induction k generalizing s with
  | zero => rfl
  | succ k ih =>
      cases s with
      | nil => rfl
      | cons c s =>
          rw [getLine]
          split_ifs
          · rfl
          · exact congrArg (c :: ·) (ih s)

theorem length_getLine_le (k : Nat) (s : Bytes) : (getLine k s).1.length ≤ k := by
  induction k generalizing s with
  | zero => exact Nat.le_refl 0
  | succ k ih =>
      cases s with
      | nil => exact Nat.zero_le _
      | cons c s =>
          rw [getLine]
          split_ifs
          · exact Nat.succ_le_succ (Nat.zero_le k)
          · exact Nat.succ_le_succ (ih s)

theorem getLine_ne_nil (k : Nat) (c : Byte) (s : Bytes) : (getLine (k + 1) (c :: s)).1 ≠ [] := by
  rw [getLine]
  split_ifs
  · exact List.cons_ne_nil _ _
  · exact List.cons_ne_nil _ _

theorem fgets_eq_none : fgets stdin = none ↔ stdin = [] := by
  rw [fgets]
  split_ifs with h
  · exact iff_of_true rfl h
  · exact iff_of_false not_false h

-- A line takes at least one byte of the input, and less than the server reads at once.
theorem fgets_spec (h : fgets stdin = some (line, rest)) :
    line ++ rest = stdin ∧ line ≠ [] ∧ line.length < MAXLINE := by
  rw [fgets] at h
  split_ifs at h with hnil
  obtain ⟨c, s, rfl⟩ := List.exists_cons_of_ne_nil hnil
  have hline : getLine 79 (c :: s) = (line, rest) := Option.some.inj h
  have happend := getLine_append 79 (c :: s)
  have hlength := length_getLine_le 79 (c :: s)
  have hne := getLine_ne_nil 78 c s
  rw [hline] at happend hlength hne
  exact ⟨happend, hne, Nat.lt_succ_of_le hlength⟩

theorem length_upToNul_le (line : Bytes) : (upToNul line).length ≤ line.length :=
  (List.takeWhile_prefix _).length_le

theorem fgets_length (h : fgets stdin = some (line, rest)) :
    stdin.length = line.length + rest.length ∧ 0 < line.length := by
  obtain ⟨rfl, hne, -⟩ := fgets_spec h
  exact ⟨List.length_append, List.length_pos_iff.mpr hne⟩

theorem textsWithin_of_le {k : Nat} (h : stdin.length ≤ k) : textsWithin k stdin = texts stdin := by
  have hstep : ∀ (k : Nat) (stdin : Bytes), stdin.length ≤ k → textsWithin (k + 1) stdin = textsWithin k stdin := by
    intro k
    induction k with
    | zero =>
        intro stdin hle
        rw [List.length_eq_zero_iff.mp (Nat.le_zero.mp hle)]
        rfl
    | succ k ih =>
        intro stdin hle
        rw [textsWithin, textsWithin]
        cases hline : fgets stdin with
        | none => rfl
        | some p =>
            obtain ⟨line, rest⟩ := p
            obtain ⟨hlen, hpos⟩ := fgets_length hline
            exact congrArg _ (ih rest (by omega))
  induction k, h using Nat.le_induction with
  | base => rfl
  | succ k hle ih => rw [hstep k stdin hle, ih]

theorem texts_of_none (h : fgets stdin = none) : texts stdin = [] := by
  rw [fgets_eq_none.mp h]
  rfl

theorem texts_of_some (h : fgets stdin = some (line, rest)) : texts stdin = upToNul line :: texts rest := by
  obtain ⟨hlen, hpos⟩ := fgets_length h
  obtain ⟨k, hk⟩ := Nat.exists_eq_succ_of_ne_zero (show stdin.length ≠ 0 by omega)
  rw [texts, hk, textsWithin, h]
  exact congrArg _ (textsWithin_of_le (by omega))

theorem texts_eq_nil_iff : texts stdin = [] ↔ stdin = [] := by
  refine ⟨fun h => ?_, fun h => by rw [h]; rfl⟩
  by_contra hne
  cases hline : fgets stdin with
  | none => exact hne (fgets_eq_none.mp hline)
  | some p =>
      obtain ⟨line, rest⟩ := p
      rw [texts_of_some hline] at h
      cases h

end Lines

section Steps

-- Everything a step can do.
inductive Move (S : System) : Event → System → Prop where
  | closes (hclient : S.client = .fgets) (hline : fgets S.stdin = none) : Move S .fgets { S with client := .closed }
  | sends (line stdin : Bytes) (hclient : S.client = .fgets) (hline : fgets S.stdin = some (line, stdin)) :
      Move S .fgets { S with client := .read, stdin, toServer := S.toServer ++ upToNul line }
  | gets (n : Nat) (hclient : S.client = .read) (hn : canRead n S.toClient) :
      Move S (.clientRead n)
        { S with client := .fgets, stdout := S.stdout ++ S.toClient.take n, toClient := S.toClient.drop n }
  | reads (n : Nat) (hbuf : S.buf = []) (hn : canRead n S.toServer) :
      Move S (.serverRead n)
        { S with
          toServer := S.toServer.drop n
          array := (S.toServer.take n).map toupper ++ S.array.drop n
          buf := (S.toServer.take n).map toupper
          overrun := 0 ∉ S.toServer.take n ++ S.array.drop n }
  | writes (hbuf : S.buf ≠ []) : Move S .serverWrite { S with toClient := S.toClient ++ S.buf, buf := [] }

variable {S S' : System} {e : Event}

theorem canRead_iff {n : Nat} {stream : Bytes} :
    canRead n stream = true ↔ 0 < n ∧ n ≤ MAXLINE ∧ n ≤ stream.length := decide_eq_true_iff

theorem step_eq_some_iff : step S e = some S' ↔ S.overrun = false ∧ Move S e S' := by
  constructor
  · intro h
    unfold step at h
    by_cases hoverrun : S.overrun = true
    · rw [if_pos hoverrun] at h
      cases h
    rw [if_neg hoverrun] at h
    refine ⟨Bool.eq_false_of_not_eq_true hoverrun, ?_⟩
    cases e with
    | fgets =>
        simp only at h
        split_ifs at h with hclient
        cases hline : fgets S.stdin with
        | none =>
            rw [hline] at h
            cases h
            exact .closes hclient hline
        | some p =>
            rw [hline] at h
            cases h
            exact .sends p.1 p.2 hclient hline
    | clientRead n =>
        simp only at h
        split_ifs at h with hguard
        cases h
        exact .gets n hguard.1 hguard.2
    | serverRead n =>
        simp only at h
        split_ifs at h with hguard
        cases h
        exact .reads n hguard.1 hguard.2
    | serverWrite =>
        simp only at h
        split_ifs at h with hbuf
        cases h
        exact .writes hbuf
  · rintro ⟨hoverrun, hm⟩
    unfold step
    rw [if_neg (by simp [hoverrun])]
    cases hm with
    | closes hclient hline => simp only [if_pos hclient, hline]
    | sends line stdin hclient hline => simp only [if_pos hclient, hline]
    | gets n hclient hn => exact if_pos ⟨hclient, hn⟩
    | reads n hbuf hn => exact if_pos ⟨hbuf, hn⟩
    | writes hbuf => exact if_pos hbuf

theorem move_of_step (h : step S e = some S') : Move S e S' := (step_eq_some_iff.mp h).2

end Steps

section Conservation

-- What the client is to write for an input.
def echo (stdin : Bytes) : Bytes := (texts stdin).flatten.map toupper

-- All that has been written, is on its way or is still to come, in this order.
def passed (S : System) : Bytes := S.stdout ++ (S.toClient ++ (S.buf ++ (S.toServer.map toupper ++ echo S.stdin)))

variable {S S' : System} {e : Event}

theorem echo_of_some {stdin line rest : Bytes} (h : fgets stdin = some (line, rest)) :
    echo stdin = (upToNul line).map toupper ++ echo rest := by
  rw [echo, texts_of_some h, List.flatten_cons, List.map_append, echo]

-- No byte is lost, doubled or overtaken by another one.
theorem passed_step (h : step S e = some S') : passed S' = passed S := by
  cases move_of_step h with
  | closes hclient hline => rfl
  | sends line stdin hclient hline =>
      rw [passed, passed, echo_of_some hline, List.map_append, List.append_assoc (S.toServer.map toupper)]
  | gets n hclient hn =>
      have hsplit := List.take_append_drop n S.toClient
      calc passed _ = S.stdout ++ ((S.toClient.take n ++ S.toClient.drop n) ++
            (S.buf ++ (S.toServer.map toupper ++ echo S.stdin))) := by
            simp only [passed, List.append_assoc]
        _ = passed S := by rw [hsplit, passed]
  | reads n hbuf hn =>
      have hsplit := List.take_append_drop n (S.toServer.map toupper)
      rw [passed, passed, hbuf, List.nil_append, ← hsplit, List.map_take, List.map_drop, List.append_assoc]
  | writes hbuf => rw [passed, passed, List.append_assoc, List.nil_append]

theorem passed_run {events : List Event} (h : run S events = some S') : passed S' = passed S :=
  Outcome.foldlM_invariant (I := fun T => passed T = passed S)
    (fun _ _ _ hT hstep => (passed_step hstep).trans hT) events S S' rfl h

theorem passed_start (array stdin : Bytes) : passed (start array stdin) = echo stdin := rfl

end Conservation

section Endings

variable {S S' : System} {e : Event}

-- What is left to do, counted so that every step does some of it.
def effort (S : System) : Nat :=
  4 * S.stdin.length + 3 * S.toServer.length + 2 * S.buf.length + S.toClient.length +
    if S.client = .closed then 0 else 1

theorem effort_step (h : step S e = some S') : effort S' < effort S := by
  cases move_of_step h with
  | closes hclient hline => simp [effort, hclient]
  | sends line stdin hclient hline =>
      obtain ⟨hlen, hpos⟩ := fgets_length hline
      have hcut := length_upToNul_le line
      simp only [effort, hclient, hlen, List.length_append, reduceCtorEq, if_false]
      omega
  | gets n hclient hn =>
      obtain ⟨hpos, -, hle⟩ := canRead_iff.mp hn
      simp only [effort, hclient, List.length_drop, reduceCtorEq, if_false]
      omega
  | reads n hbuf hn =>
      obtain ⟨hpos, -, hle⟩ := canRead_iff.mp hn
      simp only [effort, hbuf, List.length_drop, List.length_map, List.length_take, List.length_nil]
      omega
  | writes hbuf =>
      have hpos := List.length_pos_iff.mpr hbuf
      simp only [effort, List.length_append, List.length_nil]
      omega

theorem length_run_le {events : List Event} (h : run S events = some S') : events.length + effort S' ≤ effort S := by
  induction events generalizing S with
  | nil =>
      cases h
      rw [List.length_nil, Nat.zero_add]
  | cons e events ih =>
      rw [run, List.foldlM_cons] at h
      obtain ⟨T, hstep, hrest⟩ := Option.bind_eq_some_iff.mp h
      have hT := ih hrest
      have hless := effort_step hstep
      rw [List.length_cons]
      omega

def Stuck (S : System) : Prop := ∀ e, step S e = none

theorem canRead_one {stream : Bytes} (h : stream ≠ []) : canRead 1 stream = true :=
  canRead_iff.mpr ⟨Nat.one_pos, by decide, List.length_pos_iff.mpr h⟩

theorem canRead_nil (n : Nat) : canRead n [] = false := by
  cases n with
  | zero => rfl
  | succ n => exact decide_eq_false fun h => absurd h.2.2 (Nat.not_succ_le_zero n)

-- Nothing can happen any more where printf has run over, the client waits with nothing on its way, or it has ended and
-- the server is done.
theorem stuck_iff : Stuck S ↔ S.overrun = true ∨
    (S.client ≠ .fgets ∧ S.toServer = [] ∧ S.buf = [] ∧ (S.client = .read → S.toClient = [])) := by
  by_cases hoverrun : S.overrun = true
  · refine iff_of_true (fun e => ?_) (Or.inl hoverrun)
    unfold step
    rw [if_pos hoverrun]
  rw [or_iff_right hoverrun]
  have hok := Bool.eq_false_of_not_eq_true hoverrun
  constructor
  · intro h
    have hmoves : ∀ e S', ¬Move S e S' := fun e S' hm => by
      have hnone := h e
      rw [step_eq_some_iff.mpr ⟨hok, hm⟩] at hnone
      cases hnone
    have hbuf : S.buf = [] := by
      by_contra hbuf
      exact hmoves _ _ (.writes hbuf)
    refine ⟨fun hclient => ?_, ?_, hbuf, fun hclient => ?_⟩
    · cases hline : fgets S.stdin with
      | none => exact hmoves _ _ (.closes hclient hline)
      | some p => exact hmoves _ _ (.sends p.1 p.2 hclient hline)
    · by_contra hserver
      exact hmoves _ _ (.reads 1 hbuf (canRead_one hserver))
    · by_contra hback
      exact hmoves _ _ (.gets 1 hclient (canRead_one hback))
  · rintro ⟨hclient, hserver, hbuf, hback⟩ e
    refine Option.eq_none_iff_forall_not_mem.mpr fun S' h => ?_
    cases move_of_step h with
    | closes hclient' hline => exact hclient hclient'
    | sends line stdin hclient' hline => exact hclient hclient'
    | gets n hclient' hn =>
        rw [hback hclient', canRead_nil] at hn
        cases hn
    | reads n hbuf' hn =>
        rw [hserver, canRead_nil] at hn
        cases hn
    | writes hbuf' => exact hbuf' hbuf

end Endings

section Arrays

variable {S S' : System} {e : Event}

theorem length_take_of_canRead {n : Nat} {stream : Bytes} (hn : canRead n stream) : (stream.take n).length = n :=
  List.length_take_of_le (canRead_iff.mp hn).2.2

-- Behind what is read the array stays as it is.
theorem drop_overwritten {n k : Nat} {stream : Bytes} (array : Bytes) (hn : canRead n stream) (hk : n ≤ k) :
    ((stream.take n).map toupper ++ array.drop n).drop k = array.drop k := by
  have hlength : ((stream.take n).map toupper).length = n := by rw [List.length_map, length_take_of_canRead hn]
  rw [List.drop_append, List.drop_eq_nil_of_le (by rwa [hlength]), hlength, List.nil_append, List.drop_drop,
    Nat.add_sub_of_le hk]

-- A NUL behind all that is read is still there for printf.
theorem Move.array_kept {k : Nat} (hm : Move S e S') (hk : ∀ n, e = .serverRead n → n ≤ k) :
    S'.array.drop k = S.array.drop k ∧ (0 ∈ S.array.drop k → S.overrun = false → S'.overrun = false) := by
  cases hm with
  | closes hclient hline => exact ⟨rfl, fun _ hok => hok⟩
  | sends line stdin hclient hline => exact ⟨rfl, fun _ hok => hok⟩
  | gets n hclient hn => exact ⟨rfl, fun _ hok => hok⟩
  | writes hbuf => exact ⟨rfl, fun _ hok => hok⟩
  | reads n hbuf hn =>
      have hle := hk n rfl
      refine ⟨drop_overwritten S.array hn hle, fun hnul _ => ?_⟩
      have hkept : S.array.drop k <:+ S.array.drop n := by
        rw [← Nat.add_sub_of_le hle, ← List.drop_drop]
        exact List.drop_suffix _ _
      exact decide_eq_false (not_not_intro (List.mem_append_right _ (hkept.subset hnul)))

end Arrays

section Rounds

variable {S : System} {line rest : Bytes}

-- A text goes out, and both sides read `n` bytes.
def roundEvents (n : Nat) : List Event := [.fgets, .serverRead n, .serverWrite, .clientRead n]

-- The system after such a round.
def rounded (S : System) (line rest : Bytes) (n : Nat) : System :=
  { client := .fgets
    stdin := rest
    stdout := S.stdout ++ ((S.toServer ++ upToNul line).take n).map toupper
    toServer := (S.toServer ++ upToNul line).drop n
    array := ((S.toServer ++ upToNul line).take n).map toupper ++ S.array.drop n
    buf := []
    overrun := false
    toClient := [] }

-- Between two rounds only what the server has not read is on its way.
structure Ready (S : System) : Prop where
  fgets : S.client = .fgets
  buf : S.buf = []
  overrun : S.overrun = false
  toClient : S.toClient = []

theorem ready_start (array stdin : Bytes) : Ready (start array stdin) := ⟨rfl, rfl, rfl, rfl⟩

theorem ready_rounded (n : Nat) : Ready (rounded S line rest n) := ⟨rfl, rfl, rfl, rfl⟩

theorem length_rounded_array {n : Nat} (hn : canRead n (S.toServer ++ upToNul line))
    (harray : S.array.length ≤ MAXLINE) : (rounded S line rest n).array.length ≤ MAXLINE := by
  have hmax := (canRead_iff.mp hn).2.1
  rw [rounded, List.length_append, List.length_map, length_take_of_canRead hn, List.length_drop]
  omega

theorem run_round (hS : Ready S) (hline : fgets S.stdin = some (line, rest)) {n : Nat}
    (hn : canRead n (S.toServer ++ upToNul line)) (hnul : 0 ∈ S.array.drop n) :
    run S (roundEvents n) = some (rounded S line rest n) := by
  obtain ⟨hpos, hmax, -⟩ := canRead_iff.mp hn
  have hlength := length_take_of_canRead hn
  have hbuf : ((S.toServer ++ upToNul line).take n).map toupper ≠ [] := by
    rw [← List.length_pos_iff, List.length_map, hlength]
    exact hpos
  have hback : canRead n (((S.toServer ++ upToNul line).take n).map toupper) = true :=
    canRead_iff.mpr ⟨hpos, hmax, by rw [List.length_map, hlength]⟩
  have htake : (((S.toServer ++ upToNul line).take n).map toupper).take n =
      ((S.toServer ++ upToNul line).take n).map toupper := List.take_of_length_le (by rw [List.length_map, hlength])
  have hdrop : (((S.toServer ++ upToNul line).take n).map toupper).drop n = [] :=
    List.drop_eq_nil_of_le (by rw [List.length_map, hlength])
  simp only [run, roundEvents, List.foldlM_cons, List.foldlM_nil, step, hS.fgets, hline, hS.buf, hS.overrun,
    hS.toClient, hn, Option.bind_eq_bind, Option.bind_some, if_true, and_self, ne_eq, hbuf, not_false_iff,
    List.mem_append, hnul, or_true, not_true, decide_false, Bool.false_eq_true, if_false, List.nil_append, hback,
    htake, hdrop]
  rfl

-- A read that leaves no NUL in the array makes printf run over.
theorem run_overrun (hS : Ready S) (hline : fgets S.stdin = some (line, rest)) {n : Nat}
    (hn : canRead n (S.toServer ++ upToNul line)) (htext : 0 ∉ S.toServer ++ upToNul line)
    (hnul : 0 ∉ S.array.drop n) : ∃ S', run S [.fgets, .serverRead n] = some S' ∧ S'.overrun = true := by
  have hover : 0 ∉ (S.toServer ++ upToNul line).take n ++ S.array.drop n := fun h =>
    (List.mem_append.mp h).elim (fun h => htext (List.mem_of_mem_take h)) hnul
  refine ⟨{ S with
    client := .read
    stdin := rest
    toServer := (S.toServer ++ upToNul line).drop n
    array := ((S.toServer ++ upToNul line).take n).map toupper ++ S.array.drop n
    buf := ((S.toServer ++ upToNul line).take n).map toupper
    overrun := true }, ?_, rfl⟩
  simp only [run, List.foldlM_cons, List.foldlM_nil, step, hS.fgets, hline, hS.buf, hS.overrun, hn,
    Option.bind_eq_bind, Option.bind_some, if_true, and_self, Bool.false_eq_true, if_false, hover, not_false_iff,
    decide_true]
  rfl

end Rounds

end RichardTest.UniSock
