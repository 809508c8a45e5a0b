import Mathlib.Data.List.Induction
import Mathlib.Logic.Function.Basic
import Mathlib.Tactic.Simps.Basic
import Mathlib.Tactic.SplitIfs

namespace RichardTest.RemoteCall

variable {κ φ σ ρ α : Type} [DecidableEq κ]

section Threads

-- Calls on a shared state that threads run in turns: the frame a call begins in, if there is anything to call,
-- and one turn of the thread in a frame, which gives another frame or the result. A thread that has to wait
-- has no turn.
structure Code (κ φ σ ρ : Type) where
  enter : κ → Option φ
  turn : κ → φ → σ → Option ((φ ⊕ ρ) × σ)

inductive Phase (φ ρ : Type) where
  | idle
  | running (frame : φ)
  | returned (result : ρ)

-- One thread for each call, all of them on the one state.
structure Threads (κ φ σ ρ : Type) where
  state : σ
  phase : κ → Phase φ ρ

inductive Act (κ : Type) where
  | call (k : κ)
  | turn (k : κ)
deriving DecidableEq, Repr

def Threads.start (state : σ) : Threads κ φ σ ρ := ⟨state, fun _ => .idle⟩

def Threads.become (T : Threads κ φ σ ρ) (k : κ) (phase : Phase φ ρ) : Threads κ φ σ ρ :=
  { T with phase := Function.update T.phase k phase }

variable (code : Code κ φ σ ρ)

def Code.step (T : Threads κ φ σ ρ) : Act κ → Option (Threads κ φ σ ρ)
  | .call k =>
      match T.phase k, code.enter k with
      | .idle, some frame => some (T.become k (.running frame))
      | _, _ => none
  | .turn k =>
      match T.phase k with
      | .running frame =>
          (code.turn k frame T.state).map fun after =>
            Threads.become ⟨after.2, T.phase⟩ k (after.1.elim .running .returned)
      | _ => none

def Code.run (T : Threads κ φ σ ρ) (acts : List (Act κ)) : Option (Threads κ φ σ ρ) :=
  acts.foldlM code.step T

variable {code} {T T' : Threads κ φ σ ρ} {k : κ}

-- Everything a step can do.
inductive Code.Move (code : Code κ φ σ ρ) (T : Threads κ φ σ ρ) : Act κ → Threads κ φ σ ρ → Prop where
  | calls (k : κ) (frame : φ) (hphase : T.phase k = .idle) (henter : code.enter k = some frame) :
      Move code T (.call k) (T.become k (.running frame))
  | turns (k : κ) (frame : φ) (next : φ ⊕ ρ) (state : σ) (hphase : T.phase k = .running frame)
      (hturn : code.turn k frame T.state = some (next, state)) :
      Move code T (.turn k) (Threads.become ⟨state, T.phase⟩ k (next.elim .running .returned))

theorem Code.step_eq_some_iff {e : Act κ} : code.step T e = some T' ↔ code.Move T e T' := by
  constructor
  · intro h
    cases e with
    | call k =>
        rw [Code.step] at h
        split at h
        · rename_i frame hphase henter
          cases h
          exact .calls k frame hphase henter
        · cases h
    | turn k =>
        rw [Code.step] at h
        split at h
        · rename_i frame hphase
          obtain ⟨⟨next, state⟩, hturn, rfl⟩ := Option.map_eq_some_iff.mp h
          exact .turns k frame next state hphase hturn
        · cases h
  · intro hm
    cases hm with
    | calls k frame hphase henter => simp only [Code.step, hphase, henter]
    | turns k frame next state hphase hturn => simp only [Code.step, hphase, hturn, Option.map_some]

end Threads

section Server

-- The same calls over a wire: a server answers a request that there is nothing to call for at once, and makes
-- an answer of every result.
structure Server (κ φ σ ρ α : Type) extends Code κ φ σ ρ where
  refuse : κ → α
  answer : κ → ρ → α

-- The request is on the way, a thread of the server runs the call, the answer is on the way, the caller has it.
inductive Place (φ α : Type) where
  | idle
  | sent
  | running (frame : φ)
  | served (answer : α)
  | received (answer : α)

structure System (κ φ σ α : Type) where
  state : σ
  place : κ → Place φ α

inductive Event (κ : Type) where
  | call (k : κ)
  | accept (k : κ)
  | turn (k : κ)
  | receive (k : κ)
deriving DecidableEq, Repr

def System.start (state : σ) : System κ φ σ α := ⟨state, fun _ => .idle⟩

def System.become (S : System κ φ σ α) (k : κ) (place : Place φ α) : System κ φ σ α :=
  { S with place := Function.update S.place k place }

variable (server : Server κ φ σ ρ α)

-- Requests are accepted in whatever order they come in, each by a thread of its own, and the threads take
-- their turns in any order.
def Server.step (S : System κ φ σ α) : Event κ → Option (System κ φ σ α)
  | .call k =>
      match S.place k with
      | .idle => some (S.become k .sent)
      | _ => none
  | .accept k =>
      match S.place k with
      | .sent => some (S.become k ((server.enter k).elim (.served (server.refuse k)) .running))
      | _ => none
  | .turn k =>
      match S.place k with
      | .running frame =>
          (server.turn k frame S.state).map fun after =>
            System.become ⟨after.2, S.place⟩ k (after.1.elim .running fun result => .served (server.answer k result))
      | _ => none
  | .receive k =>
      match S.place k with
      | .served answer => some (S.become k (.received answer))
      | _ => none

def Server.run (S : System κ φ σ α) (events : List (Event κ)) : Option (System κ φ σ α) :=
  events.foldlM server.step S

inductive Server.Move (server : Server κ φ σ ρ α) (S : System κ φ σ α) : Event κ → System κ φ σ α → Prop where
  | calls (k : κ) (hplace : S.place k = .idle) : Move server S (.call k) (S.become k .sent)
  | accepts (k : κ) (hplace : S.place k = .sent) :
      Move server S (.accept k) (S.become k ((server.enter k).elim (.served (server.refuse k)) .running))
  | turns (k : κ) (frame : φ) (next : φ ⊕ ρ) (state : σ) (hplace : S.place k = .running frame)
      (hturn : server.turn k frame S.state = some (next, state)) :
      Move server S (.turn k)
        (System.become ⟨state, S.place⟩ k (next.elim .running fun result => .served (server.answer k result)))
  | receives (k : κ) (answer : α) (hplace : S.place k = .served answer) :
      Move server S (.receive k) (S.become k (.received answer))

variable {server} {S S' : System κ φ σ α}

theorem Server.step_eq_some_iff {e : Event κ} : server.step S e = some S' ↔ server.Move S e S' := by
  constructor
  · intro h
    cases e with
    | call k =>
        rw [Server.step] at h
        split at h
        · rename_i hplace
          cases h
          exact .calls k hplace
        · cases h
    | accept k =>
        rw [Server.step] at h
        split at h
        · rename_i hplace
          cases h
          exact .accepts k hplace
        · cases h
    | turn k =>
        rw [Server.step] at h
        split at h
        · rename_i frame hplace
          obtain ⟨⟨next, state⟩, hturn, rfl⟩ := Option.map_eq_some_iff.mp h
          exact .turns k frame next state hplace hturn
        · cases h
    | receive k =>
        rw [Server.step] at h
        split at h
        · rename_i answer hplace
          cases h
          exact .receives k answer hplace
        · cases h
  · intro hm
    cases hm with
    | calls k hplace => simp only [Server.step, hplace]
    | accepts k hplace => simp only [Server.step, hplace]
    | turns k frame next state hplace hturn => simp only [Server.step, hplace, hturn, Option.map_some]
    | receives k answer hplace => simp only [Server.step, hplace]

end Server

section Simulation

variable {server : Server κ φ σ ρ α} {S S' : System κ φ σ α} {T : Threads κ φ σ ρ} {k : κ}

-- What the threads do on the state when the system does `e`: a request that is accepted is a call.
def Server.acts (server : Server κ φ σ ρ α) : Event κ → List (Act κ)
  | .accept k => if (server.enter k).isSome then [.call k] else []
  | .turn k => [.turn k]
  | _ => []

-- Where the thread of a call is when the call is there.
inductive Server.Matches (server : Server κ φ σ ρ α) (k : κ) : Place φ α → Phase φ ρ → Prop where
  | idle : Matches server k .idle .idle
  | sent : Matches server k .sent .idle
  | running (frame : φ) : Matches server k (.running frame) (.running frame)
  | served (result : ρ) : Matches server k (.served (server.answer k result)) (.returned result)
  | received (result : ρ) : Matches server k (.received (server.answer k result)) (.returned result)
  | refused (henter : server.enter k = none) : Matches server k (.served (server.refuse k)) .idle
  | told (henter : server.enter k = none) : Matches server k (.received (server.refuse k)) .idle

omit [DecidableEq κ] in
theorem Server.Matches.of_idle {phase : Phase φ ρ} (h : server.Matches k .idle phase) : phase = .idle := by
  cases h
  rfl

omit [DecidableEq κ] in
theorem Server.Matches.of_sent {phase : Phase φ ρ} (h : server.Matches k .sent phase) : phase = .idle := by
  cases h
  rfl

omit [DecidableEq κ] in
theorem Server.Matches.of_running {frame : φ} {phase : Phase φ ρ} (h : server.Matches k (.running frame) phase) :
    phase = .running frame := by
  cases h
  rfl

omit [DecidableEq κ] in
theorem Server.Matches.receive {answer : α} {phase : Phase φ ρ} (h : server.Matches k (.served answer) phase) :
    server.Matches k (.received answer) phase := by
  cases h with
  | served result => exact .received result
  | refused henter => exact .told henter

omit [DecidableEq κ] in
-- The caller has an answer only when its thread has ended, or had nothing to call.
theorem Server.Matches.of_received {answer : α} {phase : Phase φ ρ}
    (h : server.Matches k (.received answer) phase) :
    (∃ result, phase = .returned result ∧ answer = server.answer k result) ∨
      (server.enter k = none ∧ answer = server.refuse k) := by
  cases h with
  | received result => exact .inl ⟨result, rfl, rfl⟩
  | told henter => exact .inr ⟨henter, rfl⟩

structure Server.Simulates (server : Server κ φ σ ρ α) (S : System κ φ σ α) (T : Threads κ φ σ ρ) : Prop where
  state : T.state = S.state
  matches_place : ∀ k, server.Matches k (S.place k) (T.phase k)

omit [DecidableEq κ] in
theorem Server.Simulates.start (state : σ) :
    server.Simulates (System.start state) (Threads.start state) where
  state := rfl
  matches_place _ := .idle

-- Both move on at `k`.
theorem Server.Simulates.become (h : server.Simulates S T) {state state' : σ} (hstate : state' = state)
    {place : Place φ α} {phase : Phase φ ρ} (hmatches : server.Matches k place phase) :
    server.Simulates (System.become ⟨state, S.place⟩ k place) (Threads.become ⟨state', T.phase⟩ k phase) where
  state := hstate
  matches_place j := by
    by_cases hj : j = k
    · subst hj
      simpa [System.become, Threads.become] using hmatches
    · simpa [System.become, Threads.become, hj] using h.matches_place j

-- The threads stay where they are.
theorem Server.Simulates.keep (h : server.Simulates S T) {place : Place φ α}
    (hmatches : server.Matches k place (T.phase k)) : server.Simulates (S.become k place) T where
  state := h.state
  matches_place j := by
    by_cases hj : j = k
    · subst hj
      simpa [System.become] using hmatches
    · simpa [System.become, hj] using h.matches_place j

theorem Server.Simulates.move (h : server.Simulates S T) {e : Event κ} (hm : server.Move S e S') :
    ∃ T', server.toCode.run T (server.acts e) = some T' ∧ server.Simulates S' T' := by
  cases hm with
  | calls k hplace =>
      have hphase := (hplace ▸ h.matches_place k).of_idle
      exact ⟨T, rfl, h.keep (hphase ▸ .sent)⟩
  | accepts k hplace =>
      have hphase := (hplace ▸ h.matches_place k).of_sent
      cases henter : server.enter k with
      | none => exact ⟨T, by simp [Server.acts, henter, Code.run], h.keep (hphase ▸ .refused henter)⟩
      | some frame =>
          have hstep := Code.step_eq_some_iff.mpr (Code.Move.calls k frame hphase henter)
          exact ⟨_, by simp [Server.acts, henter, Code.run, hstep], h.become h.state (.running frame)⟩
  | turns k frame next state hplace hturn =>
      have hphase := (hplace ▸ h.matches_place k).of_running
      have hstep := Code.step_eq_some_iff.mpr
        (Code.Move.turns k frame next state hphase (h.state ▸ hturn))
      refine ⟨_, by simp [Server.acts, Code.run, hstep]; rfl, h.become rfl ?_⟩
      cases next with
      | inl frame => exact .running frame
      | inr result => exact .served result
  | receives k answer hplace => exact ⟨T, rfl, h.keep (hplace ▸ h.matches_place k).receive⟩

theorem Code.run_append (code : Code κ φ σ ρ) (T : Threads κ φ σ ρ) (as bs : List (Act κ)) :
    code.run T (as ++ bs) = (code.run T as).bind fun T' => code.run T' bs :=
  List.foldlM_append

theorem Server.run_concat {events : List (Event κ)} {e : Event κ} :
    server.run S (events ++ [e]) = some S' ↔ ∃ U, server.run S events = some U ∧ server.Move U e S' := by
  rw [Server.run, List.foldlM_append, Option.bind_eq_bind, Option.bind_eq_some_iff]
  simp only [List.foldlM_cons, List.foldlM_nil, bind_pure, Server.step_eq_some_iff]
  rfl

-- A run of the system is a run of threads on the same state.
theorem Server.simulates_run (state : σ) (events : List (Event κ)) :
    ∀ S, server.run (System.start state) events = some S →
      ∃ T, server.toCode.run (Threads.start state) (events.flatMap server.acts) = some T ∧ server.Simulates S T := by
  induction events using List.reverseRecOn with
  | nil =>
      intro S h
      cases h
      exact ⟨_, rfl, .start state⟩
  | append_singleton events e ih =>
      intro S h
      obtain ⟨U, hU, hmove⟩ := Server.run_concat.mp h
      obtain ⟨T, hT, hsim⟩ := ih U hU
      obtain ⟨T', hT', hsim'⟩ := hsim.move hmove
      refine ⟨T', ?_, hsim'⟩
      rw [List.flatMap_append, Code.run_append, hT, List.flatMap_singleton]
      exact hT'

-- An answer that the caller has stays.
theorem Server.Move.received {e : Event κ} (hm : server.Move S e S') {j : κ} {answer : α}
    (h : S.place j = .received answer) : S'.place j = .received answer := by
  have hne : ∀ k place, S.place k = place → place ≠ .received answer → j ≠ k := by
    rintro k place hplace hreceived rfl
    exact hreceived (hplace.symm.trans h)
  cases hm with
  | calls k hplace => simpa [System.become, hne k _ hplace (by simp)] using h
  | accepts k hplace => simpa [System.become, hne k _ hplace (by simp)] using h
  | turns k frame next state hplace hturn => simpa [System.become, hne k _ hplace (by simp)] using h
  | receives k answer hplace => simpa [System.become, hne k _ hplace (by simp)] using h

theorem Server.place_of_receive (state : σ) (events : List (Event κ)) {j : κ} :
    ∀ S, server.run (System.start state) events = some S → .receive j ∈ events →
      ∃ answer, S.place j = .received answer := by
  induction events using List.reverseRecOn with
  | nil => simp
  | append_singleton events e ih =>
      intro S h hj
      obtain ⟨U, hU, hmove⟩ := Server.run_concat.mp h
      rw [List.mem_append, List.mem_singleton] at hj
      rcases hj with hj | rfl
      · obtain ⟨answer, hanswer⟩ := ih U hU hj
        exact ⟨answer, hmove.received hanswer⟩
      · cases hmove with
        | receives _ answer _ => exact ⟨answer, by simp [System.become]⟩

-- When a call begins, the thread of every call that has been answered is at its end, and its own has not begun.
theorem Server.returned_of_receive {state : σ} {past future : List (Event κ)} {j : κ}
    (h : server.run (System.start state) (past ++ .call k :: future) = some S) (hj : .receive j ∈ past) :
    ∃ T, server.toCode.run (Threads.start state) (past.flatMap server.acts) = some T ∧ T.phase k = .idle ∧
      ((∃ result, T.phase j = .returned result) ∨ server.enter j = none) := by
  rw [Server.run, List.foldlM_append] at h
  obtain ⟨U, hU, hrest⟩ := Option.bind_eq_some_iff.mp h
  rw [List.foldlM_cons] at hrest
  obtain ⟨V, hV, -⟩ := Option.bind_eq_some_iff.mp hrest
  obtain ⟨T, hT, hsim⟩ := Server.simulates_run state past U hU
  refine ⟨T, hT, ?_, ?_⟩
  · cases Server.step_eq_some_iff.mp hV with
    | calls _ hplace => exact (hplace ▸ hsim.matches_place k).of_idle
  · obtain ⟨answer, hanswer⟩ := Server.place_of_receive state past U hU hj
    rcases (hanswer ▸ hsim.matches_place j).of_received with ⟨result, hresult, -⟩ | ⟨henter, -⟩
    · exact .inl ⟨result, hresult⟩
    · exact .inr henter

end Simulation

section Completeness

variable {server : Server κ φ σ ρ α} {T T' : Threads κ φ σ ρ}

-- Events that make the threads do `a`, and the system that they lead to.
def Act.events : Act κ → List (Event κ)
  | .call k => [.call k, .accept k]
  | .turn k => [.turn k]

def Server.place (server : Server κ φ σ ρ α) (k : κ) : Phase φ ρ → Place φ α
  | .idle => .idle
  | .running frame => .running frame
  | .returned result => .served (server.answer k result)

def Server.system (server : Server κ φ σ ρ α) (T : Threads κ φ σ ρ) : System κ φ σ α :=
  ⟨T.state, fun k => server.place k (T.phase k)⟩

theorem Server.system_become (state : σ) (k : κ) (phase : Phase φ ρ) :
    server.system (Threads.become ⟨state, T.phase⟩ k phase) =
      System.become ⟨state, (server.system T).place⟩ k (server.place k phase) := by
  rw [Server.system, Threads.become, System.become, System.mk.injEq]
  refine ⟨rfl, funext fun j => ?_⟩
  by_cases hj : j = k
  · subst hj
    simp
  · simp [hj, Server.system]

theorem Server.run_events {a : Act κ} (hm : server.toCode.Move T a T') :
    server.run (server.system T) a.events = some (server.system T') ∧ a.events.flatMap server.acts = [a] := by
  cases hm with
  | calls k frame hphase henter =>
      have hplace : (server.system T).place k = .idle := by simp only [Server.system, hphase, Server.place]
      have hmove : server.Move (server.system T) (.call k) _ := .calls k hplace
      have hcall := Server.step_eq_some_iff.mpr hmove
      have haccept : server.step ((server.system T).become k .sent) (.accept k) =
          some (((server.system T).become k .sent).become k (.running frame)) := by
        simp [Server.step, System.become, henter]
      refine ⟨?_, by simp [Act.events, Server.acts, henter]⟩
      simp only [Act.events, Server.run, List.foldlM_cons, List.foldlM_nil, hcall, haccept, Option.bind_eq_bind,
        Option.bind_some, Option.pure_def, Option.some.injEq]
      refine Eq.trans ?_ (Server.system_become T.state k (.running frame)).symm
      simp [System.become, Server.system, Server.place]
  | turns k frame next state hphase hturn =>
      have hplace : (server.system T).place k = .running frame := by
        simp only [Server.system, hphase, Server.place]
      have hmove : server.Move (server.system T) (.turn k) _ := .turns k frame next state hplace hturn
      have hstep := Server.step_eq_some_iff.mpr hmove
      refine ⟨?_, by simp [Act.events, Server.acts]⟩
      simp only [Act.events, Server.run, List.foldlM_cons, List.foldlM_nil, hstep, Option.bind_eq_bind,
        Option.bind_some, Option.pure_def, Option.some.injEq, Server.system_become]
      cases next <;> rfl

-- Every run of the threads comes from a run of the system.
theorem Server.exists_run (state : σ) (acts : List (Act κ)) :
    ∀ T, server.toCode.run (Threads.start state) acts = some T →
      ∃ events, server.run (System.start state) events = some (server.system T) ∧
        events.flatMap server.acts = acts := by
  induction acts using List.reverseRecOn with
  | nil =>
      intro T h
      cases h
      exact ⟨[], rfl, rfl⟩
  | append_singleton acts a ih =>
      intro T h
      rw [Code.run_append] at h
      obtain ⟨U, hU, hlast⟩ := Option.bind_eq_some_iff.mp h
      rw [Code.run, List.foldlM_cons] at hlast
      obtain ⟨V, hV, hrest⟩ := Option.bind_eq_some_iff.mp hlast
      cases hrest
      obtain ⟨events, hrun, hacts⟩ := ih U hU
      obtain ⟨hlast', hacts'⟩ := Server.run_events (Code.step_eq_some_iff.mp hV)
      refine ⟨events ++ a.events, ?_, ?_⟩
      · rw [Server.run] at hrun ⊢
        rw [List.foldlM_append, hrun]
        exact hlast'
      · rw [List.flatMap_append, hacts, hacts']

end Completeness

end RichardTest.RemoteCall
