import RichardTest.Outcome
import Mathlib.Data.Fintype.Basic
import Mathlib.Logic.Function.Basic
import Mathlib.Tactic.Simps.Basic
import Mathlib.Tactic.SplitIfs

namespace RichardTest.Monitor

-- Threads that share one monitor. What a thread does next, with the position it goes on at.
inductive Op (κ σ : Type) where
  | enter (next : κ)
  | exit (next : κ)
  | wait (next : κ)
  | notify (next : κ)
  | run (next : κ) (shared : σ)
  | stop

-- A thread that has been notified goes on when it has the lock again.
inductive Mode where
  | running
  | waiting
  | notified
deriving DecidableEq, Repr

structure State (ι κ σ : Type) where
  shared : σ
  position : ι → κ
  mode : ι → Mode
  owner : Option ι

-- A thread takes its turn, where `woken` is the thread that a notification reaches, or a thread wakes
-- up without a notification.
inductive Event (ι : Type) where
  | turn (i : ι) (woken : Option ι)
  | spurious (i : ι)
deriving DecidableEq, Repr

variable {ι κ σ : Type} [DecidableEq ι]

@[simps]
def State.goto (S : State ι κ σ) (i : ι) (next : κ) : State ι κ σ :=
  { S with position := Function.update S.position i next }

@[simps]
def State.become (S : State ι κ σ) (i : ι) (mode : Mode) : State ι κ σ :=
  { S with mode := Function.update S.mode i mode }

@[simps]
def State.lock (S : State ι κ σ) (owner : Option ι) : State ι κ σ :=
  { S with owner := owner }

@[simps]
def State.store (S : State ι κ σ) (shared : σ) : State ι κ σ :=
  { S with shared := shared }

variable [Fintype ι] (code : ι → κ → σ → Op κ σ)

-- A running thread does what its code says. Without the lock it can neither leave, nor wait, nor notify.
def act (S : State ι κ σ) (i : ι) (woken : Option ι) : Op κ σ → Option (State ι κ σ)
  | .enter next => if S.owner = none then some ((S.goto i next).lock (some i)) else none
  | .exit next => if S.owner = some i then some ((S.goto i next).lock none) else none
  | .wait next =>
      if S.owner = some i then some (((S.goto i next).become i .waiting).lock none) else none
  | .notify next =>
      if S.owner = some i then
        match woken with
        | some j => if S.mode j = .waiting then some ((S.goto i next).become j .notified) else none
        | none => if ∀ j, S.mode j ≠ .waiting then some (S.goto i next) else none
      else none
  | .run next shared => some ((S.goto i next).store shared)
  | .stop => none

def step (S : State ι κ σ) : Event ι → Option (State ι κ σ)
  | .spurious i => if S.mode i = .waiting then some (S.become i .notified) else none
  | .turn i woken =>
      match S.mode i with
      | .running => act S i woken (code i (S.position i) S.shared)
      | .notified => if S.owner = none then some ((S.become i .running).lock (some i)) else none
      | .waiting => none

def run (S : State ι κ σ) (events : List (Event ι)) : Option (State ι κ σ) :=
  events.foldlM (step code) S

-- All threads before their first operation.
def start (shared : σ) (position : ι → κ) : State ι κ σ :=
  ⟨shared, position, fun _ => .running, none⟩

-- No thread wakes up without a notification.
def Genuine (events : List (Event ι)) : Prop :=
  ∀ i, Event.spurious i ∉ events

-- No thread can take a turn any more.
def Stuck (S : State ι κ σ) : Prop :=
  ∀ i woken, step code S (.turn i woken) = none

section Moves

-- Everything a step can do.
inductive Move (S : State ι κ σ) : Event ι → State ι κ σ → Prop where
  | spurious (i : ι) (hmode : S.mode i = .waiting) : Move S (.spurious i) (S.become i .notified)
  | resumes (i : ι) (woken : Option ι) (hmode : S.mode i = .notified) (howner : S.owner = none) :
      Move S (.turn i woken) ((S.become i .running).lock (some i))
  | enters (i : ι) (woken : Option ι) (next : κ) (hmode : S.mode i = .running)
      (hcode : code i (S.position i) S.shared = .enter next) (howner : S.owner = none) :
      Move S (.turn i woken) ((S.goto i next).lock (some i))
  | exits (i : ι) (woken : Option ι) (next : κ) (hmode : S.mode i = .running)
      (hcode : code i (S.position i) S.shared = .exit next) (howner : S.owner = some i) :
      Move S (.turn i woken) ((S.goto i next).lock none)
  | waits (i : ι) (woken : Option ι) (next : κ) (hmode : S.mode i = .running)
      (hcode : code i (S.position i) S.shared = .wait next) (howner : S.owner = some i) :
      Move S (.turn i woken) (((S.goto i next).become i .waiting).lock none)
  | notifies (i j : ι) (next : κ) (hmode : S.mode i = .running)
      (hcode : code i (S.position i) S.shared = .notify next) (howner : S.owner = some i)
      (hwoken : S.mode j = .waiting) : Move S (.turn i (some j)) ((S.goto i next).become j .notified)
  | notifiesNone (i : ι) (next : κ) (hmode : S.mode i = .running)
      (hcode : code i (S.position i) S.shared = .notify next) (howner : S.owner = some i)
      (hwoken : ∀ j, S.mode j ≠ .waiting) : Move S (.turn i none) (S.goto i next)
  | runs (i : ι) (woken : Option ι) (next : κ) (shared : σ) (hmode : S.mode i = .running)
      (hcode : code i (S.position i) S.shared = .run next shared) :
      Move S (.turn i woken) ((S.goto i next).store shared)

variable {code} {S S' : State ι κ σ}

theorem move_of_act {i : ι} {woken : Option ι} (hmode : S.mode i = .running)
    (h : act S i woken (code i (S.position i) S.shared) = some S') : Move code S (.turn i woken) S' := by
  cases hcode : code i (S.position i) S.shared with
  | enter next =>
      rw [hcode, act] at h
      split_ifs at h with howner
      cases h
      exact .enters i woken next hmode hcode howner
  | exit next =>
      rw [hcode, act] at h
      split_ifs at h with howner
      cases h
      exact .exits i woken next hmode hcode howner
  | wait next =>
      rw [hcode, act] at h
      split_ifs at h with howner
      cases h
      exact .waits i woken next hmode hcode howner
  | notify next =>
      rw [hcode] at h
      cases woken with
      | none =>
          rw [act] at h
          split_ifs at h with howner hwoken
          cases h
          exact .notifiesNone i next hmode hcode howner hwoken
      | some j =>
          rw [act] at h
          split_ifs at h with howner hwoken
          cases h
          exact .notifies i j next hmode hcode howner hwoken
  | run next shared =>
      rw [hcode] at h
      cases h
      exact .runs i woken next shared hmode hcode
  | stop =>
      rw [hcode] at h
      cases h

theorem move_of_step {e : Event ι} (h : step code S e = some S') : Move code S e S' := by
  cases e with
  | spurious i =>
      rw [step] at h
      split_ifs at h with hmode
      cases h
      exact .spurious i hmode
  | turn i woken =>
      rw [step] at h
      cases hmode : S.mode i with
      | running =>
          rw [hmode] at h
          exact move_of_act hmode h
      | notified =>
          rw [hmode] at h
          dsimp only at h
          split_ifs at h with howner
          cases h
          exact .resumes i woken hmode howner
      | waiting =>
          rw [hmode] at h
          cases h

-- What every step keeps that `P` admits holds after a run of such steps.
theorem run_invariant {I : State ι κ σ → Prop} {P : Event ι → Prop}
    (hmove : ∀ S e S', I S → P e → Move code S e S' → I S') {events : List (Event ι)}
    (hok : ∀ e ∈ events, P e) (hS : I S) (h : run code S events = some S') : I S' := by
  induction events generalizing S with
  | nil =>
      cases h
      exact hS
  | cons e events ih =>
      rw [run, List.foldlM_cons] at h
      obtain ⟨T, hT, hrest⟩ := Option.bind_eq_some_iff.mp h
      have hI := hmove S e T hS (hok e List.mem_cons_self) (move_of_step hT)
      exact ih (fun e he => hok e (List.mem_cons_of_mem _ he)) hI hrest

-- A run is no longer than a rank that every step takes down.
theorem length_add_rank_le {I : State ι κ σ → Prop} {P : Event ι → Prop} {r : State ι κ σ → Nat}
    (hmove : ∀ S e S', I S → P e → Move code S e S' → I S' ∧ r S' < r S) {events : List (Event ι)}
    (hok : ∀ e ∈ events, P e) (hS : I S) (h : run code S events = some S') :
    events.length + r S' ≤ r S := by
  induction events generalizing S with
  | nil =>
      cases h
      exact Nat.le_of_eq (Nat.zero_add _)
  | cons e events ih =>
      rw [run, List.foldlM_cons] at h
      obtain ⟨T, hT, hrest⟩ := Option.bind_eq_some_iff.mp h
      obtain ⟨hI, hlt⟩ := hmove S e T hS (hok e List.mem_cons_self) (move_of_step hT)
      have hle := ih (fun e he => hok e (List.mem_cons_of_mem _ he)) hI hrest
      rw [List.length_cons]
      omega

theorem run_append (S : State ι κ σ) (events events' : List (Event ι)) :
    run code S (events ++ events') = (run code S events).bind fun T => run code T events' :=
  List.foldlM_append ..

end Moves

section Discipline

variable {code} {inside : ι → κ → Prop}

-- Every thread takes the lock before it waits or notifies and gives it back after, where `inside` are
-- the positions of the synchronized blocks.
structure Structured (code : ι → κ → σ → Op κ σ) (inside : ι → κ → Prop) : Prop where
  enter : ∀ {i k s next}, code i k s = .enter next → ¬inside i k ∧ inside i next
  exit : ∀ {i k s next}, code i k s = .exit next → inside i k ∧ ¬inside i next
  wait : ∀ {i k s next}, code i k s = .wait next → inside i k ∧ inside i next
  notify : ∀ {i k s next}, code i k s = .notify next → inside i k ∧ inside i next
  run : ∀ {i k s next s'}, code i k s = .run next s' → (inside i k ↔ inside i next)
  stop : ∀ {i k s}, code i k s = .stop → ¬inside i k

-- The owner of the lock is the one thread that runs inside a block.
structure Locked (inside : ι → κ → Prop) (S : State ι κ σ) : Prop where
  owner_iff : ∀ i, S.owner = some i ↔ S.mode i = .running ∧ inside i (S.position i)
  parked : ∀ i, S.mode i ≠ .running → inside i (S.position i)

variable {S S' : State ι κ σ} {e : Event ι}

omit [DecidableEq ι] [Fintype ι] in
theorem Locked.start (shared : σ) {position : ι → κ} (h : ∀ i, ¬inside i (position i)) :
    Locked inside (start shared position) where
  owner_iff i := ⟨nofun, fun hi => absurd hi.2 (h i)⟩
  parked _ hi := absurd rfl hi

omit [DecidableEq ι] [Fintype ι] in
theorem Locked.holder_unique (h : Locked inside S) {i j : ι} (hi : S.mode i = .running)
    (hin : inside i (S.position i)) (hj : S.mode j = .running) (hjn : inside j (S.position j)) : i = j := by
  have howner := (h.owner_iff i).mpr ⟨hi, hin⟩
  rw [(h.owner_iff j).mpr ⟨hj, hjn⟩] at howner
  exact (Option.some.inj howner).symm

-- A change of one thread and of who has the lock.
omit [DecidableEq ι] [Fintype ι] in
theorem Locked.change (h : Locked inside S) (i : ι)
    (hmode : ∀ j, j ≠ i → S'.mode j = S.mode j) (hposition : ∀ j, j ≠ i → S'.position j = S.position j)
    (howner : ∀ j, j ≠ i → (S'.owner = some j ↔ S.owner = some j))
    (hself : S'.owner = some i ↔ S'.mode i = .running ∧ inside i (S'.position i))
    (hparked : S'.mode i ≠ .running → inside i (S'.position i)) : Locked inside S' := by
  constructor
  · intro j
    by_cases hj : j = i
    · rw [hj]
      exact hself
    · rw [howner j hj, hmode j hj, hposition j hj]
      exact h.owner_iff j
  · intro j
    by_cases hj : j = i
    · rw [hj]
      exact hparked
    · rw [hmode j hj, hposition j hj]
      exact h.parked j

-- A position change inside the blocks, or outside of them.
omit [Fintype ι] in
theorem Locked.goto (h : Locked inside S) (i : ι) {next : κ} (hmode : S.mode i = .running)
    (hinside : inside i (S.position i) ↔ inside i next) : Locked inside (S.goto i next) := by
  refine h.change i (fun _ _ => rfl) (fun j hj => ?_) (fun _ _ => Iff.rfl) ?_ ?_
  · simp [hj]
  · simp [h.owner_iff i, hinside]
  · simp [hmode]

-- A waiting thread keeps its position when it is notified.
omit [Fintype ι] in
theorem Locked.notified (h : Locked inside S) {i : ι} (hmode : S.mode i = .waiting) :
    Locked inside (S.become i .notified) := by
  refine h.change i (fun j hj => ?_) (fun _ _ => rfl) (fun _ _ => Iff.rfl) ?_ fun _ => ?_
  · simp [hj]
  · simp [h.owner_iff i, hmode]
  · exact h.parked i (by simp [hmode])

omit [Fintype ι] in
theorem Locked.move (hcode : Structured code inside) (h : Locked inside S) (hm : Move code S e S') :
    Locked inside S' := by
  cases hm with
  | spurious i hmode => exact h.notified hmode
  | resumes i woken hmode howner =>
      refine h.change i (fun j hj => ?_) (fun _ _ => rfl) (fun j hj => ?_) ?_ ?_
      · simp [hj]
      · simp [howner, Ne.symm hj]
      · simp [h.parked i (by simp [hmode])]
      · simp
  | enters i woken next hmode hop howner =>
      refine h.change i (fun _ _ => rfl) (fun j hj => ?_) (fun j hj => ?_) ?_ ?_
      · simp [hj]
      · simp [howner, Ne.symm hj]
      · simp [hmode, (hcode.enter hop).2]
      · simp [hmode]
  | exits i woken next hmode hop howner =>
      refine h.change i (fun _ _ => rfl) (fun j hj => ?_) (fun j hj => ?_) ?_ ?_
      · simp [hj]
      · simp [howner, Ne.symm hj]
      · simp [(hcode.exit hop).2]
      · simp [hmode]
  | waits i woken next hmode hop howner =>
      refine h.change i (fun j hj => ?_) (fun j hj => ?_) (fun j hj => ?_) ?_ ?_
      · simp [hj]
      · simp [hj]
      · simp [howner, Ne.symm hj]
      · simp
      · simp [(hcode.wait hop).2]
  | notifies i j next hmode hop howner hwoken =>
      obtain ⟨hin, hin'⟩ := hcode.notify hop
      exact (h.goto i hmode (iff_of_true hin hin')).notified hwoken
  | notifiesNone i next hmode hop howner hwoken =>
      obtain ⟨hin, hin'⟩ := hcode.notify hop
      exact h.goto i hmode (iff_of_true hin hin')
  | runs i woken next shared hmode hop =>
      have hgoto := h.goto i hmode (hcode.run hop)
      exact ⟨hgoto.owner_iff, hgoto.parked⟩

theorem Locked.run (hcode : Structured code inside) (h : Locked inside S) {events : List (Event ι)}
    (hrun : run code S events = some S') : Locked inside S' :=
  run_invariant (P := fun _ => True) (fun _ _ _ h _ hm => h.move hcode hm) (fun _ _ => trivial) h hrun

theorem step_turn_running {i : ι} (hmode : S.mode i = .running) (woken : Option ι) :
    step code S (.turn i woken) = act S i woken (code i (S.position i) S.shared) := by
  rw [step, hmode]

-- The owner of the lock can go on: a notification reaches one that waits, or nobody.
theorem Locked.owner_moves (hcode : Structured code inside) (h : Locked inside S) {i : ι}
    (howner : S.owner = some i) : ∃ woken, step code S (.turn i woken) ≠ none := by
  obtain ⟨hmode, hin⟩ := (h.owner_iff i).mp howner
  simp only [step_turn_running hmode]
  cases hop : code i (S.position i) S.shared with
  | enter next => exact absurd hin (hcode.enter hop).1
  | exit next => exact ⟨none, by simp [act, howner]⟩
  | wait next => exact ⟨none, by simp [act, howner]⟩
  | notify next =>
      by_cases hwoken : ∀ j, S.mode j ≠ .waiting
      · refine ⟨none, ?_⟩
        rw [act, if_pos howner, if_pos hwoken]
        exact nofun
      · push Not at hwoken
        obtain ⟨j, hj⟩ := hwoken
        exact ⟨some j, by simp [act, howner, hj]⟩
  | run next shared => exact ⟨none, nofun⟩
  | stop => exact absurd hin (hcode.stop hop)

theorem Locked.owner_of_stuck (hcode : Structured code inside) (h : Locked inside S)
    (hstuck : Stuck code S) : S.owner = none := by
  cases howner : S.owner with
  | none => rfl
  | some i =>
      obtain ⟨woken, hmoves⟩ := h.owner_moves hcode howner
      exact absurd (hstuck i woken) hmoves

-- Where nobody can take a turn, every thread waits for a notification or has stopped.
theorem Locked.stuck_iff (hcode : Structured code inside) (h : Locked inside S) :
    Stuck code S ↔ ∀ i, S.mode i = .waiting ∨
      (S.mode i = .running ∧ code i (S.position i) S.shared = .stop) := by
  constructor
  · intro hstuck i
    have howner := h.owner_of_stuck hcode hstuck
    have hturn := hstuck i none
    cases hmode : S.mode i with
    | waiting => exact .inl rfl
    | notified =>
        rw [step, hmode] at hturn
        simp [howner] at hturn
    | running =>
        refine .inr ⟨rfl, ?_⟩
        have hout : ¬inside i (S.position i) := fun hin => by
          have := (h.owner_iff i).mpr ⟨hmode, hin⟩
          rw [howner] at this
          cases this
        rw [step_turn_running hmode] at hturn
        cases hop : code i (S.position i) S.shared with
        | enter next => simp [hop, act, howner] at hturn
        | exit next => exact absurd (hcode.exit hop).1 hout
        | wait next => exact absurd (hcode.wait hop).1 hout
        | notify next => exact absurd (hcode.notify hop).1 hout
        | run next shared => simp [hop, act] at hturn
        | stop => rfl
  · intro hall i woken
    rcases hall i with hmode | ⟨hmode, hop⟩
    · rw [step, hmode]
    · rw [step_turn_running hmode, hop, act]

end Discipline

end RichardTest.Monitor
