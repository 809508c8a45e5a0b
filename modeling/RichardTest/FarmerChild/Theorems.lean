import RichardTest.FarmerChild

namespace RichardTest.FarmerChild

open Monitor (Op Mode Event Move Structured Locked Genuine Stuck run step)

section Code

def Thread.other : Thread → Thread
  | .farmer => .child
  | .child => .farmer

-- The size of the basket that makes a thread wait.
def Thread.blocked : Thread → Nat
  | .farmer => 10
  | .child => 0

-- What a thread does to the basket, and the line it prints then.
def Thread.change : Thread → Kuang → Kuang
  | .farmer, s => ⟨s.kuang ++ ["apple"], s.out ++ [Farmer.line (s.kuang ++ ["apple"]).length]⟩
  | .child, s => ⟨s.kuang.erase "apple", s.out ++ [Child.line (s.kuang.erase "apple").length]⟩

-- Everything a thread can do next.
inductive Turn (i : Thread) (s : Kuang) : Position → Op Position Kuang → Prop where
  | enters : Turn i s .top (.enter .test)
  | waits (hlength : s.kuang.length = i.blocked) : Turn i s .test (.wait .change)
  | goes (hlength : s.kuang.length ≠ i.blocked) : Turn i s .test (.run .change s)
  | changes : Turn i s .change (.run .wake (i.change s))
  | wakes : Turn i s .wake (.notify .leave)
  | leaves : Turn i s .leave (.exit .top)

theorem test_turn (i : Thread) (s : Kuang) :
    Turn i s .test (if s.kuang.length = i.blocked then .wait .change else .run .change s) := by
  split_ifs with hlength
  · exact .waits hlength
  · exact .goes hlength

theorem main_turn (i : Thread) (k : Position) (s : Kuang) : Turn i s k (main i k s) := by
  cases k with
  | top => cases i <;> exact .enters
  | test => cases i <;> exact test_turn _ s
  | change => cases i <;> exact .changes
  | wake => cases i <;> exact .wakes
  | leave => cases i <;> exact .leaves

theorem turn_of_main {i : Thread} {k : Position} {s : Kuang} {op : Op Position Kuang} (h : main i k s = op) :
    Turn i s k op :=
  h ▸ main_turn i k s

-- The positions of the synchronized block.
def Inside (_ : Thread) (k : Position) : Prop := k ≠ .top

theorem main_structured : Structured main Inside where
  enter h := by cases turn_of_main h; simp [Inside]
  exit h := by cases turn_of_main h; simp [Inside]
  wait h := by cases turn_of_main h; simp [Inside]
  notify h := by cases turn_of_main h; simp [Inside]
  run h := by cases turn_of_main h <;> simp [Inside]
  stop h := by cases turn_of_main h

end Code

section Invariant

-- What has been printed while the basket, empty at first, came to hold `n` apples: every line is of an
-- apple put below the bound, or of an apple taken.
inductive Printed : List String → Nat → Prop where
  | start : Printed [] 0
  | put {out : List String} {n : Nat} : Printed out n → n < 10 → Printed (out ++ [Farmer.line (n + 1)]) (n + 1)
  | take {out : List String} {n : Nat} : Printed out (n + 1) → Printed (out ++ [Child.line n]) n

theorem Printed.le {out : List String} {n : Nat} (h : Printed out n) : n ≤ 10 := by
  induction h with
  | start => exact Nat.zero_le 10
  | put _ hlt => exact hlt
  | take _ ih => omega

def Apples (s : Kuang) : Prop :=
  s.kuang = List.replicate s.kuang.length "apple" ∧ Printed s.out s.kuang.length

theorem Apples.change {i : Thread} {s : Kuang} (h : Apples s) (hgo : s.kuang.length ≠ i.blocked) :
    Apples (i.change s) ∧ (i.change s).kuang.length ≠ i.other.blocked := by
  obtain ⟨happles, hout⟩ := h
  have hle := hout.le
  generalize hn : s.kuang.length = n at *
  cases i with
  | farmer =>
      have hlt : n < 10 := Nat.lt_of_le_of_ne hle hgo
      have hlength : (Thread.farmer.change s).kuang.length = n + 1 := by
        simp [Thread.change, hn]
      refine ⟨⟨?_, ?_⟩, ?_⟩
      · rw [hlength, List.replicate_succ', ← happles]
        rfl
      · rw [hlength]
        simpa [Thread.change, hn] using hout.put hlt
      · rw [hlength]
        exact Nat.succ_ne_zero n
  | child =>
      obtain ⟨m, rfl⟩ := Nat.exists_eq_succ_of_ne_zero hgo
      have hkuang : (Thread.child.change s).kuang = List.replicate m "apple" := by
        simp [Thread.change, happles, List.replicate_succ]
      have hlength : (Thread.child.change s).kuang.length = m := by
        rw [hkuang, List.length_replicate]
      refine ⟨⟨?_, ?_⟩, ?_⟩
      · rw [hlength, hkuang]
      · have hline : (Thread.child.change s).out = s.out ++ [Child.line m] := by
          rw [← hlength]
          rfl
        rw [hlength, hline]
        exact hout.take
      · rw [hlength]
        simp only [Thread.other, Thread.blocked]
        omega

theorem Thread.other_ne (i : Thread) : i.other ≠ i := by
  cases i <;> decide

theorem Thread.forall_iff {P : Thread → Prop} (i : Thread) : (∀ j, P j) ↔ P i ∧ P i.other := by
  constructor
  · exact fun h => ⟨h i, h i.other⟩
  · rintro ⟨hself, hother⟩ j
    cases i <;> cases j <;> assumption

theorem Thread.eq_or_eq_other (i j : Thread) : j = i ∨ j = i.other := by
  cases i <;> cases j <;> decide

@[simp]
theorem Thread.other_other (i : Thread) : i.other.other = i := by
  cases i <;> rfl

-- The thread holds the lock and is about to notify.
def Waking (S : State) (i : Thread) : Prop := S.mode i = .running ∧ S.position i = .wake

-- A thread that waits is blocked, or the other one is about to notify it. One that goes on is not.
def Fine (S : State) (i : Thread) : Prop :=
  match S.mode i with
  | .running =>
      (S.position i = .change → S.shared.kuang.length ≠ i.blocked) ∧
        (S.position i = .wake → S.shared.kuang.length ≠ i.other.blocked)
  | .waiting => S.position i = .change ∧ (S.shared.kuang.length = i.blocked ∨ Waking S i.other)
  | .notified => S.position i = .change ∧ S.shared.kuang.length ≠ i.blocked

variable {S S' : State} {i : Thread}

-- A step of the other thread that neither touches the basket nor ends its notification.
theorem Fine.mono (h : Fine S i) (hmode : S'.mode i = S.mode i) (hposition : S'.position i = S.position i)
    (hshared : S'.shared = S.shared) (hwaking : S.mode i = .waiting → Waking S i.other → Waking S' i.other) :
    Fine S' i := by
  unfold Fine at h ⊢
  rw [hmode, hposition, hshared]
  split
  · rename_i hrunning
    rw [hrunning] at h
    exact h
  · rename_i hwaiting
    rw [hwaiting] at h
    exact ⟨h.1, h.2.imp_right (hwaking hwaiting)⟩
  · rename_i hnotified
    rw [hnotified] at h
    exact h

structure Good (S : State) : Prop where
  locked : Locked Inside S
  apples : Apples S.shared
  fine : ∀ i, Fine S i

theorem good_start : Good start where
  locked := Locked.start _ fun _ h => h rfl
  apples := ⟨rfl, .start⟩
  fine i := by simp [Fine, start, Monitor.start]

-- A thread that is not about to notify, and the step it takes does not touch the basket.
theorem Good.of_step {S'} (h : Good S) (i : Thread) (hlocked : Locked Inside S') (hshared : S'.shared = S.shared)
    (hmode : S'.mode i.other = S.mode i.other) (hposition : S'.position i.other = S.position i.other)
    (hwaking : ¬Waking S i) (hself : Fine S' i) : Good S' := by
  refine ⟨hlocked, hshared ▸ h.apples, (Thread.forall_iff i).mpr ⟨hself, ?_⟩⟩
  refine (h.fine i.other).mono hmode hposition hshared fun _ hw => ?_
  rw [Thread.other_other] at hw
  exact absurd hw hwaking

theorem Good.move {e : Event Thread} (h : Good S) (he : ∀ i, e ≠ .spurious i) (hm : Move main S e S') :
    Good S' := by
  have hlocked := h.locked.move main_structured hm
  cases hm with
  | spurious i hmode => exact absurd rfl (he i)
  | resumes i woken hmode howner =>
      refine h.of_step i hlocked rfl ?_ rfl ?_ ?_
      · simp [i.other_ne]
      · simp [Waking, hmode]
      · have hfine := h.fine i
        simp [Fine, hmode] at hfine
        simp [Fine, hfine]
  | enters i woken next hmode hcode howner =>
      have hturn := turn_of_main hcode
      generalize hk : S.position i = k at hturn
      cases hturn
      refine h.of_step i hlocked rfl rfl ?_ ?_ ?_
      · simp [i.other_ne]
      · simp [Waking, hk]
      · simp [Fine, hmode]
  | exits i woken next hmode hcode howner =>
      have hturn := turn_of_main hcode
      generalize hk : S.position i = k at hturn
      cases hturn
      refine h.of_step i hlocked rfl rfl ?_ ?_ ?_
      · simp [i.other_ne]
      · simp [Waking, hk]
      · simp [Fine, hmode]
  | waits i woken next hmode hcode howner =>
      have hturn := turn_of_main hcode
      generalize hk : S.position i = k at hturn
      cases hturn with
      | waits hlength =>
          refine h.of_step i hlocked rfl ?_ ?_ ?_ ?_
          · simp [i.other_ne]
          · simp [i.other_ne]
          · simp [Waking, hk]
          · simp [Fine, hlength]
  | notifies i j next hmode hcode howner hwoken =>
      have hturn := turn_of_main hcode
      generalize hk : S.position i = k at hturn
      cases hturn
      have hself := h.fine i
      simp [Fine, hmode, hk] at hself
      obtain rfl : j = i.other := (i.eq_or_eq_other j).resolve_left fun hj => by
        rw [hj, hmode] at hwoken
        cases hwoken
      have hother := h.fine i.other
      simp [Fine, hwoken] at hother
      refine ⟨hlocked, h.apples, (Thread.forall_iff i).mpr ⟨?_, ?_⟩⟩
      · simp [Fine, hmode, i.other_ne.symm]
      · simp [Fine, i.other_ne, hother, hself]
  | notifiesNone i next hmode hcode howner hwoken =>
      have hturn := turn_of_main hcode
      generalize hk : S.position i = k at hturn
      cases hturn
      refine ⟨hlocked, h.apples, (Thread.forall_iff i).mpr ⟨?_, ?_⟩⟩
      · simp [Fine, hmode]
      · refine (h.fine i.other).mono rfl ?_ rfl fun hwaiting => absurd hwaiting (hwoken i.other)
        simp [i.other_ne]
  | runs i woken next shared hmode hcode =>
      have hturn := turn_of_main hcode
      generalize hk : S.position i = k at hturn
      cases hturn with
      | goes hlength =>
          refine h.of_step i hlocked rfl rfl ?_ ?_ ?_
          · simp [i.other_ne]
          · simp [Waking, hk]
          · simp [Fine, hmode, hlength]
      | changes =>
          have hself := h.fine i
          simp [Fine, hmode, hk] at hself
          obtain ⟨happles, hlength⟩ := h.apples.change hself
          refine ⟨hlocked, happles, (Thread.forall_iff i).mpr ⟨?_, ?_⟩⟩
          · simp [Fine, hmode, hlength]
          · have hother := h.fine i.other
            cases hmode' : S.mode i.other with
            | running =>
                -- it is not in the block, which the thread `i` holds
                have htop : S.position i.other = .top := by
                  by_contra hin
                  refine i.other_ne (h.locked.holder_unique hmode' hin hmode ?_)
                  simp [Inside, hk]
                simp [Fine, i.other_ne, hmode', htop]
            | waiting =>
                simp [Fine, hmode'] at hother
                simp [Fine, Waking, i.other_ne, hmode, hmode', hother]
            | notified =>
                simp [Fine, hmode'] at hother
                simp [Fine, i.other_ne, hmode', hother, hlength]

theorem Good.run {events : List (Event Thread)} (h : Good S) (hevents : Genuine events)
    (hrun : run main S events = some S') : Good S' := by
  refine Monitor.run_invariant (P := fun e => ∀ i, e ≠ .spurious i) (fun _ _ _ h he hm => h.move he hm) ?_ h hrun
  rintro e he i rfl
  exact hevents i he

-- Not both threads wait: one of them finds the basket neither full nor empty.
theorem Good.not_stuck (h : Good S) : ¬Stuck main S := by
  intro hstuck
  have hwaiting : ∀ i, S.mode i = .waiting := fun i => by
    refine ((h.locked.stuck_iff main_structured).mp hstuck i).resolve_right fun ⟨_, hstop⟩ => ?_
    have hturn := turn_of_main hstop
    generalize S.position i = k at hturn
    cases hturn
  have hfarmer := h.fine .farmer
  have hchild := h.fine .child
  simp [Fine, Waking, hwaiting, Thread.blocked] at hfarmer hchild
  rw [hchild.2] at hfarmer
  exact absurd hfarmer.2 (by decide)

end Invariant

section Runs

-- While threads wake up only when they are notified, the basket holds at most ten apples, every line
-- printed is of an apple put or taken, and there is always a thread that can go on.
theorem basket_bounded (events : List (Event Thread)) (S : State) (hevents : Genuine events)
    (hrun : run main start events = some S) :
    S.shared.kuang = List.replicate S.shared.kuang.length "apple" ∧ S.shared.kuang.length ≤ 10 ∧
      Printed S.shared.out S.shared.kuang.length ∧ ∃ i woken, step main S (.turn i woken) ≠ none := by
  have h := good_start.run hevents hrun
  obtain ⟨happles, hout⟩ := h.apples
  refine ⟨happles, hout.le, hout, ?_⟩
  have hstuck := h.not_stuck
  unfold Stuck at hstuck
  push Not at hstuck
  exact hstuck

-- The child waits first, and the farmer notifies it.
def firstApple : List (Event Thread) :=
  [.turn .child none, .turn .child none, .turn .farmer none, .turn .farmer none, .turn .farmer none,
    .turn .farmer (some .child), .turn .farmer none, .turn .child none, .turn .child none]

theorem basket_bounded_firstApple :
    ∃ S : State, run main start firstApple = some S ∧
      S.shared.kuang = List.replicate S.shared.kuang.length "apple" ∧ S.shared.kuang.length ≤ 10 ∧
        Printed S.shared.out S.shared.kuang.length ∧ ∃ i woken, step main S (.turn i woken) ≠ none := by
  have hrun : (run main start firstApple).isSome := by decide
  have hevents : Genuine firstApple := by
    unfold Genuine
    decide
  exact ⟨_, (Option.some_get hrun).symm, basket_bounded _ _ hevents (Option.some_get hrun).symm⟩

-- The farmer at the top of its loop, before the child has begun.
def alone (s : Kuang) : State := Monitor.start s fun _ => .top

def farmerTurns (n : Nat) : List (Event Thread) := List.replicate n (.turn .farmer none)

-- Only at ten apples the farmer stops.
theorem run_round {s : Kuang} (h : s.kuang.length ≠ 10) :
    run main (alone s) (farmerTurns 5) = some (alone (Thread.farmer.change s)) := by
  simp [run, farmerTurns, step, Monitor.act, alone, Monitor.start, main, Farmer.run, h, Monitor.State.goto,
    Monitor.State.lock, Monitor.State.store, Thread.change]

theorem run_rounds (n : Nat) {s : Kuang} (h : s.kuang.length + n ≤ 10 ∨ 10 < s.kuang.length) :
    run main (alone s) (farmerTurns (5 * n)) = some (alone (Thread.farmer.change^[n] s)) := by
  induction n generalizing s with
  | zero => rfl
  | succ n ih =>
      have hlength : (Thread.farmer.change s).kuang.length = s.kuang.length + 1 := by simp [Thread.change]
      have hsplit : farmerTurns (5 * (n + 1)) = farmerTurns 5 ++ farmerTurns (5 * n) := by
        rw [farmerTurns, farmerTurns, farmerTurns, List.replicate_append_replicate, Nat.mul_succ, Nat.add_comm]
      rw [hsplit, Monitor.run_append, run_round (by omega), Option.bind_some, ih (by omega),
        Function.iterate_succ_apply]

-- The farmer waits and wakes up although nobody has notified it.
def spuriousRound : List (Event Thread) :=
  farmerTurns 2 ++ [.spurious .farmer] ++ farmerTurns 4

theorem run_spuriousRound {s : Kuang} (h : s.kuang.length = 10) :
    run main (alone s) spuriousRound = some (alone (Thread.farmer.change s)) := by
  simp [run, spuriousRound, farmerTurns, step, Monitor.act, alone, Monitor.start, main, Farmer.run, h,
    Monitor.State.goto, Monitor.State.become, Monitor.State.lock, Monitor.State.store, Thread.change]

theorem length_rounds (n : Nat) (s : Kuang) :
    (Thread.farmer.change^[n] s).kuang.length = s.kuang.length + n := by
  induction n generalizing s with
  | zero => rfl
  | succ n ih =>
      rw [Function.iterate_succ_apply, ih]
      simp only [Thread.change, List.length_append, List.length_singleton]
      omega

-- One wakeup without a notification is enough to take the basket above any bound: the farmer then never
-- finds exactly ten apples again.
theorem basket_unbounded (n : Nat) :
    ∃ events S, events.countP (fun e => e matches .spurious _) = 1 ∧ run main start events = some S ∧
      n ≤ S.shared.kuang.length := by
  let full := Thread.farmer.change^[10] ⟨[], []⟩
  have hfull : full.kuang.length = 10 := length_rounds 10 ⟨[], []⟩
  have hover : (Thread.farmer.change full).kuang.length = 11 := by
    rw [← Function.iterate_one Thread.farmer.change, length_rounds, hfull]
  refine ⟨farmerTurns (5 * 10) ++ (spuriousRound ++ farmerTurns (5 * n)),
    alone (Thread.farmer.change^[n] (Thread.farmer.change full)), ?_, ?_, ?_⟩
  · simp [farmerTurns, spuriousRound, List.countP_replicate]
  · rw [Monitor.run_append, show start = alone ⟨[], []⟩ from rfl, run_rounds 10 (.inl (by decide)),
      Option.bind_some, Monitor.run_append, run_spuriousRound hfull, Option.bind_some,
      run_rounds n (.inr (by omega))]
  · change n ≤ (Thread.farmer.change^[n] _).kuang.length
    rw [length_rounds]
    omega

end Runs

end RichardTest.FarmerChild
