import RichardTest.WaitNotifyTest

namespace RichardTest.WaitNotifyTest

open Monitor (Op Mode Event Move Structured Locked Genuine Stuck run step)

section Code

-- Everything the producer can do next. At the positions of the consumer it would have stopped.
inductive Produces (s : Products) : Position → Op Position Products → Prop where
  | enters : Produces s .top (.enter .started)
  | starts : Produces s .started (.run .add (s.print "t1 线程启动生产任务"))
  | adds (line : String) : Produces s .add (.run .limit (Products.print ⟨s.products ++ ["myProduct."], s.out⟩ line))
  | finds (line : String) (hlength : s.products.length = 10) : Produces s .limit (.run .full (s.print line))
  | goes (hlength : s.products.length ≠ 10) : Produces s .limit (.run .add s)
  | waits : Produces s .full (.wait .add)
  | stops {k : Position} (hk : k ∈ [.loop, .removed, .told, .done]) : Produces s k .stop

inductive Consumes (s : Products) : Position → Op Position Products → Prop where
  | enters : Consumes s .top (.enter .loop)
  | leaves (hempty : s.products = []) : Consumes s .loop (.exit .done)
  | removes (product : String) (products : List String) (line : String) (hproducts : s.products = product :: products) :
      Consumes s .loop (.run .removed (Products.print ⟨products, s.out⟩ line))
  | notifies (hlength : s.products.length < 10) : Consumes s .removed (.notify .told)
  | goes (hlength : ¬s.products.length < 10) : Consumes s .removed (.run .loop s)
  | tells (line : String) : Consumes s .told (.run .loop (s.print line))
  | stops {k : Position} (hk : k ∈ [.started, .add, .limit, .full, .done]) : Consumes s k .stop

theorem produces (k : Position) (s : Products) : Produces s k (main .t1 k s) := by
  cases k with
  | top => exact .enters
  | started => exact .starts
  | add => exact .adds _
  | limit =>
      rw [main, produceProduct]
      split_ifs with hlength
      · exact .finds _ hlength
      · exact .goes hlength
  | full => exact .waits
  | loop | removed | told | done => exact .stops (by decide)

theorem consumes (k : Position) (s : Products) : Consumes s k (main .t2 k s) := by
  cases k with
  | top => exact .enters
  | loop =>
      rw [main, consumeProduct]
      cases hproducts : s.products with
      | nil => exact .leaves hproducts
      | cons product products => exact .removes product products _ hproducts
  | removed =>
      rw [main, consumeProduct]
      split_ifs with hlength
      · exact .notifies hlength
      · exact .goes hlength
  | told => exact .tells _
  | started | add | limit | full | done => exact .stops (by decide)

-- The positions of the two synchronized blocks.
def Inside : Thread → Position → Prop
  | .t1, k => k ∈ [.started, .add, .limit, .full]
  | .t2, k => k ∈ [.loop, .removed, .told]

instance (i : Thread) (k : Position) : Decidable (Inside i k) := by
  cases i <;> exact inferInstanceAs (Decidable (k ∈ _))

theorem produces_of_main {k : Position} {s : Products} {op : Op Position Products} (h : main .t1 k s = op) :
    Produces s k op :=
  h ▸ produces k s

theorem consumes_of_main {k : Position} {s : Products} {op : Op Position Products} (h : main .t2 k s = op) :
    Consumes s k op :=
  h ▸ consumes k s

theorem main_structured : Structured main Inside where
  enter {i k s next} h := by
    cases i with
    | t1 => cases produces_of_main h; decide
    | t2 => cases consumes_of_main h; decide
  exit {i k s next} h := by
    cases i with
    | t1 => cases produces_of_main h
    | t2 => cases consumes_of_main h; decide
  wait {i k s next} h := by
    cases i with
    | t1 => cases produces_of_main h; decide
    | t2 => cases consumes_of_main h
  notify {i k s next} h := by
    cases i with
    | t1 => cases produces_of_main h
    | t2 => cases consumes_of_main h; decide
  run {i k s next s'} h := by
    cases i with
    | t1 => cases produces_of_main h <;> decide
    | t2 => cases consumes_of_main h <;> decide
  stop {i k s} h := by
    cases i with
    | t1 =>
        cases produces_of_main h with
        | stops hk => clear h; cases k <;> revert hk <;> decide
    | t2 =>
        cases consumes_of_main h with
        | stops hk => clear h; cases k <;> revert hk <;> decide

end Code

section Invariant

variable {S S' : State}

-- What the producer and the consumer find at their positions while they run, with `n` products.
def AtProducer (n : Nat) : Position → Prop
  | .top | .started => n = 0
  | .add => n < 10
  | .limit => n ≤ 10
  | .full => n = 10
  | _ => False

def AtConsumer (n : Nat) : Position → Prop
  | .top | .loop | .done => n ≤ 10
  | .removed | .told => n < 10
  | _ => False

theorem AtConsumer.le {n : Nat} {k : Position} (h : AtConsumer n k) : n ≤ 10 := by
  cases k with
  | top | loop | done => exact h
  | removed | told => exact Nat.le_of_lt h
  | started | add | limit | full => exact h.elim

-- The producer waits with ten products, or with nine until it is notified.
def Producer (S : State) : Prop :=
  match S.mode .t1 with
  | .running => AtProducer S.shared.products.length (S.position .t1)
  | .waiting =>
      S.position .t1 = .add ∧
        if S.position .t2 = .removed then S.shared.products.length < 10
        else S.shared.products.length = 10 ∧ S.position .t2 ≠ .told
  | .notified => S.position .t1 = .add ∧ S.shared.products.length < 10

structure Good (S : State) : Prop where
  locked : Locked Inside S
  products : S.shared.products = List.replicate S.shared.products.length "myProduct."
  producer : Producer S
  consumer : S.mode .t2 = .running ∧ AtConsumer S.shared.products.length (S.position .t2)

theorem good_start : Good start where
  locked := Locked.start _ fun i => by cases i <;> decide
  products := rfl
  producer := rfl
  consumer := ⟨rfl, Nat.zero_le 10⟩

-- A step of the consumer that neither touches the products nor begins or ends a notification.
theorem Producer.mono (h : Producer S) (hmode : S'.mode .t1 = S.mode .t1)
    (hposition : S'.position .t1 = S.position .t1) (hshared : S'.shared.products = S.shared.products)
    (hwaiting : S.mode .t1 = .waiting → S.position .t2 ≠ .removed ∧ S'.position .t2 ∉ [.removed, .told]) :
    Producer S' := by
  unfold Producer at h ⊢
  rw [hmode, hposition, hshared]
  cases hm : S.mode .t1 with
  | running | notified =>
      rw [hm] at h
      exact h
  | waiting =>
      obtain ⟨hfrom, hto⟩ := hwaiting hm
      simp only [List.mem_cons, List.not_mem_nil, or_false, not_or] at hto
      rw [hm] at h
      simp only [hfrom, if_false] at h
      simp only [hto.1, if_false]
      exact ⟨h.1, h.2.1, hto.2⟩

-- While one thread is in its block, the other one is at the top, or done, or parked.
theorem Good.consumer_outside (h : Good S) (hmode : S.mode .t1 = .running) (hin : Inside .t1 (S.position .t1)) :
    S.position .t2 = .top ∨ S.position .t2 = .done := by
  obtain ⟨hmode2, hat⟩ := h.consumer
  have hout : ¬Inside .t2 (S.position .t2) := fun hin2 =>
    absurd (h.locked.holder_unique hmode hin hmode2 hin2) (by decide)
  revert hat hout
  cases S.position .t2 <;> simp [AtConsumer, Inside]

theorem Good.producer_outside (h : Good S) (hmode : S.mode .t1 = .running) (hin : Inside .t2 (S.position .t2)) :
    S.shared.products.length = 0 := by
  have hat := h.producer
  have hout : ¬Inside .t1 (S.position .t1) := fun hin1 =>
    absurd (h.locked.holder_unique hmode hin1 h.consumer.1 hin) (by decide)
  rw [Producer, hmode] at hat
  revert hat hout
  cases S.position .t1 <;> simp [AtProducer, Inside]

-- What the two threads can still do before the producer waits or the consumer is done. A notification
-- gives the producer no more than 40 turns.
def producerRank (S : State) : Nat :=
  match S.mode .t1, S.position .t1 with
  | .running, .top => 40
  | .running, .started => 39
  | .running, .add => 3 * (10 - S.shared.products.length) + 2
  | .running, .limit => 3 * (10 - S.shared.products.length) + 4
  | .running, .full => 1
  | .notified, _ => 3 * (10 - S.shared.products.length) + 3
  | _, _ => 0

def consumerRank (S : State) : Nat :=
  match S.position .t2 with
  | .top => 35
  | .loop => 3 * S.shared.products.length + 2
  | .removed => 3 * S.shared.products.length + 4
  | .told => 3 * S.shared.products.length + 3
  | _ => 0

def rank (S : State) : Nat := 41 * consumerRank S + producerRank S

theorem producerRank_le (S : State) : producerRank S ≤ 40 := by
  unfold producerRank
  split <;> omega

-- A step of the producer that leaves the consumer where it is.
theorem Good.producer_step (h : Good S) (hlocked : Locked Inside S')
    (hproducts : S'.shared.products = List.replicate S'.shared.products.length "myProduct.")
    (hproducer : Producer S') (hmode : S'.mode .t2 = S.mode .t2) (hposition : S'.position .t2 = S.position .t2)
    (hlength : S'.shared.products.length = S.shared.products.length ∨
      S'.shared.products.length ≤ 10 ∧ (S.position .t2 = .top ∨ S.position .t2 = .done))
    (hrank : producerRank S' < producerRank S) : Good S' ∧ rank S' < rank S := by
  obtain ⟨hmode2, hat⟩ := h.consumer
  have hconsumer : consumerRank S' = consumerRank S := by
    unfold consumerRank
    rw [hposition]
    rcases hlength with hlength | ⟨-, hout | hout⟩
    · rw [hlength]
    · rw [hout]
    · rw [hout]
  refine ⟨⟨hlocked, hproducts, hproducer, hmode.trans hmode2, ?_⟩, ?_⟩
  · rw [hposition]
    rcases hlength with hlength | ⟨hle, hout | hout⟩
    · rwa [hlength]
    · rwa [hout]
    · rwa [hout]
  · rw [rank, rank, hconsumer]
    omega

-- A step of the consumer.
theorem rank_lt_of_consumerRank (h : consumerRank S' < consumerRank S) : rank S' < rank S := by
  have hle := producerRank_le S'
  rw [rank, rank]
  omega

theorem Good.producer_move {e : Event Thread} {woken : Option Thread} (h : Good S) (he : e = .turn .t1 woken)
    (hm : Move main S e S') : Good S' ∧ rank S' < rank S := by
  have hlocked := h.locked.move main_structured hm
  have hat := h.producer
  unfold Producer at hat
  cases hm with
  | spurious i hmode => cases he
  | resumes i woken hmode howner =>
      cases he
      simp only [hmode] at hat
      refine h.producer_step hlocked h.products ?_ rfl rfl (.inl rfl) ?_
      · simp [Producer, AtProducer, hat]
      · simp [producerRank, hmode, hat]
  | enters i woken next hmode hcode howner =>
      cases he
      have hturn := produces_of_main hcode
      generalize hk : S.position .t1 = k at hturn
      cases hturn
      simp only [hmode, hk, AtProducer] at hat
      refine h.producer_step hlocked h.products ?_ rfl rfl (.inl rfl) ?_
      · simp [Producer, AtProducer, hmode, hat]
      · simp [producerRank, hmode, hk]
  | exits i woken next hmode hcode howner =>
      cases he
      have hturn := produces_of_main hcode
      generalize S.position .t1 = k at hturn
      cases hturn
  | waits i woken next hmode hcode howner =>
      cases he
      have hturn := produces_of_main hcode
      generalize hk : S.position .t1 = k at hturn
      cases hturn
      simp only [hmode, hk, AtProducer] at hat
      have hout := h.consumer_outside hmode (by rw [hk]; decide)
      refine h.producer_step hlocked h.products ?_ rfl rfl (.inl rfl) ?_
      · rcases hout with hout | hout <;> simp [Producer, hat, hout]
      · simp [producerRank, hmode, hk]
  | notifies i j next hmode hcode howner hwoken =>
      cases he
      have hturn := produces_of_main hcode
      generalize S.position .t1 = k at hturn
      cases hturn
  | notifiesNone i next hmode hcode howner hwoken =>
      cases he
      have hturn := produces_of_main hcode
      generalize S.position .t1 = k at hturn
      cases hturn
  | runs i woken next shared hmode hcode =>
      cases he
      have hturn := produces_of_main hcode
      generalize hk : S.position .t1 = k at hturn
      cases hturn with
      | starts =>
          simp only [hmode, hk, AtProducer] at hat
          refine h.producer_step hlocked h.products ?_ rfl rfl (.inl rfl) ?_
          · simp [Producer, AtProducer, hmode, Products.print, hat]
          · simp [producerRank, hmode, hk, Products.print, hat]
      | adds line =>
          simp only [hmode, hk, AtProducer] at hat
          have hout := h.consumer_outside hmode (by rw [hk]; decide)
          refine h.producer_step hlocked ?_ ?_ rfl rfl (.inr ⟨?_, hout⟩) ?_
          · simp only [Products.print, Monitor.State.store_shared, List.length_append, List.length_singleton,
              List.replicate_succ', ← h.products]
          · simp only [Producer, AtProducer, hmode, Products.print, Monitor.State.store_mode, Monitor.State.goto_mode,
              Monitor.State.store_shared, Monitor.State.store_position, Monitor.State.goto_position,
              Function.update_self, List.length_append, List.length_singleton]
            omega
          · simp only [Products.print, Monitor.State.store_shared, List.length_append, List.length_singleton]
            omega
          · simp only [producerRank, hmode, hk, Products.print, Monitor.State.store_mode, Monitor.State.goto_mode,
              Monitor.State.store_shared, Monitor.State.store_position, Monitor.State.goto_position,
              Function.update_self, List.length_append, List.length_singleton]
            omega
      | finds line hlength =>
          refine h.producer_step hlocked h.products ?_ rfl rfl (.inl rfl) ?_
          · simp [Producer, AtProducer, hmode, Products.print, hlength]
          · simp [producerRank, hmode, hk, Products.print]
      | goes hlength =>
          simp only [hmode, hk, AtProducer] at hat
          refine h.producer_step hlocked h.products ?_ rfl rfl (.inl rfl) ?_
          · simp only [Producer, AtProducer, hmode, Monitor.State.store_mode, Monitor.State.goto_mode,
              Monitor.State.store_shared, Monitor.State.store_position, Monitor.State.goto_position,
              Function.update_self]
            omega
          · simp [producerRank, hmode, hk]

theorem Good.consumer_move {e : Event Thread} {woken : Option Thread} (h : Good S) (he : e = .turn .t2 woken)
    (hm : Move main S e S') : Good S' ∧ rank S' < rank S := by
  have hlocked := h.locked.move main_structured hm
  obtain ⟨hmode2, hat⟩ := h.consumer
  cases hm with
  | spurious i hmode => cases he
  | resumes i woken hmode howner =>
      cases he
      rw [hmode2] at hmode
      cases hmode
  | enters i woken next hmode hcode howner =>
      cases he
      have hturn := consumes_of_main hcode
      generalize hk : S.position .t2 = k at hturn hat
      cases hturn
      refine ⟨⟨hlocked, h.products, h.producer.mono rfl rfl rfl fun _ => ?_, hmode2, ?_⟩,
        rank_lt_of_consumerRank ?_⟩
      · simp [hk]
      · simpa [AtConsumer] using hat
      · simp only [AtConsumer] at hat
        simp only [consumerRank, Monitor.State.lock_position, Monitor.State.goto_position, Function.update_self,
          Monitor.State.lock_shared, Monitor.State.goto_shared, hk]
        omega
  | exits i woken next hmode hcode howner =>
      cases he
      have hturn := consumes_of_main hcode
      generalize hk : S.position .t2 = k at hturn hat
      cases hturn
      refine ⟨⟨hlocked, h.products, h.producer.mono rfl rfl rfl fun _ => ?_, hmode2, ?_⟩,
        rank_lt_of_consumerRank ?_⟩
      · simp [hk]
      · simpa [AtConsumer] using hat
      · simp [consumerRank, hk]
  | waits i woken next hmode hcode howner =>
      cases he
      have hturn := consumes_of_main hcode
      generalize S.position .t2 = k at hturn
      cases hturn
  | notifies i j next hmode hcode howner hwoken =>
      cases he
      have hturn := consumes_of_main hcode
      generalize hk : S.position .t2 = k at hturn hat
      cases hturn with
      | notifies hlength =>
          cases j with
          | t1 =>
              have hproducer := h.producer
              simp only [Producer, hwoken] at hproducer
              refine ⟨⟨hlocked, h.products, ?_, ?_⟩, rank_lt_of_consumerRank ?_⟩
              · simp [Producer, hproducer, hlength]
              · simpa [AtConsumer, hmode2] using hlength
              · simp [consumerRank, hk]
          | t2 =>
              rw [hmode2] at hwoken
              cases hwoken
  | notifiesNone i next hmode hcode howner hwoken =>
      cases he
      have hturn := consumes_of_main hcode
      generalize hk : S.position .t2 = k at hturn hat
      cases hturn with
      | notifies hlength =>
          refine ⟨⟨hlocked, h.products, ?_, hmode2, ?_⟩, rank_lt_of_consumerRank ?_⟩
          · exact h.producer.mono rfl rfl rfl fun hwaiting => absurd hwaiting (hwoken .t1)
          · simpa [AtConsumer] using hlength
          · simp [consumerRank, hk]
  | runs i woken next shared hmode hcode =>
      cases he
      have hturn := consumes_of_main hcode
      generalize hk : S.position .t2 = k at hturn hat
      cases hturn with
      | removes product products line hproducts =>
          have hlength : S.shared.products.length = products.length + 1 := by
            rw [hproducts, List.length_cons]
          have hle : products.length < 10 := by
            simp only [AtConsumer] at hat
            omega
          refine ⟨⟨hlocked, ?_, ?_, hmode2, ?_⟩, rank_lt_of_consumerRank ?_⟩
          · have hall := h.products
            rw [hlength, hproducts, List.replicate_succ] at hall
            exact (List.cons.inj hall).2
          · have hproducer := h.producer
            unfold Producer at hproducer
            cases hmode1 : S.mode .t1 with
            | running =>
                have hzero := h.producer_outside hmode1 (by rw [hk]; decide)
                omega
            | waiting =>
                simp only [hmode1] at hproducer
                simp [Producer, hmode1, Products.print, hproducer, hle]
            | notified =>
                simp only [hmode1] at hproducer
                simp [Producer, hmode1, Products.print, hproducer, hle]
          · simpa [AtConsumer, Products.print] using hle
          · simp [consumerRank, hk, Products.print, hlength]
            omega
      | goes hlength => exact absurd hat hlength
      | tells line =>
          refine ⟨⟨hlocked, h.products, ?_, hmode2, ?_⟩, rank_lt_of_consumerRank ?_⟩
          · refine h.producer.mono rfl rfl rfl fun _ => ?_
            simp [hk]
          · simpa [AtConsumer, Products.print] using Nat.le_of_lt hat
          · simp [consumerRank, hk, Products.print]

theorem Good.move {e : Event Thread} (h : Good S) (he : ∀ i, e ≠ .spurious i) (hm : Move main S e S') :
    Good S' ∧ rank S' < rank S := by
  cases e with
  | spurious i => exact absurd rfl (he i)
  | turn i woken =>
      cases i with
      | t1 => exact h.producer_move rfl hm
      | t2 => exact h.consumer_move rfl hm

-- Where no thread can go on, the producer waits behind ten products and the consumer is done.
theorem Good.of_stuck (h : Good S) (hstuck : Stuck main S) :
    S.mode .t1 = .waiting ∧ S.position .t2 = .done ∧ S.shared.products = List.replicate 10 "myProduct." := by
  have hall := (h.locked.stuck_iff main_structured).mp hstuck
  have hproducer := h.producer
  unfold Producer at hproducer
  have hmode1 : S.mode .t1 = .waiting := (hall .t1).resolve_right fun ⟨hmode, hstop⟩ => by
    have hturn := produces_of_main hstop
    generalize hk : S.position .t1 = k at hturn
    simp only [hmode, hk] at hproducer
    cases hturn with
    | stops hkind => cases k <;> simp [AtProducer] at hkind hproducer
  obtain ⟨hmode2, hat⟩ := h.consumer
  have hdone : S.position .t2 = .done := by
    rcases hall .t2 with hwaiting | ⟨-, hstop⟩
    · rw [hmode2] at hwaiting
      cases hwaiting
    · have hturn := consumes_of_main hstop
      generalize S.position .t2 = k at hturn hat
      cases hturn with
      | stops hkind => cases k <;> simp [AtConsumer] at hkind hat ⊢
  simp [hmode1, hdone] at hproducer
  refine ⟨hmode1, hdone, ?_⟩
  rw [h.products, hproducer.2]

end Invariant

section Runs

-- While threads wake up only when they are notified, no run goes on for ever, and the only state it can
-- end in is that of a producer that waits for a consumer that is done.
theorem ends_waiting (events : List (Event Thread)) (S : State) (hevents : Genuine events)
    (hrun : run main start events = some S) :
    events.length ≤ 1475 ∧ S.shared.products.length ≤ 10 ∧
      (Stuck main S → S.mode .t1 = .waiting ∧ S.position .t2 = .done ∧
        S.shared.products = List.replicate 10 "myProduct.") := by
  have hok : ∀ e ∈ events, ∀ i, e ≠ .spurious i := by
    rintro e he i rfl
    exact hevents i he
  have hgood : Good S :=
    Monitor.run_invariant (fun _ _ _ h he hm => (h.move he hm).1) hok good_start hrun
  have hlength := Monitor.length_add_rank_le (r := rank) (fun _ _ _ h he hm => h.move he hm) hok good_start hrun
  have hstart : rank start = 1475 := rfl
  exact ⟨by omega, hgood.consumer.2.le, hgood.of_stuck⟩

-- The consumer comes first and finds nothing; the producer fills the list.
def emptyFirst : List (Event Thread) :=
  List.replicate 2 (.turn .t2 none) ++ List.replicate 23 (.turn .t1 none)

theorem ends_waiting_emptyFirst :
    ∃ S : State, run main start emptyFirst = some S ∧
      emptyFirst.length ≤ 1475 ∧ S.shared.products.length ≤ 10 ∧
        (Stuck main S → S.mode .t1 = .waiting ∧ S.position .t2 = .done ∧
          S.shared.products = List.replicate 10 "myProduct.") := by
  have hrun : (run main start emptyFirst).isSome := by decide
  have hevents : Genuine emptyFirst := by
    unfold Genuine
    decide
  exact ⟨_, (Option.some_get hrun).symm, ends_waiting _ _ hevents (Option.some_get hrun).symm⟩

end Runs

end RichardTest.WaitNotifyTest
