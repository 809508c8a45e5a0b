import Mathlib.Data.List.Basic

namespace RichardTest.Feistel

-- A Feistel network over an arbitrary operation that cancels itself and arbitrary round functions.
variable {α κ : Type} (op : α → α → α) (F : κ → α → α)

def forward (s : α × α) (k : κ) : α × α := (s.2, op (F k s.2) s.1)

def backward (s : α × α) (k : κ) : α × α := (op (F k s.1) s.2, s.1)

def rounds (ks : List κ) (s : α × α) : α × α := ks.foldl (forward op F) s

-- The inverse rounds take the keys from the last to the first.
def inverseRounds (ks : List κ) (s : α × α) : α × α := ks.reverse.foldl (backward op F) s

theorem forward_of_trace {k : κ} {x : Nat → α} (h : x 2 = op (F k (x 1)) (x 0)) :
    forward op F (x 0, x 1) k = (x 1, x 2) := by
  rw [forward, h]

-- A network written as one sequence of half blocks, each from the two before it.
theorem rounds_eq_of_trace (ks : List κ) (x : Nat → α)
    (h : ∀ i (hi : i < ks.length), x (i + 2) = op (F (ks.get ⟨i, hi⟩) (x (i + 1))) (x i)) :
    rounds op F ks (x 0, x 1) = (x ks.length, x (ks.length + 1)) := by
  induction ks generalizing x with
  | nil => rfl
  | cons k ks ih =>
      have hfirst := forward_of_trace op F (h 0 (Nat.succ_pos _))
      have hrest := ih (fun i => x (i + 1)) fun i hi => h (i + 1) (Nat.succ_lt_succ hi)
      rw [rounds, List.foldl_cons]
      exact (congrArg (rounds op F ks) hfirst).trans hrest

-- The half blocks of a run, from the two that it starts with.
def trace : List κ → α × α → Nat → α
  | _, s, 0 => s.1
  | [], s, _ + 1 => s.2
  | k :: ks, s, i + 1 => trace ks (forward op F s k) i

@[simp] theorem trace_zero (ks : List κ) (s : α × α) : trace op F ks s 0 = s.1 := by
  cases ks <;> rfl

@[simp] theorem trace_one (ks : List κ) (s : α × α) : trace op F ks s 1 = s.2 := by
  cases ks with
  | nil => rfl
  | cons k ks => exact trace_zero op F ks _

theorem trace_step (ks : List κ) (s : α × α) {i : Nat} (hi : i < ks.length) :
    trace op F ks s (i + 2) = op (F (ks.get ⟨i, hi⟩) (trace op F ks s (i + 1))) (trace op F ks s i) := by
  induction ks generalizing s i with
  | nil => exact absurd hi (Nat.not_lt_zero i)
  | cons k ks ih =>
      cases i with
      | zero =>
          change trace op F ks (forward op F s k) 1 = op (F k (trace op F ks (forward op F s k) 0)) s.1
          rw [trace_one, trace_zero]
          rfl
      | succ i => exact ih (forward op F s k) (Nat.succ_lt_succ_iff.mp hi)

-- A ring of half blocks: each comes from the two before it, and behind the last key the ring begins again.
structure Ring (ks : List κ) (x : Nat → α) : Prop where
  step : ∀ i (hi : i < ks.length), x (i + 2) = op (F (ks.get ⟨i, hi⟩) (x (i + 1))) (x i)
  closes : x ks.length = x 0 ∧ x (ks.length + 1) = x 1

-- What a network leaves as it is are the beginnings of rings.
theorem rounds_eq_self_iff (ks : List κ) (s : α × α) :
    rounds op F ks s = s ↔ ∃ x, (x 0, x 1) = s ∧ Ring op F ks x := by
  constructor
  · intro h
    have hrun := rounds_eq_of_trace op F ks (trace op F ks s) fun i hi => trace_step op F ks s hi
    rw [trace_zero, trace_one, h] at hrun
    refine ⟨trace op F ks s, by rw [trace_zero, trace_one], fun i hi => trace_step op F ks s hi, ?_⟩
    rw [trace_zero, trace_one]
    exact ⟨(congrArg Prod.fst hrun).symm, (congrArg Prod.snd hrun).symm⟩
  · rintro ⟨x, rfl, hring⟩
    rw [rounds_eq_of_trace op F ks x hring.step, hring.closes.1, hring.closes.2]

-- What holds in every round of a run, of its key and of the half block that the round function is given.
def Along (P : κ → α → Prop) : List κ → α × α → Prop
  | [], _ => True
  | k :: ks, s => P k s.2 ∧ Along P ks (forward op F s k)

theorem along_of_trace {P : κ → α → Prop} (ks : List κ) (x : Nat → α)
    (h : ∀ i (hi : i < ks.length), x (i + 2) = op (F (ks.get ⟨i, hi⟩) (x (i + 1))) (x i))
    (hP : ∀ i (hi : i < ks.length), P (ks.get ⟨i, hi⟩) (x (i + 1))) :
    Along op F P ks (x 0, x 1) := by
  induction ks generalizing x with
  | nil => trivial
  | cons k ks ih =>
      have hfirst := forward_of_trace op F (h 0 (Nat.succ_pos _))
      refine ⟨hP 0 (Nat.succ_pos _), ?_⟩
      rw [show forward op F (x 0, x 1) k = (x 1, x 2) from hfirst]
      exact ih (fun i => x (i + 1)) (fun i hi => h (i + 1) (Nat.succ_lt_succ hi))
        fun i hi => hP (i + 1) (Nat.succ_lt_succ hi)

-- Two round functions that agree along a run of one of them give the same run.
theorem rounds_congr {G : κ → α → α} {P : κ → α → Prop} (hFG : ∀ k x, P k x → G k x = F k x) (ks : List κ)
    (s : α × α) (h : Along op F P ks s) : rounds op G ks s = rounds op F ks s := by
  unfold rounds
  induction ks generalizing s with
  | nil => rfl
  | cons k ks ih =>
      have hstep : forward op G s k = forward op F s k := by rw [forward, forward, hFG k s.2 h.1]
      rw [List.foldl_cons, List.foldl_cons, hstep, ih _ h.2]

-- Two round functions give the same half blocks after every round exactly where they agree all along.
theorem rounds_take_eq_iff (hcancel : ∀ x y, op (op x y) y = x) {G : κ → α → α} (ks : List κ) (s : α × α) :
    (∀ n ≤ ks.length, rounds op G (ks.take n) s = rounds op F (ks.take n) s) ↔
      Along op F (fun k x => G k x = F k x) ks s := by
  induction ks generalizing s with
  | nil => exact iff_of_true (fun n _ => by rw [List.take_nil]; rfl) trivial
  | cons k ks ih =>
      rw [Along, ← ih]
      constructor
      · intro h
        have hstep : forward op G s k = forward op F s k := h 1 (Nat.succ_le_succ (Nat.zero_le _))
        have hsame : op (G k s.2) s.1 = op (F k s.2) s.1 := congrArg Prod.snd hstep
        refine ⟨by rw [← hcancel (G k s.2) s.1, hsame, hcancel], fun n hn => ?_⟩
        have hrest := h (n + 1) (Nat.succ_le_succ hn)
        rw [List.take_succ_cons, rounds, rounds, List.foldl_cons, List.foldl_cons, hstep] at hrest
        exact hrest
      · rintro ⟨hsame, hrest⟩ n hn
        cases n with
        | zero => rfl
        | succ n =>
            rw [List.take_succ_cons, rounds, rounds, List.foldl_cons, List.foldl_cons, forward, hsame]
            exact hrest n (Nat.succ_le_succ_iff.mp hn)

theorem along_iff {P Q : κ → α → Prop} (hPQ : ∀ k x, P k x ↔ Q k x) (ks : List κ) (s : α × α) :
    Along op F P ks s ↔ Along op F Q ks s := by
  induction ks generalizing s with
  | nil => exact Iff.rfl
  | cons k ks ih => rw [Along, Along, hPQ, ih]

-- A change of the half blocks that the operation carries through and the round functions do not see
-- when the keys change with it goes through the whole network.
theorem rounds_map {c : α → α} {d : κ → κ} (hF : ∀ k x, F (d k) (c x) = F k x)
    (hop : ∀ x y, op x (c y) = c (op x y)) (ks : List κ) (s : α × α) :
    rounds op F (ks.map d) (Prod.map c c s) = Prod.map c c (rounds op F ks s) := by
  unfold rounds
  induction ks generalizing s with
  | nil => rfl
  | cons k ks ih =>
      have hstep : forward op F (Prod.map c c s) (d k) = Prod.map c c (forward op F s k) := by
        simp only [forward, Prod.map, hF, hop]
      rw [List.map_cons, List.foldl_cons, List.foldl_cons, hstep, ih]

variable {op} (hcancel : ∀ x y, op x (op x y) = y)

include hcancel

theorem backward_forward (s : α × α) (k : κ) : backward op F (forward op F s k) k = s := by
  simp only [forward, backward, hcancel]

theorem forward_backward (s : α × α) (k : κ) : forward op F (backward op F s k) k = s := by
  simp only [forward, backward, hcancel]

theorem inverseRounds_rounds (ks : List κ) (s : α × α) :
    inverseRounds op F ks (rounds op F ks s) = s := by
  unfold inverseRounds rounds
  induction ks generalizing s with
  | nil => rfl
  | cons k ks ih =>
      simp only [List.reverse_cons, List.foldl_append, List.foldl_cons, List.foldl_nil, ih]
      exact backward_forward F hcancel s k

theorem rounds_inverseRounds (ks : List κ) (s : α × α) :
    rounds op F ks (inverseRounds op F ks s) = s := by
  unfold inverseRounds rounds
  induction ks generalizing s with
  | nil => rfl
  | cons k ks ih =>
      simp only [List.reverse_cons, List.foldl_append, List.foldl_cons, List.foldl_nil,
        forward_backward F hcancel]
      exact ih s

end RichardTest.Feistel
