import RichardTest.AtomicTest
import RichardTest.Outcome
import Mathlib.Algebra.BigOperators.Fin
import Mathlib.Algebra.Order.BigOperators.Group.Finset

namespace RichardTest.AtomicTest

variable {threadCount increaseCount : Nat} {S S' : System threadCount} {e : Event threadCount}

section Steps

-- Everything a step can do.
inductive Move (increaseCount : Nat) (S : System threadCount) : Event threadCount → System threadCount → Prop where
  | starts (hstarted : S.started < threadCount) : Move increaseCount S .main { S with started := S.started + 1 }
  | prints (hstarted : ¬S.started < threadCount) (hlatch : S.latch = 0) (hprinted : S.printed = none) :
      Move increaseCount S .main { S with printed := some S.inc }
  | reads (i : Fin threadCount) (j : Nat) (hi : S.threads i = ⟨j, .reads⟩) (hj : j < increaseCount / threadCount) :
      Move increaseCount S (.thread i) (S.goto i ⟨j, .writes S.inc⟩)
  | writes (i : Fin threadCount) (j : Nat) (inc : JInt) (hi : S.threads i = ⟨j, .writes inc⟩) :
      Move increaseCount S (.thread i) { S.goto i ⟨j, .countsDown⟩ with inc := inc + 1 }
  | countsDown (i : Fin threadCount) (j : Nat) (hi : S.threads i = ⟨j, .countsDown⟩) :
      Move increaseCount S (.thread i) { S.goto i ⟨j + 1, .reads⟩ with latch := S.latch - 1 }

theorem move_of_step (h : step increaseCount S e = some S') : Move increaseCount S e S' := by
  cases e with
  | main =>
      rw [step, mainStep] at h
      split_ifs at h with hstarted hlatch
      · cases h
        exact .starts hstarted
      · cases h
        exact .prints hstarted hlatch.1 hlatch.2
  | thread i =>
      rw [step, threadStep] at h
      split_ifs at h with hstarted
      split at h
      next j hi =>
        split_ifs at h with hj
        cases h
        exact .reads i j hi hj
      next j inc hi =>
        cases h
        exact .writes i j inc hi
      next j hi =>
        cases h
        exact .countsDown i j hi

theorem step_reads {i : Fin threadCount} {j : Nat} (hstarted : i < S.started) (hi : S.threads i = ⟨j, .reads⟩)
    (hj : j < increaseCount / threadCount) :
    step increaseCount S (.thread i) = some (S.goto i ⟨j, .writes S.inc⟩) := by
  rw [step, threadStep, if_pos hstarted, hi]
  exact if_pos hj

theorem step_writes {i : Fin threadCount} {j : Nat} {inc : JInt} (hstarted : i < S.started)
    (hi : S.threads i = ⟨j, .writes inc⟩) :
    step increaseCount S (.thread i) = some { S.goto i ⟨j, .countsDown⟩ with inc := inc + 1 } := by
  rw [step, threadStep, if_pos hstarted, hi]

theorem step_countsDown {i : Fin threadCount} {j : Nat} (hstarted : i < S.started)
    (hi : S.threads i = ⟨j, .countsDown⟩) :
    step increaseCount S (.thread i) = some { S.goto i ⟨j + 1, .reads⟩ with latch := S.latch - 1 } := by
  rw [step, threadStep, if_pos hstarted, hi]

theorem step_prints (hstarted : ¬S.started < threadCount) (hlatch : S.latch = 0) (hprinted : S.printed = none) :
    step increaseCount S .main = some { S with printed := some S.inc } := by
  rw [step, mainStep, if_neg hstarted, if_pos ⟨hlatch, hprinted⟩]

@[simp] theorem threads_goto_self (S : System threadCount) (i : Fin threadCount) (thread : Thread) :
    (S.goto i thread).threads i = thread := Function.update_self ..

@[simp] theorem threads_goto_of_ne (S : System threadCount) {i k : Fin threadCount} (thread : Thread) (h : k ≠ i) :
    (S.goto i thread).threads k = S.threads k := Function.update_of_ne h ..

-- A fact about every thread is kept where it holds of the one that moves.
theorem forall_threads_goto {P : Fin threadCount → Thread → Prop} {i : Fin threadCount} {thread : Thread}
    (h : ∀ k, P k (S.threads k)) (hi : P i thread) (k : Fin threadCount) : P k ((S.goto i thread).threads k) := by
  by_cases hk : k = i
  · subst hk
    rwa [threads_goto_self]
  · rw [threads_goto_of_ne S thread hk]
    exact h k

end Steps

section Sums

variable {ι : Type} [Fintype ι]

theorem sum_le_mul {r : ι → Nat} {n : Nat} (h : ∀ i, r i ≤ n) : ∑ i, r i ≤ Fintype.card ι * n := by
  simpa using Finset.sum_le_card_nsmul Finset.univ r n fun i _ => h i

-- A sum that is as large as it can be has every part as large as it can be.
theorem eq_of_mul_le_sum {r : ι → Nat} {n : Nat} (h : ∀ i, r i ≤ n) (hsum : Fintype.card ι * n ≤ ∑ i, r i) (i : ι) :
    r i = n := by
  have hconst : ∑ _k : ι, n = Fintype.card ι * n := by simp
  refine (Finset.sum_eq_sum_iff_of_le fun k _ => h k).mp (le_antisymm ?_ ?_) i (Finset.mem_univ i)
  · exact Finset.sum_le_sum fun k _ => h k
  · exact hconst.trans_le hsum

theorem sum_eq_succ [DecidableEq ι] {r r' : ι → Nat} (i : ι) (hi : r' i = r i + 1) (hoff : ∀ k, k ≠ i → r' k = r k) :
    ∑ k, r' k = ∑ k, r k + 1 := by
  have hrest : ∑ k ∈ Finset.univ.erase i, r' k = ∑ k ∈ Finset.univ.erase i, r k :=
    Finset.sum_congr rfl fun k hk => hoff k (Finset.ne_of_mem_erase hk)
  rw [← Finset.add_sum_erase _ r' (Finset.mem_univ i), ← Finset.add_sum_erase _ r (Finset.mem_univ i), hi, hrest]
  omega

end Sums

section Counts

-- How often a thread has written `inc`.
def written (thread : Thread) : Nat := thread.j + if thread.position = .countsDown then 1 else 0

structure Counts (increaseCount : Nat) (S : System threadCount) : Prop where
  inside : ∀ i, (S.threads i).position ≠ .reads → (S.threads i).j < increaseCount / threadCount
  rounds : ∀ i, (S.threads i).j ≤ increaseCount / threadCount
  latch : S.latch + ∑ i, (S.threads i).j = increaseCount

theorem counts_start (threadCount increaseCount : Nat) : Counts increaseCount (start threadCount increaseCount) where
  inside _ h := absurd rfl h
  rounds _ := Nat.zero_le _
  latch := by simp [start]

theorem sum_rounds_le (h : ∀ i, (S.threads i).j ≤ increaseCount / threadCount) :
    ∑ i, (S.threads i).j ≤ increaseCount := by
  have hle := sum_le_mul h
  rw [Fintype.card_fin] at hle
  exact hle.trans (Nat.mul_div_le increaseCount threadCount)

theorem Counts.step (hS : Counts increaseCount S) (h : AtomicTest.step increaseCount S e = some S') :
    Counts increaseCount S' := by
  cases move_of_step h with
  | starts hstarted => exact ⟨hS.inside, hS.rounds, hS.latch⟩
  | prints hstarted hlatch hprinted => exact ⟨hS.inside, hS.rounds, hS.latch⟩
  | reads i j hi hj =>
      have hsame : ∀ k, ((S.goto i ⟨j, .writes S.inc⟩).threads k).j = (S.threads k).j := by
        refine forall_threads_goto (P := fun k thread => thread.j = (S.threads k).j) (fun k => rfl) ?_
        rw [hi]
      refine ⟨forall_threads_goto (P := fun _ thread => thread.position ≠ .reads → thread.j < _) hS.inside
        fun _ => hj, fun k => (hsame k).trans_le (hS.rounds k), ?_⟩
      rw [Finset.sum_congr rfl fun k _ => hsame k]
      exact hS.latch
  | writes i j inc hi =>
      have hj : j < increaseCount / threadCount := by
        have hinside := hS.inside i
        rw [hi] at hinside
        exact hinside (by simp)
      have hsame : ∀ k, ((S.goto i ⟨j, .countsDown⟩).threads k).j = (S.threads k).j := by
        refine forall_threads_goto (P := fun k thread => thread.j = (S.threads k).j) (fun k => rfl) ?_
        rw [hi]
      refine ⟨forall_threads_goto (P := fun _ thread => thread.position ≠ .reads → thread.j < _) hS.inside
        fun _ => hj, fun k => (hsame k).trans_le (hS.rounds k), ?_⟩
      show S.latch + ∑ k, ((S.goto i ⟨j, .countsDown⟩).threads k).j = increaseCount
      rw [Finset.sum_congr rfl fun k _ => hsame k]
      exact hS.latch
  | countsDown i j hi =>
      have hj : j < increaseCount / threadCount := by
        have hinside := hS.inside i
        rw [hi] at hinside
        exact hinside (by simp)
      have hrounds : ∀ k, ((S.goto i ⟨j + 1, .reads⟩).threads k).j ≤ increaseCount / threadCount :=
        forall_threads_goto (P := fun _ thread => thread.j ≤ increaseCount / threadCount) hS.rounds hj
      have hsum : ∑ k, ((S.goto i ⟨j + 1, .reads⟩).threads k).j = ∑ k, (S.threads k).j + 1 :=
        sum_eq_succ i (by rw [threads_goto_self, hi]) fun k hk => by rw [threads_goto_of_ne S _ hk]
      refine ⟨forall_threads_goto (P := fun _ thread => thread.position ≠ .reads → thread.j < _) hS.inside
        fun h => absurd rfl h, hrounds, ?_⟩
      have hle := sum_rounds_le hrounds
      have hlatch := hS.latch
      show S.latch - 1 + ∑ k, ((S.goto i ⟨j + 1, .reads⟩).threads k).j = increaseCount
      omega

theorem Counts.run (hS : Counts increaseCount S) {events : List (Event threadCount)}
    (h : AtomicTest.run increaseCount S events = some S') : Counts increaseCount S' :=
  Outcome.foldlM_invariant (I := Counts increaseCount) (fun _ _ _ hT hstep => hT.step hstep) events S S' hS h

-- When the latch is open, every thread has done all of its rounds.
theorem Counts.ended (hS : Counts increaseCount S) (hlatch : S.latch = 0) (i : Fin threadCount) :
    S.threads i = ⟨increaseCount / threadCount, .reads⟩ := by
  have hsum := hS.latch
  rw [hlatch, Nat.zero_add] at hsum
  have hj := eq_of_mul_le_sum hS.rounds (by
    rw [Fintype.card_fin, hsum]
    exact Nat.mul_div_le increaseCount threadCount) i
  have hposition : (S.threads i).position = .reads := by
    by_contra hne
    exact absurd hj (hS.inside i hne).ne
  cases hi : S.threads i with
  | mk j position =>
      rw [hi] at hj hposition
      subst hj hposition
      rfl

end Counts

section Values

theorem written_le (hS : Counts increaseCount S) (i : Fin threadCount) :
    written (S.threads i) ≤ increaseCount / threadCount := by
  rw [written]
  split_ifs with hposition
  · exact hS.inside i (by rw [hposition]; simp)
  · exact hS.rounds i

-- What is written is at most the number of the writes, and no thread that has written holds the zero of the start.
structure Values (increaseCount : Nat) (S : System threadCount) : Prop where
  inc_le : S.inc.toNat ≤ ∑ i, written (S.threads i)
  held_le : ∀ i inc, (S.threads i).position = .writes inc → inc.toNat ≤ ∑ i, written (S.threads i)
  inc_pos : ∀ i, 0 < written (S.threads i) → 0 < S.inc.toNat
  held_pos : ∀ i inc, 0 < written (S.threads i) → (S.threads i).position = .writes inc → 0 < inc.toNat
  two_le : (∀ i, written (S.threads i) = increaseCount / threadCount) → 2 ≤ S.inc.toNat
  printed : ∀ v, S.printed = some v → 2 ≤ v.toNat ∧ v.toNat ≤ increaseCount

variable (hmany : 2 ≤ threadCount) (hrounds : 2 ≤ increaseCount / threadCount) (hint : increaseCount < 2 ^ 31)

include hmany hrounds

theorem values_start : Values increaseCount (start threadCount increaseCount) where
  inc_le := Nat.zero_le _
  held_le _ _ h := by cases h
  inc_pos _ h := by cases h
  held_pos _ _ h := by cases h
  two_le h := by
    have hzero : 0 = increaseCount / threadCount := h ⟨0, by omega⟩
    omega
  printed _ h := by cases h

include hint

omit hmany in
theorem Values.step (hc : Counts increaseCount S) (hS : Values increaseCount S)
    (h : AtomicTest.step increaseCount S e = some S') : Values increaseCount S' := by
  have hc' := hc.step h
  cases move_of_step h with
  | starts hstarted => exact ⟨hS.inc_le, hS.held_le, hS.inc_pos, hS.held_pos, hS.two_le, hS.printed⟩
  | prints hstarted hlatch hprinted =>
      have hall : ∀ i, written (S.threads i) = increaseCount / threadCount := fun i => by
        rw [hc.ended hlatch i]
        rfl
      refine ⟨hS.inc_le, hS.held_le, hS.inc_pos, hS.held_pos, hS.two_le, fun v hv => ?_⟩
      obtain rfl := Option.some.inj hv
      refine ⟨hS.two_le hall, hS.inc_le.trans ?_⟩
      have hle := sum_le_mul (written_le hc)
      rw [Fintype.card_fin] at hle
      exact hle.trans (Nat.mul_div_le increaseCount threadCount)
  | reads i j hi hj =>
      have hsame : ∀ k, written ((S.goto i ⟨j, .writes S.inc⟩).threads k) = written (S.threads k) := by
        refine forall_threads_goto (P := fun k thread => written thread = written (S.threads k)) (fun k => rfl) ?_
        rw [hi]
        rfl
      have hsum := Finset.sum_congr rfl fun k (_ : k ∈ Finset.univ) => hsame k
      refine ⟨?_, ?_, ?_, ?_, ?_, hS.printed⟩
      · rw [hsum]
        exact hS.inc_le
      · intro k
        rw [hsum]
        exact forall_threads_goto (P := fun _ thread => ∀ inc, thread.position = .writes inc → inc.toNat ≤ _) hS.held_le
          (fun inc hinc => by cases hinc; exact hS.inc_le) k
      · intro k hk
        rw [hsame] at hk
        exact hS.inc_pos k hk
      · intro k inc hk hinc
        rw [hsame] at hk
        by_cases hki : k = i
        · subst hki
          rw [threads_goto_self] at hinc
          cases hinc
          exact hS.inc_pos k hk
        · rw [threads_goto_of_ne S _ hki] at hinc
          exact hS.held_pos k inc hk hinc
      · intro hall
        exact hS.two_le fun k => (hsame k).symm.trans (hall k)
  | writes i j inc hi =>
      have hsum : ∑ k, written ((S.goto i ⟨j, .countsDown⟩).threads k) = ∑ k, written (S.threads k) + 1 :=
        sum_eq_succ i (by rw [threads_goto_self, hi]; rfl) fun k hk => by rw [threads_goto_of_ne S _ hk]
      have hheld := hS.held_le i inc (by rw [hi])
      have hmax : ∑ k, written ((S.goto i ⟨j, .countsDown⟩).threads k) ≤ increaseCount := by
        have hle := sum_le_mul (written_le hc')
        rw [Fintype.card_fin] at hle
        exact hle.trans (Nat.mul_div_le increaseCount threadCount)
      -- There are fewer writes than a word has values.
      have hnext : (inc + 1).toNat = inc.toNat + 1 := by
        rw [BitVec.toNat_add, show (1 : JInt).toNat = 1 from rfl, Nat.mod_eq_of_lt (by omega)]
      refine ⟨?_, ?_, ?_, ?_, ?_, hS.printed⟩
      · show (inc + 1).toNat ≤ ∑ k, written ((S.goto i ⟨j, .countsDown⟩).threads k)
        omega
      · intro k
        show ∀ inc', ((S.goto i ⟨j, .countsDown⟩).threads k).position = .writes inc' →
          inc'.toNat ≤ ∑ k, written ((S.goto i ⟨j, .countsDown⟩).threads k)
        rw [hsum]
        exact forall_threads_goto (P := fun _ thread => ∀ inc', thread.position = .writes inc' → inc'.toNat ≤ _)
          (fun k inc' hinc' => (hS.held_le k inc' hinc').trans (Nat.le_succ _)) (fun inc' hinc' => by cases hinc') k
      · intro _ _
        show 0 < (inc + 1).toNat
        omega
      · intro k inc' hk hinc'
        by_cases hki : k = i
        · subst hki
          rw [threads_goto_self] at hinc'
          cases hinc'
        · rw [threads_goto_of_ne S _ hki] at hk hinc'
          exact hS.held_pos k inc' hk hinc'
      · intro hall
        have hlast : j + 1 = increaseCount / threadCount := by
          have hi' := hall i
          rwa [threads_goto_self] at hi'
        have hpos := hS.held_pos i inc (by rw [hi]; show 0 < j + 0; omega) (by rw [hi])
        show 2 ≤ (inc + 1).toNat
        omega
  | countsDown i j hi =>
      have hsame : ∀ k, written ((S.goto i ⟨j + 1, .reads⟩).threads k) = written (S.threads k) := by
        refine forall_threads_goto (P := fun k thread => written thread = written (S.threads k)) (fun k => rfl) ?_
        rw [hi]
        rfl
      have hsum := Finset.sum_congr rfl fun k (_ : k ∈ Finset.univ) => hsame k
      have hheld : ∀ k inc, ((S.goto i ⟨j + 1, .reads⟩).threads k).position = .writes inc →
          (S.threads k).position = .writes inc :=
        forall_threads_goto (P := fun k thread => ∀ inc, thread.position = .writes inc →
          (S.threads k).position = .writes inc) (fun _ _ h => h) fun inc hinc => by cases hinc
      refine ⟨hS.inc_le.trans_eq hsum.symm, fun k inc hinc => (hS.held_le k inc (hheld k inc hinc)).trans_eq hsum.symm,
        fun k hk => ?_, fun k inc hk hinc => ?_, fun hall => ?_, hS.printed⟩
      · rw [hsame] at hk
        exact hS.inc_pos k hk
      · rw [hsame] at hk
        exact hS.held_pos k inc hk (hheld k inc hinc)
      · exact hS.two_le fun k => (hsame k).symm.trans (hall k)

theorem printed_of_run {events : List (Event threadCount)} {v : JInt}
    (h : AtomicTest.run increaseCount (start threadCount increaseCount) events = some S) (hv : S.printed = some v) :
    2 ≤ v.toNat ∧ v.toNat ≤ increaseCount := by
  have hS : Counts increaseCount S ∧ Values increaseCount S :=
    Outcome.foldlM_invariant (I := fun T => Counts increaseCount T ∧ Values increaseCount T)
      (fun _ _ _ hT hstep => ⟨hT.1.step hstep, hT.2.step hrounds hint hT.1 hstep⟩) events _ S
      ⟨counts_start threadCount increaseCount, values_start hmany hrounds⟩ h
  exact hS.2.printed v hv

end Values

section Endings

def Stuck (increaseCount : Nat) (S : System threadCount) : Prop := ∀ e, step increaseCount S e = none

-- The steps that a thread has done of its loop.
def done (thread : Thread) : Nat :=
  3 * thread.j + match thread.position with
    | .reads => 0
    | .writes _ => 1
    | .countsDown => 2

-- What is left to do.
def effort (increaseCount : Nat) (S : System threadCount) : Nat :=
  (threadCount - S.started) + (if S.printed = none then 1 else 0) +
    (threadCount * (3 * (increaseCount / threadCount)) - ∑ i, done (S.threads i))

theorem done_le (hS : Counts increaseCount S) (i : Fin threadCount) :
    done (S.threads i) ≤ 3 * (increaseCount / threadCount) := by
  have hinside := hS.inside i
  have hle := hS.rounds i
  rw [done]
  cases hposition : (S.threads i).position with
  | reads =>
      dsimp only
      omega
  | writes inc =>
      have hlt := hinside (by rw [hposition]; simp)
      dsimp only
      omega
  | countsDown =>
      have hlt := hinside (by rw [hposition]; simp)
      dsimp only
      omega

theorem sum_done_goto {i : Fin threadCount} {thread : Thread} (h : done thread = done (S.threads i) + 1) :
    ∑ k, done ((S.goto i thread).threads k) = ∑ k, done (S.threads k) + 1 :=
  sum_eq_succ i (by rw [threads_goto_self, h]) fun k hk => by rw [threads_goto_of_ne S _ hk]

theorem effort_step (hS : Counts increaseCount S) (h : step increaseCount S e = some S') :
    effort increaseCount S' + 1 = effort increaseCount S := by
  have hmax : ∑ i, done (S'.threads i) ≤ threadCount * (3 * (increaseCount / threadCount)) := by
    have hle := sum_le_mul (done_le (hS.step h))
    rwa [Fintype.card_fin] at hle
  cases move_of_step h with
  | starts hstarted =>
      simp only [effort]
      omega
  | prints hstarted hlatch hprinted =>
      simp only [effort, hprinted, if_true, reduceCtorEq, if_false]
      omega
  | reads i j hi hj =>
      have hsum : ∑ k, done ((S.goto i ⟨j, .writes S.inc⟩).threads k) = _ := sum_done_goto (by rw [hi]; rfl)
      rw [hsum] at hmax
      rw [effort, effort, hsum]
      show threadCount - S.started + (if S.printed = none then 1 else 0) + _ + 1 = _
      omega
  | writes i j inc hi =>
      have hsum : ∑ k, done ((S.goto i ⟨j, .countsDown⟩).threads k) = _ := sum_done_goto (by rw [hi]; rfl)
      rw [effort, effort]
      show threadCount - S.started + (if S.printed = none then 1 else 0) +
        (_ - ∑ k, done ((S.goto i ⟨j, .countsDown⟩).threads k)) + 1 = _
      have hmax' : ∑ k, done ((S.goto i ⟨j, .countsDown⟩).threads k) ≤ _ := hmax
      omega
  | countsDown i j hi =>
      have hsum : ∑ k, done ((S.goto i ⟨j + 1, .reads⟩).threads k) = _ := sum_done_goto (by rw [hi]; rfl)
      rw [effort, effort]
      show threadCount - S.started + (if S.printed = none then 1 else 0) +
        (_ - ∑ k, done ((S.goto i ⟨j + 1, .reads⟩).threads k)) + 1 = _
      have hmax' : ∑ k, done ((S.goto i ⟨j + 1, .reads⟩).threads k) ≤ _ := hmax
      omega

theorem length_run {events : List (Event threadCount)} (hS : Counts increaseCount S)
    (h : run increaseCount S events = some S') : events.length + effort increaseCount S' = effort increaseCount S := by
  induction events generalizing S with
  | nil =>
      cases h
      exact Nat.zero_add _
  | cons e events ih =>
      rw [run, List.foldlM_cons] at h
      obtain ⟨T, hstep, hrest⟩ := Option.bind_eq_some_iff.mp h
      have hT := ih (hS.step hstep) hrest
      have hless := effort_step hS hstep
      rw [List.length_cons]
      omega

-- Every run can be taken to its end.
theorem exists_stuck (hS : Counts increaseCount S) :
    ∃ events S', run increaseCount S events = some S' ∧ Stuck increaseCount S' := by
  induction heffort : effort increaseCount S using Nat.strong_induction_on generalizing S with
  | _ n ih =>
      by_cases hstuck : Stuck increaseCount S
      · exact ⟨[], S, rfl, hstuck⟩
      · obtain ⟨e, he⟩ := not_forall.mp hstuck
        obtain ⟨T, hstep⟩ := Option.ne_none_iff_exists'.mp he
        have hless := effort_step hS hstep
        obtain ⟨events, S', hrun, hend⟩ := ih _ (by omega) (hS.step hstep) rfl
        exact ⟨e :: events, S', by rw [run, List.foldlM_cons, hstep]; exact hrun, hend⟩

-- Where nothing can happen any more, all rounds are done, and main has printed if the latch is open.
theorem stuck_spec (hstuck : Stuck increaseCount S) (hS : Counts increaseCount S) :
    S.latch = increaseCount - threadCount * (increaseCount / threadCount) ∧ (S.latch = 0 → S.printed ≠ none) := by
  have hstarted : ¬S.started < threadCount := fun h => by
    have hmain := hstuck .main
    rw [step, mainStep, if_pos h] at hmain
    cases hmain
  have hrounds : ∀ i, (S.threads i).j = increaseCount / threadCount := by
    intro i
    have hi := hstuck (.thread i)
    have hstart : i < S.started := i.isLt.trans_le (not_lt.mp hstarted)
    cases hthread : S.threads i with
    | mk j position =>
        cases position with
        | reads =>
            by_contra hne
            have hle := hS.rounds i
            rw [hthread] at hle
            rw [step_reads hstart hthread (lt_of_le_of_ne hle hne)] at hi
            cases hi
        | writes inc =>
            rw [step_writes hstart hthread] at hi
            cases hi
        | countsDown =>
            rw [step_countsDown hstart hthread] at hi
            cases hi
  have hlatch := hS.latch
  rw [Finset.sum_congr rfl fun i _ => hrounds i, Finset.sum_const, Finset.card_univ, Fintype.card_fin,
    smul_eq_mul] at hlatch
  refine ⟨by omega, fun hopen hprinted => ?_⟩
  have hmain := hstuck .main
  rw [step_prints hstarted hopen hprinted] at hmain
  cases hmain

-- Printing waits for the latch.
theorem latch_of_printed {events : List (Event threadCount)}
    (h : run increaseCount (start threadCount increaseCount) events = some S) : S.printed ≠ none → S.latch = 0 :=
  Outcome.foldlM_invariant (I := fun T => T.printed ≠ none → T.latch = 0)
    (fun T e T' hT hstep => by
      cases move_of_step hstep with
      | prints hstarted hlatch hprinted => exact fun _ => hlatch
      | countsDown i j hi => exact fun h => by rw [show T.latch = 0 from hT h]
      | _ => exact hT) events _ S (fun h => absurd rfl h) h

-- What the rounds leave of the latch.
theorem le_latch (hS : Counts increaseCount S) :
    increaseCount - threadCount * (increaseCount / threadCount) ≤ S.latch := by
  have hlatch := hS.latch
  have hle := sum_le_mul hS.rounds
  rw [Fintype.card_fin] at hle
  omega

-- Every run ends, and main prints in the end exactly where the increments are dealt out without a rest. Otherwise the
-- latch is never open.
theorem main_ends_iff (threadCount increaseCount : Nat) :
    ((∀ events S, run increaseCount (start threadCount increaseCount) events = some S →
      events.length ≤ threadCount + 1 + 3 * increaseCount ∧ (Stuck increaseCount S → S.printed ≠ none)) ↔
      threadCount ∣ increaseCount) ∧
    (¬threadCount ∣ increaseCount → ∀ events S, run increaseCount (start threadCount increaseCount) events = some S →
      S.latch ≠ 0 ∧ S.printed = none) := by
  have hstart := counts_start threadCount increaseCount
  have hwaits (hrest : ¬threadCount ∣ increaseCount) (events : List (Event threadCount)) (S : System threadCount)
      (hrun : run increaseCount (start threadCount increaseCount) events = some S) :
      S.latch ≠ 0 ∧ S.printed = none := by
    have hlatch : S.latch ≠ 0 := by
      have hle := le_latch (hstart.run hrun)
      have hmul := Nat.mul_div_le increaseCount threadCount
      have hne : threadCount * (increaseCount / threadCount) ≠ increaseCount := fun h => hrest (Dvd.intro _ h)
      omega
    exact ⟨hlatch, not_not.mp (mt (latch_of_printed hrun) hlatch)⟩
  refine ⟨⟨fun h => ?_, fun hdvd events S hrun => ?_⟩, hwaits⟩
  · by_contra hrest
    obtain ⟨events, S, hrun, hstuck⟩ := exists_stuck hstart
    exact (h events S hrun).2 hstuck (hwaits hrest events S hrun).2
  · have htotal := Nat.mul_div_cancel' hdvd
    refine ⟨?_, fun hstuck => ?_⟩
    · have hlength := length_run hstart hrun
      have heffort : effort increaseCount (start threadCount increaseCount) =
          threadCount + 1 + threadCount * (3 * (increaseCount / threadCount)) := by
        simp [effort, start, done]
      rw [Nat.mul_left_comm, htotal] at heffort
      omega
    · obtain ⟨hlatch, hopen⟩ := stuck_spec hstuck (hstart.run hrun)
      exact hopen (by rw [hlatch, htotal, Nat.sub_self])

end Endings

end RichardTest.AtomicTest
