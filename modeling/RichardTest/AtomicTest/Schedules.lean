import RichardTest.AtomicTest.Theorems
import Mathlib.Tactic.NormNum

namespace RichardTest.AtomicTest

variable {threadCount increaseCount : Nat}

section Reaching

variable {S S' S'' : System threadCount}

def Reaches (increaseCount : Nat) (S S' : System threadCount) : Prop := ∃ events, run increaseCount S events = some S'

theorem Reaches.refl (S : System threadCount) : Reaches increaseCount S S := ⟨[], rfl⟩

theorem Reaches.of_step {e : Event threadCount} (h : step increaseCount S e = some S') : Reaches increaseCount S S' :=
  ⟨[e], by rw [run, List.foldlM_cons, h]; rfl⟩

theorem Reaches.trans (h : Reaches increaseCount S S') (h' : Reaches increaseCount S' S'') :
    Reaches increaseCount S S'' := by
  obtain ⟨events, hrun⟩ := h
  obtain ⟨events', hrun'⟩ := h'
  refine ⟨events ++ events', ?_⟩
  rw [run, List.foldlM_append, ← run, hrun]
  exact hrun'

end Reaching

section Rounds

variable {r r' : Fin threadCount → Nat} {p : Fin threadCount → Position} {inc v : JInt} {i : Fin threadCount}

-- All threads are started, and nothing is printed yet.
def midway (increaseCount : Nat) (r : Fin threadCount → Nat) (p : Fin threadCount → Position) (inc : JInt) :
    System threadCount :=
  { inc, latch := increaseCount - ∑ i, r i, started := threadCount, threads := fun i => ⟨r i, p i⟩, printed := none }

theorem threads_midway (i : Fin threadCount) (j : Nat) (position : Position) :
    Function.update (midway increaseCount r p inc).threads i ⟨j, position⟩ =
      fun k => ⟨Function.update r i j k, Function.update p i position k⟩ := by
  funext k
  by_cases hk : k = i
  · subst hk
    simp only [Function.update_self]
  · simp only [Function.update_of_ne hk]
    rfl

theorem goto_midway (i : Fin threadCount) (position : Position) :
    (midway increaseCount r p inc).goto i ⟨r i, position⟩ =
      midway increaseCount r (Function.update p i position) inc := by
  rw [System.goto, threads_midway, Function.update_eq_self]
  rfl

theorem sum_update_succ (r : Fin threadCount → Nat) (i : Fin threadCount) :
    ∑ k, Function.update r i (r i + 1) k = ∑ k, r k + 1 :=
  sum_eq_succ i (Function.update_self ..) fun _ hk => Function.update_of_ne hk ..

theorem midway_reads (hp : p i = .reads) (hr : r i < increaseCount / threadCount) :
    Reaches increaseCount (midway increaseCount r p inc)
      (midway increaseCount r (Function.update p i (.writes inc)) inc) := by
  have hi : (midway increaseCount r p inc).threads i = ⟨r i, .reads⟩ := by rw [← hp]; rfl
  have hstep := step_reads i.isLt hi hr
  rw [goto_midway] at hstep
  exact .of_step hstep

-- Whatever has happened since it read `inc`, a thread writes what it has read, increased by one.
theorem midway_writes (hp : p i = .writes v) :
    Reaches increaseCount (midway increaseCount r p inc)
      (midway increaseCount (Function.update r i (r i + 1)) (Function.update p i .reads) (v + 1)) := by
  have hi : (midway increaseCount r p inc).threads i = ⟨r i, .writes v⟩ := by rw [← hp]; rfl
  have hwrite : step increaseCount (midway increaseCount r p inc) (.thread i) = _ := step_writes i.isLt hi
  rw [goto_midway] at hwrite
  have hi' : (midway increaseCount r (Function.update p i .countsDown) (v + 1)).threads i = ⟨r i, .countsDown⟩ := by
    show Thread.mk (r i) (Function.update p i .countsDown i) = _
    rw [Function.update_self]
  have hcount : step increaseCount (midway increaseCount r _ (v + 1)) (.thread i) = _ := step_countsDown i.isLt hi'
  rw [System.goto, threads_midway, Function.update_idem] at hcount
  refine (Reaches.of_step hwrite).trans (.of_step (hcount.trans (congrArg some ?_)))
  rw [midway, midway, sum_update_succ, Nat.sub_sub]

theorem midway_round (hp : p i = .reads) (hr : r i < increaseCount / threadCount) :
    Reaches increaseCount (midway increaseCount r p inc)
      (midway increaseCount (Function.update r i (r i + 1)) p (inc + 1)) := by
  have hwrites : Reaches increaseCount (midway increaseCount r (Function.update p i (.writes inc)) inc) _ :=
    midway_writes (Function.update_self i (.writes inc) p)
  rw [Function.update_idem, ← hp, Function.update_eq_self] at hwrites
  exact (midway_reads hp hr).trans hwrites

-- Threads that are not in the middle of a round can do any number of the rounds that they have left, and each of
-- these counts.
theorem midway_rounds {k : Nat} (hle : ∀ i, r i ≤ r' i) (hmax : ∀ i, r' i ≤ increaseCount / threadCount)
    (hp : ∀ i, r i < r' i → p i = .reads) (hk : ∑ i, r' i = ∑ i, r i + k) :
    Reaches increaseCount (midway increaseCount r p inc) (midway increaseCount r' p (inc + BitVec.ofNat 32 k)) := by
  induction k generalizing r inc with
  | zero =>
      have hsame : r = r' := funext fun i =>
        (Finset.sum_eq_sum_iff_of_le fun i _ => hle i).mp hk.symm i (Finset.mem_univ i)
      rw [hsame, show inc + BitVec.ofNat 32 0 = inc from BitVec.add_zero inc]
      exact .refl _
  | succ k ih =>
      obtain ⟨i, -, hi⟩ := Finset.exists_lt_of_sum_lt (s := Finset.univ) (f := r) (g := r') (by omega)
      have hnext : Reaches increaseCount (midway increaseCount (Function.update r i (r i + 1)) p (inc + 1)) _ := ih
        (fun j => by
          by_cases hj : j = i
          · subst hj
            rwa [Function.update_self]
          · rw [Function.update_of_ne hj]
            exact hle j)
        (fun j hj => hp j (lt_of_le_of_lt (by
          by_cases hj : j = i
          · subst hj
            rw [Function.update_self]
            exact Nat.le_succ _
          · rw [Function.update_of_ne hj]) hj))
        (by rw [sum_update_succ]; omega)
      rw [BitVec.add_assoc, show (1 : JInt) + BitVec.ofNat 32 k = BitVec.ofNat 32 (k + 1) by
        rw [Nat.add_comm, BitVec.ofNat_add]
        rfl] at hnext
      exact (midway_round (hp i hi) (hi.trans_le (hmax i))).trans hnext

-- A thread that sleeps on what it has read undoes what the others write in between.
theorem midway_overlook {a : Fin threadCount} (hr : r a < increaseCount / threadCount) (hle : ∀ i, r i ≤ r' i)
    (hmax : ∀ i, r' i ≤ increaseCount / threadCount) (hsame : r' a = r a) :
    Reaches increaseCount (midway increaseCount r (fun _ => .reads) inc)
      (midway increaseCount (Function.update r' a (r' a + 1)) (fun _ => .reads) (inc + 1)) := by
  obtain ⟨k, hk⟩ := Nat.exists_eq_add_of_le (Finset.sum_le_sum fun i (_ : i ∈ Finset.univ) => hle i)
  have hread : Reaches increaseCount (midway increaseCount r (fun _ => .reads) inc) _ := midway_reads (i := a) rfl hr
  have hothers : Reaches increaseCount
      (midway increaseCount r (Function.update (fun _ => .reads) a (.writes inc)) inc) _ :=
    midway_rounds hle hmax
      (fun i hi => Function.update_of_ne (fun h => by rw [h, hsame] at hi; exact lt_irrefl _ hi) ..) hk
  have hwrite : Reaches increaseCount (midway increaseCount r' (Function.update (fun _ => .reads) a (.writes inc))
      (inc + BitVec.ofNat 32 k)) _ :=
    midway_writes (Function.update_self a (Position.writes inc) fun _ => Position.reads)
  rw [Function.update_idem, Function.update_eq_self_iff.mpr rfl] at hwrite
  exact (hread.trans hothers).trans hwrite

end Rounds

section Choices

variable {ι : Type} [Fintype ι] [DecidableEq ι]

-- Below a sum of bounds there is every sum of numbers that keep to the bounds.
theorem exists_sum_eq {cap : ι → Nat} {n : Nat} (h : n ≤ ∑ i, cap i) :
    ∃ r : ι → Nat, (∀ i, r i ≤ cap i) ∧ ∑ i, r i = n := by
  induction n with
  | zero => exact ⟨fun _ => 0, fun _ => Nat.zero_le _, by simp⟩
  | succ n ih =>
      obtain ⟨r, hle, hsum⟩ := ih (Nat.le_of_succ_le h)
      obtain ⟨i, -, hi⟩ := Finset.exists_lt_of_sum_lt (s := Finset.univ) (f := r) (g := cap) (by omega)
      refine ⟨Function.update r i (r i + 1), fun k => ?_, ?_⟩
      · by_cases hk : k = i
        · subst hk
          rwa [Function.update_self]
        · rw [Function.update_of_ne hk]
          exact hle k
      · rw [sum_eq_succ i (Function.update_self ..) fun _ hk => Function.update_of_ne hk .., hsum]

end Choices

section Printing

theorem reaches_started (n : Nat) (hn : n ≤ threadCount) :
    Reaches increaseCount (start threadCount increaseCount) { start threadCount increaseCount with started := n } := by
  induction n with
  | zero => exact .refl _
  | succ n ih =>
      refine (ih (Nat.le_of_succ_le hn)).trans (.of_step (e := .main) ?_)
      exact if_pos (Nat.lt_of_succ_le hn)

theorem reaches_midway :
    Reaches increaseCount (start threadCount increaseCount)
      (midway increaseCount (fun _ : Fin threadCount => 0) (fun _ => .reads) 0) := by
  have h : Reaches increaseCount (start threadCount increaseCount) _ := reaches_started threadCount le_rfl
  rwa [show { start threadCount increaseCount with started := threadCount } =
    midway increaseCount (fun _ : Fin threadCount => 0) (fun _ => .reads) 0 by simp [start, midway]] at h

-- Two threads that sleep on what they have read undo all that is written in between; what is left to do behind
-- their writes counts.
theorem reaches_two_add {a b : Fin threadCount} (hab : a ≠ b) {lost : Fin threadCount → Nat}
    (hlost : ∀ i, lost i ≤ increaseCount / threadCount) (ha : lost a < increaseCount / threadCount)
    (hb : lost b < increaseCount / threadCount) {k : Nat}
    (hk : threadCount * (increaseCount / threadCount) = ∑ i, lost i + 2 + k) :
    Reaches increaseCount (start threadCount increaseCount)
      (midway increaseCount (fun _ => increaseCount / threadCount) (fun _ => .reads) (2 + BitVec.ofNat 32 k)) := by
  have hafter : ∀ j ≤ increaseCount / threadCount, ∀ i, Function.update lost a j i ≤ increaseCount / threadCount :=
    fun j hj => (Function.forall_update_iff lost fun _ n => n ≤ _).mpr ⟨hj, fun i _ => hlost i⟩
  have hlast : ∀ i, Function.update (Function.update lost a (lost a + 1)) b (lost b + 1) i ≤
      increaseCount / threadCount :=
    (Function.forall_update_iff _ fun _ n => n ≤ _).mpr ⟨hb, fun i _ => hafter _ ha i⟩
  have hfirst : Reaches increaseCount (midway increaseCount (fun _ : Fin threadCount => 0) (fun _ => .reads) 0) _ :=
    midway_overlook (a := a) (Nat.zero_lt_of_lt ha) (fun _ => Nat.zero_le _) (hafter 0 (Nat.zero_le _))
      (Function.update_self ..)
  rw [Function.update_self, Function.update_idem] at hfirst
  have hsecond : Reaches increaseCount
      (midway increaseCount (Function.update lost a (0 + 1)) (fun _ => .reads) (0 + 1)) _ :=
    midway_overlook (a := b) (by rwa [Function.update_of_ne hab.symm])
      (update_le_update_iff.mpr ⟨by omega, fun i _ => le_rfl⟩) (hafter (lost a + 1) ha)
      (by rw [Function.update_of_ne hab.symm, Function.update_of_ne hab.symm])
  rw [Function.update_of_ne hab.symm] at hsecond
  have hsum : ∑ _i : Fin threadCount, increaseCount / threadCount =
      ∑ i, Function.update (Function.update lost a (lost a + 1)) b (lost b + 1) i + k := by
    have hupdate := sum_update_succ (Function.update lost a (lost a + 1)) b
    rw [Function.update_of_ne hab.symm, sum_update_succ] at hupdate
    rw [hupdate, Finset.sum_const, Finset.card_univ, Fintype.card_fin, smul_eq_mul, hk]
  have hrest : Reaches increaseCount (midway increaseCount
      (Function.update (Function.update lost a (lost a + 1)) b (lost b + 1)) (fun _ => .reads) (0 + 1 + 1)) _ :=
    midway_rounds hlast (fun _ => le_rfl) (fun _ _ => rfl) hsum
  exact ((reaches_midway.trans hfirst).trans hsecond).trans hrest

-- Enough of the rounds can be lost, two apart.
theorem exists_lost {a b : Fin threadCount} (hab : a ≠ b) {n k : Nat} (hn : 1 ≤ n) (hk : k + 2 ≤ threadCount * n) :
    ∃ lost : Fin threadCount → Nat, (∀ i, lost i ≤ n) ∧ lost a < n ∧ lost b < n ∧
      threadCount * n = ∑ i, lost i + 2 + k := by
  have hall : ∑ _i : Fin threadCount, n = threadCount * n := by simp
  have hfirst : ∑ _i : Fin threadCount, n = ∑ i, Function.update (fun _ => n) a (n - 1) i + 1 :=
    sum_eq_succ a (by rw [Function.update_self]; omega) fun i hi => by rw [Function.update_of_ne hi]
  have hboth : ∑ i, Function.update (fun _ => n) a (n - 1) i =
      ∑ i, Function.update (Function.update (fun _ => n) a (n - 1)) b (n - 1) i + 1 :=
    sum_eq_succ b (by rw [Function.update_self, Function.update_of_ne hab.symm]; omega)
      fun i hi => (Function.update_of_ne hi ..).symm
  have hcap : threadCount * n - 2 - k ≤ ∑ i, Function.update (Function.update (fun _ => n) a (n - 1)) b (n - 1) i := by
    omega
  obtain ⟨lost, hle, hsum⟩ := exists_sum_eq hcap
  refine ⟨lost, fun i => (hle i).trans ?_, ?_, ?_, by omega⟩
  · refine (Function.forall_update_iff _ fun _ m => m ≤ n).mpr ⟨Nat.sub_le _ _, fun i _ => ?_⟩ i
    exact (Function.forall_update_iff _ fun _ m => m ≤ n).mpr ⟨Nat.sub_le _ _, fun _ _ => le_rfl⟩ i
  · have ha := hle a
    rw [Function.update_of_ne hab, Function.update_self] at ha
    omega
  · have hb := hle b
    rw [Function.update_self] at hb
    omega

-- The values that can be printed are those from 2 up to the number of all increments.
theorem printed_iff (hmany : 2 ≤ threadCount) (hrounds : 2 * threadCount ≤ increaseCount)
    (hdvd : threadCount ∣ increaseCount) (hint : increaseCount < 2 ^ 31) (v : JInt) :
    (∃ events S, run increaseCount (start threadCount increaseCount) events = some S ∧ S.printed = some v) ↔
      2 ≤ v.toNat ∧ v.toNat ≤ increaseCount := by
  have hperThread : 2 ≤ increaseCount / threadCount := (Nat.le_div_iff_mul_le (by omega)).mpr hrounds
  have htotal : threadCount * (increaseCount / threadCount) = increaseCount := Nat.mul_div_cancel' hdvd
  constructor
  · rintro ⟨events, S, hrun, hv⟩
    exact printed_of_run hmany hperThread hint hrun hv
  · rintro ⟨htwo, hmax⟩
    have hab : (⟨0, by omega⟩ : Fin threadCount) ≠ ⟨1, by omega⟩ := by simp
    obtain ⟨lost, hlost, ha, hb, hk⟩ := exists_lost (k := v.toNat - 2) hab (by omega)
      (show v.toNat - 2 + 2 ≤ threadCount * (increaseCount / threadCount) by omega)
    obtain ⟨events, hrun⟩ := reaches_two_add hab hlost ha hb hk
    have hlatch : increaseCount - ∑ _i : Fin threadCount, increaseCount / threadCount = 0 := by
      rw [Finset.sum_const, Finset.card_univ, Fintype.card_fin, smul_eq_mul, htotal, Nat.sub_self]
    have hvalue : 2 + BitVec.ofNat 32 (v.toNat - 2) = v := by
      apply BitVec.eq_of_toNat_eq
      rw [BitVec.toNat_add, BitVec.toNat_ofNat, show (2 : JInt).toNat = 2 from rfl]
      omega
    rw [hvalue] at hrun
    have hprint :
        Reaches increaseCount (midway increaseCount (fun _ => increaseCount / threadCount) (fun _ => .reads) v) _ :=
      .of_step (step_prints (lt_irrefl threadCount) hlatch rfl)
    obtain ⟨events', hrun'⟩ := Reaches.trans ⟨events, hrun⟩ hprint
    exact ⟨events', _, hrun', rfl⟩

-- With the numbers of the program as little as 2 can be printed.
theorem printed_two :
    ∃ events S, run 10000000 (start 200 10000000) events = some S ∧ S.printed = some 2#32 :=
  (printed_iff (by decide) (by decide) (by decide) (by decide) 2#32).mpr (by decide)

end Printing

end RichardTest.AtomicTest
