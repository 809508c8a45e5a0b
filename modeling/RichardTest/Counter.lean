import Mathlib.Algebra.BigOperators.Group.Finset.Basic

namespace RichardTest.Counter

open Finset

variable {max : Nat}

-- A counter below `max`. One that would pass it has no value.
def count (max n : Nat) : Option Nat := if n < max then some n else none

theorem count_of_lt {n : Nat} (h : n < max) : count max n = some n := if_pos h

theorem count_of_le {n : Nat} (h : max ≤ n) : count max n = none := if_neg (Nat.not_lt.mpr h)

theorem count_eq_some_iff {n m : Nat} : count max n = some m ↔ n = m ∧ n < max := by
  unfold count
  by_cases h : n < max
  · rw [if_pos h, Option.some.injEq, and_iff_left h]
  · rw [if_neg h]
    exact iff_of_false (by simp) fun hm => h hm.2

-- Two stretches of counting are one. Once the first has no value, neither has the whole.
theorem count_bind_map {α : Type} {n k : Nat} {f : Nat → Option α} {g : Nat → α}
    (h : n < max → f n = (count max (n + k)).map g) : (count max n).bind f = (count max (n + k)).map g := by
  by_cases hn : n < max
  · rw [count_of_lt hn, Option.bind_some, h hn]
  · rw [count_of_le (Nat.not_lt.mp hn), count_of_le (Nat.le_add_right_of_le (Nat.not_lt.mp hn)), Option.bind_none,
      Option.map_none]

theorem count_bind {n k : Nat} {f : Nat → Option Nat} (h : n < max → f n = count max (n + k)) :
    (count max n).bind f = count max (n + k) := by
  have hid : ∀ o : Option Nat, o.map id = o := fun o => congrFun Option.map_id o
  rw [← hid (count max (n + k))]
  exact count_bind_map fun hn => by rw [hid, h hn]

section Loops

variable (body : Nat → Nat → Option Nat)

-- The rounds `i`, `i + 1`, … of a loop that changes a counter, with `n` rounds left.
def upLoop : Nat → Nat → Nat → Option Nat
  | 0, _, t => some t
  | n + 1, i, t => (body i t).bind (upLoop n (i + 1))

-- The rounds `n`, …, 2, 1.
def downLoop : Nat → Nat → Option Nat
  | 0, t => some t
  | n + 1, t => (body (n + 1) t).bind (downLoop n)

variable {body} {g : Nat → Nat}

theorem upLoop_count (n i : Nat) (h : ∀ k < n, ∀ t < max, body (i + k) t = count max (t + g (i + k))) {t : Nat}
    (ht : t < max) : upLoop body n i t = count max (t + ∑ k ∈ range n, g (i + k)) := by
  induction n generalizing i t with
  | zero =>
      rw [range_zero, sum_empty, Nat.add_zero, count_of_lt ht]
      rfl
  | succ n ih =>
      have hfirst := h 0 (Nat.succ_pos n) t ht
      rw [upLoop, sum_range_succ', ← Nat.add_assoc, Nat.add_right_comm]
      rw [Nat.add_zero] at hfirst ⊢
      rw [hfirst]
      apply count_bind
      intro hlt
      have hrest : ∀ k, g (i + (k + 1)) = g (i + 1 + k) := fun k => by rw [Nat.add_right_comm, Nat.add_assoc]
      simp only [hrest]
      apply ih (i + 1) ?_ hlt
      intro k hk t' ht'
      have := h (k + 1) (by omega) t' ht'
      rwa [← Nat.add_assoc, Nat.add_right_comm] at this

theorem downLoop_count (n : Nat) (h : ∀ k < n, ∀ t < max, body (k + 1) t = count max (t + g (k + 1))) {t : Nat}
    (ht : t < max) : downLoop body n t = count max (t + ∑ k ∈ range n, g (k + 1)) := by
  induction n generalizing t with
  | zero =>
      rw [range_zero, sum_empty, Nat.add_zero, count_of_lt ht]
      rfl
  | succ n ih =>
      rw [downLoop, sum_range_succ, h n (Nat.lt_succ_self n) t ht, Nat.add_comm (∑ k ∈ range n, _), ← Nat.add_assoc]
      apply count_bind
      intro hlt
      exact ih (fun k hk => h k (by omega)) hlt

-- A loop whose rounds leave the counter as it is.
theorem upLoop_same (n i : Nat) (h : ∀ k < n, ∀ t, body (i + k) t = some t) (t : Nat) :
    upLoop body n i t = some t := by
  induction n generalizing i with
  | zero => rfl
  | succ n ih =>
      rw [upLoop, ← Nat.add_zero i, h 0 (Nat.succ_pos n), Option.bind_some, Nat.add_zero]
      apply ih
      intro k hk t'
      rw [Nat.add_right_comm, Nat.add_assoc]
      exact h (k + 1) (by omega) t'

theorem downLoop_same (n : Nat) (h : ∀ k < n, ∀ t, body (k + 1) t = some t) (t : Nat) :
    downLoop body n t = some t := by
  induction n with
  | zero => rfl
  | succ n ih =>
      rw [downLoop, h n (Nat.lt_succ_self n), Option.bind_some]
      exact ih fun k hk => h k (by omega)

-- A loop with a round that has no result.
theorem upLoop_none {n i k : Nat} (hk : k < n) (h : ∀ t, body (i + k) t = none) (t : Nat) :
    upLoop body n i t = none := by
  induction n generalizing i k t with
  | zero => exact absurd hk (Nat.not_lt_zero k)
  | succ n ih =>
      rw [upLoop]
      cases k with
      | zero => rw [← Nat.add_zero i, h t, Option.bind_none]
      | succ k =>
          have hrest : ∀ t, body (i + 1 + k) t = none := fun t => by
            rw [Nat.add_right_comm, Nat.add_assoc]
            exact h t
          cases body i t with
          | none => rfl
          | some t' => exact ih (Nat.lt_of_succ_lt_succ hk) hrest t'

end Loops

end RichardTest.Counter
