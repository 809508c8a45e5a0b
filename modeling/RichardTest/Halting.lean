import Mathlib.Algebra.Ring.Nat

namespace RichardTest.Halting

variable {σ τ : Type} {step : σ → Option σ}

-- A run of `n` steps from one state to another that has none.
inductive Halts (step : σ → Option σ) : Nat → σ → σ → Prop where
  | here {s : σ} : step s = none → Halts step 0 s s
  | next {n : Nat} {s s' t : σ} : step s = some s' → Halts step n s' t → Halts step (n + 1) s t

variable {n : Nat} {s t : σ}

theorem Halts.step_eq_none (h : Halts step n s t) : step t = none := by
  induction h with
  | here hnone => exact hnone
  | next _ _ ih => exact ih

-- What no step changes, the run does not change.
theorem Halts.same {β : Type} {f : σ → β} (hf : ∀ s s', step s = some s' → f s' = f s)
    (h : Halts step n s t) : f t = f s := by
  induction h with
  | here => rfl
  | next hstep _ ih => exact ih.trans (hf _ _ hstep)

-- A machine that halves a measure with every step has at most as many as the measure has bits.
theorem exists_halts_of_halving {measure : σ → Nat}
    (hhalf : ∀ s s', step s = some s' → 2 * measure s' < measure s) (k : Nat) (s : σ) (hs : measure s < 2 ^ k) :
    ∃ n ≤ k, ∃ t, Halts step n s t := by
  induction k generalizing s with
  | zero =>
      cases hstep : step s with
      | none => exact ⟨0, Nat.le_refl 0, s, .here hstep⟩
      | some s' =>
          have := hhalf s s' hstep
          omega
  | succ k ih =>
      cases hstep : step s with
      | none => exact ⟨0, Nat.zero_le _, s, .here hstep⟩
      | some s' =>
          have := hhalf s s' hstep
          obtain ⟨n, hn, t, hrun⟩ := ih s' (by omega)
          exact ⟨n + 1, Nat.succ_le_succ hn, t, .next hstep hrun⟩

-- A machine that does step by step what another one does halts with it, after as many steps.
theorem Halts.of_simulation {step' : τ → Option τ} {I : σ → Prop} {φ : σ → τ}
    (hsim : ∀ s, I s → (step s).map φ = step' (φ s)) (hI : ∀ s s', I s → step s = some s' → I s') {u : τ}
    (hs : I s) (h : Halts step' n (φ s) u) : ∃ t, Halts step n s t ∧ I t ∧ φ t = u := by
  generalize hx : φ s = x at h
  induction h generalizing s with
  | here hnone =>
      rw [← hx, ← hsim s hs, Option.map_eq_none_iff] at hnone
      exact ⟨s, .here hnone, hs, hx⟩
  | next hstep _ ih =>
      rw [← hx, ← hsim s hs, Option.map_eq_some_iff] at hstep
      obtain ⟨s', hs', hφ⟩ := hstep
      obtain ⟨t, hrun, ht, hu⟩ := ih (hI s s' hs hs') hφ
      exact ⟨t, .next hs' hrun, ht, hu⟩

end RichardTest.Halting
