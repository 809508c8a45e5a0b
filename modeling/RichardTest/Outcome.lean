import Mathlib.Control.Monad.Basic

namespace RichardTest.Outcome

-- Judgments about programs that thread a state and may fault.
variable {σ α β : Type}

-- From every state the program returns, and what it returns satisfies `Q`.
def Yields (m : StateT σ Option α) (Q : α → Prop) : Prop :=
  ∀ s, ∃ a s', m s = some (a, s') ∧ Q a

-- Whatever the program returns satisfies `Q`; it may also fault.
def Ensures (m : StateT σ Option α) (Q : α → Prop) : Prop :=
  ∀ s a s', m s = some (a, s') → Q a

-- From every state the program faults.
def Fails (m : StateT σ Option α) : Prop :=
  ∀ s, m s = none

theorem bind_run (m : StateT σ Option α) (f : α → StateT σ Option β) (s : σ) :
    (m >>= f) s = (m s).bind fun p => f p.1 p.2 :=
  rfl

theorem yields_pure {a : α} {Q : α → Prop} (h : Q a) :
    Yields (pure a : StateT σ Option α) Q :=
  fun s => ⟨a, s, rfl, h⟩

theorem Yields.mono {m : StateT σ Option α} {P Q : α → Prop} (h : Yields m P)
    (hPQ : ∀ a, P a → Q a) : Yields m Q := by
  intro s
  obtain ⟨a, s', hm, hP⟩ := h s
  exact ⟨a, s', hm, hPQ a hP⟩

theorem Yields.bind {m : StateT σ Option α} {f : α → StateT σ Option β}
    {P : α → Prop} {Q : β → Prop} (hm : Yields m P) (hf : ∀ a, P a → Yields (f a) Q) :
    Yields (m >>= f) Q := by
  intro s
  obtain ⟨a, s', hrun, hP⟩ := hm s
  obtain ⟨b, s'', hrun', hQ⟩ := hf a hP s'
  exact ⟨b, s'', by rw [bind_run, hrun]; exact hrun', hQ⟩

theorem Yields.ensures {m : StateT σ Option α} {Q : α → Prop} (h : Yields m Q) : Ensures m Q := by
  intro s a s' hrun
  obtain ⟨b, t, hrun', hQ⟩ := h s
  rw [hrun] at hrun'
  cases hrun'
  exact hQ

theorem Ensures.mono {m : StateT σ Option α} {P Q : α → Prop} (h : Ensures m P)
    (hPQ : ∀ a, P a → Q a) : Ensures m Q :=
  fun s a s' hrun => hPQ a (h s a s' hrun)

theorem Ensures.bind {m : StateT σ Option α} {f : α → StateT σ Option β}
    {P : α → Prop} {Q : β → Prop} (hm : Ensures m P) (hf : ∀ a, P a → Ensures (f a) Q) :
    Ensures (m >>= f) Q := by
  intro s b t hrun
  rw [bind_run, Option.bind_eq_some_iff] at hrun
  obtain ⟨⟨a, s'⟩, hm', hf'⟩ := hrun
  exact hf a (hm s a s' hm') s' b t hf'

theorem Fails.ensures {m : StateT σ Option α} {Q : α → Prop} (h : Fails m) : Ensures m Q := by
  intro s a s' hrun
  rw [h s] at hrun
  cases hrun

theorem Fails.bind {m : StateT σ Option α} (f : α → StateT σ Option β) (hm : Fails m) :
    Fails (m >>= f) := by
  intro s
  rw [bind_run, hm s]
  rfl

theorem Yields.bind_fails {m : StateT σ Option α} {f : α → StateT σ Option β} {P : α → Prop}
    (hm : Yields m P) (hf : ∀ a, P a → Fails (f a)) : Fails (m >>= f) := by
  intro s
  obtain ⟨a, s', hrun, hP⟩ := hm s
  rw [bind_run, hrun]
  exact hf a hP s'

-- A program that either always returns or always faults returns exactly when it yields.
theorem isSome_iff_of_dichotomy {m : StateT σ Option α} {Q : α → Prop} {c : Prop}
    (hyes : c → Yields m Q) (hno : ¬c → Fails m) (s : σ) : (m s).isSome ↔ c := by
  constructor
  · intro hs
    by_contra hc
    rw [hno hc s] at hs
    cases hs
  · intro hc
    obtain ⟨a, s', hrun, -⟩ := hyes hc s
    rw [hrun]
    rfl

-- A program that always returns returns what all its results satisfy.
theorem Yields.and_ensures {m : StateT σ Option α} {P Q : α → Prop} (h : Yields m P)
    (h' : Ensures m Q) : Yields m fun a => P a ∧ Q a := by
  intro s
  obtain ⟨a, s', hrun, hP⟩ := h s
  exact ⟨a, s', hrun, hP, h' s a s' hrun⟩

section Runs

variable {ι : Type} (step : ι → α → StateT σ Option α) (ok : α → ι → Prop) (start : α)

-- What is reached from `start` by steps that `ok` admits and that return, each from any state.
inductive Reach : α → Prop where
  | start : Reach start
  | next {a a' : α} {i : ι} {s s' : σ} :
      Reach a → ok a i → step i a s = some (a', s') → Reach a'

variable {step ok start}

theorem Reach.invariant {I : α → Prop} {a : α} (h : Reach step ok start a) (hstart : I start)
    (hstep : ∀ a i, I a → ok a i → Ensures (step i a) I) : I a := by
  induction h with
  | start => exact hstart
  | next _ hok hrun ih => exact hstep _ _ ih hok _ _ _ hrun

theorem Reach.next_run {a : α} (h : Reach step ok start a) (i : ι) (a' : α) (hok : ok a i) (s : σ)
    (hrun : (step i a s).map Prod.fst = some a') : Reach step ok start a' := by
  obtain ⟨⟨b, s'⟩, hrun', rfl⟩ := Option.map_eq_some_iff.mp hrun
  exact h.next hok hrun'

end Runs

section Steps

variable {ι : Type} (step : α → ι → α) (ok : α → ι → Prop)

-- Every step of the run is one that `ok` admits in the state it is taken in.
def Along : α → List ι → Prop
  | _, [] => True
  | a, i :: steps => ok a i ∧ Along (step a i) steps

variable {step ok}

-- Where `ok` says exactly which steps keep `I`, it says of a whole run whether `I` holds in all the
-- states it passes through. `J` is what every step keeps.
theorem forall_scanl_iff_along {I J : α → Prop} (hJ : ∀ a i, J a → J (step a i))
    (hI : ∀ a i, J a → I a → (I (step a i) ↔ ok a i)) (steps : List ι) :
    ∀ a, J a → I a → ((∀ b ∈ steps.scanl step a, I b) ↔ Along step ok a steps) := by
  induction steps with
  | nil =>
      intro a _ ha
      simp only [List.scanl_nil, List.mem_singleton, forall_eq, Along, ha]
  | cons i steps ih =>
      intro a hja ha
      rw [List.scanl_cons, Along, List.forall_mem_cons]
      constructor
      · rintro ⟨-, hrest⟩
        have hnext : I (step a i) := hrest _ (by cases steps <;> simp [List.scanl_cons])
        exact ⟨(hI a i hja ha).mp hnext, (ih _ (hJ a i hja) hnext).mp hrest⟩
      · rintro ⟨hok, hrest⟩
        have hnext := (hI a i hja ha).mpr hok
        exact ⟨ha, (ih _ (hJ a i hja) hnext).mpr hrest⟩

-- Steps that are not always possible.
theorem foldlM_invariant {step : α → ι → Option α} {I : α → Prop}
    (hstep : ∀ a i a', I a → step a i = some a' → I a') (steps : List ι) :
    ∀ a a', I a → steps.foldlM step a = some a' → I a' := by
  induction steps with
  | nil =>
      intro a a' ha hrun
      rw [List.foldlM_nil] at hrun
      cases hrun
      exact ha
  | cons i steps ih =>
      intro a a' ha hrun
      rw [List.foldlM_cons] at hrun
      obtain ⟨b, hb, hrest⟩ := Option.bind_eq_some_iff.mp hrun
      exact ih b a' (hstep a i b ha hb) hrest

end Steps

end RichardTest.Outcome
