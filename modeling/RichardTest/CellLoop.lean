import Mathlib.Data.List.Basic

namespace RichardTest.CellLoop

variable {α : Type} (body : Nat → α → Option α)

-- A loop that rewrites the cells `i`, `i + 1`, … of an array, with `n` rounds left. An access outside of the array
-- is a failure.
def rewriteCells : Nat → Nat → List α → Option (List α)
  | 0, _, l => some l
  | n + 1, i, l => do
      let x ← l[i]?
      let x ← body i x
      rewriteCells n (i + 1) (l.set i x)

variable {body} {g : Nat → α}

theorem rewriteCells_append (done rest : List α)
    (h : ∀ k < rest.length, ∀ x ∈ rest, body (done.length + k) x = some (g (done.length + k))) :
    rewriteCells body rest.length done.length (done ++ rest) =
      some (done ++ (List.range rest.length).map fun k => g (done.length + k)) := by
  induction rest generalizing done with
  | nil => rfl
  | cons x rest ih =>
      have hx := h 0 (Nat.succ_pos _) x List.mem_cons_self
      have hrest := ih (done ++ [g done.length]) fun k hk y hy => by
        rw [List.length_append, List.length_singleton, Nat.add_assoc, Nat.add_comm 1]
        exact h (k + 1) (Nat.succ_lt_succ hk) y (List.mem_cons_of_mem x hy)
      rw [List.length_append, List.length_singleton, List.append_assoc, List.singleton_append] at hrest
      rw [Nat.add_zero] at hx
      have hread : (done ++ x :: rest)[done.length]? = some x := by
        rw [List.getElem?_append_right (Nat.le_refl _), Nat.sub_self, List.getElem?_cons_zero]
      have hwrite : (done ++ x :: rest).set done.length (g done.length) = done ++ g done.length :: rest := by
        rw [List.set_append_right _ _ (Nat.le_refl _), Nat.sub_self, List.set_cons_zero]
      have hindex : (fun k => g (done.length + 1 + k)) = (fun k => g (done.length + k)) ∘ Nat.succ := by
        funext k
        rw [Function.comp_apply, Nat.succ_eq_add_one, Nat.add_assoc, Nat.add_comm 1]
      rw [List.length_cons, rewriteCells, hread, Option.bind_eq_bind, Option.bind_some, hx, Option.bind_some,
        hwrite, hrest, List.range_succ_eq_map, List.map_cons, List.map_map, hindex, List.append_assoc,
        List.singleton_append]
      rfl

-- A loop over the whole array whose rounds do not ask for what was there.
theorem rewriteCells_eq {l : List α} (h : ∀ k < l.length, ∀ x ∈ l, body k x = some (g k)) :
    rewriteCells body l.length 0 l = some ((List.range l.length).map g) := by
  have hround : ∀ k < l.length, ∀ x ∈ l,
      body (([] : List α).length + k) x = some (g (([] : List α).length + k)) := by
    intro k hk x hx
    rw [List.length_nil, Nat.zero_add]
    exact h k hk x hx
  have hall := rewriteCells_append [] l hround
  simp only [List.length_nil, Nat.zero_add] at hall
  exact hall

end RichardTest.CellLoop
