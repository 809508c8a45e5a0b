import Mathlib.Data.List.Basic
import Mathlib.Order.Defs.Unbundled

namespace RichardTest.ExchangeSort

section Loops

variable {α ρ : Type} (out : α → α → Bool) (tick : ρ → ρ)

-- The inner loop of an exchange sort for the cell `i`, from `j` with `n` rounds left: two cells that are out of
-- order are exchanged, and every round ticks. An access outside of the array is a failure.
def innerLoop (i : Nat) : Nat → Nat → List α × ρ → Option (List α × ρ)
  | 0, _, s => some s
  | n + 1, j, (a, round) => do
      let x ← a[i]?
      let y ← a[j]?
      let a := if out x y then (a.set i y).set j x else a
      innerLoop i n (j + 1) (a, tick round)

-- The outer loop from `i` with `n` rounds left. `first i` is where the inner loop starts.
def outerLoop (first : Nat → Nat) (length : Nat) : Nat → Nat → List α × ρ → Option (List α × ρ)
  | 0, _, s => some s
  | n + 1, i, s => do
      let s ← innerLoop out tick i (length - first i) (first i) s
      outerLoop first length n (i + 1) s

end Loops

section Cells

variable {α : Type} (pre : List α) (x y : α) (l : List α)

theorem getElem?_cell : (pre ++ x :: l)[pre.length]? = some x := by
  rw [List.getElem?_append_right (Nat.le_refl _), Nat.sub_self, List.getElem?_cons_zero]

theorem set_cell : (pre ++ x :: l).set pre.length y = pre ++ y :: l := by
  rw [List.set_append_right _ _ (Nat.le_refl _), Nat.sub_self, List.set_cons_zero]

end Cells

section Sorting

variable {α ρ : Type} {out : α → α → Bool} (tick : ρ → ρ) {r : α → α → Prop}

-- One exchange round: the cell `i` and a cell `j` behind the cells `seen`.
theorem innerLoop_succ (pre : List α) (x : α) (seen : List α) (y : α) (rest : List α) (n : Nat) (round : ρ) :
    innerLoop out tick pre.length (n + 1) (pre.length + 1 + seen.length) (pre ++ x :: (seen ++ y :: rest), round) =
      innerLoop out tick pre.length n (pre.length + 1 + (seen.length + 1))
        (if out x y then pre ++ y :: (seen ++ x :: rest) else pre ++ x :: (seen ++ y :: rest), tick round) := by
  have hj : ∀ z : α, pre.length + 1 + seen.length = (pre ++ z :: seen).length := fun z => by
    rw [List.length_append, List.length_cons, Nat.add_assoc, Nat.add_comm 1]
  have hsplit : ∀ z (l : List α), pre ++ z :: (seen ++ l) = (pre ++ z :: seen) ++ l := fun z l => by
    rw [List.append_assoc, List.cons_append]
  have hread : (pre ++ x :: (seen ++ y :: rest))[pre.length + 1 + seen.length]? = some y := by
    rw [hj x, hsplit, getElem?_cell]
  have hwrite : (pre ++ y :: (seen ++ y :: rest)).set (pre.length + 1 + seen.length) x =
      pre ++ y :: (seen ++ x :: rest) := by
    rw [hj y, hsplit, set_cell, ← hsplit]
  rw [innerLoop, getElem?_cell, hread, Option.bind_eq_bind, Option.bind_some, Option.bind_some, set_cell, hwrite,
    Nat.add_assoc _ seen.length]

variable [Std.Total r]

-- The inner loop from the cell behind `i` on, or from the cell `i` itself, which is not out of order with itself.
theorem innerLoop_first (hout : ∀ x y, out x y = true ↔ ¬r x y) {first length : Nat} (pre : List α) (x : α)
    (rest : List α) (hfirst : first = pre.length ∨ first = pre.length + 1)
    (hlength : length = pre.length + (rest.length + 1)) (round : ρ) :
    ∃ round', innerLoop out tick pre.length (length - first) first (pre ++ x :: rest, round) =
      innerLoop out tick pre.length rest.length (pre.length + 1) (pre ++ x :: rest, round') := by
  subst hlength
  obtain rfl | rfl := hfirst
  · have hxx : ¬out x x = true := fun h => (hout x x).mp h ((Std.Total.total x x).elim id id)
    refine ⟨tick round, ?_⟩
    rw [Nat.add_sub_cancel_left, innerLoop, getElem?_cell, Option.bind_eq_bind, Option.bind_some, Option.bind_some,
      if_neg hxx]
  · refine ⟨round, ?_⟩
    rw [Nat.add_comm rest.length 1, ← Nat.add_assoc, Nat.add_sub_cancel_left]

variable [IsTrans α r]

-- After the round for `j` the cell `i` comes before every cell it has been compared with.
theorem innerLoop_sorts (hout : ∀ x y, out x y = true ↔ ¬r x y) (pre : List α) (rest : List α) (x : α)
    (seen : List α) (hseen : ∀ y ∈ seen, r x y) (round : ρ) :
    ∃ z l round', innerLoop out tick pre.length rest.length (pre.length + 1 + seen.length)
        (pre ++ x :: (seen ++ rest), round) = some (pre ++ z :: l, round') ∧
      (z :: l).Perm (x :: (seen ++ rest)) ∧ ∀ y ∈ l, r z y := by
  induction rest generalizing x seen round with
  | nil =>
      refine ⟨x, seen, round, ?_, ?_, hseen⟩
      · rw [List.append_nil]
        rfl
      · rw [List.append_nil]
  | cons y rest ih =>
      rw [List.length_cons, innerLoop_succ]
      by_cases hxy : r x y
      · rw [if_neg fun h => (hout x y).mp h hxy]
        have hseen' : ∀ w ∈ seen ++ [y], r x w :=
          List.forall_mem_append.mpr ⟨hseen, List.forall_mem_singleton.mpr hxy⟩
        obtain ⟨z, l, round', hloop, hperm, hz⟩ := ih x (seen ++ [y]) hseen' (tick round)
        rw [List.length_append, List.length_singleton, List.append_assoc, List.singleton_append] at hloop
        rw [List.append_assoc, List.singleton_append] at hperm
        exact ⟨z, l, round', hloop, hperm, hz⟩
      · rw [if_pos ((hout x y).mpr hxy)]
        have hyx : r y x := (Std.Total.total x y).resolve_left hxy
        have hseen' : ∀ w ∈ seen ++ [x], r y w :=
          List.forall_mem_append.mpr
            ⟨fun w hw => IsTrans.trans _ _ _ hyx (hseen w hw), List.forall_mem_singleton.mpr hyx⟩
        obtain ⟨z, l, round', hloop, hperm, hz⟩ := ih y (seen ++ [x]) hseen' (tick round)
        rw [List.length_append, List.length_singleton, List.append_assoc, List.singleton_append] at hloop
        rw [List.append_assoc, List.singleton_append] at hperm
        refine ⟨z, l, round', hloop, hperm.trans ?_, hz⟩
        calc
          (y :: (seen ++ x :: rest)).Perm (y :: x :: (seen ++ rest)) := List.perm_middle.cons y
          _ |>.Perm (x :: y :: (seen ++ rest)) := List.Perm.swap x y _
          _ |>.Perm (x :: (seen ++ y :: rest)) := (List.perm_middle.symm).cons x

-- The cells before `i` are in order and come before all the others.
theorem outerLoop_sorts (hout : ∀ x y, out x y = true ↔ ¬r x y) {first : Nat → Nat}
    (hfirst : ∀ i, first i = i ∨ first i = i + 1) {length : Nat} (pre rest : List α)
    (hlength : length = pre.length + rest.length) (hsorted : pre.Pairwise r)
    (hbefore : ∀ x ∈ pre, ∀ y ∈ rest, r x y) (round : ρ) :
    ∃ b round', outerLoop out tick first length rest.length pre.length (pre ++ rest, round) = some (b, round') ∧
      b.Perm (pre ++ rest) ∧ b.Pairwise r := by
  induction hn : rest.length generalizing pre rest round with
  | zero =>
      rw [List.length_eq_zero_iff.mp hn, List.append_nil]
      exact ⟨pre, round, rfl, List.Perm.refl pre, hsorted⟩
  | succ n ih =>
      obtain ⟨x, rest, rfl⟩ := List.exists_cons_of_length_eq_add_one hn
      rw [List.length_cons] at hn hlength
      obtain ⟨round₁, hstart⟩ := innerLoop_first tick hout pre x rest (hfirst pre.length) hlength round
      obtain ⟨z, l, round₂, hinner, hperm, hz⟩ :=
        innerLoop_sorts tick hout pre rest x [] (fun y hy => absurd hy List.not_mem_nil) round₁
      have hlen : l.length = rest.length := Nat.succ.inj hperm.length_eq
      have hmem : ∀ y ∈ z :: l, y ∈ x :: rest := fun y hy => hperm.mem_iff.mp hy
      have hsorted' : (pre ++ [z]).Pairwise r := by
        refine List.pairwise_append.mpr ⟨hsorted, List.pairwise_singleton r z, ?_⟩
        intro w hw y hy
        rw [List.mem_singleton.mp hy]
        exact hbefore w hw z (hmem z List.mem_cons_self)
      have hbefore' : ∀ w ∈ pre ++ [z], ∀ y ∈ l, r w y :=
        List.forall_mem_append.mpr
          ⟨fun w hw y hy => hbefore w hw y (hmem y (List.mem_cons_of_mem z hy)), List.forall_mem_singleton.mpr hz⟩
      have hlength' : length = (pre ++ [z]).length + l.length := by
        rw [List.length_append, List.length_singleton, hlen, hlength]
        omega
      obtain ⟨b, round', hloop, hb, hsort⟩ := ih (pre ++ [z]) l hlength' hsorted' hbefore' round₂ (by omega)
      rw [List.length_append, List.length_singleton, List.append_assoc, List.singleton_append] at hloop
      rw [List.append_assoc, List.singleton_append] at hb
      refine ⟨b, round', ?_, hb.trans (hperm.append_left pre), hsort⟩
      rw [outerLoop, hstart]
      rw [List.length_nil, Nat.add_zero, List.nil_append] at hinner
      rw [hinner, Option.bind_eq_bind, Option.bind_some, hloop]

end Sorting

end RichardTest.ExchangeSort
