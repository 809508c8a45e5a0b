import RichardTest.ExchangeSort
import RichardTest.BigNumC
import Mathlib.Order.Basic

namespace RichardTest.ExchangeSort

open BigNumC (int32)

section Definitions

-- The loop of `Java_richard_test_jni_TestJNI_sort`.
def sort (arr : List Int) : Option (List Int) :=
  (outerLoop (fun x y => x > y) id (· + 1) arr.length arr.length 0 (arr, ())).map Prod.fst

-- The loop of `popup`: the array and the counter `round` of the file. It is only printed and may wrap, as it does on
-- the machine: no comparison and no index depends on it.
def popup (a : List Int) (round : Int) : Option (List Int × Int) :=
  outerLoop (fun x y => x < y) (fun round => int32 (round + 1)) id a.length a.length 0 (a, round)

end Definitions

section Sorting

theorem sort_perm_pairwise (arr : List Int) :
    ∃ b, sort arr = some b ∧ b.Perm arr ∧ b.Pairwise (· ≤ ·) := by
  have hout : ∀ x y : Int, decide (x > y) = true ↔ ¬x ≤ y := fun x y => by
    rw [decide_eq_true_eq, gt_iff_lt, Int.not_le]
  obtain ⟨b, round, hloop, hperm, hsorted⟩ := outerLoop_sorts id hout (fun i => Or.inr rfl) [] arr
    (Nat.zero_add _).symm List.Pairwise.nil (fun x hx => absurd hx List.not_mem_nil) ()
  refine ⟨b, ?_, hperm, hsorted⟩
  rw [sort]
  rw [List.length_nil, List.nil_append] at hloop
  rw [hloop, Option.map_some]

theorem popup_perm_pairwise (a : List Int) (round : Int) :
    ∃ b round', popup a round = some (b, round') ∧ b.Perm a ∧ b.Pairwise (· ≥ ·) := by
  have hout : ∀ x y : Int, decide (x < y) = true ↔ ¬x ≥ y := fun x y => by
    rw [decide_eq_true_eq, ge_iff_le, Int.not_le]
  exact outerLoop_sorts (fun round => int32 (round + 1)) hout (fun i => Or.inl rfl) [] a (Nat.zero_add _).symm
    List.Pairwise.nil (fun x hx => absurd hx List.not_mem_nil) round

-- The two exchange sorts of the repository, one for each order.
theorem sort_popup_sorts (a : List Int) :
    (∃ b, sort a = some b ∧ b.Perm a ∧ b.Pairwise (· ≤ ·)) ∧
      ∀ round, ∃ b round', popup a round = some (b, round') ∧ b.Perm a ∧ b.Pairwise (· ≥ ·) :=
  ⟨sort_perm_pairwise a, popup_perm_pairwise a⟩

example : sort [3, 1, 2, 1] = some [1, 1, 2, 3] := by decide

end Sorting

end RichardTest.ExchangeSort
