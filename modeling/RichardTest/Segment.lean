import Mathlib.Data.List.Basic
import Mathlib.Order.Basic

namespace RichardTest.Segment

-- Lists that are rearranged within a range of positions.

variable {α : Type*} {lo mid hi : Nat} {a b c : List α}

-- The elements at the positions from `lo` on and below `hi`.
def slice (a : List α) (lo hi : Nat) : List α := (a.drop lo).take (hi - lo)

theorem take_slice_drop (a : List α) (h : lo ≤ hi) : a.take lo ++ (slice a lo hi ++ a.drop hi) = a := by
  rw [slice, show a.drop hi = (a.drop lo).drop (hi - lo) by rw [List.drop_drop, Nat.add_sub_cancel' h],
    List.take_append_drop, List.take_append_drop]

theorem getElem?_slice (a : List α) (lo hi k : Nat) :
    (slice a lo hi)[k]? = if k < hi - lo then a[lo + k]? else none := by
  rw [slice, List.getElem?_take, List.getElem?_drop]

theorem slice_append (a : List α) (h : lo ≤ mid) (h' : mid ≤ hi) :
    slice a lo hi = slice a lo mid ++ slice a mid hi := by
  rw [slice, show hi - lo = (mid - lo) + (hi - mid) by omega, List.take_add, List.drop_drop,
    Nat.add_sub_cancel' h, slice, slice]

theorem slice_cons {x : α} (hx : a[lo]? = some x) (h : lo < hi) : slice a lo hi = x :: slice a (lo + 1) hi := by
  obtain ⟨hlt, rfl⟩ := List.getElem?_eq_some_iff.mp hx
  rw [slice, show hi - lo = hi - (lo + 1) + 1 by omega, List.drop_eq_getElem_cons hlt, List.take_succ_cons, slice]

theorem mem_slice_iff {x : α} : x ∈ slice a lo hi ↔ ∃ k, lo ≤ k ∧ k < hi ∧ a[k]? = some x := by
  rw [List.mem_iff_getElem?]
  constructor
  · rintro ⟨k, hk⟩
    rw [getElem?_slice] at hk
    split_ifs at hk with hlt
    exact ⟨lo + k, by omega, by omega, hk⟩
  · rintro ⟨k, hlo, hhi, hk⟩
    refine ⟨k - lo, ?_⟩
    rw [getElem?_slice, if_pos (by omega), Nat.add_sub_cancel' hlo]
    exact hk

-- `b` has the elements of `a`, and differs from it only within the range.
structure Rearranged (lo hi : Nat) (a b : List α) : Prop where
  perm : b.Perm a
  outside : ∀ k, k < lo ∨ hi ≤ k → b[k]? = a[k]?

namespace Rearranged

theorem refl (lo hi : Nat) (a : List α) : Rearranged lo hi a a := ⟨.refl a, fun _ _ => rfl⟩

theorem trans (h : Rearranged lo hi a b) (h' : Rearranged lo hi b c) : Rearranged lo hi a c where
  perm := h'.perm.trans h.perm
  outside k hk := (h'.outside k hk).trans (h.outside k hk)

theorem widen {lo' hi' : Nat} (h : Rearranged lo hi a b) (hlo : lo' ≤ lo) (hhi : hi ≤ hi') :
    Rearranged lo' hi' a b where
  perm := h.perm
  outside k hk := h.outside k (by omega)

theorem length_eq (h : Rearranged lo hi a b) : b.length = a.length := h.perm.length_eq

theorem take_eq (h : Rearranged lo hi a b) : b.take lo = a.take lo := by
  apply List.ext_getElem?
  intro k
  rw [List.getElem?_take, List.getElem?_take]
  split_ifs with hk
  · exact h.outside k (Or.inl hk)
  · rfl

theorem drop_eq (h : Rearranged lo hi a b) : b.drop hi = a.drop hi := by
  apply List.ext_getElem?
  intro k
  rw [List.getElem?_drop, List.getElem?_drop]
  exact h.outside (hi + k) (Or.inr (Nat.le_add_right hi k))

-- What is the same on both sides cancels.
theorem slice_perm (h : Rearranged lo hi a b) (hle : lo ≤ hi) : (slice b lo hi).Perm (slice a lo hi) := by
  have hperm := h.perm
  rw [← take_slice_drop a hle, ← take_slice_drop b hle, h.take_eq, h.drop_eq] at hperm
  exact (List.perm_append_right_iff _).mp ((List.perm_append_left_iff _).mp hperm)

end Rearranged

-- All elements within the range have the property.
def AllIn (P : α → Prop) (lo hi : Nat) (a : List α) : Prop := ∀ k x, lo ≤ k → k < hi → a[k]? = some x → P x

section AllIn

variable {P : α → Prop}

theorem AllIn.of_le (P : α → Prop) (a : List α) (h : hi ≤ lo) : AllIn P lo hi a :=
  fun _ _ hlo hhi _ => absurd (Nat.lt_of_le_of_lt hlo hhi) (Nat.not_lt.mpr h)

theorem AllIn.append (h : AllIn P lo mid a) (h' : AllIn P mid hi a) : AllIn P lo hi a := by
  intro k x hlo hhi hk
  by_cases hmid : k < mid
  · exact h k x hlo hmid hk
  · exact h' k x (Nat.le_of_not_lt hmid) hhi hk

theorem AllIn.single {x : α} (hx : a[lo]? = some x) (hP : P x) : AllIn P lo (lo + 1) a := by
  intro k y hlo hhi hk
  rw [show k = lo by omega, hx, Option.some.injEq] at hk
  exact hk ▸ hP

-- The elements of the range are all that counts.
theorem AllIn.congr (h : AllIn P lo hi a) (heq : ∀ k, lo ≤ k → k < hi → b[k]? = a[k]?) : AllIn P lo hi b :=
  fun k x hlo hhi hk => h k x hlo hhi (by rw [← heq k hlo hhi]; exact hk)

theorem AllIn.set (h : AllIn P lo hi a) {k : Nat} (x : α) (hk : k < lo ∨ hi ≤ k) : AllIn P lo hi (a.set k x) :=
  h.congr fun l hlo hhi => List.getElem?_set_ne (by omega)

theorem AllIn.rearranged (h : AllIn P lo hi a) (hab : Rearranged lo hi a b) (hle : lo ≤ hi) : AllIn P lo hi b := by
  intro k x hlo hhi hk
  have hmem : x ∈ slice b lo hi := mem_slice_iff.mpr ⟨k, hlo, hhi, hk⟩
  obtain ⟨l, hlo', hhi', hl⟩ := mem_slice_iff.mp ((hab.slice_perm hle).mem_iff.mp hmem)
  exact h l x hlo' hhi' hl

end AllIn

section Sorted

variable [Preorder α]

theorem sorted_congr (heq : ∀ k, lo ≤ k → k < hi → b[k]? = a[k]?) (h : (slice a lo hi).Pairwise (· ≤ ·)) :
    (slice b lo hi).Pairwise (· ≤ ·) := by
  have hsame : slice b lo hi = slice a lo hi := by
    apply List.ext_getElem?
    intro k
    rw [getElem?_slice, getElem?_slice]
    split_ifs with hk
    · exact heq _ (by omega) (by omega)
    · rfl
  rwa [hsame]

theorem sorted_of_le_succ (a : List α) (h : hi ≤ lo + 1) : (slice a lo hi).Pairwise (· ≤ ·) := by
  have hlen : (slice a lo hi).length ≤ 1 := by
    rw [slice, List.length_take]
    omega
  match hs : slice a lo hi with
  | [] => exact .nil
  | [x] => exact List.pairwise_singleton _ x
  | x :: y :: l =>
      rw [hs, List.length_cons, List.length_cons] at hlen
      omega

-- Two sorted ranges with an element between them that bounds both.
theorem sorted_of_pivot {p : Nat} {key : α} (hlo : lo ≤ p) (hhi : p < hi) (hkey : a[p]? = some key)
    (hlow : AllIn (· ≤ key) lo p a) (hhigh : AllIn (key ≤ ·) (p + 1) hi a)
    (hsl : (slice a lo p).Pairwise (· ≤ ·)) (hsh : (slice a (p + 1) hi).Pairwise (· ≤ ·)) :
    (slice a lo hi).Pairwise (· ≤ ·) := by
  have hsplit : slice a lo hi = slice a lo p ++ key :: slice a (p + 1) hi := by
    rw [slice_append a hlo (Nat.le_of_lt hhi), slice_cons hkey hhi]
  rw [hsplit, List.pairwise_append, List.pairwise_cons]
  have hle : ∀ x ∈ slice a lo p, x ≤ key := by
    intro x hx
    obtain ⟨k, hk, hk', hkx⟩ := mem_slice_iff.mp hx
    exact hlow k x hk hk' hkx
  have hge : ∀ x ∈ slice a (p + 1) hi, key ≤ x := by
    intro x hx
    obtain ⟨k, hk, hk', hkx⟩ := mem_slice_iff.mp hx
    exact hhigh k x hk hk' hkx
  refine ⟨hsl, ⟨hge, hsh⟩, fun x hx y hy => ?_⟩
  rcases List.mem_cons.mp hy with rfl | hy
  · exact hle x hx
  · exact (hle x hx).trans (hge y hy)

end Sorted

section Hole

-- The hole at `i`, which is to get `key`, moves to `j` when the element there is moved to `i`.
theorem perm_move {i j : Nat} {x : α} (key : α) (hi : i < a.length) (hj : a[j]? = some x) :
    ((a.set i x).set j key).Perm (a.set i key) := by
  obtain ⟨hjl, rfl⟩ := List.getElem?_eq_some_iff.mp hj
  by_cases hij : i = j
  · subst hij
    rw [List.set_set]
  · have hperm := @List.set_set_perm _ (a.set i key) i j (by simpa using hi) (by simpa using hjl)
    rw [List.getElem_set_self, List.getElem_set_ne hij, List.set_set] at hperm
    exact hperm

theorem Rearranged.move {i k : Nat} {x key : α} (h : Rearranged lo hi a (b.set i key)) (hi' : hi ≤ b.length)
    (hik : lo ≤ i ∧ i < hi ∧ lo ≤ k ∧ k < hi) (hx : b[k]? = some x) :
    Rearranged lo hi a ((b.set i x).set k key) where
  perm := (perm_move key (by omega) hx).trans h.perm
  outside l hl := by
    rw [← h.outside l hl, List.getElem?_set_ne (by omega), List.getElem?_set_ne (by omega),
      List.getElem?_set_ne (by omega)]

end Hole

end RichardTest.Segment
