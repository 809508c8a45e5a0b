import RichardTest.QSort
import RichardTest.Segment

namespace RichardTest.QSort

open BigNumC (int32 int32_eq)
open Segment

section Access

variable {lo hi i : Nat} {a : List Int} {x : Int}

theorem read_of_mem (hlo : lo ≤ i) (hhi : i < hi) (hx : a[i]? = some x) :
    read lo ((hi : Int) - 1) a i = some x := by
  rw [read, if_pos (by omega), Int.toNat_natCast, hx]

theorem write_of_mem (hlo : lo ≤ i) (hhi : i < hi) (hl : hi ≤ a.length) (x : Int) :
    write lo ((hi : Int) - 1) a i x = some (a.set i x) := by
  rw [write, if_pos ⟨by omega, by omega, by omega, by rw [Int.toNat_natCast]; omega⟩, Int.toNat_natCast]

theorem exists_cell (h : i < a.length) : ∃ x, a[i]? = some x := ⟨a[i], List.getElem?_eq_getElem h⟩

-- Indices of an array whose length is an `int` do not overflow.
theorem int32_pred (hpos : 0 < i) (hi : i < 2 ^ 31) : int32 ((i : Int) - 1) = ((i - 1 : Nat) : Int) := by
  rw [int32_eq (by omega) (by omega)]
  omega

theorem int32_succ (hi : i + 1 < 2 ^ 31) : int32 ((i : Int) + 1) = ((i + 1 : Nat) : Int) := by
  rw [int32_eq (by omega) (by omega)]
  omega

end Access

section Partition

variable {lo hi : Nat} {a : List Int} {key : Int}

-- The first inner loop stops at the hole or at a cell that is smaller than the key.
theorem downLoop_spec (a : List Int) (key : Int) (hl : hi ≤ a.length) (hmax : a.length < 2 ^ 31) (i : Nat)
    (hlo : lo ≤ i) (fuel : Nat) :
    ∀ (j : Nat) (round : Int), i ≤ j → j < hi → j - i < fuel →
      ∃ (j' : Nat) (round' : Int),
        downLoop lo ((hi : Int) - 1) key fuel { a, i := i, j := j, round } =
          some { a, i := i, j := j', round := round' } ∧
        i ≤ j' ∧ j' ≤ j ∧ AllIn (key ≤ ·) (j' + 1) (j + 1) a ∧ (i < j' → ∃ x, a[j']? = some x ∧ x < key) := by
  induction fuel with
  | zero => intro j round _ _ hfuel; omega
  | succ fuel ih =>
      intro j round hij hj hfuel
      rw [downLoop]
      by_cases hlt : i < j
      · obtain ⟨x, hx⟩ := exists_cell (a := a) (i := j) (by omega)
        simp only [show (i : Int) < j by omega, if_true, read_of_mem (show lo ≤ j by omega) hj hx,
          Option.bind_eq_bind, Option.bind_some]
        by_cases hkey : key ≤ x
        · rw [if_pos hkey, int32_pred (by omega) (by omega)]
          obtain ⟨j', round', hrun, hij', hj', hall, hstop⟩ :=
            ih (j - 1) (int32 (round + 1)) (by omega) (by omega) (by omega)
          refine ⟨j', round', hrun, hij', hj'.trans (Nat.sub_le j 1), ?_, hstop⟩
          rw [Nat.sub_add_cancel (by omega)] at hall
          exact hall.append (.single hx hkey)
        · rw [if_neg hkey]
          exact ⟨j, round, rfl, hij, Nat.le_refl j, .of_le _ a (Nat.le_refl _), fun _ => ⟨x, hx, by omega⟩⟩
      · simp only [show ¬(i : Int) < j by omega, if_false]
        exact ⟨j, round, rfl, hij, Nat.le_refl j, .of_le _ a (Nat.le_refl _), fun h => absurd h hlt⟩

-- The second inner loop leaves a cell behind if that is not larger than the key.
theorem upLoop_spec (a : List Int) (key : Int) (hl : hi ≤ a.length) (hmax : a.length < 2 ^ 31) (j : Nat)
    (hj : j < hi) (fuel : Nat) :
    ∀ (i : Nat) (round : Int), lo ≤ i → i ≤ j → j - i < fuel →
      ∃ (i' : Nat) (round' : Int),
        upLoop lo ((hi : Int) - 1) key fuel { a, i := i, j := j, round } =
          some { a, i := i', j := j, round := round' } ∧
        i ≤ i' ∧ i' ≤ j ∧ AllIn (· ≤ key) i i' a ∧
        (∀ x, i < j → a[i]? = some x → x ≤ key → i < i') := by
  induction fuel with
  | zero => intro i round _ _ hfuel; omega
  | succ fuel ih =>
      intro i round hlo hij hfuel
      rw [upLoop]
      by_cases hlt : i < j
      · obtain ⟨x, hx⟩ := exists_cell (a := a) (i := i) (by omega)
        simp only [show (i : Int) < j by omega, if_true, read_of_mem hlo (show i < hi by omega) hx,
          Option.bind_eq_bind, Option.bind_some]
        by_cases hkey : x ≤ key
        · rw [if_pos hkey, int32_succ (by omega)]
          obtain ⟨i', round', hrun, hi', hij', hall, -⟩ :=
            ih (i + 1) (int32 (round + 1)) (by omega) (by omega) (by omega)
          refine ⟨i', round', hrun, by omega, hij', ?_, fun _ _ _ _ => by omega⟩
          have hone : AllIn (· ≤ key) i (i + 1) a := .single hx hkey
          exact hone.append hall
        · rw [if_neg (by omega)]
          refine ⟨i, round, rfl, Nat.le_refl i, hij, .of_le _ a (Nat.le_refl _), fun y _ hy hle => ?_⟩
          rw [hx, Option.some.injEq] at hy
          omega
      · simp only [show ¬(i : Int) < j by omega, if_false]
        exact ⟨i, round, rfl, Nat.le_refl i, hij, .of_le _ a (Nat.le_refl _), fun _ h => absurd h hlt⟩

-- The cell `i` is a hole: with the key in it the array would be a rearrangement. Nothing before the hole is
-- larger than the key, and nothing behind `j` smaller.
structure Hole (lo hi : Nat) (key : Int) (a₀ a : List Int) (i j : Nat) : Prop where
  lo_le : lo ≤ i
  le : i ≤ j
  lt_hi : j < hi
  length : a.length = a₀.length
  rearranged : Rearranged lo hi a₀ (a.set i key)
  low : AllIn (· ≤ key) lo i a
  high : AllIn (key ≤ ·) (j + 1) hi a

variable {a₀ : List Int} {i j : Nat}

-- A round moves an element from behind into the hole and one from before it into the new hole. The hole and
-- `j` come closer, since the first of the two elements is smaller than the key.
theorem partRound_spec (h : Hole lo hi key a₀ a i j) (hl : hi ≤ a₀.length) (hmax : a₀.length < 2 ^ 31)
    (hlt : i < j) (round : Int) :
    ∃ (a' : List Int) (i' j' : Nat) (round' : Int),
      partRound lo ((hi : Int) - 1) key (a₀.length + 1) { a, i := i, j := j, round } =
        some { a := a', i := i', j := j', round := round' } ∧
      Hole lo hi key a₀ a' i' j' ∧ j' - i' < j - i := by
  have hlo := h.lo_le
  have hj := h.lt_hi
  have hlen := h.length
  obtain ⟨j', r₁, hdown, hij', hj', hhigh, hstop⟩ :=
    downLoop_spec a key (show hi ≤ a.length by omega) (by omega) i hlo (a₀.length + 1) j round h.le hj (by omega)
  obtain ⟨y, hy⟩ := exists_cell (a := a) (i := j') (by omega)
  have hlen₁ : (a.set i y).length = a₀.length := by rw [List.length_set, hlen]
  obtain ⟨i', r₂, hup, hi', hij, hlow, hstep⟩ :=
    upLoop_spec (a.set i y) key (show hi ≤ (a.set i y).length by omega) (by omega) j' (by omega) (a₀.length + 1)
      i r₁ hlo hij' (by omega)
  obtain ⟨z, hz⟩ := exists_cell (a := a.set i y) (i := i') (by omega)
  have hmoved := h.rearranged.move (by omega) ⟨hlo, by omega, by omega, by omega⟩ hy
  refine ⟨(a.set i y).set j' z, i', j', r₂, ?_, ⟨by omega, hij, by omega, ?_, ?_, ?_, ?_⟩, ?_⟩
  · have hread : read lo ((hi : Int) - 1) a j' = some y := read_of_mem (by omega) (by omega) hy
    have hwrite : write lo ((hi : Int) - 1) a i y = some (a.set i y) :=
      write_of_mem hlo (by omega) (by omega) y
    have hread' : read lo ((hi : Int) - 1) (a.set i y) i' = some z := read_of_mem (by omega) (by omega) hz
    have hwrite' : write lo ((hi : Int) - 1) (a.set i y) j' z = some ((a.set i y).set j' z) :=
      write_of_mem (by omega) (by omega) (by omega) z
    rw [partRound, hdown]
    simp only [Option.bind_eq_bind, Option.bind_some, hread, hwrite, hup, hread', hwrite']
    rfl
  · rw [List.length_set, hlen₁]
  · exact hmoved.move (by omega) ⟨by omega, by omega, by omega, by omega⟩ hz
  · have hbefore := (h.low.set y (k := i) (Or.inr (Nat.le_refl i))).append hlow
    exact hbefore.set z (Or.inr hij)
  · have hbehind := hhigh.append h.high
    exact (hbehind.set y (Or.inl (by omega))).set z (Or.inl (by omega))
  · by_cases hcase : i < j'
    · obtain ⟨x, hx, hxkey⟩ := hstop hcase
      have hfill : (a.set i y)[i]? = some y := List.getElem?_set_self (by omega)
      rw [hy, Option.some.injEq] at hx
      have := hstep y hcase hfill (by omega)
      omega
    · omega

theorem partLoop_spec (hl : hi ≤ a₀.length) (hmax : a₀.length < 2 ^ 31) (fuel : Nat) :
    ∀ (a : List Int) (i j : Nat) (round : Int), Hole lo hi key a₀ a i j → j - i < fuel →
      ∃ (a' : List Int) (p : Nat) (round' : Int),
        partLoop lo ((hi : Int) - 1) key (a₀.length + 1) fuel { a, i := i, j := j, round } =
          some { a := a', i := p, j := p, round := round' } ∧
        Hole lo hi key a₀ a' p p := by
  induction fuel with
  | zero => intro a i j round _ hfuel; omega
  | succ fuel ih =>
      intro a i j round h hfuel
      have hle := h.le
      rw [partLoop]
      by_cases hlt : i < j
      · obtain ⟨a', i', j', round', hrun, h', hless⟩ := partRound_spec h hl hmax hlt round
        simp only [show (i : Int) < j by omega, if_true, hrun, Option.bind_eq_bind, Option.bind_some]
        exact ih a' i' j' round' h' (by omega)
      · simp only [show ¬(i : Int) < j by omega, if_false]
        have heq : j = i := by omega
        subst heq
        exact ⟨a, j, round, rfl, h⟩

end Partition

section Recursion

-- The partition leaves the key in its place, between what is not larger and what is not smaller.
theorem partition_spec {lo hi : Nat} {a : List Int} {key : Int} (hl : hi ≤ a.length) (hmax : a.length < 2 ^ 31)
    (hlt : lo < hi) (hkey : a[lo]? = some key) (round : Int) :
    ∃ (a' : List Int) (p : Nat) (round' : Int),
      partLoop lo ((hi : Int) - 1) key (a.length + 1) (a.length + 1)
          { a, i := lo, j := (hi : Int) - 1, round } =
        some { a := a', i := p, j := p, round := round' } ∧
      lo ≤ p ∧ p < hi ∧ a'.length = a.length ∧ Rearranged lo hi a (a'.set p key) ∧
      AllIn (· ≤ key) lo p (a'.set p key) ∧ AllIn (key ≤ ·) (p + 1) hi (a'.set p key) := by
  have hstart : Hole lo hi key a a lo (hi - 1) := by
    refine ⟨Nat.le_refl lo, by omega, by omega, rfl, ?_, .of_le _ a (Nat.le_refl lo), .of_le _ a (by omega)⟩
    obtain ⟨hlo, rfl⟩ := List.getElem?_eq_some_iff.mp hkey
    rw [List.set_getElem_self]
    exact .refl lo hi a
  obtain ⟨a', p, round', hrun, h⟩ :=
    partLoop_spec hl hmax (a.length + 1) a lo (hi - 1) round hstart (by omega)
  rw [show ((hi - 1 : Nat) : Int) = (hi : Int) - 1 by omega] at hrun
  exact ⟨a', p, round', hrun, h.lo_le, h.lt_hi, h.length, h.rearranged, h.low.set key (Or.inr (Nat.le_refl p)),
    h.high.set key (Or.inl (Nat.lt_succ_self p))⟩

-- By induction on the number of cells. Each of the two calls rearranges its own part only, so that the parts stay
-- on their sides of the key.
theorem qSort_spec (n : Nat) :
    ∀ (a : List Int) (lo hi : Nat) (round : Int), hi - lo ≤ n → lo ≤ hi → hi ≤ a.length → a.length < 2 ^ 31 →
      ∃ (a' : List Int) (round' : Int),
        (∀ fuel, n < fuel → qSort fuel a lo ((hi : Int) - 1) round = some (a', round')) ∧
        Rearranged lo hi a a' ∧ (slice a' lo hi).Pairwise (· ≤ ·) := by
  have hsmall : ∀ (a : List Int) (lo hi : Nat) (round : Int), hi ≤ lo + 1 → ∀ fuel, 0 < fuel →
      qSort fuel a lo ((hi : Int) - 1) round = some (a, round) := by
    intro a lo hi round hle fuel hfuel
    obtain ⟨fuel, rfl⟩ := Nat.exists_eq_succ_of_ne_zero (Nat.pos_iff_ne_zero.mp hfuel)
    rw [qSort, if_pos (by omega)]
  induction n with
  | zero =>
      intro a lo hi round hn hle hl hmax
      exact ⟨a, round, hsmall a lo hi round (by omega), .refl lo hi a, sorted_of_le_succ a (by omega)⟩
  | succ n ih =>
      intro a lo hi round hn hle hl hmax
      by_cases hone : hi ≤ lo + 1
      · exact ⟨a, round, fun fuel hfuel => hsmall a lo hi round hone fuel (by omega), .refl lo hi a,
          sorted_of_le_succ a hone⟩
      · obtain ⟨key, hkey⟩ := exists_cell (a := a) (i := lo) (by omega)
        obtain ⟨a₁, p, r₁, hpart, hlo, hhi, hlen, hre, hlow, hhigh⟩ :=
          partition_spec hl hmax (by omega) hkey round
        have hlen₂ : (a₁.set p key).length = a.length := by rw [List.length_set, hlen]
        have hp : (a₁.set p key)[p]? = some key := List.getElem?_set_self (by omega)
        generalize hb : a₁.set p key = b at *
        obtain ⟨u, r₂, hleft, hre₂, hsorted₂⟩ := ih b lo p r₁ (by omega) hlo (by omega) (by omega)
        have hlen₃ := hre₂.length_eq
        obtain ⟨v, r₃, hright, hre₃, hsorted₃⟩ :=
          ih u (p + 1) hi r₂ (by omega) (by omega) (by omega) (by omega)
        -- what the two calls leave alone
        have hsame₂ : ∀ k, p ≤ k → u[k]? = b[k]? := fun k hk => hre₂.outside k (Or.inr hk)
        have hsame₃ : ∀ k, k < p + 1 → v[k]? = u[k]? := fun k hk => hre₃.outside k (Or.inl hk)
        refine ⟨v, r₃, fun fuel hfuel => ?_, ?_, ?_⟩
        · obtain ⟨fuel, rfl⟩ := Nat.exists_eq_succ_of_ne_zero (show fuel ≠ 0 by omega)
          have hread : read lo ((hi : Int) - 1) a lo = some key := read_of_mem (Nat.le_refl lo) (by omega) hkey
          have hwrite : write lo ((hi : Int) - 1) a₁ p key = some b :=
            hb ▸ write_of_mem hlo hhi (by omega) key
          have hpred : int32 ((p : Int) - 1) = (p : Int) - 1 := int32_eq (by omega) (by omega)
          have hsucc : int32 ((p : Int) + 1) = ((p + 1 : Nat) : Int) := int32_succ (by omega)
          rw [qSort, if_neg (by omega)]
          simp only [Option.bind_eq_bind, Option.bind_some, hread, hpart, hwrite, hpred, hsucc,
            hleft fuel (by omega), hright fuel (by omega)]
        · exact hre.trans ((hre₂.widen (Nat.le_refl lo) hhi.le).trans (hre₃.widen (by omega) (Nat.le_refl hi)))
        · apply sorted_of_pivot hlo hhi
          · rw [hsame₃ p (Nat.lt_succ_self p), hsame₂ p (Nat.le_refl p), hp]
          · exact (hlow.rearranged hre₂ hlo).congr fun k _ hk => hsame₃ k (by omega)
          · exact (hhigh.congr fun k hk _ => hsame₂ k (by omega)).rearranged hre₃ hhi
          · exact sorted_congr (fun k _ hk => hsame₃ k (by omega)) hsorted₂
          · exact hsorted₃

-- The length of the array is an `int`, as it is in `myqsort`.
theorem qSort_sorts (a : List Int) (hlen : a.length < 2 ^ 31) (left right : Nat) (hleft : left < a.length)
    (hright : right < a.length) (round : Int) :
    ∃ (a' : List Int) (round' : Int),
      (∀ fuel, a.length < fuel → qSort fuel a left right round = some (a', round')) ∧
      (slice a' left (right + 1)).Pairwise (· ≤ ·) ∧
      (slice a' left (right + 1)).Perm (slice a left (right + 1)) ∧ a'.length = a.length ∧
      ∀ k, k < left ∨ right < k → a'[k]? = a[k]? := by
  by_cases hle : left ≤ right + 1
  · obtain ⟨a', round', hrun, hre, hsorted⟩ :=
      qSort_spec a.length a left (right + 1) round (by omega) hle hright hlen
    rw [show ((right + 1 : Nat) : Int) - 1 = right by omega] at hrun
    exact ⟨a', round', hrun, hsorted, hre.slice_perm hle, hre.length_eq, fun k hk => hre.outside k (by omega)⟩
  · refine ⟨a, round, fun fuel hfuel => ?_, sorted_of_le_succ a (by omega), .refl _, rfl, fun _ _ => rfl⟩
    obtain ⟨fuel, rfl⟩ := Nat.exists_eq_succ_of_ne_zero (show fuel ≠ 0 by omega)
    rw [qSort, if_pos (by omega)]

theorem qSort_sorts_five :
    ∃ (a' : List Int) (round' : Int),
      (∀ fuel, 5 < fuel → qSort fuel [4, 2, 2, 3, 1] 1 3 0 = some (a', round')) ∧
      (slice a' 1 4).Pairwise (· ≤ ·) ∧ (slice a' 1 4).Perm (slice [4, 2, 2, 3, 1] 1 4) ∧
      a'.length = 5 ∧ ∀ k, k < 1 ∨ 3 < k → a'[k]? = ([4, 2, 2, 3, 1] : List Int)[k]? :=
  qSort_sorts [4, 2, 2, 3, 1] (by decide) 1 3 (by decide) (by decide) 0

-- The whole array.
theorem myqsort_sorts (a : List Int) (hlen : a.length < 2 ^ 31) :
    ∃ (a' : List Int) (round' : Int), (∀ fuel, a.length < fuel → myqsort fuel a = some (a', round')) ∧
      a'.Pairwise (· ≤ ·) ∧ a'.Perm a := by
  obtain ⟨a', round', hrun, hre, hsorted⟩ :=
    qSort_spec a.length a 0 a.length 0 (by omega) (Nat.zero_le _) (Nat.le_refl _) hlen
  refine ⟨a', round', fun fuel hfuel => ?_, ?_, hre.perm⟩
  · rw [myqsort, int32_eq (by omega) (by omega)]
    exact hrun fuel hfuel
  · rw [slice, List.drop_zero, Nat.sub_zero, List.take_of_length_le hre.length_eq.le] at hsorted
    exact hsorted

end Recursion

end RichardTest.QSort
