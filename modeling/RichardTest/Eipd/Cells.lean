import RichardTest.Eipd
import Mathlib.Data.List.GetD

namespace RichardTest.Eipd

open Counter Finset

section Cells

-- The cell in row `i` and column `j` is filled.
def filled (brd : Board) (i j : Nat) : Bool := (brd.getD i 0).getLsbD j

-- The `int` that a bit test returns.
def ofCell (c : Bool) : Row := if c then 1 else 0

theorem ofCell_injective {c d : Bool} : ofCell c = ofCell d ↔ c = d := by
  revert c d
  decide

theorem ofCell_eq_zero_iff {c : Bool} : ofCell c = 0 ↔ c = false := by
  revert c
  decide

theorem toNat_ofCell (c : Bool) : (ofCell c).toNat = c.toNat := by
  revert c
  decide

theorem bit_eq (row : Row) {j : Nat} (hj : j < 32) : bit row j = ofCell (row.getLsbD j) := by
  apply BitVec.eq_of_getLsbD_eq
  intro i hi
  rw [bit, BitVec.getLsbD_and, BitVec.getLsbD_sshiftRight, BitVec.getLsbD_one]
  by_cases hzero : i = 0
  · subst hzero
    cases row.getLsbD j <;> simp [hj, ofCell]
  · cases row.getLsbD j <;> simp [hzero, ofCell]

theorem bit_eq_zero_iff {row : Row} {j : Nat} (hj : j < 32) : bit row j = 0 ↔ row.getLsbD j = false := by
  rw [bit_eq row hj, ofCell_eq_zero_iff]

theorem read_of_lt {brd : Board} {i : Nat} (hi : i < brd.length) : read brd i = some (brd.getD i 0) := by
  rw [read, if_pos (Int.natCast_nonneg i), Int.toNat_natCast, List.getElem?_eq_getElem hi,
    List.getD_eq_getElem _ _ hi]

theorem read_of_neg {brd : Board} {i : Int} (hi : i < 0) : read brd i = none := if_neg (by omega)

theorem addBits_count (x : Row) {col : Nat} (hcol : col ≤ 32) {t : Nat} (ht : t < 2 ^ 31) :
    addBits x col t = count (2 ^ 31) (t + ∑ j ∈ range col, (x.getLsbD j).toNat) := by
  have hround : ∀ k < col, ∀ t < 2 ^ 31,
      add t (bit x (0 + k)).toNat = count (2 ^ 31) (t + (x.getLsbD (0 + k)).toNat) := by
    intro k hk t _
    rw [add, bit_eq x (by omega), toNat_ofCell]
  have hloop : addBits x col t = count (2 ^ 31) (t + ∑ k ∈ range col, (x.getLsbD (0 + k)).toNat) :=
    @upLoop_count _ _ (fun j => (x.getLsbD j).toNat) col 0 hround t ht
  simp only [Nat.zero_add] at hloop
  exact hloop

theorem toNat_getLsbD_xor (x y : Row) (j : Nat) :
    ((x ^^^ y).getLsbD j).toNat = (x.getLsbD j != y.getLsbD j).toNat := by
  rw [BitVec.getLsbD_xor]

end Cells

section Changes

-- The number of neighbours in a sequence of cells that differ.
def changes : List Bool → Nat
  | a :: b :: l => (a != b).toNat + changes (b :: l)
  | _ => 0

@[simp] theorem changes_singleton (a : Bool) : changes [a] = 0 := rfl

theorem changes_cons_cons (a b : Bool) (l : List Bool) :
    changes (a :: b :: l) = (a != b).toNat + changes (b :: l) := rfl

theorem changes_eq_zero_iff {a : Bool} {l : List Bool} : changes (a :: l) = 0 ↔ ∀ c ∈ l, c = a := by
  induction l generalizing a with
  | nil => simp
  | cons c l ih =>
      rw [changes_cons_cons, Nat.add_eq_zero_iff, ih, Bool.toNat_eq_zero, bne_eq_false_iff_eq,
        List.forall_mem_cons]
      constructor
      · rintro ⟨rfl, hl⟩
        exact ⟨rfl, hl⟩
      · rintro ⟨rfl, hl⟩
        exact ⟨rfl, hl⟩

theorem changes_concat (a : Bool) (l : List Bool) (b : Bool) :
    changes (a :: l ++ [b]) = changes (a :: l) + (l.getLastD a != b).toNat := by
  induction l generalizing a with
  | nil =>
      rw [changes_singleton, Nat.zero_add]
      rfl
  | cons c l ih =>
      rw [List.cons_append, List.cons_append, changes_cons_cons, ← List.cons_append, ih c, changes_cons_cons,
        Nat.add_assoc, List.getLastD_cons]

theorem changes_append (a : Bool) (p : List Bool) (c : Bool) (l : List Bool) :
    changes (a :: p ++ c :: l) = changes (a :: p ++ [c]) + changes (c :: l) := by
  induction p generalizing a with
  | nil => rfl
  | cons b p ih =>
      calc
        changes (a :: b :: p ++ c :: l) = (a != b).toNat + changes (b :: p ++ c :: l) := rfl
        _ = (a != b).toNat + (changes (b :: p ++ [c]) + changes (c :: l)) := by rw [ih]
        _ = changes (a :: b :: p ++ [c]) + changes (c :: l) := (Nat.add_assoc _ _ _).symm

-- Two cells that differ are at least one change apart.
theorem le_changes_concat (a : Bool) (p : List Bool) (c : Bool) : (a != c).toNat ≤ changes (a :: p ++ [c]) := by
  induction p generalizing a with
  | nil => exact Nat.le_refl _
  | cons b p ih =>
      have htriangle : (a != c).toNat ≤ (a != b).toNat + (b != c).toNat := by
        cases a <;> cases b <;> cases c <;> decide
      rw [List.cons_append, List.cons_append, changes_cons_cons, ← List.cons_append]
      exact htriangle.trans (Nat.add_le_add_left (ih b) _)

-- From a filled cell on there are no more changes than that only if no filled cell comes after an empty one.
theorem changes_concat_eq_iff (p : List Bool) (c : Bool) :
    changes (true :: p ++ [c]) = (true != c).toNat ↔ (p ++ [c]).Pairwise fun a b => b = true → a = true := by
  induction p with
  | nil => simp [changes_cons_cons]
  | cons b p ih =>
      have hcons : changes (true :: b :: p ++ [c]) = (true != b).toNat + changes (b :: p ++ [c]) := rfl
      rw [hcons, List.cons_append, List.pairwise_cons, ← List.cons_append]
      cases b with
      | true =>
          rw [bne_self_eq_false, Bool.toNat_false, Nat.zero_add, ih]
          exact ⟨fun h => ⟨fun _ _ _ => rfl, h⟩, fun h => h.2⟩
      | false =>
          have hfalse : changes (false :: p ++ [c]) = 0 ↔ ∀ d ∈ p ++ [c], d = false := changes_eq_zero_iff
          constructor
          · intro h
            have hc : c = false := by
              cases c with
              | false => rfl
              | true => exact absurd h (by simp)
            have hall := hfalse.mp (by rw [hc] at h ⊢; exact Nat.add_left_cancel h)
            have hnone : ∀ d ∈ p ++ [c], d ≠ true := fun d hd => Bool.eq_false_iff.mp (hall d hd)
            refine ⟨fun d hd htrue => absurd htrue (hnone d hd), ?_⟩
            apply List.pairwise_of_forall_mem_list
            intro _ _ d hd htrue
            exact absurd htrue (hnone d hd)
          · rintro ⟨hall, -⟩
            have hc : c = false := Bool.eq_false_iff.mpr fun htrue => Bool.false_ne_true (hall c (by simp) htrue)
            rw [hfalse.mpr fun d hd => Bool.eq_false_iff.mpr fun htrue => Bool.false_ne_true (hall d hd htrue), hc]
            rfl

end Changes

end RichardTest.Eipd
