import RichardTest.BigNumC.Decimal
import Mathlib.Data.Nat.Factorial.Basic

namespace RichardTest.BigNumC

open Outcome Positional

-- One round: the accumulator is multiplied by the counter.
theorem multiRound_ensures {res : BigNum} (hres : res.Canonical) (bigI : BigNum) (hI : bigI.Canonical) :
    Ensures (bigNumMulti (.apart res bigI)) fun r => r.1.Canonical ∧ r.1.value = res.value * bigI.value := by
  refine (bigNumMulti_ensures (.apart res bigI) hres.digits hI.digits).mono ?_
  rintro ⟨r, ops⟩ ⟨-, hacc⟩
  have hzero := hacc.noLeadingZero_of_operands (by exact hres.digits) (by exact hI.digits)
  exact ⟨⟨hacc.digits, hzero hres.noLeadingZero hI.noLeadingZero⟩, hacc.value.trans (Operands.value_mul _)⟩

theorem factorialLoop_ensures (n i : Nat) (res : BigNum) (hmax : i + n < 10 ^ 9) (hres : res.Canonical)
    (hvalue : res.value = i.factorial) :
    Ensures (factorialLoop n (i + 1) res) fun r => r.Canonical ∧ r.value = (i + n).factorial := by
  induction n generalizing i res with
  | zero => exact (yields_pure ⟨hres, hvalue⟩).ensures
  | succ n ih =>
      refine (intToBigNum_exact (by omega) (by omega)).ensures.bind ?_
      rintro bigI ⟨hI, hIvalue, -⟩
      refine (multiRound_ensures hres bigI hI).bind ?_
      rintro ⟨r, ops⟩ ⟨hr, hrvalue⟩
      have hnext : r.value = (i + 1).factorial := by
        rw [hrvalue, hvalue, hIvalue, Nat.factorial_succ]
        push_cast
        ring
      rw [show i + (n + 1) = i + 1 + n by omega]
      exact ih (i + 1) r (by omega) hr hnext

-- What factorial returns, where it returns, is the factorial, and in canonical form.
theorem factorial_exact {n : Int} (hn : 0 ≤ n) (hmax : n < 10 ^ 9) {h h' : Heap} {r : BigNum}
    (hrun : factorial n h = some (r, h')) : r.Canonical ∧ r.value = n.toNat.factorial := by
  have hensures : Ensures (factorial n) fun r => r.Canonical ∧ r.value = n.toNat.factorial := by
    refine getZero_yields.ensures.bind ?_
    rintro z ⟨hw, hl, hc⟩
    have hlt : 0 < z.arrLen := by omega
    rw [BigNum.write_of_lt hlt, pure_bind]
    have hcell : (z.set 0 1).cell 0 = 1 := by rw [BigNum.cell_set hlt, if_pos rfl]
    have hone : (z.set 0 1).wei = 1 := hw
    have hdigits : (z.set 0 1).Digits := by
      refine ⟨by omega, by rw [BigNum.set_arrLen]; omega, fun i hi => ?_⟩
      rw [show i = 0 by omega, hcell]
      omega
    have hvalue : (z.set 0 1).value = Nat.factorial 0 := by
      rw [BigNum.value, hone, value_one, hcell]
      rfl
    have hloop := factorialLoop_ensures n.toNat 0 (z.set 0 1) (by omega) ⟨hdigits, Or.inr hone⟩ hvalue
    simp only [Nat.zero_add] at hloop
    exact hloop
  exact hensures _ _ _ hrun

-- 5! = 120, from memory full of sevens.
theorem factorial_exact_five :
    ∃ r h', factorial 5 (fun _ => 7) = some (r, h') ∧ r.Canonical ∧ r.value = 120 := by
  have hsome : (factorial 5 fun _ => 7).isSome = true := by decide +kernel
  obtain ⟨⟨r, h'⟩, hrun⟩ := Option.isSome_iff_exists.mp hsome
  obtain ⟨hcan, hvalue⟩ := factorial_exact (by decide) (by decide) hrun
  exact ⟨r, h', hrun, hcan, hvalue⟩

end RichardTest.BigNumC
