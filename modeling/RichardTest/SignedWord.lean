import Mathlib.Algebra.Order.Ring.Int
import Mathlib.Tactic.Positivity

namespace RichardTest.SignedWord

-- Words in two's complement whose sign bit is clear.

variable {w : Nat} {x y : BitVec w}

theorem two_mul_toNat_lt (hx : 0 ≤ x.toInt) : 2 * x.toNat < 2 ^ w := by
  have hlt := x.isLt
  rw [BitVec.toInt_eq_toNat_cond] at hx
  split_ifs at hx with h
  · exact h
  · omega

theorem toNat_toInt_of_small (hx : 2 * x.toNat < 2 ^ w) : x.toInt.toNat = x.toNat := by
  rw [BitVec.toInt_eq_toNat_of_lt hx, Int.toNat_natCast]

theorem toNat_signExtend_of_small {v : Nat} (hx : 2 * x.toNat < 2 ^ w) (hwv : w ≤ v) :
    (x.signExtend v).toNat = x.toNat := by
  rw [BitVec.signExtend_eq_setWidth_of_msb_false (BitVec.msb_eq_false_iff_two_mul_lt.mpr hx),
    BitVec.toNat_setWidth, Nat.mod_eq_of_lt (x.isLt.trans_le (Nat.pow_le_pow_right Nat.two_pos hwv))]

-- On such words the signed remainder is the unsigned one.
theorem srem_eq_umod (hx : 2 * x.toNat < 2 ^ w) (hy : 2 * y.toNat < 2 ^ w) : x.srem y = x % y := by
  rw [BitVec.srem_eq, BitVec.msb_eq_false_iff_two_mul_lt.mpr hx, BitVec.msb_eq_false_iff_two_mul_lt.mpr hy]

theorem toNat_mul_srem {n : BitVec w} (hmul : 2 * (x.toNat * y.toNat) < 2 ^ w) (hn : 2 * n.toNat < 2 ^ w) :
    ((x * y).srem n).toNat = x.toNat * y.toNat % n.toNat := by
  have hprod : (x * y).toNat = x.toNat * y.toNat := by
    rw [BitVec.toNat_mul, Nat.mod_eq_of_lt (by omega)]
  rw [srem_eq_umod (by rw [hprod]; exact hmul) hn, BitVec.toNat_umod, hprod]

theorem smulOverflow_iff (hx : 2 * x.toNat < 2 ^ w) (hy : 2 * y.toNat < 2 ^ w) :
    x.smulOverflow y = true ↔ 2 ^ (w - 1) ≤ x.toNat * y.toNat := by
  have hpow : (0 : Int) < 2 ^ (w - 1) := by positivity
  have hpos : (0 : Int) ≤ (x.toNat : Int) * y.toNat := by positivity
  rw [BitVec.smulOverflow, Bool.or_eq_true, decide_eq_true_eq, decide_eq_true_eq, BitVec.toInt_eq_toNat_of_lt hx,
    BitVec.toInt_eq_toNat_of_lt hy]
  norm_cast at hpos hpow ⊢
  omega

end RichardTest.SignedWord
