import Mathlib.RingTheory.AdjoinRoot
import Mathlib.Algebra.CharP.Two
import Mathlib.Algebra.Field.ZMod
import Mathlib.Algebra.Polynomial.Basic
import Mathlib.Data.List.GetD

namespace RichardTest.ShiftRegister

open Polynomial

-- Shift registers with feedback as division of polynomials over the field of two elements.

section Words

variable {w : Nat}

def ofBool (b : Bool) : ZMod 2 := if b then 1 else 0

@[simp] theorem ofBool_false : ofBool false = 0 := rfl

theorem ofBool_xor (a b : Bool) : ofBool (a ^^ b) = ofBool a + ofBool b := by
  revert a b
  decide

theorem ofBool_inj {a b : Bool} (h : ofBool a = ofBool b) : a = b := by
  revert a b
  decide

-- The bit `i` of a word is the coefficient of `X ^ i`.
noncomputable def poly (a : BitVec w) : (ZMod 2)[X] := ∑ i ∈ Finset.range w, monomial i (ofBool (a.getLsbD i))

theorem coeff_poly (a : BitVec w) (i : Nat) : (poly a).coeff i = ofBool (a.getLsbD i) := by
  simp only [poly, finsetSum_coeff, coeff_monomial, Finset.sum_ite_eq', Finset.mem_range]
  split_ifs with hi
  · rfl
  · rw [BitVec.getLsbD_of_ge a i (by omega), ofBool_false]

theorem poly_xor (a b : BitVec w) : poly (a ^^^ b) = poly a + poly b := by
  ext i
  rw [coeff_add, coeff_poly, coeff_poly, coeff_poly, BitVec.getLsbD_xor, ofBool_xor]

theorem poly_inj {a b : BitVec w} (h : poly a = poly b) : a = b := by
  apply BitVec.eq_of_getLsbD_eq
  intro i _
  apply ofBool_inj
  rw [← coeff_poly, ← coeff_poly, h]

theorem poly_zero : poly (0#w) = 0 := by
  ext i
  rw [coeff_poly, BitVec.getLsbD_zero, ofBool_false, coeff_zero]

theorem degree_poly_lt (a : BitVec w) : (poly a).degree < w := by
  rw [degree_lt_iff_coeff_zero]
  intro i hi
  rw [coeff_poly, BitVec.getLsbD_of_ge a i hi, ofBool_false]

-- A word moved up inside of a wider one.
theorem poly_shiftLeft_setWidth {v k : Nat} (b : BitVec v) (hk : v + k ≤ w) :
    poly (b.setWidth w <<< k) = poly b * X ^ k := by
  ext i
  rw [coeff_poly, coeff_mul_X_pow', BitVec.getLsbD_shiftLeft, BitVec.getLsbD_setWidth]
  split_ifs with hi
  · rw [coeff_poly]
    rcases Nat.lt_or_ge i w with hiw | hiw
    · simp [hiw, Nat.not_lt.mpr hi, show i - k < w by omega]
    · simp [Nat.not_lt.mpr hiw, BitVec.getLsbD_of_ge b (i - k) (by omega)]
  · simp [Nat.lt_of_not_ge hi]

end Words

section Bits

-- The first bit of a message is its highest coefficient.
noncomputable def bitPoly : List Bool → (ZMod 2)[X]
  | [] => 0
  | b :: bs => monomial bs.length (ofBool b) + bitPoly bs

theorem coeff_bitPoly (bs : List Bool) (j : Nat) :
    (bitPoly bs).coeff j = ofBool (bs.reverse.getD j false) := by
  induction bs with
  | nil => rw [bitPoly, coeff_zero, List.reverse_nil, List.getD_nil, ofBool_false]
  | cons b bs ih =>
      rw [bitPoly, coeff_add, coeff_monomial, ih, List.reverse_cons]
      rcases Nat.lt_trichotomy j bs.length with hj | rfl | hj
      · rw [if_neg (by omega), zero_add, List.getD_append _ _ _ _ (by simpa using hj)]
      · simp
      · rw [if_neg (by omega), zero_add, List.getD_eq_default _ _ (by simp; omega),
          List.getD_eq_default _ _ (by simp; omega)]

theorem bitPoly_append (a b : List Bool) : bitPoly (a ++ b) = bitPoly a * X ^ b.length + bitPoly b := by
  induction a with
  | nil => rw [List.nil_append, bitPoly, zero_mul, zero_add]
  | cons x a ih =>
      rw [List.cons_append, bitPoly, bitPoly, ih, List.length_append, add_mul, monomial_mul_X_pow, add_assoc]

theorem bitPoly_zipWith (a b : List Bool) (h : a.length = b.length) :
    bitPoly (List.zipWith xor a b) = bitPoly a + bitPoly b := by
  induction a generalizing b with
  | nil =>
      obtain rfl := List.eq_nil_of_length_eq_zero h.symm
      simp [bitPoly]
  | cons x a ih =>
      cases b with
      | nil => cases h
      | cons y b =>
          have hlen : a.length = b.length := Nat.succ.inj h
          rw [List.zipWith_cons_cons, bitPoly, bitPoly, bitPoly, ih b hlen, List.length_zipWith, hlen, Nat.min_self,
            ofBool_xor, map_add]
          ring

variable {v : Nat}

-- The bits of a word, the most significant one first.
def msbFirst (b : BitVec v) : List Bool := (List.range v).map fun i => b.getMsbD i

theorem length_msbFirst (b : BitVec v) : (msbFirst b).length = v := by
  rw [msbFirst, List.length_map, List.length_range]

theorem length_flatMap_msbFirst (a : List (BitVec v)) : (a.flatMap msbFirst).length = v * a.length := by
  simp [List.length_flatMap, length_msbFirst, Nat.mul_comm]

theorem bitPoly_msbFirst (b : BitVec v) : bitPoly (msbFirst b) = poly b := by
  ext j
  rw [coeff_bitPoly, coeff_poly]
  congr 1
  rcases Nat.lt_or_ge j v with hj | hj
  · rw [List.getD_eq_getElem _ _ (by rw [List.length_reverse, length_msbFirst]; exact hj), List.getElem_reverse]
    simp only [msbFirst, List.getElem_map, List.getElem_range, List.length_map, List.length_range]
    rw [BitVec.getMsbD_eq_getLsbD, decide_eq_true (by omega), Bool.true_and]
    congr 1
    omega
  · rw [List.getD_eq_default _ _ (by rw [List.length_reverse, length_msbFirst]; exact hj), BitVec.getLsbD_of_ge b j hj]

-- Two words sent one after the other are the wider word made of them.
theorem bitPoly_msbFirst_append {u : Nat} (hi : BitVec v) (lo : BitVec u) :
    bitPoly (msbFirst hi ++ msbFirst lo) = poly (hi ++ lo) := by
  ext i
  rw [bitPoly_append, bitPoly_msbFirst, bitPoly_msbFirst, length_msbFirst, coeff_add, coeff_mul_X_pow', coeff_poly,
    coeff_poly, coeff_poly, BitVec.getLsbD_append]
  rcases Nat.lt_or_ge i u with hlow | hlow
  · rw [if_neg (Nat.not_le.mpr hlow), zero_add, if_pos hlow]
  · rw [if_pos hlow, BitVec.getLsbD_of_ge lo i hlow, ofBool_false, add_zero, if_neg (Nat.not_lt.mpr hlow)]

end Bits

section Register

variable {w v : Nat} (p : BitVec w)

-- The feedback word `p` holds the coefficients below `X ^ w`.
noncomputable def generator : (ZMod 2)[X] := X ^ w + poly p

def shift (r : BitVec w) : BitVec w := if r.msb then (r <<< 1) ^^^ p else r <<< 1

-- A data word goes in at the top of the register and is shifted through it.
def feed (r : BitVec w) (b : BitVec v) : BitVec w := (shift p)^[v] (r ^^^ (b.setWidth w <<< (w - v)))

def register (r : BitVec w) (m : List (BitVec v)) : BitVec w := m.foldl (feed p) r

theorem generator_monic : (generator p).Monic := monic_X_pow_add (degree_poly_lt p)

theorem degree_generator : (generator p).degree = w := by
  rw [generator, degree_add_eq_left_of_degree_lt] <;> rw [degree_X_pow]
  exact degree_poly_lt p

-- The bit that leaves the register at the top is the coefficient of `X ^ w`.
theorem X_mul_poly (r : BitVec w) : X * poly r = poly (r <<< 1) + monomial w (ofBool r.msb) := by
  ext i
  rw [coeff_add, coeff_monomial, coeff_poly, BitVec.getLsbD_shiftLeft]
  cases i with
  | zero =>
      rw [coeff_X_mul_zero]
      split_ifs with hw
      · subst hw
        rw [BitVec.of_length_zero (x := r)]
        rfl
      · simp
  | succ i =>
      rw [coeff_X_mul, coeff_poly]
      rcases Nat.lt_trichotomy (i + 1) w with hi | hi | hi
      · rw [if_neg (by omega), add_zero]
        simp [hi]
      · subst hi
        rw [if_pos rfl, BitVec.msb_eq_getLsbD_last]
        simp
      · rw [if_neg (by omega), BitVec.getLsbD_of_ge r i (by omega)]
        simp [Nat.not_lt.mpr hi.le]

-- Polynomials modulo the generator.
noncomputable def residue (r : BitVec w) : AdjoinRoot (generator p) := AdjoinRoot.mk (generator p) (poly r)

theorem residue_xor (r s : BitVec w) : residue p (r ^^^ s) = residue p r + residue p s := by
  rw [residue, poly_xor, map_add, residue, residue]

theorem residue_shift (r : BitVec w) : residue p (shift p r) = AdjoinRoot.root (generator p) * residue p r := by
  have hroot : AdjoinRoot.root (generator p) * residue p r =
      AdjoinRoot.mk (generator p) (poly (r <<< 1) + monomial w (ofBool r.msb)) := by
    rw [← X_mul_poly, map_mul, AdjoinRoot.mk_X, residue]
  rw [hroot, shift]
  cases r.msb with
  | false => simp [residue]
  | true =>
      have htop : AdjoinRoot.mk (generator p) (monomial w (ofBool true)) = AdjoinRoot.mk (generator p) (poly p) := by
        rw [AdjoinRoot.mk_eq_mk, CharTwo.sub_eq_add, ofBool, if_pos rfl, ← X_pow_eq_monomial, ← generator]
      rw [if_pos rfl, map_add, htop, ← map_add, ← poly_xor, residue]

theorem residue_shifts (n : Nat) (r : BitVec w) :
    residue p ((shift p)^[n] r) = AdjoinRoot.root (generator p) ^ n * residue p r := by
  induction n with
  | zero => rw [Function.iterate_zero_apply, pow_zero, one_mul]
  | succ n ih => rw [Function.iterate_succ_apply', residue_shift, ih, pow_succ', mul_assoc]

theorem residue_feed (hv : v ≤ w) (r : BitVec w) (b : BitVec v) :
    residue p (feed p r b) = AdjoinRoot.root (generator p) ^ v * residue p r +
      AdjoinRoot.root (generator p) ^ w * AdjoinRoot.mk (generator p) (poly b) := by
  have hb : residue p (b.setWidth w <<< (w - v)) =
      AdjoinRoot.root (generator p) ^ (w - v) * AdjoinRoot.mk (generator p) (poly b) := by
    rw [residue, poly_shiftLeft_setWidth b (by omega), map_mul, map_pow, AdjoinRoot.mk_X, mul_comm]
  rw [feed, residue_shifts, residue_xor, hb, mul_add, ← mul_assoc, ← pow_add, Nat.add_sub_cancel' hv]

-- By induction on the message: the register holds the residue of what went through it.
theorem residue_register (hv : v ≤ w) (r : BitVec w) (m : List (BitVec v)) :
    residue p (register p r m) = AdjoinRoot.root (generator p) ^ (v * m.length) * residue p r +
      AdjoinRoot.root (generator p) ^ w * AdjoinRoot.mk (generator p) (bitPoly (m.flatMap msbFirst)) := by
  induction m generalizing r with
  | nil => simp [register, bitPoly]
  | cons b m ih =>
      rw [register, List.foldl_cons, ← register, ih, residue_feed p hv, List.flatMap_cons, bitPoly_append,
        bitPoly_msbFirst, length_flatMap_msbFirst, List.length_cons, map_add, map_mul, map_pow, AdjoinRoot.mk_X]
      ring

end Register

section Remainder

variable {w v : Nat} (p : BitVec w) (hv : v ≤ w)

theorem poly_eq_modByMonic {r : BitVec w} {f : (ZMod 2)[X]} (h : residue p r = AdjoinRoot.mk (generator p) f) :
    poly r = f %ₘ generator p := by
  have hself : poly r %ₘ generator p = poly r := by
    rw [modByMonic_eq_self_iff (generator_monic p), degree_generator]
    exact degree_poly_lt r
  rw [residue, AdjoinRoot.mk_eq_mk] at h
  rw [← hself, modByMonic_eq_of_dvd_sub (generator_monic p) h]

include hv

-- From the cleared register on, what is left is the remainder of the message times `X ^ w`.
theorem poly_register (m : List (BitVec v)) :
    poly (register p 0#w m) = bitPoly (m.flatMap msbFirst) * X ^ w %ₘ generator p := by
  apply poly_eq_modByMonic
  rw [residue_register p hv, residue, poly_zero, map_zero, mul_zero, zero_add, map_mul, map_pow, AdjoinRoot.mk_X,
    mul_comm]

omit hv in
theorem msbFirst_xor (a b : BitVec v) : msbFirst (a ^^^ b) = List.zipWith xor (msbFirst a) (msbFirst b) := by
  simp only [msbFirst, List.zipWith_map, List.zipWith_self, BitVec.getMsbD_xor]

omit hv in
theorem flatMap_zipWith_xor (a b : List (BitVec v)) (h : a.length = b.length) :
    (List.zipWith (· ^^^ ·) a b).flatMap msbFirst = List.zipWith xor (a.flatMap msbFirst) (b.flatMap msbFirst) := by
  induction a generalizing b with
  | nil => simp
  | cons x a ih =>
      cases b with
      | nil => cases h
      | cons y b =>
          rw [List.zipWith_cons_cons, List.flatMap_cons, List.flatMap_cons, List.flatMap_cons, ih b (Nat.succ.inj h),
            List.zipWith_append (by rw [length_msbFirst, length_msbFirst]), msbFirst_xor]

theorem register_xor (a b : List (BitVec v)) (h : a.length = b.length) :
    register p 0#w (List.zipWith (· ^^^ ·) a b) = register p 0#w a ^^^ register p 0#w b := by
  apply poly_inj
  rw [poly_xor, poly_register p hv, poly_register p hv, poly_register p hv, flatMap_zipWith_xor a b h,
    bitPoly_zipWith _ _ (by rw [length_flatMap_msbFirst, length_flatMap_msbFirst, h]), add_mul, add_modByMonic]

end Remainder

section Detection

theorem bitPoly_inj {a b : List Bool} (hlen : a.length = b.length) (h : bitPoly a = bitPoly b) : a = b := by
  apply List.reverse_injective
  apply List.ext_getElem
  · rw [List.length_reverse, List.length_reverse, hlen]
  · intro j ha hb
    have hcoeff := congrArg (fun f => coeff f j) h
    simp only [coeff_bitPoly] at hcoeff
    rw [List.getD_eq_getElem _ _ ha, List.getD_eq_getElem _ _ hb] at hcoeff
    exact ofBool_inj hcoeff

variable {w v : Nat}

theorem flatMap_msbFirst_inj {a b : List (BitVec v)} (hlen : a.length = b.length)
    (h : a.flatMap msbFirst = b.flatMap msbFirst) : a = b := by
  induction a generalizing b with
  | nil => exact (List.eq_nil_of_length_eq_zero hlen.symm).symm
  | cons x a ih =>
      cases b with
      | nil => cases hlen
      | cons y b =>
          rw [List.flatMap_cons, List.flatMap_cons] at h
          obtain ⟨hfirst, hrest⟩ := List.append_inj h (by rw [length_msbFirst, length_msbFirst])
          have hword : x = y := poly_inj (by rw [← bitPoly_msbFirst, hfirst, bitPoly_msbFirst])
          rw [hword, ih (Nat.succ.inj hlen) hrest]

theorem ne_of_getD_zipWith_xor {a b : List Bool} {i : Nat} (h : (List.zipWith xor a b).getD i false = true) :
    a.getD i false ≠ b.getD i false := by
  intro hsame
  rw [List.getD_eq_getElem?_getD, List.getElem?_zipWith] at h
  rw [List.getD_eq_getElem?_getD, List.getD_eq_getElem?_getD] at hsame
  cases ha : a[i]? with
  | none => simp [ha] at h
  | some x =>
      cases hb : b[i]? with
      | none => simp [ha, hb] at h
      | some y =>
          obtain rfl : x = y := by simpa [ha, hb] using hsame
          simp [ha, hb] at h

-- Bits that are set only in a window of `w` places: a power of `X` and a polynomial of degree below `w`.
theorem bitPoly_window (bs : List Bool) (s : Nat) (h : ∀ i, bs.getD i false = true → s ≤ i ∧ i < s + w) :
    ∃ q : (ZMod 2)[X], q.degree < w ∧ bitPoly bs = X ^ (bs.length - (s + w)) * q := by
  have hcoeff : ∀ j, (bitPoly bs).coeff j ≠ 0 → j < bs.length ∧ s ≤ bs.length - 1 - j ∧
      bs.length - 1 - j < s + w := by
    intro j hj
    rw [coeff_bitPoly] at hj
    have hlt : j < bs.length := by
      by_contra hge
      exact hj (by rw [List.getD_eq_default _ _ (by rw [List.length_reverse]; omega), ofBool_false])
    rw [List.getD_reverse j hlt] at hj
    refine ⟨hlt, h _ ?_⟩
    by_contra hbit
    exact hj (by rw [Bool.eq_false_of_not_eq_true hbit, ofBool_false])
  obtain ⟨q, hq⟩ : X ^ (bs.length - (s + w)) ∣ bitPoly bs := by
    rw [X_pow_dvd_iff]
    intro d hd
    by_contra hne
    have := hcoeff d hne
    omega
  refine ⟨q, ?_, hq⟩
  rw [degree_lt_iff_coeff_zero]
  intro i hi
  by_contra hne
  rw [← coeff_X_pow_mul q (bs.length - (s + w)) i, ← hq] at hne
  have := hcoeff _ hne
  omega

variable (p : BitVec w) (hp : p.getLsbD 0 = true)

include hp

-- The generator has a constant term, so it has no factor in common with a power of `X`.
theorem isCoprime_generator (k : Nat) : IsCoprime (generator p) (X ^ k) := by
  have hw : w ≠ 0 := by
    rintro rfl
    rw [BitVec.of_length_zero (x := p)] at hp
    exact absurd hp (by decide)
  have hconst : ¬X ∣ generator p := by
    rw [X_dvd_iff, generator, coeff_add, coeff_X_pow, if_neg (Ne.symm hw), coeff_poly, hp]
    decide
  exact ((irreducible_X.coprime_iff_not_dvd.mpr hconst).symm).pow_right

theorem eq_zero_of_root_pow_mul {k : Nat} {f : (ZMod 2)[X]} (hf : f.degree < w)
    (h : AdjoinRoot.root (generator p) ^ k * AdjoinRoot.mk (generator p) f = 0) : f = 0 := by
  rw [← AdjoinRoot.mk_X, ← map_pow, ← map_mul, AdjoinRoot.mk_eq_zero] at h
  have hdvd := (isCoprime_generator p hp k).dvd_of_dvd_mul_left h
  exact eq_zero_of_dvd_of_degree_lt hdvd (by rw [degree_generator]; exact hf)

variable (hv : v ≤ w)

include hv

-- Two messages of one length that differ only within `w` consecutive bits leave different registers.
theorem register_ne_of_burst {a b : List (BitVec v)} (hlen : a.length = b.length) (hne : a ≠ b) (s : Nat)
    (h : ∀ i, (a.flatMap msbFirst).getD i false ≠ (b.flatMap msbFirst).getD i false → s ≤ i ∧ i < s + w) :
    register p 0#w a ≠ register p 0#w b := by
  intro heq
  have hbits : (a.flatMap msbFirst).length = (b.flatMap msbFirst).length := by
    rw [length_flatMap_msbFirst, length_flatMap_msbFirst, hlen]
  obtain ⟨q, hq, hwindow⟩ := bitPoly_window (w := w) (List.zipWith xor (a.flatMap msbFirst) (b.flatMap msbFirst)) s
    fun i hi => h i (ne_of_getD_zipWith_xor hi)
  -- the register of the difference is empty, so the generator divides the window
  have hzero : residue p (register p 0#w (List.zipWith (· ^^^ ·) a b)) = 0 := by
    rw [register_xor p hv a b hlen, heq, BitVec.xor_self, residue, poly_zero, map_zero]
  rw [residue_register p hv, residue, poly_zero, map_zero, mul_zero, zero_add, flatMap_zipWith_xor a b hlen, hwindow,
    map_mul, map_pow, AdjoinRoot.mk_X, ← mul_assoc, ← pow_add] at hzero
  have hdiff : bitPoly (a.flatMap msbFirst) + bitPoly (b.flatMap msbFirst) = 0 := by
    rw [← bitPoly_zipWith _ _ hbits, hwindow, eq_zero_of_root_pow_mul p hp hq hzero, mul_zero]
  exact hne (flatMap_msbFirst_inj hlen (bitPoly_inj hbits (CharTwo.add_eq_zero.mp hdiff)))

-- Data words that make up the width of the register leave it empty only if they are what it held.
theorem register_append_eq_zero_iff (m t : List (BitVec v)) (ht : v * t.length = w) :
    register p 0#w (m ++ t) = 0#w ↔ poly (register p 0#w m) = bitPoly (t.flatMap msbFirst) := by
  have hrun : residue p (register p 0#w (m ++ t)) = AdjoinRoot.root (generator p) ^ w *
      AdjoinRoot.mk (generator p) (poly (register p 0#w m) + bitPoly (t.flatMap msbFirst)) := by
    rw [register, List.foldl_append, ← register, ← register, residue_register p hv, ht, residue, map_add, mul_add]
  have hdeg : (bitPoly (t.flatMap msbFirst)).degree < w := by
    rw [degree_lt_iff_coeff_zero]
    intro i hi
    rw [coeff_bitPoly, List.getD_eq_default _ _ (by rw [List.length_reverse, length_flatMap_msbFirst, ht]; exact hi),
      ofBool_false]
  constructor
  · intro hzero
    rw [hzero, residue, poly_zero, map_zero] at hrun
    have hdegree := (degree_add_le _ _).trans_lt (max_lt (degree_poly_lt (register p 0#w m)) hdeg)
    exact CharTwo.add_eq_zero.mp (eq_zero_of_root_pow_mul p hp hdegree hrun.symm)
  · intro hpoly
    rw [hpoly, CharTwo.add_self_eq_zero, map_zero, mul_zero] at hrun
    apply poly_inj
    rw [poly_zero, poly_eq_modByMonic p (hrun.trans (map_zero _).symm), zero_modByMonic]

end Detection

end RichardTest.ShiftRegister
