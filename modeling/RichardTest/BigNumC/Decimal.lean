import RichardTest.BigNumC.Canonical
import Mathlib.Data.List.GetD
import Mathlib.Data.List.Induction

namespace RichardTest.BigNumC

open Outcome Positional

section Written

-- The number that a string of decimal digits writes.
def written (s : List Char) : Int := Nat.ofDigitChars 10 s 0

def IsNumber (s : List Char) : Prop := ∀ c ∈ s, c.isDigit

theorem toNat_of_isDigit {c : Char} (h : c.isDigit) : ((c.toNat - '0'.toNat : Nat) : Int) = digitOf c := by
  have := digitOf_range h
  rw [digitOf] at this ⊢
  simp only [show '0'.toNat = 48 from rfl]
  omega

theorem written_append (s t : List Char) : written (s ++ t) = written s * 10 ^ t.length + written t := by
  rw [written, Nat.ofDigitChars_append, Nat.ofDigitChars_eq_ofDigitChars_zero, written, written]
  push_cast
  ring

theorem written_singleton {c : Char} (h : c.isDigit) : written [c] = digitOf c := by
  rw [written, Nat.ofDigitChars_cons, Nat.ofDigitChars_nil, ← toNat_of_isDigit h]
  simp

theorem written_cons {c : Char} (h : c.isDigit) (s : List Char) :
    written (c :: s) = digitOf c * 10 ^ s.length + written s := by
  rw [← List.singleton_append, written_append, written_singleton h]

theorem written_nonneg (s : List Char) : 0 ≤ written s := Int.natCast_nonneg _

theorem written_lt {s : List Char} (h : IsNumber s) : written s < 10 ^ s.length := by
  induction s with
  | nil => decide
  | cons c s ih =>
      obtain ⟨hc, hs⟩ := List.forall_mem_cons.mp h
      have hlow := ih hs
      have htop : digitOf c * 10 ^ s.length ≤ 9 * 10 ^ s.length :=
        mul_le_mul_of_nonneg_right (digitOf_range hc).2 (by positivity)
      rw [written_cons hc, List.length_cons, pow_succ]
      omega

theorem written_pos_iff {s : List Char} (h : IsNumber s) : 0 < written s ↔ ∃ c ∈ s, c ≠ '0' := by
  induction s with
  | nil => simp [written]
  | cons c s ih =>
      obtain ⟨hc, hs⟩ := List.forall_mem_cons.mp h
      have hrange := digitOf_range hc
      have hnn := written_nonneg s
      have hpow : (0 : Int) < 10 ^ s.length := by positivity
      rw [written_cons hc, List.exists_mem_cons_iff, ← ih hs]
      by_cases hzero : c = '0'
      · subst hzero
        simp [digitOf]
      · have hpos : 0 < digitOf c := by
          rcases hrange.1.lt_or_eq with hlt | heq
          · exact hlt
          · exact absurd (digitOf_eq_zero heq.symm) hzero
        refine iff_of_true ?_ (Or.inl hzero)
        have := mul_pos hpos hpow
        omega

theorem digitOf_lt_iff {c d : Char} : digitOf c < digitOf d ↔ c < d := by
  have hval : c < d ↔ c.toNat < d.toNat := Iff.rfl
  rw [digitOf, digitOf, hval]
  omega

theorem digitOf_injective : Function.Injective digitOf := by
  intro c d h
  unfold digitOf at h
  exact Char.toNat_inj.mp (by omega)

-- The first of two numbers in base `P` is the smaller one if its top digit is.
theorem add_lt_add_iff_top {P a b x y : Int} (hx : 0 ≤ x ∧ x < P) (hy : 0 ≤ y ∧ y < P) :
    a * P + x < b * P + y ↔ a < b ∨ (a = b ∧ x < y) := by
  rcases lt_trichotomy a b with hlt | rfl | hgt
  · have hmul : (a + 1) * P ≤ b * P := mul_le_mul_of_nonneg_right hlt (by omega)
    rw [add_mul, one_mul] at hmul
    exact iff_of_true (by omega) (Or.inl hlt)
  · omega
  · have hmul : (b + 1) * P ≤ a * P := mul_le_mul_of_nonneg_right hgt (by omega)
    rw [add_mul, one_mul] at hmul
    exact iff_of_false (by omega) (by omega)

-- Texts of one length have the order of the numbers.
theorem written_lt_iff {s t : List Char} (hlen : s.length = t.length) (hs : IsNumber s) (ht : IsNumber t) :
    written s < written t ↔ s < t := by
  induction s generalizing t with
  | nil =>
      rw [List.length_eq_zero_iff.mp hlen.symm]
      decide
  | cons c s ih =>
      cases t with
      | nil => cases hlen
      | cons d t =>
          obtain ⟨hc, hs⟩ := List.forall_mem_cons.mp hs
          obtain ⟨hd, ht⟩ := List.forall_mem_cons.mp ht
          have hlen' : s.length = t.length := Nat.succ.inj hlen
          have hslt := written_lt hs
          rw [hlen'] at hslt
          rw [written_cons hc, written_cons hd, hlen', List.cons_lt_cons_iff, ← ih hlen' hs ht,
            add_lt_add_iff_top ⟨written_nonneg s, hslt⟩ ⟨written_nonneg t, written_lt ht⟩, digitOf_lt_iff,
            digitOf_injective.eq_iff]

-- The digits that str_to_big_num stores, lowest first.
theorem value_digitOf {s : List Char} (h : IsNumber s) :
    value 10 (fun j => digitOf (s.getD (s.length - 1 - j) '\x00')) s.length = written s := by
  induction s using List.reverseRecOn with
  | nil => rfl
  | append_singleton s c ih =>
      have hs : IsNumber s := fun d hd => h d (List.mem_append_left _ hd)
      have hc : c.isDigit := h c (List.mem_append_right _ (List.mem_singleton_self c))
      have hlow : (s ++ [c]).getD (s.length + 1 - 1 - 0) '\x00' = c := by
        rw [Nat.add_sub_cancel, Nat.sub_zero, List.getD_append_right _ _ _ _ (Nat.le_refl _), Nat.sub_self,
          List.getD_cons_zero]
      have hhigh : ∀ j < s.length,
          digitOf ((s ++ [c]).getD (s.length + 1 - 1 - (j + 1)) '\x00') =
            digitOf (s.getD (s.length - 1 - j) '\x00') := by
        intro j hj
        rw [show s.length + 1 - 1 - (j + 1) = s.length - 1 - j by omega,
          List.getD_append _ _ _ _ (show s.length - 1 - j < s.length by omega)]
      rw [written_append, written_singleton hc, ← ih hs, List.length_append, List.length_singleton,
        value_succ_low, hlow, value_congr hhigh]
      ring

theorem strToBigNum_written {s : List Char} (hne : s ≠ []) (h : IsNumber s) :
    Yields (strToBigNum s) fun b => b.Digits ∧ b.wei = s.length ∧ b.value = written s := by
  apply (strToBigNum_yields hne h).mono
  intro b hspec
  obtain ⟨hd, -, hw, hc⟩ := hspec
  refine ⟨hd, hw, ?_⟩
  rw [BigNum.value, hw, ← value_digitOf h]
  exact value_congr hc

end Written

section OfInt

theorem intDigit_eq {m : Int} (hm : 0 ≤ m) (hmax : m < 1410065408) {j : Nat} (hj : j ≤ 9) :
    intDigit m j = m / 10 ^ j % 10 := by
  by_cases h : j ≤ 8
  · exact intDigit_of_lt hm h
  · rw [show j = 9 by omega, intDigit_nine hm]
    omega

-- Below 1410065408 the power of ten that wraps removes nothing, so the digits are those of the number.
theorem value_of_intDigit {m : Int} (hm : 0 ≤ m) (hmax : m < 1410065408) {b : BigNum}
    (hw : b.wei = countIntBit m) (hc : ∀ j < countIntBit m, b.cell j = intDigit m j) : b.value = m := by
  have hten := countIntBit_le hm (by omega)
  have hdigits : b.value = value 10 (fun j => m / 10 ^ j % 10) (countIntBit m) := by
    rw [BigNum.value, hw]
    refine value_congr fun j hj => ?_
    rw [hc j hj, intDigit_eq hm hmax (by omega)]
  have htotal := value_div_mod (b := 10) (by norm_num) m (countIntBit m)
  rw [Int.ediv_eq_zero_of_lt hm (countIntBit_bounds m hm).1, mul_zero, add_zero] at htotal
  rw [hdigits, htotal]

theorem intToBigNum_exact {m : Int} (hm : 0 ≤ m) (hmax : m < 1410065408) :
    Yields (intToBigNum m) fun b => b.Canonical ∧ b.value = m ∧ b.wei = countIntBit m := by
  have hgood := (intToBigNum_good hm hmax).and_ensures (intToBigNum_yields hm (by omega)).ensures
  apply hgood.mono
  intro b hspec
  obtain ⟨hb, -, -, hw, hc⟩ := hspec
  exact ⟨hb.toCanonical, value_of_intDigit hm hmax hw hc, hw⟩

-- From 1410065408 on the tenth digit is lost.
theorem intDigit_nine_eq_zero {m : Int} (hm : 1410065408 ≤ m) (hmax : m ≤ 2147483647) : intDigit m 9 = 0 := by
  rw [intDigit_nine (by omega)]
  omega

theorem countIntBit_eq_ten {m : Int} (hm : 1410065408 ≤ m) (hmax : m ≤ 2147483647) : countIntBit m = 10 := by
  have hle := countIntBit_le (m := m) (by omega) (by omega)
  have hlt := (countIntBit_bounds m (by omega)).1
  by_contra hne
  have : (10 : Int) ^ countIntBit m ≤ 10 ^ 9 := pow_le_pow_right₀ (by norm_num) (by omega)
  omega

theorem intToBigNum_leading_zero {m : Int} (hm : 1410065408 ≤ m) (hmax : m ≤ 2147483647) :
    Yields (intToBigNum m) fun b => ¬b.NoLeadingZero := by
  apply (intToBigNum_yields (m := m) (by omega) (by omega)).mono
  intro b hspec
  obtain ⟨-, -, hw, hc⟩ := hspec
  rw [countIntBit_eq_ten hm hmax] at hw hc
  rw [BigNum.NoLeadingZero, hw, hc 9 (by decide), intDigit_nine_eq_zero hm hmax]
  decide

-- The decimal text has as many characters as count_int_bit counts.
theorem length_toDigits {m : Int} (hm : 0 ≤ m) : (Nat.toDigits 10 m.toNat).length = countIntBit m := by
  obtain ⟨hlt, hge⟩ := countIntBit_bounds m hm
  have hpos := countIntBit_pos m
  have hcast : ∀ k, m.toNat < 10 ^ k ↔ m < 10 ^ k := by
    intro k
    rw [← Nat.cast_lt (α := Int), Int.toNat_of_nonneg hm]
    push_cast
    rfl
  apply Nat.le_antisymm
  · rw [Nat.length_toDigits_le_iff (by decide) hpos, hcast]
    exact hlt
  · by_contra hshort
    rcases hge with hone | hge
    · have := Nat.length_toDigits_pos (b := 10) (n := m.toNat)
      omega
    · have hfew : (Nat.toDigits 10 m.toNat).length ≤ countIntBit m - 1 := by omega
      have htwo : 0 < countIntBit m - 1 := (Nat.length_toDigits_pos).trans_le hfew
      rw [Nat.length_toDigits_le_iff (by decide) htwo, hcast] at hfew
      omega

theorem isNumber_toDigits (n : Nat) : IsNumber (Nat.toDigits 10 n) :=
  fun _ hc => Nat.isDigit_of_mem_toDigits (by decide) (by decide) hc

theorem written_toDigits {m : Int} (hm : 0 ≤ m) : written (Nat.toDigits 10 m.toNat) = m := by
  rw [written, Nat.ofDigitChars_ten_toDigits, Int.toNat_of_nonneg hm]

-- Two objects that hold the same digits.
def BigNum.SameDigits (b b' : BigNum) : Prop := b.wei = b'.wei ∧ ∀ i < b.wei, b.cell i = b'.cell i

theorem BigNum.Digits.sameDigits {b b' : BigNum} (h : b.Digits) (h' : b'.Digits) (hw : b.wei = b'.wei)
    (hv : b.value = b'.value) : b.SameDigits b' := by
  have hstep : ∀ x y : Int, x < y → x + 1 ≤ y := fun _ _ hlt => hlt
  refine ⟨hw, digits_unique (b := 10) (by norm_num) (fun i hi => ?_) (fun i hi => ?_) (fun i _ => hstep _ _)
    (fun i _ => hstep _ _) ?_⟩
  · have := h.digit i hi
    omega
  · have := h'.digit i (by omega)
    omega
  · rw [BigNum.value, BigNum.value, ← hw] at hv
    exact hv

-- The number comes out in its canonical form, with the digits of its decimal text, where the tenth power of ten
-- wraps to more than the number.
theorem intToBigNum_right_iff {m : Int} (hm : 0 ≤ m) (hmax : m ≤ 2147483647) :
    Yields (intToBigNum m) (fun b => b.Canonical ∧ b.value = m ∧
      Yields (strToBigNum (Nat.toDigits 10 m.toNat)) b.SameDigits) ↔ m < 1410065408 := by
  constructor
  · intro hright
    by_contra hlarge
    obtain ⟨b, h', hrun, hb, -⟩ := hright fun _ => 0
    exact (intToBigNum_leading_zero (by omega) hmax).ensures _ _ _ hrun hb.noLeadingZero
  · intro hsmall
    apply (intToBigNum_exact hm hsmall).mono
    intro b hspec
    obtain ⟨hb, hv, hw⟩ := hspec
    refine ⟨hb, hv, ?_⟩
    apply (strToBigNum_written Nat.toDigits_ne_nil (isNumber_toDigits m.toNat)).mono
    intro b' hspec
    obtain ⟨hb', hw', hv'⟩ := hspec
    rw [length_toDigits hm] at hw'
    rw [written_toDigits hm] at hv'
    exact hb.digits.sameDigits hb' (hw.trans hw'.symm) (hv.trans hv'.symm)

theorem intToBigNum_right_billion :
    Yields (intToBigNum 1000000000) fun b => b.Canonical ∧ b.value = 1000000000 ∧
      Yields (strToBigNum (Nat.toDigits 10 (Int.toNat 1000000000))) b.SameDigits :=
  (intToBigNum_right_iff (by decide) (by decide)).mpr (by decide)

-- 1500000000 comes out as 0500000000.
theorem intToBigNum_loses_top :
    ¬∀ m : Int, 0 ≤ m → m ≤ 2147483647 →
      Yields (intToBigNum m) fun b => b.Canonical ∧ b.value = m ∧
        Yields (strToBigNum (Nat.toDigits 10 m.toNat)) b.SameDigits := by
  intro hall
  obtain ⟨b, h', hrun, hb, -⟩ := hall 1500000000 (by decide) (by decide) fun _ => 0
  have htop : (intToBigNum 1500000000 fun _ => 0).map (fun p => (p.1.wei, p.1.cell 9)) = some (10, 0) := by
    decide +kernel
  rw [hrun, Option.map_some, Option.some.injEq, Prod.mk.injEq] at htop
  obtain ⟨hw, hc⟩ := htop
  have hform := hb.noLeadingZero
  rw [BigNum.NoLeadingZero, hw, hc] at hform
  exact absurd hform (by decide)

end OfInt

section Compare

-- The program of the comparison of two strings.
def compareStrings (s t : List Char) : Prog Int := do
  let b1 ← strToBigNum s
  let b2 ← strToBigNum t
  bigNumCmp b1 b2

-- The order of two numbers as big_num_cmp returns it.
def order (x y : Int) : Int := if y < x then 1 else if x < y then -1 else 0

theorem order_eq_one_iff {x y : Int} : order x y = 1 ↔ y < x := by
  unfold order
  by_cases hlt : y < x
  · rw [if_pos hlt]
    exact iff_of_true rfl hlt
  · rw [if_neg hlt]
    refine iff_of_false ?_ hlt
    split_ifs <;> decide

theorem order_eq_neg_one_iff {x y : Int} : order x y = -1 ↔ x < y := by
  unfold order
  by_cases hlt : x < y
  · rw [if_neg hlt.asymm, if_pos hlt]
    exact iff_of_true rfl hlt
  · rw [if_neg hlt]
    refine iff_of_false ?_ hlt
    split_ifs <;> decide

-- The length decides first.
theorem compareStrings_yields {s t : List Char} (hs : s ≠ []) (ht : t ≠ []) (hsd : IsNumber s)
    (htd : IsNumber t) :
    Yields (compareStrings s t) fun r =>
      r = if s.length = t.length then order (written s) (written t) else order s.length t.length := by
  apply (strToBigNum_written hs hsd).bind
  intro b1 hspec
  obtain ⟨h1, hw1, hv1⟩ := hspec
  apply (strToBigNum_written ht htd).bind
  intro b2 hspec
  obtain ⟨h2, hw2, hv2⟩ := hspec
  apply (bigNumCmp_yields h1 h2).mono
  intro r hr
  unfold BigNum.Less at hr
  rw [hw1, hw2, hv1, hv2] at hr
  unfold order
  split_ifs <;> omega

-- The longer text `s` writes the larger number: it has a digit other than 0 above the length of `t`, or what it
-- has below that comes after `t`.
def Exceeds (s t : List Char) : Prop :=
  (∃ c ∈ s.take (s.length - t.length), c ≠ '0') ∨ t < s.drop (s.length - t.length)

instance (s t : List Char) : Decidable (Exceeds s t) :=
  decidable_of_iff ((s.take (s.length - t.length)).any (· != '0') ∨ t < s.drop (s.length - t.length))
    (by simp [Exceeds, List.any_eq_true])

-- Texts whose lengths may be compared in place of the numbers.
def LengthsTell (s t : List Char) : Prop :=
  (t.length < s.length → Exceeds s t) ∧ (s.length < t.length → Exceeds t s)

instance (s t : List Char) : Decidable (LengthsTell s t) := inferInstanceAs (Decidable (_ ∧ _))

theorem written_lt_append_iff {p q t : List Char} (hp : IsNumber p) (hq : IsNumber q) (ht : IsNumber t)
    (hlen : q.length = t.length) : written t < written (p ++ q) ↔ (∃ c ∈ p, c ≠ '0') ∨ t < q := by
  have hlow := written_lt hq
  rw [hlen] at hlow
  have htop := add_lt_add_iff_top (a := 0) (b := written p) ⟨written_nonneg t, written_lt ht⟩
    ⟨written_nonneg q, hlow⟩
  rw [zero_mul, zero_add] at htop
  rw [← written_pos_iff hp, ← written_lt_iff hlen.symm ht hq, written_append, hlen, htop]
  have := written_nonneg p
  omega

theorem exceeds_iff {s t : List Char} (hs : IsNumber s) (ht : IsNumber t) (hlen : t.length ≤ s.length) :
    Exceeds s t ↔ written t < written s := by
  have hdrop : (s.drop (s.length - t.length)).length = t.length := by
    rw [List.length_drop]
    omega
  have hhigh : IsNumber (s.take (s.length - t.length)) := fun c hc => hs c (List.mem_of_mem_take hc)
  have hlow : IsNumber (s.drop (s.length - t.length)) := fun c hc => hs c (List.mem_of_mem_drop hc)
  have hcut := written_lt_append_iff hhigh hlow ht hdrop
  rw [List.take_append_drop] at hcut
  exact hcut.symm

-- Only the length is compared where the lengths differ, and str_to_big_num keeps leading zeros.
theorem compareStrings_right_iff {s t : List Char} (hs : s ≠ []) (ht : t ≠ []) (hsd : ∀ c ∈ s, c.isDigit)
    (htd : ∀ c ∈ t, c.isDigit) :
    Yields (compareStrings s t) (fun r => r = order (written s) (written t)) ↔ LengthsTell s t := by
  have hcode := compareStrings_yields hs ht hsd htd
  have hvalue : Yields (compareStrings s t) (fun r => r = order (written s) (written t)) ↔
      (if s.length = t.length then order (written s) (written t) else order s.length t.length) =
        order (written s) (written t) := by
    constructor
    · intro hright
      obtain ⟨r, h', hrun, hr⟩ := hcode fun _ => 0
      rw [← hr]
      exact hright.ensures _ _ _ hrun
    · intro heq
      exact hcode.mono fun r hr => hr.trans heq
  rw [hvalue, LengthsTell]
  rcases lt_trichotomy s.length t.length with hlt | heq | hgt
  · rw [if_neg hlt.ne, order_eq_neg_one_iff.mpr (by omega), eq_comm, order_eq_neg_one_iff,
      ← exceeds_iff htd hsd hlt.le]
    exact ⟨fun h => ⟨fun hgt => absurd hgt hlt.asymm, fun _ => h⟩, fun h => h.2 hlt⟩
  · rw [if_pos heq]
    exact iff_of_true rfl ⟨fun h => absurd heq h.ne', fun h => absurd heq h.ne⟩
  · rw [if_neg hgt.ne', order_eq_one_iff.mpr (by omega), eq_comm, order_eq_one_iff, ← exceeds_iff hsd htd hgt.le]
    exact ⟨fun h => ⟨fun _ => h, fun hlt => absurd hlt hgt.asymm⟩, fun h => h.1 hgt⟩

theorem compareStrings_right_two :
    Yields (compareStrings ['1', '2'] ['8']) fun r => r = order (written ['1', '2']) (written ['8']) :=
  (compareStrings_right_iff (by decide) (by decide) (by simp) (by simp)).mpr (by decide)

-- 07 comes out above 8.
theorem compareStrings_leading_zero :
    ¬∀ s t : List Char, s ≠ [] → t ≠ [] → (∀ c ∈ s, c.isDigit) → (∀ c ∈ t, c.isDigit) →
      Yields (compareStrings s t) fun r => r = order (written s) (written t) := by
  intro hall
  obtain ⟨r, h', hrun, hr⟩ := hall ['0', '7'] ['8'] (by decide) (by decide) (by simp) (by simp) fun _ => 0
  have hone : (compareStrings ['0', '7'] ['8'] fun _ => 0).map Prod.fst = some 1 := by decide
  rw [hrun, hr] at hone
  have hcmp : order (written ['0', '7']) (written ['8']) = 1 := Option.some.inj hone
  exact absurd hcmp (by decide)

end Compare

end RichardTest.BigNumC
