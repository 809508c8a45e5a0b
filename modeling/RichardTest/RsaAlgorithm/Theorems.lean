import RichardTest.RsaAlgorithm
import RichardTest.RsaJava.Theorems

namespace RichardTest.RsaAlgorithm

open RichardTest.RsaJava (JInt JChar toNat_iterate_srem)
open RichardTest.SignedWord

section Loop

-- The loop of both programs, in which a product that does not fit wraps as it does in Java.
def wrappedFlag (n m : BitVec 32) (j : Nat) : BitVec 32 := (fun flag => (flag * m).srem n)^[j] 1#32

-- No product of the loop reaches the sign bit: the powers of `c` below `e`, reduced, times `c`.
def ProductsFit (n e c : Nat) : Prop := ∀ j < e, c ^ j % n * c < 2 ^ 31

instance (n e c : Nat) : Decidable (ProductsFit n e c) := inferInstanceAs (Decidable (∀ j < e, _))

theorem ProductsFit.mono {n e e' c : Nat} (h : ProductsFit n e c) (he : e' ≤ e) : ProductsFit n e' c :=
  fun j hj => h j (hj.trans_le he)

-- A bound on the modulus and the character that does for every exponent.
theorem productsFit_of_mul_le {n c : Nat} (hn : 0 < n) (h : n * c ≤ 2 ^ 31) (e : Nat) : ProductsFit n e c := by
  intro j _
  rcases Nat.eq_zero_or_pos c with rfl | hc
  · exact Nat.two_pow_pos 31
  · exact (Nat.mul_lt_mul_of_pos_right (Nat.mod_lt _ hn) hc).trans_le h

variable {n m : BitVec 32} (hn : 1 < n.toNat) (hn' : 2 * n.toNat < 2 ^ 32)

include hn hn'

theorem toNat_wrappedFlag {j : Nat} (hfit : ProductsFit n.toNat j m.toNat) :
    (wrappedFlag n m j).toNat = m.toNat ^ j % n.toNat := by
  refine toNat_iterate_srem rfl hn hn' j fun i hi => ?_
  have := hfit i hi
  omega

variable (hm : 2 * m.toNat < 2 ^ 32)

include hm

-- As long as the flag is right, the next product tells whether it stays so.
theorem overflow_wrappedFlag_iff {j : Nat} (hfit : ProductsFit n.toNat j m.toNat) :
    (wrappedFlag n m j).smulOverflow m = true ↔ ¬ m.toNat ^ j % n.toNat * m.toNat < 2 ^ 31 := by
  have hflag := toNat_wrappedFlag hn hn' hfit
  have hlt : (wrappedFlag n m j).toNat < n.toNat := hflag.trans_lt (Nat.mod_lt _ (by omega))
  rw [smulOverflow_iff (by omega) hm, hflag, Nat.not_lt]

theorem no_overflow_iff (e : Nat) :
    (∀ j < e, (wrappedFlag n m j).smulOverflow m = false) ↔ ProductsFit n.toNat e m.toNat := by
  constructor
  · intro h j
    -- the products before the one at hand fit, so that its flag is the reduced power
    induction j using Nat.strong_induction_on with
    | _ j ih =>
        intro hj
        have hfit : ProductsFit n.toNat j m.toNat := fun i hi => ih i hi (hi.trans hj)
        by_contra hover
        have := (overflow_wrappedFlag_iff hn hn' hm hfit).mpr hover
        rw [h j hj] at this
        contradiction
  · intro hfit j hj
    by_contra hover
    rw [Bool.not_eq_false, overflow_wrappedFlag_iff hn hn' hm (hfit.mono hj.le)] at hover
    exact hover (hfit j hj)

-- The C loop has a flag exactly as long as the products fit.
theorem flagAfter_eq_some_iff (j : Nat) (r : CInt) :
    flagAfter n m j = some r ↔ ProductsFit n.toNat j m.toNat ∧ wrappedFlag n m j = r := by
  induction j generalizing r with
  | zero =>
      rw [flagAfter, Option.some_inj]
      exact ⟨fun h => ⟨fun i hi => absurd hi (Nat.not_lt_zero i), h⟩, fun h => h.2⟩
  | succ j ih =>
      have hzero : n ≠ 0#32 := by rintro rfl; exact absurd hn (by decide)
      have hneg : n ≠ -1#32 := by rintro rfl; exact absurd hn' (by decide)
      rw [flagAfter, Option.bind_eq_bind, Option.bind_eq_some_iff]
      simp only [ih, mulInt, remInt, hzero, hneg, and_false, or_self, if_false]
      constructor
      · rintro ⟨flag, ⟨hfit, rfl⟩, hrest⟩
        split_ifs at hrest with hover
        · cases hrest
        · refine ⟨fun i hi => ?_, ?_⟩
          · rcases Nat.lt_succ_iff_lt_or_eq.mp hi with hi | rfl
            · exact hfit i hi
            · rw [overflow_wrappedFlag_iff hn hn' hm hfit, not_not] at hover
              exact hover
          · rw [wrappedFlag, Function.iterate_succ_apply', ← wrappedFlag]
            exact Option.some.inj hrest
      · rintro ⟨hfit, rfl⟩
        have hfit' := hfit.mono (Nat.le_succ j)
        have hover : ¬ (wrappedFlag n m j).smulOverflow m = true := by
          rw [overflow_wrappedFlag_iff hn hn' hm hfit', not_not]
          exact hfit j (Nat.lt_succ_self j)
        refine ⟨_, ⟨hfit', rfl⟩, ?_⟩
        rw [if_neg hover, Option.bind_some, wrappedFlag, wrappedFlag, Function.iterate_succ_apply']

end Loop

section Stores

-- The cells hold the powers of the characters.
def Powers (e n : BitVec 32) (chars : List Nat) (cypher : List (BitVec 32)) : Prop :=
  cypher.map BitVec.toNat = chars.map fun c => c ^ e.toNat % n.toNat

-- encrypt_dt of rsa_algorithm.c returns, and what it has stored is right.
def StoresC (e n : CInt) (plainTxt : List SChar) : Prop :=
  ∃ cypher, encryptDt e n plainTxt = some cypher ∧ Powers e n (plainTxt.map BitVec.toNat) cypher

-- The encrypt_dt in Java always returns. No product of ints on the way overflows.
def StoresJava (e n : JInt) (plainTxt : List JChar) : Prop :=
  Powers e n (plainTxt.map BitVec.toNat) (RsaJava.encryptDt e n plainTxt) ∧
    ∀ c ∈ plainTxt, ∀ j < e.toNat, (wrappedFlag n (c.setWidth 32) j).smulOverflow (c.setWidth 32) = false

theorem mapM_eq_some_iff {α β : Type} (f : α → Option β) (l : List α) (r : List β) :
    l.mapM f = some r ↔ l.map f = r.map some := by
  induction l generalizing r with
  | nil => cases r <;> simp
  | cons a l ih =>
      rw [List.mapM_cons, Option.bind_eq_bind, Option.bind_eq_some_iff]
      simp only [Option.bind_eq_bind, Option.bind_eq_some_iff, ih]
      constructor
      · rintro ⟨b, hb, r', hr', hr⟩
        obtain rfl := Option.some.inj hr
        rw [List.map_cons, List.map_cons, hb, hr']
      · intro h
        cases r with
        | nil => cases h
        | cons b r =>
            rw [List.map_cons, List.map_cons, List.cons.injEq] at h
            exact ⟨b, h.1, r, h.2, rfl⟩

variable {e n : BitVec 32} (he : 0 ≤ e.toInt) (hn : 2 ≤ n.toInt)

include he hn

theorem bounds_of_toInt : e.toInt.toNat = e.toNat ∧ 1 < n.toNat ∧ 2 * n.toNat < 2 ^ 32 := by
  have hn' := two_mul_toNat_lt (x := n) (by omega)
  refine ⟨toNat_toInt_of_small (two_mul_toNat_lt he), ?_, hn'⟩
  rw [BitVec.toInt_eq_toNat_cond, if_pos hn'] at hn
  omega

-- All cells are filled with the powers if all the loops have a flag.
theorem storesC_iff (plainTxt : List SChar) (hlen : plainTxt.length = SIZE) (hchars : ∀ c ∈ plainTxt, 0 ≤ c.toInt) :
    StoresC e n plainTxt ↔ ∀ c ∈ plainTxt, ProductsFit n.toNat e.toNat c.toNat := by
  obtain ⟨hrounds, hone, hn'⟩ := bounds_of_toInt he hn
  have hc : ∀ c ∈ plainTxt, (c.signExtend 32).toNat = c.toNat ∧ 2 * (c.signExtend 32).toNat < 2 ^ 32 := by
    intro c hc
    have hsmall := two_mul_toNat_lt (hchars c hc)
    have hval := toNat_signExtend_of_small (v := 32) hsmall (by decide)
    exact ⟨hval, by omega⟩
  have hflag : ∀ c ∈ plainTxt, ∀ r, flagAfter n (c.signExtend 32) e.toNat = some r ↔
      ProductsFit n.toNat e.toNat c.toNat ∧ wrappedFlag n (c.signExtend 32) e.toNat = r := by
    intro c hmem r
    have h := flagAfter_eq_some_iff hone hn' (hc c hmem).2 e.toNat r
    rwa [(hc c hmem).1] at h
  rw [StoresC, encryptDt, if_pos hlen.ge, List.take_of_length_le hlen.le, hrounds]
  simp only [mapM_eq_some_iff, List.map_map]
  constructor
  · rintro ⟨cypher, hrun, -⟩ c hmem
    have hsome : flagAfter n (c.signExtend 32) e.toNat ∈ cypher.map some := by
      rw [← hrun]
      exact List.mem_map_of_mem hmem
    obtain ⟨r, -, hr⟩ := List.mem_map.mp hsome
    exact ((hflag c hmem r).mp hr.symm).1
  · intro hfit
    refine ⟨plainTxt.map fun c => wrappedFlag n (c.signExtend 32) e.toNat, ?_, ?_⟩
    · rw [List.map_map]
      exact List.map_congr_left fun c hmem => (hflag c hmem _).mpr ⟨hfit c hmem, rfl⟩
    · rw [Powers, List.map_map, List.map_map]
      refine List.map_congr_left fun c hmem => ?_
      have hfit' : ProductsFit n.toNat e.toNat (c.signExtend 32).toNat := by
        rw [(hc c hmem).1]
        exact hfit c hmem
      rw [Function.comp_apply, Function.comp_apply, toNat_wrappedFlag hone hn' hfit', (hc c hmem).1]

theorem storesJava_iff (plainTxt : List JChar) :
    StoresJava e n plainTxt ↔ ∀ c ∈ plainTxt, ProductsFit n.toNat e.toNat c.toNat := by
  obtain ⟨hrounds, hone, hn'⟩ := bounds_of_toInt he hn
  have hc : ∀ c : JChar, (c.setWidth 32).toNat = c.toNat ∧ 2 * (c.setWidth 32).toNat < 2 ^ 32 := by
    intro c
    have hlt := c.isLt
    rw [BitVec.toNat_setWidth, Nat.mod_eq_of_lt (by omega)]
    exact ⟨rfl, by omega⟩
  have hfits : ∀ c : JChar, (∀ j < e.toNat, (wrappedFlag n (c.setWidth 32) j).smulOverflow (c.setWidth 32) = false) ↔
      ProductsFit n.toNat e.toNat c.toNat := by
    intro c
    have h := no_overflow_iff hone hn' (hc c).2 e.toNat
    rwa [(hc c).1] at h
  simp only [StoresJava, hfits]
  refine ⟨And.right, fun hfit => ⟨?_, hfit⟩⟩
  rw [Powers, RsaJava.encryptDt, List.map_map, List.map_map]
  refine List.map_congr_left fun c hmem => ?_
  have hfit' : ProductsFit n.toNat e.toNat (c.setWidth 32).toNat := by
    rw [(hc c).1]
    exact hfit c hmem
  have hval := toNat_wrappedFlag hone hn' hfit'
  rw [(hc c).1, ← hrounds] at hval
  rw [Function.comp_apply, Function.comp_apply, ← hrounds]
  exact hval

end Stores

-- Both programs store the powers of the characters exactly where the products fit an int.
theorem encrypt_stores_powers_iff (e n : BitVec 32) (he : 0 ≤ e.toInt) (hn : 2 ≤ n.toInt) :
    (∀ plainTxt : List SChar, plainTxt.length = SIZE → (∀ c ∈ plainTxt, 0 ≤ c.toInt) →
      (StoresC e n plainTxt ↔ ∀ c ∈ plainTxt, ProductsFit n.toNat e.toNat c.toNat)) ∧
    ∀ plainTxt : List JChar, StoresJava e n plainTxt ↔ ∀ c ∈ plainTxt, ProductsFit n.toNat e.toNat c.toNat :=
  ⟨storesC_iff he hn, storesJava_iff he hn⟩

-- The key of main and a text of 'Z', for which a bound on the modulus is enough.
theorem encrypt_stores_powers_main :
    StoresC 480317#32 968087#32 (List.replicate 20 0x5A#8) ∧ StoresJava 480317#32 968087#32 [0x5A#16] := by
  have hfit : ProductsFit 968087 480317 90 := productsFit_of_mul_le (by decide) (by decide) _
  obtain ⟨hc, hjava⟩ := encrypt_stores_powers_iff 480317#32 968087#32 (by decide) (by decide)
  refine ⟨(hc _ rfl (by decide)).mpr fun c hmem => ?_, (hjava _).mpr fun c hmem => ?_⟩
  · obtain rfl := (List.mem_replicate.mp hmem).2
    exact hfit
  · obtain rfl := List.mem_singleton.mp hmem
    exact hfit

-- The modulus that the source documents, and the first letter of its text. In Java the sixth product turns
-- negative.
theorem encrypt_overflows_documented :
    ¬ StoresC 6#32 112444807#32 (List.replicate 20 0x68#8) ∧ ¬ StoresJava 6#32 112444807#32 [0x68#16] ∧
      RsaJava.encryptDt 6#32 112444807#32 [0x68#16] = [BitVec.ofInt 32 (-44459305)] ∧
      104 ^ 6 % 112444807 = 90050132 := by
  have hfit : ¬ ProductsFit 112444807 6 104 := by decide
  refine ⟨fun h => hfit ?_, fun h => hfit ?_, by decide, by decide⟩
  · exact (storesC_iff (by decide) (by decide) _ rfl (by decide)).mp h 0x68#8 (by decide)
  · exact (storesJava_iff (by decide) (by decide) _).mp h 0x68#16 (by decide)

end RichardTest.RsaAlgorithm
