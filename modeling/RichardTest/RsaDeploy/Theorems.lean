import RichardTest.RsaDeploy
import RichardTest.SignedWord
import Mathlib.Data.List.Basic
import Mathlib.Tactic.Ring

namespace RichardTest.RsaDeploy

open RichardTest.RsaJava (JInt JByte getBytes getHexByte getHex int2char cypherHex)

section Encode

theorem getHexByte_eq (b : JByte) : getHexByte b = [b.toNat / 16, b.toNat % 16].map int2char := by
  rw [getHexByte]
  split_ifs with hb
  · rw [hb]
    rfl
  · rfl

-- Below the sign bit the shifts of getBytes take the digits of the number to the base 256.
theorem getBytes_eq {a : JInt} (ha : 0 ≤ a.toInt) :
    (getBytes a).map BitVec.toNat =
      [a.toNat / 2 ^ 24 % 2 ^ 8, a.toNat / 2 ^ 16 % 2 ^ 8, a.toNat / 2 ^ 8 % 2 ^ 8, a.toNat % 2 ^ 8] := by
  have hmsb : a.msb = false := BitVec.msb_eq_false_iff_two_mul_lt.mpr (SignedWord.two_mul_toNat_lt ha)
  have hmask (x : JInt) : ((x &&& 0xFF#32).setWidth 8).toNat = x.toNat % 2 ^ 8 := by
    rw [BitVec.toNat_setWidth, BitVec.toNat_and, show (0xFF#32).toNat = 2 ^ 8 - 1 from rfl,
      Nat.and_two_pow_sub_one_eq_mod, Nat.mod_mod]
  rw [getBytes]
  simp only [List.map_cons, List.map_nil, hmask, BitVec.sshiftRight_eq_of_msb_false hmsb,
    BitVec.toNat_ushiftRight, Nat.shiftRight_eq_div_pow]

theorem digitsValue_append (ds es : List Nat) :
    digitsValue (ds ++ es) = digitsValue ds * 16 ^ es.length + digitsValue es := by
  have hfold (v : Nat) : es.foldl (fun v d => v * 16 + d) v = v * 16 ^ es.length + digitsValue es := by
    induction es generalizing v with
    | nil => simp [digitsValue]
    | cons d es ih =>
        rw [digitsValue, List.foldl_cons, List.foldl_cons, ih, ih (0 * 16 + d), List.length_cons]
        ring
  rw [digitsValue, List.foldl_append, hfold]
  rfl

-- The eight digits that stand for an int.
theorem hex_digits {a : JInt} (ha : 0 ≤ a.toInt) :
    ∃ ds, getHex (getBytes a) = ds.map int2char ∧ ds.length = 8 ∧ (∀ d ∈ ds, d < 16) ∧
      digitsValue ds = a.toNat := by
  refine ⟨((getBytes a).map BitVec.toNat).flatMap fun b => [b / 16, b % 16], ?_, ?_, ?_, ?_⟩
  · rw [getHex, List.map_flatMap, List.flatMap_map]
    apply List.flatMap_congr
    intro b _
    exact getHexByte_eq b
  · rw [getBytes_eq ha]
    rfl
  · intro d hd
    obtain ⟨b, hb, hd⟩ := List.mem_flatMap.mp hd
    obtain ⟨x, -, rfl⟩ := List.mem_map.mp hb
    simp only [List.mem_cons, List.not_mem_nil, or_false] at hd
    have := x.isLt
    omega
  · rw [getBytes_eq ha]
    simp only [List.flatMap_cons, List.flatMap_nil, List.cons_append, List.nil_append, digitsValue,
      List.foldl_cons, List.foldl_nil]
    have := a.isLt
    omega

end Encode

section Decode

theorem int2char_digit {d : Nat} (h : d < 16) : hexDigit? (int2char d) = some d := by
  revert d
  decide

theorem int2char_plain {d : Nat} (h : d < 16) :
    isSpace (int2char d) = false ∧ int2char d ≠ '-' ∧ int2char d ≠ '+' ∧ int2char d ≠ 'x' ∧
      int2char d ≠ 'X' := by
  revert d
  decide

theorem digitRun_append {ds : List Nat} (hds : ∀ d ∈ ds, d < 16) (m : List Char) :
    digitRun (ds.map int2char ++ m) = (digitRun m).map (ds ++ ·) := by
  induction ds with
  | nil => simp
  | cons d ds ih =>
      rw [List.map_cons, List.cons_append, digitRun, int2char_digit (hds d List.mem_cons_self)]
      dsimp only
      rw [ih fun x hx => hds x (List.mem_cons_of_mem d hx), Option.map_map]
      rfl

theorem strtol_digits {d d' : Nat} {ds : List Nat} (hds : ∀ x ∈ d :: d' :: ds, x < 16) (m : List Char) :
    strtol ((d :: d' :: ds).map int2char ++ m) =
      (digitRun m).map fun es => toLong (digitsValue (d :: d' :: ds ++ es)) := by
  obtain ⟨hspace, hminus, hplus, -⟩ := int2char_plain (hds d List.mem_cons_self)
  obtain ⟨-, -, -, hx, hX⟩ := int2char_plain (hds d' (List.mem_cons_of_mem d List.mem_cons_self))
  have hskip : skipHexPrefix ((d :: d' :: ds).map int2char ++ m) = (d :: d' :: ds).map int2char ++ m := by
    rw [List.map_cons, List.map_cons, List.cons_append, List.cons_append, skipHexPrefix.eq_def]
    split
    · rename_i heq
      obtain ⟨hd, heq⟩ := List.cons.inj heq
      obtain ⟨rfl, hrest⟩ := List.cons.inj heq
      rw [if_neg fun h => h.1.elim hx hX, hd, hrest]
    · rfl
  have hdrop : ((d :: d' :: ds).map int2char ++ m).dropWhile isSpace = (d :: d' :: ds).map int2char ++ m := by
    rw [List.map_cons, List.cons_append, List.dropWhile_cons_of_neg (by rw [hspace]; decide)]
  rw [strtol, hdrop]
  split
  · rename_i heq
    exact absurd (List.cons.inj heq).1 hminus
  · rename_i heq
    exact absurd (List.cons.inj heq).1 hplus
  · rw [hskip, digitRun_append hds, Option.map_map]
    rfl

theorem drop_blocks {α : Type} {f : α → List Char} {n : Nat} (l : List α) (hf : ∀ x ∈ l, (f x).length = n)
    (i : Nat) : (l.flatMap f).drop (i * n) = (l.drop i).flatMap f := by
  induction i generalizing l with
  | zero => simp
  | succ i ih =>
      cases l with
      | nil => simp
      | cons x l =>
          have hx := hf x List.mem_cons_self
          rw [List.flatMap_cons, List.drop_succ_cons, ← ih l fun y hy => hf y (List.mem_cons_of_mem x hy),
            Nat.succ_mul, Nat.add_comm, ← List.drop_drop, ← hx, List.drop_left]

theorem strncpyStep_append {a b : List Char} (ha : a.length = 8) : strncpyStep (a ++ b) = a := by
  rw [strncpyStep, ← ha, List.take_left, List.length_append, Nat.sub_eq_zero_of_le (Nat.le_add_right _ _)]
  simp

-- What a round reads: the digits of the int, and behind them those that the memory happens to hold.
theorem parseInt_eq {cypher : List JInt} (hcypher : ∀ x ∈ cypher, 0 ≤ x.toInt) (behind : List Char) (i : Nat)
    (hi : i < cypher.length) :
    parseInt (cypherHex cypher) behind i =
      (digitRun behind).map fun es =>
        BitVec.ofInt 32 (toLong ((cypher[i].toNat * 16 ^ es.length + digitsValue es : Nat) : Int)) := by
  have hblock : ∀ x ∈ cypher, (getHex (getBytes x)).length = 8 := by
    intro x hx
    obtain ⟨ds, hhex, hlen, -⟩ := hex_digits (hcypher x hx)
    rw [hhex, List.length_map, hlen]
  have htext : (cypherHex cypher).drop (i * 8) =
      getHex (getBytes cypher[i]) ++ (cypher.drop (i + 1)).flatMap fun x => getHex (getBytes x) := by
    have hdrop := drop_blocks cypher hblock i
    rw [List.drop_eq_getElem_cons hi, List.flatMap_cons] at hdrop
    rw [cypherHex, getHex, List.flatMap_assoc]
    exact hdrop
  obtain ⟨ds, hhex, hlen, hlt, hvalue⟩ := hex_digits (hcypher cypher[i] (List.getElem_mem hi))
  rw [parseInt, htext, strncpyStep_append (hblock _ (List.getElem_mem hi)), hhex]
  obtain ⟨d, d', ds, rfl⟩ : ∃ d d' ds', ds = d :: d' :: ds' := by
    match ds, hlen with
    | d :: d' :: ds', _ => exact ⟨d, d', ds', rfl⟩
  rw [strtol_digits hlt, Option.map_map]
  congr 1
  funext es
  rw [Function.comp_apply, digitsValue_append, hvalue]

theorem parseLoop_eq_some_iff (text : List Char) (behind : Nat → List Char) (rounds i : Nat) (xs : List JInt) :
    parseLoop text behind rounds i = some xs ↔
      xs.length = rounds ∧ ∀ j < rounds, parseInt text (behind (i + j)) (i + j) = xs[j]? := by
  induction rounds generalizing i xs with
  | zero =>
      rw [parseLoop, Option.some.injEq, List.length_eq_zero_iff]
      constructor
      · intro h
        exact ⟨h.symm, fun j hj => absurd hj (Nat.not_lt_zero j)⟩
      · intro h
        exact h.1.symm
  | succ rounds ih =>
      rw [parseLoop]
      simp only [Option.bind_eq_bind, Option.bind_eq_some_iff, ih, Option.some.injEq]
      constructor
      · intro h
        obtain ⟨x, hx, xs', ⟨hlen, hget⟩, rfl⟩ := h
        refine ⟨by rw [List.length_cons, hlen], fun j hj => ?_⟩
        cases j with
        | zero => exact hx
        | succ j =>
            rw [List.getElem?_cons_succ, ← hget j (by omega), Nat.add_right_comm, Nat.add_assoc]
      · intro h
        obtain ⟨hlen, hget⟩ := h
        cases xs with
        | nil => cases hlen
        | cons x xs =>
            refine ⟨x, hget 0 (Nat.succ_pos _), xs, ⟨Nat.succ.inj hlen, fun j hj => ?_⟩, rfl⟩
            rw [Nat.add_right_comm, Nat.add_assoc]
            exact hget (j + 1) (by omega)

end Decode

-- Digits behind the int are read as part of it, and spoil 0 or 1: a further digit makes 1 even, and a
-- number that does not fit into a long becomes -1.
theorem zero_or_one_spoiled {es : List Nat} (hes : es ≠ []) :
    ¬ ∀ a : JInt, a = 0#32 ∨ a = 1#32 →
      BitVec.ofInt 32 (toLong ((a.toNat * 16 ^ es.length + digitsValue es : Nat) : Int)) = a := by
  intro h
  have hzero := congrArg BitVec.toNat (h 0#32 (.inl rfl))
  have hone := congrArg BitVec.toNat (h 1#32 (.inr rfl))
  rw [BitVec.toNat_ofInt, toLong] at hzero hone
  obtain ⟨k, hk⟩ := Nat.exists_eq_succ_of_ne_zero (List.length_pos_iff.mpr hes).ne'
  rw [hk, Nat.pow_succ] at hzero hone
  simp only [BitVec.toNat_ofNat] at hzero hone
  omega

theorem ofInt_toLong_self (a : JInt) : BitVec.ofInt 32 (toLong (a.toNat : Int)) = a := by
  apply BitVec.eq_of_toNat_eq
  have := a.isLt
  rw [BitVec.toNat_ofInt, toLong]
  omega

section Transport

variable {behind : Nat → List Char} (h : ∀ cypher : List JInt, cypher.length = SIZE →
  (∀ x ∈ cypher, 0 ≤ x.toInt) → intCypher (cypherHex cypher) behind = some cypher)

include h

-- One round of a transport that never fails.
theorem round_of_transport {i : Nat} (hi : i < SIZE) {a : JInt} (ha : 0 ≤ a.toInt) :
    ((digitRun (behind i)).map fun es =>
      BitVec.ofInt 32 (toLong ((a.toNat * 16 ^ es.length + digitsValue es : Nat) : Int))) = some a := by
  have hall : ∀ x ∈ List.replicate SIZE a, 0 ≤ x.toInt := fun x hx => List.eq_of_mem_replicate hx ▸ ha
  have hrun := h (List.replicate SIZE a) List.length_replicate hall
  rw [intCypher, parseLoop_eq_some_iff] at hrun
  have hround := hrun.2 i hi
  rw [Nat.zero_add, parseInt_eq hall _ _ (by rw [List.length_replicate]; exact hi)] at hround
  rw [List.getElem_replicate, List.getElem?_replicate, if_pos hi] at hround
  exact hround

theorem digitRun_of_transport {i : Nat} (hi : i < SIZE) : digitRun (behind i) = some [] := by
  cases hdigits : digitRun (behind i) with
  | none =>
      have hzero := round_of_transport h hi (show 0 ≤ (0#32).toInt by decide)
      rw [hdigits] at hzero
      cases hzero
  | some es =>
      by_contra hne
      have hes : es ≠ [] := fun hnil => hne (by rw [hnil])
      apply zero_or_one_spoiled hes
      intro a ha
      have hround := round_of_transport h hi (show 0 ≤ a.toInt by rcases ha with rfl | rfl <;> decide)
      rw [hdigits] at hround
      exact Option.some.inj hround

end Transport

theorem digitRun_eq_nil_iff (m : List Char) :
    digitRun m = some [] ↔ ∃ c rest, m = c :: rest ∧ hexDigit? c = none := by
  cases m with
  | nil => simp [digitRun]
  | cons c rest =>
      rw [digitRun]
      cases hc : hexDigit? c with
      | none => simpa using hc
      | some d => simp [hc]

-- Every cypher arrives exactly when no digit stands behind int_str.
theorem hex_transport_iff (behind : Nat → List Char) :
    (∀ cypher : List JInt, cypher.length = SIZE → (∀ x ∈ cypher, 0 ≤ x.toInt) →
        intCypher (cypherHex cypher) behind = some cypher) ↔
      ∀ i < SIZE, ∃ c rest, behind i = c :: rest ∧ hexDigit? c = none := by
  constructor
  · intro h i hi
    exact (digitRun_eq_nil_iff _).mp (digitRun_of_transport h hi)
  · intro h cypher hlen hcypher
    rw [intCypher, parseLoop_eq_some_iff]
    refine ⟨hlen, fun i hi => ?_⟩
    have hi' : i < cypher.length := by omega
    rw [Nat.zero_add, parseInt_eq hcypher _ _ hi', (digitRun_eq_nil_iff _).mpr (h i hi),
      List.getElem?_eq_getElem hi', Option.map_some, List.length_nil, Nat.pow_zero, Nat.mul_one,
      show digitsValue [] = 0 from rfl, Nat.add_zero, ofInt_toLong_self]

-- Twenty times the int 1, with a digit in the memory behind int_str.
theorem hex_transport_reads_on :
    ¬ ∀ (behind : Nat → List Char) (cypher : List JInt), cypher.length = SIZE →
      (∀ x ∈ cypher, 0 ≤ x.toInt) → intCypher (cypherHex cypher) behind = some cypher := by
  intro h
  have hones := h (fun _ => ['0', '\x00']) (List.replicate SIZE 1#32) rfl
    fun x hx => List.eq_of_mem_replicate hx ▸ (by decide)
  exact absurd hones (by decide +kernel)

end RichardTest.RsaDeploy
