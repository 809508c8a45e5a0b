import RichardTest.BigNumC.Add

namespace RichardTest.BigNumC

open Outcome Positional

-- A call of one of the public functions. Arguments are positions in the list of the objects made so
-- far; a function that returns an object adds it at the end.
inductive Op where
  | getZero
  | intToBigNum (m : Int)
  | strToBigNum (string : List Char)
  | add0Self (p : Nat)
  | cpy (p q : Nat)
  | add (p q : Nat)
  | add0 (p q : Nat)
  | multiDig (p : Nat) (a : Int)
  | append0 (p : Nat) (a : Int)
  | multi (p q : Nat)
deriving DecidableEq, Repr

-- What the pointers `&vars[p]` and `&vars[q]` point to.
def operands (vars : List BigNum) (p q : Nat) : Option Operands :=
  if p = q then (vars[p]?).map .same
  else (vars[p]?).bind fun b1 => (vars[q]?).map fun b2 => .apart b1 b2

def store (vars : List BigNum) (p q : Nat) (ops : Operands) : List BigNum :=
  (vars.set p ops.fst).set q ops.snd

-- A call on a position that holds no object does not happen.
def fetch {α : Type} : Option α → Prog α
  | some a => pure a
  | none => fault

def step : Op → List BigNum → Prog (List BigNum)
  | .getZero, vars => do
      let b ← getZero
      pure (vars ++ [b])
  | .intToBigNum m, vars => do
      let b ← intToBigNum m
      pure (vars ++ [b])
  | .strToBigNum string, vars => do
      let b ← strToBigNum string
      pure (vars ++ [b])
  | .add0Self p, vars => do
      let b ← fetch vars[p]?
      let b ← bigNumAdd0Self b
      pure (vars.set p b)
  | .cpy p q, vars => do
      let ops ← fetch (operands vars p q)
      let ops ← bigNumCpy ops
      pure (store vars p q ops)
  | .add p q, vars => do
      let ops ← fetch (operands vars p q)
      let (res, ops) ← bigNumAdd ops
      pure (store vars p q ops ++ [res])
  | .add0 p q, vars => do
      let ops ← fetch (operands vars p q)
      let ops ← bigNumAdd0 ops
      pure (store vars p q ops)
  | .multiDig p a, vars => do
      let b ← fetch vars[p]?
      let b ← bigNumMultiDig b a
      pure (vars.set p b)
  | .append0 p a, vars => do
      let b ← fetch vars[p]?
      let b ← bigNumAppend0 b a
      pure (vars.set p b)
  | .multi p q, vars => do
      let ops ← fetch (operands vars p q)
      let (res, ops) ← bigNumMulti ops
      pure (store vars p q ops ++ [res])

section Store

variable {P : BigNum → Prop} {vars : List BigNum} {p q : Nat} {ops : Operands}

theorem forall_operands (h : ∀ b ∈ vars, P b) (hops : operands vars p q = some ops) :
    P ops.fst ∧ P ops.snd := by
  unfold operands at hops
  split_ifs at hops with hpq
  · obtain ⟨b, hb, rfl⟩ := Option.map_eq_some_iff.mp hops
    exact ⟨h b (List.mem_of_getElem? hb), h b (List.mem_of_getElem? hb)⟩
  · obtain ⟨b1, hb1, hrest⟩ := Option.bind_eq_some_iff.mp hops
    obtain ⟨b2, hb2, rfl⟩ := Option.map_eq_some_iff.mp hrest
    exact ⟨h b1 (List.mem_of_getElem? hb1), h b2 (List.mem_of_getElem? hb2)⟩

theorem forall_set (h : ∀ b ∈ vars, P b) {b : BigNum} (hb : P b) : ∀ b' ∈ vars.set p b, P b' := by
  intro b' hb'
  rcases List.mem_or_eq_of_mem_set hb' with hmem | rfl
  · exact h b' hmem
  · exact hb

theorem forall_store (h : ∀ b ∈ vars, P b) (h1 : P ops.fst) (h2 : P ops.snd) :
    ∀ b ∈ store vars p q ops, P b :=
  forall_set (forall_set h h1) h2

theorem forall_push (h : ∀ b ∈ vars, P b) {b : BigNum} (hb : P b) : ∀ b' ∈ vars ++ [b], P b' := by
  intro b' hb'
  rcases List.mem_append.mp hb' with hmem | hmem
  · exact h b' hmem
  · rw [List.mem_singleton.mp hmem]
    exact hb

theorem fetch_ensures {α : Type} (o : Option α) : Ensures (fetch o) fun a => o = some a := by
  cases o with
  | none => exact Fails.ensures fun _ => rfl
  | some a => exact (yields_pure (Q := fun a' => some a = some a') rfl).ensures

end Store

section Sum

-- The sum that big_num_add is meant to return, with the operands' values as they were.
def AddExact (ops : Operands) : Prop :=
  Yields (bigNumAdd ops) fun r => r.1.value = ops.fst.value + ops.snd.value ∧
    r.2.fst.value = ops.fst.value ∧ r.2.snd.value = ops.snd.value

-- The cells of the shorter operand that the loop reads past its digits are cleared by the call or
-- hold zero already.
def CleanTail (ops : Operands) : Prop :=
  ops.smaller.arrLen < ops.larger.room ∨
    ∀ i < ops.larger.wei, ops.smaller.wei ≤ i → ops.smaller.cell i = 0

instance (ops : Operands) : Decidable (CleanTail ops) :=
  inferInstanceAs (Decidable (_ ∨ ∀ i < ops.larger.wei, _ → _))

theorem CleanTail.readCell {ops : Operands} (h : CleanTail ops) (i : Nat) (hi : i < ops.larger.wei) :
    readCell ops.larger ops.smaller i = if i < ops.smaller.wei then ops.smaller.cell i else 0 := by
  split_ifs with hlow
  · exact readCell_low i hlow
  · rw [BigNumC.readCell]
    split_ifs with hcleared
    · rfl
    · rcases h with h | h
      · omega
      · exact h i hi (by omega)

theorem Operands.value_add (ops : Operands) :
    ops.larger.value + ops.smaller.value = ops.fst.value + ops.snd.value := by
  unfold larger smaller
  split_ifs
  · rw [add_comm]
  · rfl

theorem bigNumAdd_clean_yields (ops : Operands) (h1 : ops.fst.Digits) (h2 : ops.snd.Digits)
    (hclean : CleanTail ops) :
    Yields (bigNumAdd ops) fun r => r.1.Digits ∧
      r.1.value = ops.fst.value + ops.snd.value ∧ ops.fst.Keeps r.2.fst ∧ ops.snd.Keeps r.2.snd := by
  have hd := Operands.digits_smaller h1 h2
  have hread : ∀ i < ops.larger.wei, 0 ≤ readCell ops.larger ops.smaller i ∧
      readCell ops.larger ops.smaller i ≤ 9 := fun i hi => by
    rw [hclean.readCell i hi]
    split_ifs with hlow
    · exact hd.digit i hlow
    · omega
  refine (bigNumAdd_yields ops h1 h2 hread).mono fun r hspec => ?_
  obtain ⟨hsum, hk1, hk2, _⟩ := hspec
  refine ⟨hsum.digits, ?_, hk1, hk2⟩
  have hval : value 10 (readCell ops.larger ops.smaller) ops.larger.wei = ops.smaller.value := by
    rw [value_congr hclean.readCell, value_of_zero_above ops.smaller_wei_le]
    · exact value_congr fun i hi => if_pos hi
    · intro i hi _
      exact if_neg (by omega)
  rw [hsum.value, hval, ops.value_add]

-- The calls the sum is promised for: digit strings without leading zeros, factors 0..9.
def Public : Op → Prop
  | .intToBigNum m => 0 ≤ m ∧ m < 2 ^ 31
  | .strToBigNum s => s ≠ [] ∧ (∀ c ∈ s, c.isDigit) ∧ (s.head? = some '0' → s.length = 1)
  | .multiDig _ a => 0 ≤ a ∧ a ≤ 9
  | .add0Self _ | .cpy _ _ | .add _ _ | .multi _ _ => True
  | .getZero | .add0 _ _ | .append0 _ _ => False

-- Every addition of the run finds a clean tail.
def AddsClean (vars : List BigNum) : Op → Prop
  | .add p q => ∀ ops, operands vars p q = some ops → CleanTail ops
  | _ => True

theorem bigNumCpy_digits (ops : Operands) (h1 : ops.fst.Digits) (h2 : ops.snd.Digits) :
    Yields (bigNumCpy ops) fun ops' => ops'.fst.Digits ∧ ops'.snd.Digits := by
  cases ops with
  | apart b1 b2 =>
      refine (bigNumCpy_yields b1 b2 h2.wei_le).mono ?_
      rintro _ ⟨b, rfl, hk, -, -⟩
      exact ⟨hk.digits h2, h2⟩
  | same b =>
      refine (bigNumCpy_same_yields h1).mono ?_
      rintro _ ⟨b', rfl, hd, -, -⟩
      exact ⟨hd, hd⟩

theorem bigNumMultiDig_digits {b : BigNum} (h : b.Digits) {a : Int} (ha : 0 ≤ a ∧ a ≤ 9) :
    Yields (bigNumMultiDig b a) fun b' => b'.Digits ∧ (b.NoLeadingZero → b'.NoLeadingZero) ∧
      (b'.arrLen = b.arrLen ∨ b'.arrLen = b.room) := by
  by_cases hz : a = 0
  · subst hz
    have hp := h.wei_pos
    have hle := h.wei_le
    refine (bigNumMultiDig_zero_yields h).mono fun b' hspec => ?_
    obtain ⟨hw, hl, hc⟩ := hspec
    exact ⟨.of_zero hw (by omega) hc, fun _ => Or.inr hw, Or.inl hl⟩
  · refine (bigNumMultiDig_yields h (by omega)).mono fun b' hspec => ?_
    obtain ⟨hd, hv, hl, hw⟩ := hspec
    have hnn := h.value_nonneg
    have ha1 : 1 ≤ a := by omega
    refine ⟨hd, fun hz => h.noLeadingZero_of_grow hd hz ?_ ?_, Or.inr hl⟩
    · rw [hv]
      nlinarith
    · rw [hv]
      rcases hw with ⟨hw, -⟩ | hw
      · exact Or.inl hw
      · exact Or.inr hw

theorem bigNumMultiDig_value {b : BigNum} (h : b.Digits) {a : Int} (ha : 0 ≤ a ∧ a ≤ 9) :
    Yields (bigNumMultiDig b a) fun b' => b'.value = b.value * a := by
  by_cases hz : a = 0
  · subst hz
    refine (bigNumMultiDig_zero_yields h).mono fun b' hspec => ?_
    obtain ⟨hw, -, hc⟩ := hspec
    rw [BigNum.value, hw, Int.mul_zero]
    simpa [value] using hc
  · refine (bigNumMultiDig_yields h (by omega)).mono fun b' hspec => ?_
    exact hspec.2.1

-- Multiplication by a digit stays inside the array, and the carry before every round and after the last is at
-- most 8.
theorem bigNumMultiDig_multiplies {b : BigNum} (h : b.Digits) {a : Int} (ha : 0 ≤ a ∧ a ≤ 9) :
    Yields (bigNumMultiDig b a)
        (fun b' => (b'.Digits ∧ (b.NoLeadingZero → b'.NoLeadingZero)) ∧ b'.value = b.value * a) ∧
      ∀ n ≤ b.wei, Yields (ensureRoom b >>= multiDigLoop a n 0 0) fun r => 0 ≤ r.1 ∧ r.1 ≤ 8 := by
  constructor
  · have hform := (bigNumMultiDig_digits h ha).mono fun b' hspec => And.intro hspec.1 hspec.2.1
    exact hform.and_ensures (bigNumMultiDig_value h ha).ensures
  · intro n hn
    apply (ensureRoom_yields b).bind
    intro b' hspec
    obtain ⟨he, -⟩ := hspec
    have hd := he.digits h
    have hle := hd.wei_le
    have hwei := he.wei
    refine (multiDigLoop_yields ha n 0 0 b' (by omega) (by omega) fun j _ hj => hd.digit j (by omega)).mono ?_
    exact fun r hspec => hspec.1

-- 99, full, times 9.
theorem bigNumMultiDig_multiplies_full :
    Yields (bigNumMultiDig ⟨[9, 9], 2⟩ 9)
        (fun b' => (b'.Digits ∧ (BigNum.NoLeadingZero ⟨[9, 9], 2⟩ → b'.NoLeadingZero)) ∧
          b'.value = BigNum.value ⟨[9, 9], 2⟩ * 9) ∧
      ∀ n ≤ 2, Yields (ensureRoom ⟨[9, 9], 2⟩ >>= multiDigLoop 9 n 0 0) fun r => 0 ≤ r.1 ∧ r.1 ≤ 8 :=
  bigNumMultiDig_multiplies (by decide) (by decide)

-- One call keeps every object a digit array.
theorem step_digits {vars : List BigNum} (hvars : ∀ b ∈ vars, b.Digits) (op : Op) (hop : Public op)
    (hclean : AddsClean vars op) :
    Ensures (step op vars) fun vars' => ∀ b ∈ vars', b.Digits := by
  cases op with
  | intToBigNum m =>
      refine (intToBigNum_yields hop.1 hop.2).ensures.bind fun b hspec => ?_
      obtain ⟨hd, _⟩ := hspec
      exact (yields_pure (forall_push hvars hd)).ensures
  | strToBigNum s =>
      refine (strToBigNum_yields hop.1 hop.2.1).ensures.bind fun b hspec => ?_
      obtain ⟨hd, _⟩ := hspec
      exact (yields_pure (forall_push hvars hd)).ensures
  | add0Self p =>
      refine (fetch_ensures _).bind fun b hb => ?_
      refine (bigNumAdd0Self_yields (hvars b (List.mem_of_getElem? hb))).ensures.bind fun b' hspec => ?_
      obtain ⟨hd, _⟩ := hspec
      exact (yields_pure (forall_set hvars hd)).ensures
  | cpy p q =>
      refine (fetch_ensures _).bind fun ops hops => ?_
      obtain ⟨h1, h2⟩ := forall_operands hvars hops
      refine (bigNumCpy_digits ops h1 h2).ensures.bind fun ops' hspec => ?_
      obtain ⟨h1', h2'⟩ := hspec
      exact (yields_pure (forall_store hvars h1' h2')).ensures
  | add p q =>
      refine (fetch_ensures _).bind fun ops hops => ?_
      obtain ⟨h1, h2⟩ := forall_operands hvars hops
      refine (bigNumAdd_clean_yields ops h1 h2 (hclean ops hops)).ensures.bind
        fun r hspec => ?_
      obtain ⟨hd, _, hk1, hk2⟩ := hspec
      exact (yields_pure (forall_push (forall_store hvars (hk1.digits h1) (hk2.digits h2)) hd)).ensures
  | multiDig p a =>
      refine (fetch_ensures _).bind fun b hb => ?_
      refine (bigNumMultiDig_digits (hvars b (List.mem_of_getElem? hb)) hop).ensures.bind
        fun b' hspec => ?_
      obtain ⟨hd, _⟩ := hspec
      exact (yields_pure (forall_set hvars hd)).ensures
  | multi p q =>
      refine (fetch_ensures _).bind fun ops hops => ?_
      obtain ⟨h1, h2⟩ := forall_operands hvars hops
      refine (bigNumMulti_ensures ops h1 h2).bind fun r hspec => ?_
      obtain ⟨hr, hacc⟩ := hspec
      refine (yields_pure (forall_push (forall_store hvars ?_ ?_) hacc.digits)).ensures
      · exact hr ▸ h1
      · exact hr ▸ h2
  | getZero | add0 _ _ | append0 _ _ => exact hop.elim

-- In a run whose additions all find clean tails every such addition is exact.
theorem bigNumAdd_exact_of_clean {vars : List BigNum}
    (hreach : Reach step (fun vars op => Public op ∧ AddsClean vars op) [] vars)
    {p q : Nat} {ops : Operands} (hops : operands vars p q = some ops) (hclean : CleanTail ops) :
    AddExact ops := by
  have hvars : ∀ b ∈ vars, b.Digits :=
    hreach.invariant (I := fun vars => ∀ b ∈ vars, b.Digits) (by simp)
      fun vars op hvars hop => step_digits hvars op hop.1 hop.2
  obtain ⟨h1, h2⟩ := forall_operands hvars hops
  refine (bigNumAdd_clean_yields ops h1 h2 hclean).mono fun r hspec => ?_
  obtain ⟨_, hv, hk1, hk2⟩ := hspec
  exact ⟨hv, hk1.value, hk2.value⟩

-- 12 + 5: the array of 12 is full, so that of 5 is grown and cleared.
theorem bigNumAdd_exact_twelve_five : AddExact (.apart ⟨[2, 1], 2⟩ ⟨[5, 7], 1⟩) := by
  have hfirst : Reach step (fun vars op => Public op ∧ AddsClean vars op) [] [⟨[2, 1], 2⟩] :=
    Reach.start.next_run (Op.strToBigNum ['1', '2']) _ ⟨by simp [Public], trivial⟩ (fun _ => 7)
      (by decide)
  have hreach := hfirst.next_run (Op.strToBigNum ['5']) [⟨[2, 1], 2⟩, ⟨[5, 7], 1⟩]
    ⟨by simp [Public], trivial⟩ (fun _ => 7) (by decide)
  exact bigNumAdd_exact_of_clean (p := 0) (q := 1) hreach rfl (by decide)

-- 1234567 + 12345: both arrays have eight cells, and the loop reads two stale cells of the second.
theorem bigNumAdd_reads_stale_cells :
    ¬∀ vars, Reach step (fun _ op => Public op) [] vars →
      ∀ p q ops, operands vars p q = some ops → AddExact ops := by
  intro hall
  have hfirst : Reach step (fun _ op => Public op) [] [⟨[7, 6, 5, 4, 3, 2, 1, 7], 7⟩] :=
    Reach.start.next_run (Op.strToBigNum ['1', '2', '3', '4', '5', '6', '7']) _ (by simp [Public])
      (fun _ => 7) (by decide)
  have hreach := hfirst.next_run (Op.strToBigNum ['1', '2', '3', '4', '5'])
    [⟨[7, 6, 5, 4, 3, 2, 1, 7], 7⟩, ⟨[5, 4, 3, 2, 1, 7, 7, 7], 5⟩] (by simp [Public]) (fun _ => 7)
    (by decide)
  obtain ⟨r, h', hrun, hval, -⟩ := hall _ hreach 0 1 _ rfl fun _ => 7
  have hwrong : ((bigNumAdd (.apart ⟨[7, 6, 5, 4, 3, 2, 1, 7], 7⟩ ⟨[5, 4, 3, 2, 1, 7, 7, 7], 5⟩)
      fun _ => 7).map fun r => r.1.1.value) = some 8946912 := by
    decide +kernel
  rw [hrun] at hwrong
  simp only [Option.map_some, Option.some.injEq] at hwrong
  rw [hwrong] at hval
  revert hval
  decide

end Sum

end RichardTest.BigNumC
