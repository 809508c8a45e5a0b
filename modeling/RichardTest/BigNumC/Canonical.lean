import RichardTest.BigNumC.Runs

namespace RichardTest.BigNumC

open Outcome Positional

-- The form that big_num_cmp relies on.
structure BigNum.Canonical (b : BigNum) : Prop where
  digits : b.Digits
  noLeadingZero : b.NoLeadingZero

-- The canonical form with the capacities that doubling gives.
structure Good (b : BigNum) : Prop extends b.Canonical where
  capacity : TwoPowCapacity b

-- The arguments the functions are meant for.
def Domain : Op → Prop
  | .intToBigNum m => 0 ≤ m ∧ m < 2 ^ 31
  | .strToBigNum s => s ≠ [] ∧ ∀ c ∈ s, c.isDigit
  | .multiDig _ a => 0 ≤ a ∧ a ≤ 9
  | .append0 _ a => 0 ≤ a
  | .getZero | .add0Self _ | .cpy _ _ | .add _ _ | .add0 _ _ | .multi _ _ => True

-- The calls that keep the form, from objects that exist: each clause names what a function forgets.
def Safe (vars : List BigNum) : Op → Prop
  | .getZero => True
  -- my_pow(10, 10) wraps to 1410065408
  | .intToBigNum m => m < 1410065408
  | .strToBigNum s => s.length = 1 ∨ s.head? ≠ some '0'
  | .add0Self p => ∃ b, vars[p]? = some b
  | .cpy p q => ∃ ops, operands vars p q = some ops ∧ (p = q → ops.fst.wei = 1)
  -- the cells read past the digits of the shorter operand
  | .add p q => ∃ ops, operands vars p q = some ops ∧
      ∀ i < ops.larger.wei, ops.smaller.wei ≤ i →
        0 ≤ readCell ops.larger ops.smaller i ∧ readCell ops.larger ops.smaller i ≤ 9
  | .add0 p q => ∃ ops, operands vars p q = some ops ∧ Add0Safe ops
  | .multiDig p _ => ∃ b, vars[p]? = some b
  -- zero gets leading zeros
  | .append0 p a => ∃ b, vars[p]? = some b ∧ a < 2 ^ 31 ∧ (a = 0 ∨ b.cell (b.wei - 1) ≠ 0)
  | .multi p q => ∃ ops, operands vars p q = some ops ∧
      ∀ i < ops.smaller.wei, ¬PassFaults ops.larger ops.smaller i

section Operations

theorem Good.of_keeps {b b' : BigNum} (h : Good b) (hk : b.Keeps b') (hcap : TwoPowCapacity b') :
    Good b' :=
  ⟨⟨hk.digits h.digits, hk.noLeadingZero h.digits h.noLeadingZero⟩, hcap⟩

theorem getZero_good : Yields getZero Good := by
  apply getZero_yields.mono
  intro b hspec
  obtain ⟨hw, hl, hc⟩ := hspec
  exact ⟨⟨.of_zero hw (by omega) hc, Or.inr hw⟩, 1, Nat.le_refl 1, hl⟩

theorem intDigit_top_ne_zero {m : Int} (hm : 0 ≤ m) (hmax : m < 1410065408) :
    countIntBit m = 1 ∨ intDigit m (countIntBit m - 1) ≠ 0 := by
  obtain ⟨hlt, hge⟩ := countIntBit_bounds m hm
  refine hge.imp_right fun hge => ?_
  have hten := countIntBit_le hm (by omega)
  have hpos := countIntBit_pos m
  generalize countIntBit m = n at *
  by_cases h : n - 1 ≤ 8
  · rw [intDigit_of_lt hm h]
    interval_cases n <;> simp only [Nat.reduceSub, Int.reducePow] at * <;> omega
  · rw [show n - 1 = 9 by omega] at hge ⊢
    rw [intDigit_nine hm]
    omega

theorem intToBigNum_good {m : Int} (hm : 0 ≤ m) (hmax : m < 1410065408) :
    Yields (intToBigNum m) Good := by
  have hpos := countIntBit_pos m
  apply (intToBigNum_yields hm (by omega)).mono
  intro b hspec
  obtain ⟨hd, hcap, hw, hc⟩ := hspec
  refine ⟨⟨hd, ?_⟩, hcap⟩
  rw [BigNum.NoLeadingZero, hw, hc _ (by omega)]
  exact (intDigit_top_ne_zero hm hmax).symm

theorem digitOf_eq_zero {c : Char} (h : digitOf c = 0) : c = '0' := by
  unfold digitOf at h
  apply Char.toNat_inj.mp
  show c.toNat = 48
  omega

theorem strToBigNum_good {s : List Char} (hne : s ≠ []) (hdigit : ∀ c ∈ s, c.isDigit)
    (hzero : s.length = 1 ∨ s.head? ≠ some '0') : Yields (strToBigNum s) Good := by
  have hpos := List.length_pos_iff.mpr hne
  apply (strToBigNum_yields hne hdigit).mono
  intro b hspec
  obtain ⟨hd, hcap, hw, hc⟩ := hspec
  refine ⟨⟨hd, ?_⟩, hcap⟩
  rw [BigNum.NoLeadingZero, hw, hc _ (by omega), Nat.sub_self]
  refine hzero.symm.imp_left fun hhead hz => hhead ?_
  obtain ⟨c, t, rfl⟩ := List.exists_cons_of_ne_nil hne
  rw [List.head?_cons, ← digitOf_eq_zero hz, List.getD_cons_zero]

theorem bigNumCpy_good (ops : Operands) (h1 : Good ops.fst) (h2 : Good ops.snd)
    (hself : ops = .same ops.fst → ops.fst.wei = 1) :
    Yields (bigNumCpy ops) fun ops' => Good ops'.fst ∧ Good ops'.snd := by
  cases ops with
  | apart b1 b2 =>
      refine (bigNumCpy_yields b1 b2 h2.digits.wei_le).mono ?_
      rintro _ ⟨b, rfl, hk, hl, -⟩
      refine ⟨h2.of_keeps hk ?_, h2⟩
      rw [TwoPowCapacity, Operands.fst_apart, hl]
      exact h1.capacity.max h2.capacity
  | same b =>
      refine (bigNumCpy_same_yields h1.digits).mono ?_
      rintro _ ⟨b', rfl, hd, hw, hl⟩
      have hgood : Good b' := by
        refine ⟨⟨hd, Or.inr (hw.trans (hself rfl))⟩, ?_⟩
        rw [TwoPowCapacity, hl]
        exact h1.capacity
      exact ⟨hgood, hgood⟩

theorem TwoPowCapacity.of_guard {b b' : BigNum} (h : TwoPowCapacity b)
    (hl : b'.arrLen = b.arrLen ∨ b'.arrLen = b.room) : TwoPowCapacity b' := by
  rw [TwoPowCapacity]
  rcases hl with hl | hl
  · rw [hl]
    exact h
  · rw [hl]
    exact h.room

theorem bigNumAdd_good (ops : Operands) (h1 : Good ops.fst) (h2 : Good ops.snd)
    (htail : ∀ i < ops.larger.wei, ops.smaller.wei ≤ i →
      0 ≤ readCell ops.larger ops.smaller i ∧ readCell ops.larger ops.smaller i ≤ 9) :
    Yields (bigNumAdd ops) fun r => Good r.1 ∧ Good r.2.fst ∧ Good r.2.snd := by
  have hd := Operands.digits_smaller h1.digits h2.digits
  have hread : ∀ i < ops.larger.wei, 0 ≤ readCell ops.larger ops.smaller i ∧
      readCell ops.larger ops.smaller i ≤ 9 := fun i hi => by
    by_cases hlow : i < ops.smaller.wei
    · rw [readCell_low i hlow]
      exact hd.digit i hlow
    · exact htail i hi (by omega)
  apply (bigNumAdd_yields ops h1.digits h2.digits hread).mono
  intro r hspec
  obtain ⟨hsum, hk1, hk2, hcap⟩ := hspec
  obtain ⟨hc1, hc2⟩ := hcap h1.capacity h2.capacity
  have hlarger : Good ops.larger := by
    rw [Operands.larger]
    split_ifs
    · exact h2
    · exact h1
  refine ⟨⟨⟨hsum.digits, hsum.noLeadingZero hlarger.noLeadingZero⟩, ?_⟩, h1.of_keeps hk1 hc1,
    h2.of_keeps hk2 hc2⟩
  rw [TwoPowCapacity, hsum.arrLen, Nat.max_eq_right hlarger.capacity.room.two_le]
  exact hlarger.capacity.room

theorem bigNumAppend0_good {b : BigNum} (h : Good b) {a : Int} (ha : 0 ≤ a) (hmax : a < 2 ^ 31)
    (htop : a = 0 ∨ b.cell (b.wei - 1) ≠ 0) : Yields (bigNumAppend0 b a) Good := by
  obtain ⟨n, rfl⟩ := Int.eq_ofNat_of_zero_le ha
  have hp := h.digits.wei_pos
  apply (bigNumAppend0_yields h.digits n (by omega)).mono
  intro b' hspec
  obtain ⟨hd, hv, hw, hl⟩ := hspec
  refine ⟨⟨hd, ?_⟩, ?_⟩
  · apply hd.noLeadingZero
    rw [hw, hv]
    rcases htop with hz | htop
    · rw [show n = 0 by omega]
      simpa using h.digits.le_value_of_noLeadingZero h.noLeadingZero
    · right
      rw [show b.wei + n - 1 = b.wei - 1 + n by omega, pow_add]
      exact mul_le_mul_of_nonneg_right (h.digits.pow_le_value htop) (by positivity)
  · rw [TwoPowCapacity, hl]
    exact h.capacity.capAfter _

theorem bigNumMulti_good (ops : Operands) (h1 : Good ops.fst) (h2 : Good ops.snd)
    (hgood : ∀ i < ops.smaller.wei, ¬PassFaults ops.larger ops.smaller i) :
    Yields (bigNumMulti ops) fun r => Good r.1 ∧ r.2 = ops := by
  refine ((bigNumMulti_yields ops h1.digits h2.digits h1.capacity h2.capacity hgood).and_ensures
    (bigNumMulti_ensures ops h1.digits h2.digits)).mono fun r hspec => ?_
  obtain ⟨hcap, hops, hacc⟩ := hspec
  exact ⟨⟨⟨hacc.digits, hacc.noLeadingZero_of_operands h1.digits h2.digits h1.noLeadingZero
    h2.noLeadingZero⟩, hcap⟩, hops⟩

end Operations

theorem operands_same {vars : List BigNum} {p q : Nat} {b : BigNum}
    (h : operands vars p q = some (.same b)) : p = q := by
  unfold operands at h
  split_ifs at h with hpq
  · exact hpq
  · obtain ⟨b1, -, hrest⟩ := Option.bind_eq_some_iff.mp h
    obtain ⟨b2, -, hb⟩ := Option.map_eq_some_iff.mp hrest
    cases hb

theorem fetch_some {α : Type} {o : Option α} {a : α} (h : o = some a) : fetch o = pure a := by
  rw [h]
  rfl

-- One admitted call returns and keeps every object in form.
theorem step_good {vars : List BigNum} (hvars : ∀ b ∈ vars, Good b) (op : Op) (hop : Domain op)
    (hsafe : Safe vars op) : Yields (step op vars) fun vars' => ∀ b ∈ vars', Good b := by
  cases op with
  | getZero => exact getZero_good.bind fun b hb => yields_pure (forall_push hvars hb)
  | intToBigNum m =>
      exact (intToBigNum_good hop.1 hsafe).bind fun b hb => yields_pure (forall_push hvars hb)
  | strToBigNum s =>
      exact (strToBigNum_good hop.1 hop.2 hsafe).bind fun b hb => yields_pure (forall_push hvars hb)
  | add0Self p =>
      obtain ⟨b, hb⟩ := hsafe
      have hgood := hvars b (List.mem_of_getElem? hb)
      simp only [step, fetch_some hb, pure_bind]
      apply (bigNumAdd0Self_yields hgood.digits).bind
      intro b' hspec
      obtain ⟨hd, _, hl, hz⟩ := hspec
      exact yields_pure (forall_set hvars
        ⟨⟨hd, hz hgood.noLeadingZero⟩, hgood.capacity.of_guard hl⟩)
  | cpy p q =>
      obtain ⟨ops, hops, hself⟩ := hsafe
      obtain ⟨h1, h2⟩ := forall_operands hvars hops
      simp only [step, fetch_some hops, pure_bind]
      refine (bigNumCpy_good ops h1 h2 fun hsame => hself ?_).bind fun ops' hspec =>
        yields_pure (forall_store hvars hspec.1 hspec.2)
      exact operands_same (hops.trans (congrArg some hsame))
  | add p q =>
      obtain ⟨ops, hops, htail⟩ := hsafe
      obtain ⟨h1, h2⟩ := forall_operands hvars hops
      simp only [step, fetch_some hops, pure_bind]
      apply (bigNumAdd_good ops h1 h2 htail).bind
      intro r hspec
      obtain ⟨hr, h1', h2'⟩ := hspec
      exact yields_pure (forall_push (forall_store hvars h1' h2') hr)
  | add0 p q =>
      obtain ⟨ops, hops, hadd⟩ := hsafe
      obtain ⟨h1, h2⟩ := forall_operands hvars hops
      simp only [step, fetch_some hops, pure_bind]
      refine (bigNumAdd0_canonical ops h1.digits h2.digits h1.noLeadingZero h2.noLeadingZero
        hadd).bind ?_
      rintro _ ⟨b, rfl, hd, hz, hcap⟩
      have hb : Good b := ⟨⟨hd, hz⟩, hcap h1.capacity⟩
      refine yields_pure (forall_store hvars (by simpa using hb) ?_)
      cases ops with
      | apart b1 b2 => exact h2
      | same b1 => exact hb
  | multiDig p a =>
      obtain ⟨b, hb⟩ := hsafe
      have hgood := hvars b (List.mem_of_getElem? hb)
      simp only [step, fetch_some hb, pure_bind]
      apply (bigNumMultiDig_digits hgood.digits hop).bind
      intro b' hspec
      obtain ⟨hd, hz, hl⟩ := hspec
      exact yields_pure (forall_set hvars
        ⟨⟨hd, hz hgood.noLeadingZero⟩, hgood.capacity.of_guard hl⟩)
  | append0 p a =>
      obtain ⟨b, hb, hmax, htop⟩ := hsafe
      have hgood := hvars b (List.mem_of_getElem? hb)
      simp only [step, fetch_some hb, pure_bind]
      exact (bigNumAppend0_good hgood hop hmax htop).bind fun b' hb' =>
        yields_pure (forall_set hvars hb')
  | multi p q =>
      obtain ⟨ops, hops, hpass⟩ := hsafe
      obtain ⟨h1, h2⟩ := forall_operands hvars hops
      simp only [step, fetch_some hops, pure_bind]
      refine (bigNumMulti_good ops h1 h2 hpass).bind ?_
      rintro ⟨res, ops'⟩ ⟨hr, rfl⟩
      exact yields_pure (forall_push (forall_store hvars h1 h2) hr)

theorem reach_good {vars : List BigNum}
    (hreach : Reach step (fun vars op => Domain op ∧ Safe vars op) [] vars) : ∀ b ∈ vars, Good b :=
  hreach.invariant (I := fun vars => ∀ b ∈ vars, Good b) (by simp)
    fun _ op hvars hop => (step_good hvars op hop.1 hop.2).ensures

-- In a run of admitted calls every object is canonical, and no admitted call leaves an array.
theorem reach_canonical {vars : List BigNum}
    (hreach : Reach step (fun vars op => Domain op ∧ Safe vars op) [] vars) :
    (∀ b ∈ vars, b.Canonical) ∧
      ∀ op, Domain op → Safe vars op → ∀ h, (step op vars h).isSome := by
  have hvars := reach_good hreach
  refine ⟨fun b hb => (hvars b hb).toCanonical, fun op hop hsafe h => ?_⟩
  obtain ⟨vars', h', hrun, -⟩ := step_good hvars op hop hsafe h
  rw [hrun]
  rfl

-- A zero and the number 5, doubled to 10.
theorem reach_canonical_ten :
    BigNum.Canonical ⟨[0, 7], 1⟩ ∧ BigNum.Canonical ⟨[0, 1], 2⟩ := by
  have hzero : Reach step (fun vars op => Domain op ∧ Safe vars op) [] [⟨[0, 7], 1⟩] :=
    Reach.start.next_run Op.getZero _ ⟨trivial, trivial⟩ (fun _ => 7) (by decide)
  have hfive := hzero.next_run (Op.strToBigNum ['5']) [⟨[0, 7], 1⟩, ⟨[5, 7], 1⟩]
    ⟨by simp [Domain], Or.inl rfl⟩ (fun _ => 7) (by decide)
  have hreach := hfive.next_run (Op.add0Self 1) [⟨[0, 7], 1⟩, ⟨[0, 1], 2⟩] ⟨trivial, _, rfl⟩ (fun _ => 7)
    (by decide)
  have hcanonical := (reach_canonical hreach).1
  exact ⟨hcanonical _ (by simp), hcanonical _ (by simp)⟩

-- 5 add_0 5: the carry increments the uninitialised cell above the digit.
theorem bigNumAdd0_breaks_form :
    ¬∀ vars, Reach step (fun _ op => Domain op) [] vars → ∀ b ∈ vars, b.Canonical := by
  intro hall
  have hfive : Reach step (fun _ op => Domain op) [] [⟨[5, 9], 1⟩] :=
    Reach.start.next_run (Op.strToBigNum ['5']) _ (by simp [Domain]) (fun _ => 9) (by decide)
  have hfives := hfive.next_run (Op.strToBigNum ['5']) [⟨[5, 9], 1⟩, ⟨[5, 9], 1⟩] (by simp [Domain])
    (fun _ => 9) (by decide)
  have hreach := hfives.next_run (Op.add0 0 1) [⟨[0, 10], 2⟩, ⟨[5, 9], 1⟩] trivial (fun _ => 9)
    (by decide)
  have hform := (hall _ hreach ⟨[0, 10], 2⟩ (by simp)).digits
  revert hform
  decide

end RichardTest.BigNumC
