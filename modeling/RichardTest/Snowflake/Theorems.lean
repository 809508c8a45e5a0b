import RichardTest.Snowflake
import Mathlib.Tactic.Ring

namespace RichardTest.Snowflake

section Pack

theorem toNat_shiftLeft_or (x y : Long) (k : Nat) (hk : k ≤ 64) (hy : y.toNat < 2 ^ k) :
    (x <<< k ||| y).toNat = x.toNat % 2 ^ (64 - k) * 2 ^ k + y.toNat := by
  have hpow : 2 ^ 64 = 2 ^ (64 - k) * 2 ^ k := by rw [← Nat.pow_add, Nat.sub_add_cancel hk]
  rw [BitVec.toNat_or, BitVec.toNat_shiftLeft, Nat.shiftLeft_eq, hpow, Nat.mul_mod_mul_right,
    ← Nat.shiftLeft_eq, ← Nat.shiftLeft_add_eq_or_of_lt hy]

-- What fits into the bits reserved for the parts of an id.
structure Fits (timestamp dataCenterId workerId sequence : Long) : Prop where
  timestamp : -1 ≤ timestamp.toInt ∧ timestamp.toInt < 1498608000000 + 2 ^ 41
  dataCenterId : 0 ≤ dataCenterId.toInt ∧ dataCenterId.toInt ≤ 31
  workerId : 0 ≤ workerId.toInt ∧ workerId.toInt ≤ 31
  sequence : 0 ≤ sequence.toInt ∧ sequence.toInt ≤ 4095

theorem toInt_eq (x : Long) :
    x.toInt = if x.toNat < 2 ^ 63 then (x.toNat : Int) else (x.toNat : Int) - 2 ^ 64 := by
  have := x.isLt
  rw [BitVec.toInt_eq_toNat_cond]
  split_ifs <;> omega

theorem toNat_of_nonneg (x : Long) (n : Nat) (h : 0 ≤ x.toInt ∧ x.toInt ≤ n) : (x.toNat : Int) = x.toInt := by
  have := x.isLt
  rw [toInt_eq] at h ⊢
  split_ifs at h ⊢ <;> omega

theorem toInt_timestamp_sub (timestamp : Long)
    (h : -1 ≤ timestamp.toInt ∧ timestamp.toInt < 1498608000000 + 2 ^ 41) :
    (timestamp - startTime).toInt = timestamp.toInt - 1498608000000 := by
  have hstart : startTime.toInt = 1498608000000 := rfl
  rw [BitVec.toInt_sub, hstart, Int.bmod_eq_emod]
  split_ifs <;> omega

-- The parts of an id do not overlap, also when the time lies before `startTime`.
theorem toInt_pack {timestamp dataCenterId workerId sequence : Long}
    (h : Fits timestamp dataCenterId workerId sequence) :
    (pack timestamp dataCenterId workerId sequence).toInt =
      (timestamp.toInt - 1498608000000) * 2 ^ 22 + dataCenterId.toInt * 2 ^ 17 + workerId.toInt * 2 ^ 12 +
        sequence.toInt := by
  have hs := toNat_of_nonneg sequence 4095 h.sequence
  have hw := toNat_of_nonneg workerId 31 h.workerId
  have hd := toNat_of_nonneg dataCenterId 31 h.dataCenterId
  have ht := toInt_timestamp_sub timestamp h.timestamp
  obtain ⟨⟨ht0, ht1⟩, ⟨hd0, hd1⟩, ⟨hw0, hw1⟩, ⟨hs0, hs1⟩⟩ := h
  have hws := toNat_shiftLeft_or workerId sequence 12 (by decide) (by omega)
  have hdws := toNat_shiftLeft_or dataCenterId (workerId <<< 12 ||| sequence) 17 (by decide) (by omega)
  have hid := toNat_shiftLeft_or (timestamp - startTime) (dataCenterId <<< 17 ||| (workerId <<< 12 ||| sequence))
    22 (by decide) (by omega)
  have hpack : pack timestamp dataCenterId workerId sequence =
      (timestamp - startTime) <<< 22 ||| (dataCenterId <<< 17 ||| (workerId <<< 12 ||| sequence)) := by
    rw [← BitVec.or_assoc, ← BitVec.or_assoc]
    rfl
  rw [hpack, toInt_eq, hid, hdws, hws]
  rw [toInt_eq] at ht
  have := (timestamp - startTime).isLt
  split_ifs at ht ⊢ <;> omega

theorem toInt_and_mask (x mask : Long) (k : Nat) (hk : k < 63) (hmask : mask.toNat = 2 ^ k - 1) :
    (x &&& mask).toInt = x.toInt % 2 ^ k := by
  have hand : (x &&& mask).toNat = x.toNat % 2 ^ k := by
    rw [BitVec.toNat_and, hmask, Nat.and_two_pow_sub_one_eq_mod]
  have hlt : x.toNat % 2 ^ k < 2 ^ 63 :=
    (Nat.mod_lt _ (Nat.two_pow_pos k)).trans (Nat.pow_lt_pow_right (by decide) hk)
  have hpow : (2 : Int) ^ 64 = 2 ^ k * 2 ^ (64 - k) := by rw [← Int.pow_add, Nat.add_sub_cancel' (by omega)]
  rw [toInt_eq, hand, if_pos hlt, toInt_eq, Int.natCast_emod, Int.natCast_pow]
  split_ifs
  · rfl
  · rw [hpow, Int.sub_mul_emod_self_left]
    rfl

theorem toInt_sshiftRight_eq (x : Long) (k : Nat) : (x.sshiftRight k).toInt = x.toInt / 2 ^ k := by
  rw [BitVec.toInt_sshiftRight, Int.shiftRight_eq_div_pow]
  rfl

-- The parts of an id come back by shifting and masking.
theorem unpack {timestamp dataCenterId workerId sequence id : Long}
    (h : Fits timestamp dataCenterId workerId sequence)
    (hid : id = pack timestamp dataCenterId workerId sequence) :
    id.sshiftRight timestampMoveBits + startTime = timestamp ∧
      id.sshiftRight dataCenterIdMoveBits &&& maxDataCenterId = dataCenterId ∧
      id.sshiftRight workerIdMoveBits &&& maxWorkerId = workerId ∧
      id &&& sequenceMask = sequence := by
  have hpack := toInt_pack h
  rw [← hid] at hpack
  obtain ⟨ht, hd, hw, hs⟩ := h
  refine ⟨?_, ?_, ?_, ?_⟩ <;> apply BitVec.eq_of_toInt_eq
  · rw [BitVec.toInt_add, toInt_sshiftRight_eq, show startTime.toInt = 1498608000000 from rfl,
      show timestampMoveBits = 22 from rfl, Int.bmod_eq_emod]
    split_ifs <;> omega
  · rw [toInt_and_mask _ maxDataCenterId 5 (by decide) rfl, toInt_sshiftRight_eq,
      show dataCenterIdMoveBits = 17 from rfl]
    omega
  · rw [toInt_and_mask _ maxWorkerId 5 (by decide) rfl, toInt_sshiftRight_eq,
      show workerIdMoveBits = 12 from rfl]
    omega
  · rw [toInt_and_mask _ sequenceMask 12 (by decide) rfl]
    omega

end Pack

section Step

theorem blockTillNextMillis_some {lastTimestamp timestamp : Long} {clock clock' : List Long}
    (h : blockTillNextMillis lastTimestamp clock = some (timestamp, clock')) :
    lastTimestamp.toInt < timestamp.toInt ∧ timestamp :: clock' <:+ clock := by
  induction clock with
  | nil => simp [blockTillNextMillis] at h
  | cons t clock ih =>
      rw [blockTillNextMillis] at h
      split_ifs at h with hle
      · obtain ⟨hlt, hsuffix⟩ := ih h
        exact ⟨hlt, hsuffix.trans (List.suffix_cons t clock)⟩
      · rw [BitVec.sle_iff_toInt_le] at hle
        simp only [Option.some.injEq, Prod.mk.injEq] at h
        rw [← h.1, ← h.2]
        exact ⟨by omega, List.suffix_rfl⟩

-- What a call of nextId can do. It waits only when no reading is left.
inductive Step (g : SnowflakeIdGenerator) (clock : List Long) :
    Reply → SnowflakeIdGenerator → List Long → Prop where
  | waits (s : Long) (hs : s = g.sequence ∨ s = 0#64) : Step g clock .waits { g with sequence := s } []
  | throws (t : Long) (clock' : List Long) (m : String) (hclock : clock = t :: clock')
      (hback : t.toInt < g.lastTimestamp.toInt) : Step g clock (.throws m) g clock'
  | again (t : Long) (clock' : List Long) (hclock : clock = t :: clock') (hsame : g.lastTimestamp = t)
      (s : Long) (hs : s = (g.sequence + 1#64) &&& sequenceMask) (hne : s ≠ 0#64) :
      Step g clock (.returns (pack t g.dataCenterId g.workerId s)) { g with sequence := s } clock'
  | later (t : Long) (clock' : List Long) (hclock : t :: clock' <:+ clock)
      (hlater : g.lastTimestamp.toInt < t.toInt) :
      Step g clock (.returns (pack t g.dataCenterId g.workerId 0#64))
        { g with sequence := 0#64, lastTimestamp := t } clock'

theorem nextId_step (g : SnowflakeIdGenerator) (clock : List Long) :
    Step g clock (nextId g clock).1 (nextId g clock).2.1 (nextId g clock).2.2 := by
  cases clock with
  | nil => exact .waits g.sequence (.inl rfl)
  | cons t clock =>
      rw [nextId]
      split_ifs with hback hsame
      · exact .throws t clock _ rfl (BitVec.slt_iff_toInt_lt.mp hback)
      · dsimp only
        split_ifs with hzero
        · rw [hzero]
          cases hblock : blockTillNextMillis g.lastTimestamp clock with
          | none => exact .waits _ (.inr rfl)
          | some p =>
              obtain ⟨hlater, hsuffix⟩ := blockTillNextMillis_some hblock
              exact .later p.1 p.2 (hsuffix.trans (List.suffix_cons t clock)) hlater
        · subst hsame
          exact .again _ clock rfl rfl _ rfl hzero
      · rw [BitVec.slt_iff_toInt_lt] at hback
        have hne : g.lastTimestamp.toInt ≠ t.toInt := fun h => hsame (BitVec.eq_of_toInt_eq h)
        exact .later t clock List.suffix_rfl (by omega)

def Good (g : SnowflakeIdGenerator) : Prop := Fits g.lastTimestamp g.dataCenterId g.workerId g.sequence

-- The readings that an id has bits for.
def InRange (clock : List Long) : Prop := ∀ t ∈ clock, 0 ≤ t.toInt ∧ t.toInt < startTime.toInt + 2 ^ 41

-- The id that the generator's fields stand for.
def current (g : SnowflakeIdGenerator) : Long := pack g.lastTimestamp g.dataCenterId g.workerId g.sequence

variable {g g' : SnowflakeIdGenerator} {clock clock' : List Long} {reply : Reply}

theorem fits_reading {t s : Long} (hg : Good g) (ht : 0 ≤ t.toInt ∧ t.toInt < startTime.toInt + 2 ^ 41)
    (hs : 0 ≤ s.toInt ∧ s.toInt ≤ 4095) : Fits t g.dataCenterId g.workerId s := by
  have hstart : startTime.toInt = 1498608000000 := rfl
  exact ⟨by omega, hg.dataCenterId, hg.workerId, hs⟩

theorem zero_sequence : 0 ≤ (0#64).toInt ∧ (0#64).toInt ≤ 4095 := by decide

-- Within a millisecond the sequence counts up, and the mask turns it back to 0.
theorem toInt_sequence_succ {x : Long} (h : 0 ≤ x.toInt ∧ x.toInt ≤ 4095)
    (hne : (x + 1#64) &&& sequenceMask ≠ 0#64) :
    ((x + 1#64) &&& sequenceMask).toInt = x.toInt + 1 ∧ x.toInt + 1 ≤ 4095 := by
  have hx := toNat_of_nonneg x 4095 h
  have hmask : ((x + 1#64) &&& sequenceMask).toNat = (x.toNat + 1) % 2 ^ 12 := by
    have hsucc : (x + 1#64).toNat = x.toNat + 1 := by
      rw [BitVec.toNat_add]
      exact Nat.mod_eq_of_lt (by rw [show (1#64).toNat = 1 from rfl]; omega)
    rw [BitVec.toNat_and, hsucc, show sequenceMask.toNat = 2 ^ 12 - 1 from rfl, Nat.and_two_pow_sub_one_eq_mod]
  have hne' : ((x + 1#64) &&& sequenceMask).toNat ≠ 0 := fun h0 => hne (BitVec.eq_of_toNat_eq h0)
  rw [hmask] at hne'
  rw [toInt_eq ((x + 1#64) &&& sequenceMask), hmask]
  split_ifs <;> omega

theorem Step.good (h : Step g clock reply g' clock') (hg : Good g) (hclock : InRange clock) : Good g' := by
  cases h with
  | waits s hs =>
      refine ⟨hg.timestamp, hg.dataCenterId, hg.workerId, ?_⟩
      rcases hs with rfl | rfl
      · exact hg.sequence
      · exact zero_sequence
  | throws t clock' m hc hback => exact hg
  | again t clock' hc hsame s hs hne =>
      subst hs
      have hsucc := toInt_sequence_succ hg.sequence hne
      have := hg.sequence
      exact ⟨hg.timestamp, hg.dataCenterId, hg.workerId, by dsimp only; omega⟩
  | later t clock' hc hlater =>
      have hreading := fits_reading hg (hclock t (hc.subset List.mem_cons_self)) zero_sequence
      exact hreading

theorem Step.suffix (h : Step g clock reply g' clock') : clock' <:+ clock := by
  cases h with
  | waits s hs => exact List.nil_suffix
  | throws t clock' m hc hback => rw [hc]; exact List.suffix_cons t clock'
  | again t clock' hc hsame s hs hne => rw [hc]; exact List.suffix_cons t clock'
  | later t clock' hc hlater => exact (List.suffix_cons t clock').trans hc

theorem Step.ids (h : Step g clock reply g' clock') :
    g'.workerId = g.workerId ∧ g'.dataCenterId = g.dataCenterId := by
  cases h <;> exact ⟨rfl, rfl⟩

theorem Step.returns_current {id : Long} (h : Step g clock (.returns id) g' clock') : id = current g' := by
  cases h with
  | again t clock' hc hsame s hs hne => rw [current, hsame]
  | later t clock' hc hlater => rfl

-- An id is above everything the fields stood for before.
theorem Step.current_lt {id : Long} (h : Step g clock (.returns id) g' clock') (hg : Good g)
    (hclock : InRange clock) : (current g).toInt < id.toInt := by
  have hg' := h.good hg hclock
  rw [h.returns_current, current, current, toInt_pack hg, toInt_pack hg']
  have hd := hg.dataCenterId
  have hw := hg.workerId
  have hs := hg.sequence
  cases h with
  | again t clock' hc hsame s hs' hne =>
      subst hs'
      have hsucc := toInt_sequence_succ hg.sequence hne
      dsimp only
      omega
  | later t clock' hc hlater =>
      dsimp only
      rw [show (0#64).toInt = 0 from rfl]
      omega

-- Everything that the generator will return lies above `b`. Without readings it returns nothing.
def Above (b : Int) (g : SnowflakeIdGenerator) (clock : List Long) : Prop :=
  clock = [] ∨ b ≤ (current g).toInt

theorem Step.current_ge {b : Int} {id : Long} (h : Step g clock (.returns id) g' clock')
    (hb : Above b g clock) : b ≤ (current g).toInt := by
  apply hb.resolve_left
  intro hnil
  subst hnil
  cases h with
  | again t clock' hc hsame s hs hne => cases hc
  | later t clock' hc hlater => cases List.suffix_nil.mp hc

theorem Step.above {b : Int} (h : Step g clock reply g' clock') (hg : Good g) (hclock : InRange clock)
    (hb : Above b g clock) : Above b g' clock' := by
  cases reply with
  | waits =>
      cases h
      exact .inl rfl
  | throws m =>
      cases h with
      | throws t clock' m hc hback => exact .inr (hb.resolve_left (by simp [hc]))
  | returns id =>
      right
      rw [← h.returns_current]
      exact (h.current_ge hb).trans (h.current_lt hg hclock).le

end Step

section Runs

variable {ι : Type} [DecidableEq ι] {S : System ι}

-- Every generator keeps its ids and its invariant, and reads an admissible clock.
structure System.Good (S : System ι) (workerId dataCenterId : ι → Long) : Prop where
  generator : ∀ i, Snowflake.Good (S.generator i)
  clock : ∀ i, InRange (S.clock i)
  workerId : ∀ i, (S.generator i).workerId = workerId i
  dataCenterId : ∀ i, (S.generator i).dataCenterId = dataCenterId i

variable {workerId dataCenterId : ι → Long}

omit [DecidableEq ι] in
theorem reply_of_id? {e : Event ι} {id : Long} (h : e.id? = some id) : e.reply = .returns id := by
  rw [Event.id?] at h
  split at h
  · rename_i hreply
    rw [hreply, Option.some.inj h]
  · cases h

theorem System.call_step (S : System ι) (i : ι) :
    Step (S.generator i) (S.clock i) (S.call i).1.reply (S.call i).1.after ((S.call i).2.clock i) := by
  have hclock : (S.call i).2.clock i = (nextId (S.generator i) (S.clock i)).2.2 := Function.update_self ..
  rw [hclock]
  exact nextId_step (S.generator i) (S.clock i)

theorem System.call_generator_self (S : System ι) (i : ι) : (S.call i).2.generator i = (S.call i).1.after :=
  Function.update_self ..

theorem System.call_other (S : System ι) {i j : ι} (h : j ≠ i) :
    (S.call i).2.generator j = S.generator j ∧ (S.call i).2.clock j = S.clock j :=
  ⟨Function.update_of_ne h .., Function.update_of_ne h ..⟩

theorem System.Good.call (h : S.Good workerId dataCenterId) (i : ι) :
    (S.call i).2.Good workerId dataCenterId := by
  have hstep := S.call_step i
  have hself := S.call_generator_self i
  have hgood := hstep.good (h.generator i) (h.clock i)
  constructor <;> intro j <;> by_cases hj : j = i
  · rw [hj, hself]
    exact hgood
  · rw [(S.call_other hj).1]
    exact h.generator j
  · rw [hj]
    exact fun t ht => h.clock i t (hstep.suffix.subset ht)
  · rw [(S.call_other hj).2]
    exact h.clock j
  · rw [hj, hself, hstep.ids.1]
    exact h.workerId i
  · rw [(S.call_other hj).1]
    exact h.workerId j
  · rw [hj, hself, hstep.ids.2]
    exact h.dataCenterId i
  · rw [(S.call_other hj).1]
    exact h.dataCenterId j

theorem System.Good.above_call (h : S.Good workerId dataCenterId) {i : ι} {b : Int}
    (hb : Above b (S.generator i) (S.clock i)) (j : ι) :
    Above b ((S.call j).2.generator i) ((S.call j).2.clock i) := by
  by_cases hij : i = j
  · subst hij
    rw [S.call_generator_self i]
    exact (S.call_step i).above (h.generator i) (h.clock i) hb
  · rw [(S.call_other hij).1, (S.call_other hij).2]
    exact hb

-- What a call promises of its event, under what every call keeps, holds of all events of a run.
theorem System.Good.run_of_call {I : System ι → Prop} {P : Event ι → Prop}
    (hcall : ∀ S : System ι, S.Good workerId dataCenterId → I S → ∀ j, P (S.call j).1 ∧ I (S.call j).2)
    (h : S.Good workerId dataCenterId) (hI : I S) (calls : List ι) : ∀ e ∈ S.run calls, P e := by
  induction calls generalizing S with
  | nil => exact fun e he => nomatch he
  | cons j calls ih =>
      obtain ⟨hP, hI'⟩ := hcall S h hI j
      rw [System.run, List.forall_mem_cons]
      exact ⟨hP, ih (h.call j) hI'⟩

-- With the bound as what every call keeps.
theorem System.Good.run_above (h : S.Good workerId dataCenterId) {i : ι} {b : Int} (calls : List ι)
    (hb : Above b (S.generator i) (S.clock i)) (e : Event ι) (he : e ∈ S.run calls) (hi : e.who = i)
    (id : Long) (hid : e.id? = some id) : b < id.toInt := by
  refine h.run_of_call (I := fun S => Above b (S.generator i) (S.clock i))
    (P := fun e => e.who = i → ∀ id, e.id? = some id → b < id.toInt)
    (fun S h hb j => ⟨fun hi id hid => ?_, h.above_call hb j⟩) hb calls e he hi id hid
  obtain rfl : j = i := hi
  have hstep := S.call_step j
  rw [reply_of_id? hid] at hstep
  exact (hstep.current_ge hb).trans_lt (hstep.current_lt (h.generator j) (h.clock j))

-- The ids of one generator come in increasing order, whatever the others do in between.
theorem System.Good.run_pairwise (h : S.Good workerId dataCenterId) (calls : List ι) :
    (S.run calls).Pairwise fun e e' => ∀ id id', e.id? = some id → e'.id? = some id' → e.who = e'.who →
      id.toInt < id'.toInt := by
  induction calls generalizing S with
  | nil => exact .nil
  | cons i calls ih =>
      rw [System.run, List.pairwise_cons]
      refine ⟨fun e' he' id id' hid hid' hwho => ?_, ih (h.call i)⟩
      have hstep := S.call_step i
      rw [reply_of_id? hid] at hstep
      refine (h.call i).run_above calls (.inr ?_) e' he' hwho.symm id' hid'
      rw [show (S.call i).1.who = i from rfl, S.call_generator_self i, ← hstep.returns_current]

-- What holds behind every call of a run.
theorem System.Good.run_event (h : S.Good workerId dataCenterId) (calls : List ι) (e : Event ι)
    (he : e ∈ S.run calls) :
    Snowflake.Good e.after ∧ e.after.workerId = workerId e.who ∧ e.after.dataCenterId = dataCenterId e.who ∧
      ∀ id, e.id? = some id → id = current e.after := by
  revert e
  refine h.run_of_call (I := fun _ => True) (fun S h _ j => ⟨?_, trivial⟩) trivial calls
  have hself := S.call_generator_self j
  have hcall := h.call j
  refine ⟨hself ▸ hcall.generator j, hself ▸ hcall.workerId j, hself ▸ hcall.dataCenterId j, ?_⟩
  intro id hid
  have hstep := S.call_step j
  rw [reply_of_id? hid] at hstep
  exact hstep.returns_current

theorem System.Good.run_fields (h : S.Good workerId dataCenterId) (calls : List ι) (e : Event ι)
    (he : e ∈ S.run calls) (id : Long) (hid : e.id? = some id) :
    id.sshiftRight timestampMoveBits + startTime = e.after.lastTimestamp ∧
      id.sshiftRight dataCenterIdMoveBits &&& maxDataCenterId = dataCenterId e.who ∧
      id.sshiftRight workerIdMoveBits &&& maxWorkerId = workerId e.who ∧
      id &&& sequenceMask = e.after.sequence := by
  obtain ⟨hafter, hw, hd, hcurrent⟩ := h.run_event calls e he
  have hparts := unpack hafter (hcurrent id hid)
  rw [hw, hd] at hparts
  exact hparts

end Runs

section Generators

theorem start_timestamp : -1 ≤ (-1#64).toInt ∧ (-1#64).toInt < 1498608000000 + 2 ^ 41 := by decide

theorem construct_ok {workerId dataCenterId : Long} {g : SnowflakeIdGenerator}
    (h : construct workerId dataCenterId = .ok g) :
    Good g ∧ g.workerId = workerId ∧ g.dataCenterId = dataCenterId := by
  have hmax : maxWorkerId.toInt = 31 ∧ maxDataCenterId.toInt = 31 ∧ (0#64).toInt = 0 := ⟨rfl, rfl, rfl⟩
  rw [construct] at h
  split_ifs at h with hw hd
  simp only [Bool.or_eq_true, BitVec.slt_iff_toInt_lt, hmax] at hw hd
  cases h
  exact ⟨⟨start_timestamp, by dsimp only; omega, by dsimp only; omega, zero_sequence⟩, rfl, rfl⟩

theorem good_start {ι : Type} {workerId dataCenterId : ι → Long} {g : ι → SnowflakeIdGenerator}
    (hg : ∀ i, construct (workerId i) (dataCenterId i) = .ok (g i)) {clock : ι → List Long}
    (hclock : ∀ i, InRange (clock i)) : System.Good ⟨g, clock⟩ workerId dataCenterId :=
  ⟨fun i => (construct_ok (hg i)).1, hclock, fun i => (construct_ok (hg i)).2.1,
    fun i => (construct_ok (hg i)).2.2⟩

theorem calls_succ (g : SnowflakeIdGenerator) (clock : List Long) (n : Nat) :
    calls g clock (n + 1) =
      ⟨(), (nextId g clock).1, (nextId g clock).2.1⟩ :: calls (nextId g clock).2.1 (nextId g clock).2.2 n := by
  have hconst (α : Type) (f : Unit → α) (a : α) : Function.update f () a = fun _ => a := by
    funext u
    exact Function.update_self ..
  rw [calls, List.replicate_succ, System.run, System.call]
  simp only [hconst]
  rfl

-- One generator never returns an id that is not above all those before it, whatever its clock reads.
theorem ids_strictly_increasing (workerId dataCenterId : Long) (g : SnowflakeIdGenerator)
    (hg : construct workerId dataCenterId = .ok g) (clock : List Long) (hclock : InRange clock) (n : Nat) :
    (returnedIds (calls g clock n)).Pairwise (fun id id' => id.toInt < id'.toInt) ∧
      (∀ e ∈ calls g clock n, 0 ≤ e.after.sequence.toInt ∧ e.after.sequence.toInt ≤ 4095) ∧
      ∀ g₁ clock₁ m g₂ clock₂, nextId g₁ clock₁ = (.throws m, g₂, clock₂) →
        (∃ t, clock₁ = t :: clock₂ ∧ t.toInt < g₁.lastTimestamp.toInt) ∧
        g₂.sequence = g₁.sequence ∧ g₂.lastTimestamp = g₁.lastTimestamp ∧
        ∀ k, calls g₁ clock₁ (k + 1) = ⟨(), .throws m, g₁⟩ :: calls g₁ clock₂ k := by
  have hgood := good_start (fun _ : Unit => hg) (fun _ => hclock)
  refine ⟨?_, fun e he => (hgood.run_event _ e he).1.sequence, ?_⟩
  · rw [returnedIds, List.pairwise_filterMap]
    exact (hgood.run_pairwise _).imp fun hpair id hid id' hid' => hpair id id' hid hid' rfl
  · intro g₁ clock₁ m g₂ clock₂ hthrow
    have hstep := nextId_step g₁ clock₁
    rw [hthrow] at hstep
    cases hstep with
    | throws t clock₂ m hc hback =>
        refine ⟨⟨t, hc, hback⟩, rfl, rfl, fun k => ?_⟩
        rw [calls_succ, hthrow]

theorem inRange_cons {t : Long} {clock : List Long} (ht : 0 ≤ t.toInt ∧ t.toInt < startTime.toInt + 2 ^ 41)
    (h : InRange clock) : InRange (t :: clock) :=
  List.forall_mem_cons.mpr ⟨ht, h⟩

-- Two readings of one millisecond and one that goes back.
theorem ids_strictly_increasing_back :
    (returnedIds (calls { workerId := 1#64, dataCenterId := 2#64 } [7#64, 7#64, 5#64] 3)).Pairwise
      (fun id id' => id.toInt < id'.toInt) :=
  (ids_strictly_increasing 1#64 2#64 _ rfl _
    (inRange_cons (by decide) (inRange_cons (by decide) (inRange_cons (by decide) (by simp [InRange])))) 3).1

-- Distinct generators never return the same id, and an id tells where it comes from.
theorem ids_unique {ι : Type} [DecidableEq ι] (workerId dataCenterId : ι → Long)
    (g : ι → SnowflakeIdGenerator) (hg : ∀ i, construct (workerId i) (dataCenterId i) = .ok (g i))
    (hdistinct : ∀ i j, i ≠ j → (dataCenterId i, workerId i) ≠ (dataCenterId j, workerId j))
    (clock : ι → List Long) (hclock : ∀ i, InRange (clock i)) (order : List ι) :
    (returnedIds (System.run ⟨g, clock⟩ order)).Nodup ∧
      ∀ e ∈ System.run ⟨g, clock⟩ order, ∀ id, e.id? = some id →
        id.sshiftRight timestampMoveBits + startTime = e.after.lastTimestamp ∧
        id.sshiftRight dataCenterIdMoveBits &&& maxDataCenterId = dataCenterId e.who ∧
        id.sshiftRight workerIdMoveBits &&& maxWorkerId = workerId e.who ∧
        id &&& sequenceMask = e.after.sequence := by
  have hgood := good_start hg hclock
  refine ⟨?_, hgood.run_fields order⟩
  rw [returnedIds, List.Nodup, List.pairwise_filterMap]
  refine (hgood.run_pairwise order).imp_of_mem fun {e e'} he he' hpair id hid id' hid' heq => ?_
  subst heq
  by_cases hwho : e.who = e'.who
  · exact absurd (hpair id id hid hid' hwho) (lt_irrefl _)
  · obtain ⟨-, hd, hw, -⟩ := hgood.run_fields order e he id hid
    obtain ⟨-, hd', hw', -⟩ := hgood.run_fields order e' he' id hid'
    exact hdistinct e.who e'.who hwho (by rw [← hd, ← hw, ← hd', ← hw'])

-- Two generators of one data center that read the same time.
theorem ids_unique_two :
    (returnedIds (System.run ⟨fun i : Bool => { workerId := bif i then 1#64 else 0#64, dataCenterId := 3#64 },
      fun _ => [7#64]⟩ [true, false])).Nodup :=
  (ids_unique (fun i : Bool => bif i then 1#64 else 0#64) (fun _ => 3#64) _ (by decide) (by decide) _
    (fun _ => inRange_cons (by decide) (by simp [InRange])) [true, false]).1

end Generators

end RichardTest.Snowflake
