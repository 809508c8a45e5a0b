import RichardTest.DbPool
import RichardTest.Outcome
import Mathlib.Data.List.Nodup

namespace RichardTest.DbPool

open Outcome

section Calls

variable {MYSQL : Type} (ppool : ConPool MYSQL)

theorem mark_flag (i : Nat) (value busy : Int) : (ppool.mark i value busy).flag = ppool.flag.set i value :=
  rfl

theorem mark_busy (i : Nat) (value busy : Int) : (ppool.mark i value busy).busy = busy :=
  rfl

-- The state of a connection is 0 for idle, 1 for busy.
def Binary : Prop :=
  ∀ value ∈ ppool.flag, value = 0 ∨ value = 1

variable {ppool}

-- Every flag belongs to a connection, and every connection has a flag.
theorem exists_con {i : Nat} {value : Int} (h : ppool.flag[i]? = some value) :
    ∃ con, ppool.cons[i]? = some con := by
  obtain ⟨hi, -⟩ := List.getElem?_eq_some_iff.mp h
  have hcons : i < ppool.cons.length := by rw [ppool.cons_length, ← ppool.flag_length]; exact hi
  exact ⟨ppool.cons[i], List.getElem?_eq_getElem hcons⟩

theorem exists_flag {i : Nat} {con : MYSQL} (h : ppool.cons[i]? = some con) :
    ∃ value, ppool.flag[i]? = some value := by
  obtain ⟨hi, -⟩ := List.getElem?_eq_some_iff.mp h
  have hflag : i < ppool.flag.length := by rw [ppool.flag_length, ← ppool.cons_length]; exact hi
  exact ⟨ppool.flag[i], List.getElem?_eq_getElem hflag⟩

theorem Binary.flag_cases (h : Binary ppool) {i : Nat} {con : MYSQL} (hi : ppool.cons[i]? = some con) :
    ppool.flag[i]? = some 0 ∨ ppool.flag[i]? = some 1 := by
  obtain ⟨value, hvalue⟩ := exists_flag hi
  rcases h value (List.mem_of_getElem? hvalue) with rfl | rfl
  · exact .inl hvalue
  · exact .inr hvalue

theorem Binary.mark (h : Binary ppool) (i : Nat) (busy : Int) {value : Int} (hvalue : value = 0 ∨ value = 1) :
    Binary (ppool.mark i value busy) := by
  intro x hx
  rcases List.mem_or_eq_of_mem_set hx with hx | rfl
  · exact h x hx
  · exact hvalue

theorem Binary.initPool {maxConnections : Nat} {initCon : Nat → Option MYSQL}
    (h : initPool maxConnections initCon = some ppool) : Binary ppool := by
  obtain ⟨cons, -, hpool⟩ := Option.bind_eq_some_iff.mp h
  cases hpool
  intro value hvalue
  exact .inl (List.eq_of_mem_replicate hvalue)

variable (ppool)

-- Everything a call of `get_con` can do.
theorem getCon_cases :
    (∃ i con, ppool.flag[i]? = some 0 ∧ ppool.cons[i]? = some con ∧
      getCon ppool = (some con, ppool.mark i 1 (ppool.busy + 1))) ∨
    ((∀ value ∈ ppool.flag, value ≠ 0) ∧ getCon ppool = (none, ppool)) := by
  unfold getCon
  cases hfind : ppool.flag.findIdx? (· == 0) with
  | none =>
      refine .inr ⟨?_, rfl⟩
      intro value hvalue hzero
      have := List.findIdx?_eq_none_iff.mp hfind value hvalue
      simp [hzero] at this
  | some i =>
      obtain ⟨hi, hzero, -⟩ := List.findIdx?_eq_some_iff_getElem.mp hfind
      have hflag : ppool.flag[i]? = some 0 := by
        rw [List.getElem?_eq_getElem hi, beq_iff_eq.mp hzero]
      obtain ⟨con, hcon⟩ := exists_con hflag
      exact .inl ⟨i, con, hflag, hcon, by simp only [hcon]⟩

variable [DecidableEq MYSQL]

theorem position_eq_some {pcon : Option MYSQL} {i : Nat} (h : position ppool pcon = some i) :
    ∃ con, pcon = some con ∧ ppool.cons[i]? = some con := by
  obtain ⟨hi, heq, -⟩ := List.findIdx?_eq_some_iff_getElem.mp h
  exact ⟨ppool.cons[i], beq_iff_eq.mp heq, List.getElem?_eq_getElem hi⟩

theorem position_eq_none {con : MYSQL} (h : position ppool (some con) = none) : con ∉ ppool.cons := by
  intro hcon
  have := List.findIdx?_eq_none_iff.mp h con hcon
  simp at this

-- Everything a call of `release_con` can do.
theorem releaseCon_cases (pcon : Option MYSQL) :
    (∃ i con, position ppool pcon = some i ∧ pcon = some con ∧ ppool.cons[i]? = some con ∧
      releaseCon ppool pcon = ppool.mark i 0 (ppool.busy - 1)) ∨
    (position ppool pcon = none ∧ releaseCon ppool pcon = ppool) := by
  unfold releaseCon
  cases hpos : position ppool pcon with
  | none => exact .inr ⟨rfl, rfl⟩
  | some i =>
      obtain ⟨con, hcon, hi⟩ := position_eq_some ppool hpos
      exact .inl ⟨i, con, rfl, hcon, hi, rfl⟩

theorem Binary.step (call : Call MYSQL) (h : Binary ppool) : Binary (step ppool call) := by
  cases call with
  | getCon =>
      rcases getCon_cases ppool with ⟨i, con, -, -, hget⟩ | ⟨-, hget⟩
      · rw [DbPool.step, hget]
        exact h.mark i _ (.inr rfl)
      · rw [DbPool.step, hget]
        exact h
  | releaseCon pcon =>
      rcases releaseCon_cases ppool pcon with ⟨i, con, -, -, -, hrel⟩ | ⟨-, hrel⟩
      · rw [DbPool.step, hrel]
        exact h.mark i _ (.inl rfl)
      · rw [DbPool.step, hrel]
        exact h

end Calls

section Accounting

variable {MYSQL : Type}

-- `busy` counts the busy connections.
def Accounted (ppool : ConPool MYSQL) : Prop :=
  ppool.busy = ppool.flag.count 1 ∧ 0 ≤ ppool.busy ∧ ppool.busy ≤ ppool.size

variable {ppool : ConPool MYSQL}

theorem accounted_iff : Accounted ppool ↔ ppool.busy = ppool.flag.count 1 := by
  constructor
  · exact fun h => h.1
  · intro h
    have hle : ppool.flag.count 1 ≤ ppool.size := by
      rw [← ppool.flag_length]
      exact List.count_le_length
    exact ⟨h, by omega, by omega⟩

theorem count_mark {i : Nat} {value : Int} (old busy : Int) (h : ppool.flag[i]? = some old) :
    (ppool.mark i value busy).flag.count 1 =
      ppool.flag.count 1 - (if old = 1 then 1 else 0) + if value = 1 then 1 else 0 := by
  obtain ⟨hi, hold⟩ := List.getElem?_eq_some_iff.mp h
  rw [mark_flag, List.count_set hi, hold]
  simp only [beq_iff_eq]

theorem count_pos {i : Nat} (h : ppool.flag[i]? = some 1) : 0 < ppool.flag.count 1 :=
  List.count_pos_iff.mpr (List.mem_of_getElem? h)

theorem accounted_getCon (h : Accounted ppool) : Accounted (getCon ppool).2 := by
  rw [accounted_iff] at h ⊢
  rcases getCon_cases ppool with ⟨i, con, hflag, -, hget⟩ | ⟨-, hget⟩
  · rw [hget, count_mark 0 _ hflag, mark_busy, h]
    simp
  · rw [hget]
    exact h

theorem accounted_initPool {maxConnections : Nat} {initCon : Nat → Option MYSQL}
    (h : initPool maxConnections initCon = some ppool) : Accounted ppool := by
  obtain ⟨cons, -, hpool⟩ := Option.bind_eq_some_iff.mp h
  cases hpool
  rw [accounted_iff]
  simp [List.count_replicate]

variable [DecidableEq MYSQL]

-- The call is no release of a connection that is idle: what it releases is not in the pool, or is
-- marked as busy at the place where the search finds it.
def ReleasesBusy (ppool : ConPool MYSQL) : Call MYSQL → Prop
  | .getCon => True
  | .releaseCon pcon => ∀ i, position ppool pcon = some i → ppool.flag[i]? = some 1

-- A release keeps the count exactly when it does not hit an idle connection.
theorem accounted_releaseCon_iff (hbin : Binary ppool) (h : Accounted ppool) (pcon : Option MYSQL) :
    Accounted (releaseCon ppool pcon) ↔ ReleasesBusy ppool (.releaseCon pcon) := by
  rw [accounted_iff] at h
  rw [accounted_iff, ReleasesBusy]
  rcases releaseCon_cases ppool pcon with ⟨i, con, hpos, -, hcon, hrel⟩ | ⟨hpos, hrel⟩
  · rw [hrel, mark_busy, hpos]
    rcases hbin.flag_cases hcon with hflag | hflag
    · have hne : ppool.busy - 1 ≠ ppool.flag.count 1 := by omega
      rw [count_mark 0 _ hflag]
      simp [hflag, hne]
    · have hpos := count_pos hflag
      have heq : ppool.busy - 1 = (ppool.flag.count 1 - 1 : Nat) := by omega
      rw [count_mark 1 _ hflag]
      simp [hflag, heq]
  · rw [hrel, hpos]
    simp [h]

theorem accounted_step_iff (ppool : ConPool MYSQL) (call : Call MYSQL) (hbin : Binary ppool)
    (h : Accounted ppool) : Accounted (step ppool call) ↔ ReleasesBusy ppool call := by
  cases call with
  | getCon => exact ⟨fun _ => trivial, fun _ => accounted_getCon h⟩
  | releaseCon pcon => exact accounted_releaseCon_iff hbin h pcon

-- The counter agrees with the flags in all the states of a run exactly when no call of the run releases
-- an idle connection.
theorem accounted_run_iff {maxConnections : Nat} {initCon : Nat → Option MYSQL}
    (h : initPool maxConnections initCon = some ppool) (calls : List (Call MYSQL)) :
    (∀ reached ∈ calls.scanl step ppool, Accounted reached) ↔ Along step ReleasesBusy ppool calls :=
  forall_scanl_iff_along (fun ppool call hbin => hbin.step ppool call) accounted_step_iff calls ppool
    (Binary.initPool h) (accounted_initPool h)

theorem accounted_run_iff_get_release :
    ∃ ppool : ConPool Nat, initPool 2 some = some ppool ∧
      ∀ reached ∈ [Call.getCon, .releaseCon (some 7), .releaseCon (some 0), .getCon].scanl step ppool,
        Accounted reached := by
  have hinit : initPool 2 some = some (⟨2, 0, [0, 0], [0, 1], rfl, rfl⟩ : ConPool Nat) := rfl
  refine ⟨_, hinit, (accounted_run_iff hinit _).mpr ⟨trivial, ?_, ?_, trivial, trivial⟩⟩
  · intro i hi
    cases hi
  · intro i hi
    cases hi
    rfl

-- The second release of one connection takes `busy` below the number of busy connections.
theorem accounted_fails_on_double_release :
    ¬∀ (maxConnections : Nat) (initCon : Nat → Option Nat) (ppool : ConPool Nat) (calls : List (Call Nat)),
      initPool maxConnections initCon = some ppool → ∀ reached ∈ calls.scanl step ppool, Accounted reached := by
  intro h
  let ppool : ConPool Nat := ⟨2, 0, [0, 0], [0, 1], rfl, rfl⟩
  let calls : List (Call Nat) := [.getCon, .releaseCon (some 0), .releaseCon (some 0)]
  have hbad := h 2 some ppool calls rfl (calls.foldl step ppool) (by simp [calls, List.scanl_cons])
  exact absurd hbad.2.1 (by decide)

end Accounting

section Ownership

variable {Client MYSQL : Type}

def Holds (system : System Client MYSQL) (client : Client) (con : MYSQL) : Prop :=
  (client, con) ∈ system.held

-- What holds between the pool and its clients: a connection is marked as busy while one client has it.
structure Exclusive (system : System Client MYSQL) : Prop where
  distinct : system.pool.cons.Nodup
  binary : Binary system.pool
  flag_iff : ∀ (i : Nat) con, system.pool.cons[i]? = some con →
    (system.pool.flag[i]? = some 1 ↔ ∃ client, Holds system client con)
  once : (system.held.map Prod.snd).Nodup
  pooled : ∀ client con, Holds system client con → con ∈ system.pool.cons

variable {system : System Client MYSQL}

-- Distinct connections are told apart by their places.
theorem Exclusive.ne_of_ne (h : Exclusive system) {i j : Nat} {con con' : MYSQL}
    (hi : system.pool.cons[i]? = some con) (hj : system.pool.cons[j]? = some con') (hne : j ≠ i) :
    con' ≠ con := by
  rintro rfl
  obtain ⟨hilt, -⟩ := List.getElem?_eq_some_iff.mp hi
  exact hne ((List.getElem?_inj hilt h.distinct).mp (hi.trans hj.symm)).symm

theorem Exclusive.holder_unique (h : Exclusive system) {client client' : Client} {con : MYSQL}
    (hc : Holds system client con) (hc' : Holds system client' con) : client = client' :=
  congrArg Prod.fst (List.inj_on_of_nodup_map h.once hc hc' rfl)

theorem Exclusive.not_held (h : Exclusive system) {i : Nat} {con : MYSQL}
    (hcon : system.pool.cons[i]? = some con) (hflag : system.pool.flag[i]? = some 0) (client : Client) :
    ¬Holds system client con := by
  intro hheld
  have hbusy := (h.flag_iff i con hcon).mpr ⟨client, hheld⟩
  rw [hflag] at hbusy
  cases hbusy

-- A client takes an idle connection.
theorem Exclusive.take (h : Exclusive system) {i : Nat} {con : MYSQL} (client : Client) (busy : Int)
    (hflag : system.pool.flag[i]? = some 0) (hcon : system.pool.cons[i]? = some con) :
    Exclusive ⟨system.pool.mark i 1 busy, (client, con) :: system.held⟩ where
  distinct := h.distinct
  binary := h.binary.mark i busy (.inr rfl)
  flag_iff := by
    intro j con' hj
    obtain ⟨hilt, -⟩ := List.getElem?_eq_some_iff.mp hflag
    by_cases hij : j = i
    · subst hij
      have heq : con = con' := Option.some.inj (hcon.symm.trans hj)
      subst heq
      simp [mark_flag, hilt, Holds]
    · have hne := h.ne_of_ne hcon hj hij
      rw [mark_flag, List.getElem?_set_ne (Ne.symm hij), h.flag_iff j con' hj]
      simp [Holds, hne]
  once := by
    refine List.nodup_cons.mpr ⟨?_, h.once⟩
    intro hmem
    obtain ⟨⟨other, con'⟩, hheld, rfl⟩ := List.mem_map.mp hmem
    exact h.not_held hcon hflag other hheld
  pooled := by
    intro client' con' hheld
    rcases List.mem_cons.mp hheld with heq | hheld
    · cases heq
      exact List.mem_of_getElem? hcon
    · exact h.pooled client' con' hheld

theorem exclusive_initPool {maxConnections : Nat} {initCon : Nat → Option MYSQL} {ppool : ConPool MYSQL}
    (h : initPool maxConnections initCon = some ppool) (hdistinct : ppool.cons.Nodup) :
    Exclusive (⟨ppool, []⟩ : System Client MYSQL) := by
  refine ⟨hdistinct, Binary.initPool h, ?_, List.nodup_nil, nofun⟩
  obtain ⟨cons, -, hpool⟩ := Option.bind_eq_some_iff.mp h
  cases hpool
  intro i con _
  simp [Holds, List.getElem?_replicate]

theorem Exclusive.getCon_eq_none_iff (h : Exclusive system) :
    (getCon system.pool).1 = none ↔ ∀ con ∈ system.pool.cons, ∃ client, Holds system client con := by
  rcases getCon_cases system.pool with ⟨i, con, hflag, hcon, hget⟩ | ⟨hbusy, hget⟩
  · rw [hget]
    refine ⟨nofun, fun hall => ?_⟩
    obtain ⟨client, hheld⟩ := hall con (List.mem_of_getElem? hcon)
    exact absurd hheld (h.not_held hcon hflag client)
  · rw [hget]
    refine ⟨fun _ con hcon => ?_, fun _ => rfl⟩
    obtain ⟨i, hi⟩ := List.mem_iff_getElem?.mp hcon
    rcases h.binary.flag_cases hi with hflag | hflag
    · exact absurd rfl (hbusy 0 (List.mem_of_getElem? hflag))
    · exact (h.flag_iff i con hi).mp hflag

variable [DecidableEq MYSQL] [DecidableEq Client]

-- A client gives a connection back.
theorem Exclusive.give (h : Exclusive system) {i : Nat} {con : MYSQL} {client : Client} (busy : Int)
    (hheld : Holds system client con) (hcon : system.pool.cons[i]? = some con) :
    Exclusive ⟨system.pool.mark i 0 busy, system.held.erase (client, con)⟩ where
  distinct := h.distinct
  binary := h.binary.mark i busy (.inl rfl)
  flag_iff := by
    have hnodup : system.held.Nodup := h.once.of_map _
    intro j con' hj
    obtain ⟨value, hvalue⟩ := exists_flag hcon
    obtain ⟨hilt, -⟩ := List.getElem?_eq_some_iff.mp hvalue
    by_cases hij : j = i
    · subst hij
      have heq : con = con' := Option.some.inj (hcon.symm.trans hj)
      subst heq
      have hgone : ∀ other, (other, con) ∉ system.held.erase (client, con) := by
        intro other hother
        rw [hnodup.mem_erase_iff] at hother
        exact hother.1 (by rw [h.holder_unique hother.2 hheld])
      simp [mark_flag, hilt, Holds, hgone]
    · have hne := h.ne_of_ne hcon hj hij
      rw [mark_flag, List.getElem?_set_ne (Ne.symm hij), h.flag_iff j con' hj]
      simp [Holds, hnodup.mem_erase_iff, hne]
  once := (List.erase_sublist.map Prod.snd).nodup h.once
  pooled := fun client' con' hheld' => h.pooled client' con' (List.mem_of_mem_erase hheld')

-- One call, made by any client.
theorem Exclusive.act (action : Action Client MYSQL) {system' : System Client MYSQL} (h : Exclusive system)
    (hact : act system action = some system') :
    Exclusive system' ∧ system'.pool.cons = system.pool.cons := by
  cases action with
  | get client =>
      rcases getCon_cases system.pool with ⟨i, con, hflag, hcon, hget⟩ | ⟨-, hget⟩
      · rw [DbPool.act, hget] at hact
        cases hact
        exact ⟨h.take client _ hflag hcon, rfl⟩
      · rw [DbPool.act, hget] at hact
        cases hact
        exact ⟨h, rfl⟩
  | release client con =>
      rw [DbPool.act, Option.ite_none_right_eq_some] at hact
      obtain ⟨hheld, hact⟩ := hact
      cases hact
      rcases releaseCon_cases system.pool (some con) with ⟨i, con', -, heq, hcon, hrel⟩ | ⟨hnone, -⟩
      · cases heq
        rw [hrel]
        exact ⟨h.give _ hheld hcon, rfl⟩
      · exact absurd (h.pooled client con hheld) (position_eq_none _ hnone)

-- In every interleaving of calls by any number of clients that release only what they hold.
theorem hand_out_exclusive {maxConnections : Nat} {initCon : Nat → Option MYSQL} {ppool : ConPool MYSQL}
    (hinit : initPool maxConnections initCon = some ppool) (hdistinct : ppool.cons.Nodup)
    (actions : List (Action Client MYSQL)) (hrun : run ⟨ppool, []⟩ actions = some system) :
    (∀ client client' con, Holds system client con → Holds system client' con → client = client') ∧
    ((getCon system.pool).1 = none ↔ ∀ con ∈ ppool.cons, ∃ client, Holds system client con) ∧
    (∀ (i : Nat) con, ppool.cons[i]? = some con →
      ((∃ client, Holds system client con) ↔ system.pool.flag[i]? = some 1)) ∧
    ∀ client con, Holds system client con → con ∈ ppool.cons := by
  have hreached : Exclusive system ∧ system.pool.cons = ppool.cons := by
    refine foldlM_invariant (I := fun reached => Exclusive reached ∧ reached.pool.cons = ppool.cons)
      ?_ actions _ _ ⟨exclusive_initPool hinit hdistinct, rfl⟩ hrun
    rintro reached action reached' ⟨hex, hcons⟩ hact
    obtain ⟨hex', hcons'⟩ := hex.act action hact
    exact ⟨hex', hcons'.trans hcons⟩
  obtain ⟨hex, hcons⟩ := hreached
  rw [← hcons]
  exact ⟨fun _ _ _ => hex.holder_unique, hex.getCon_eq_none_iff,
    fun i con hi => (hex.flag_iff i con hi).symm, hex.pooled⟩

-- Two clients empty a pool of two connections, and one of them gives its connection back.
theorem hand_out_exclusive_two_clients :
    ∃ (ppool : ConPool Nat) (system : System Bool Nat), initPool 2 some = some ppool ∧ ppool.cons.Nodup ∧
      run ⟨ppool, []⟩ [.get true, .get false, .get true, .release true 0] = some system ∧
      ((∃ client, Holds system client 1) ↔ system.pool.flag[1]? = some 1) := by
  have hinit : initPool 2 some = some (⟨2, 0, [0, 0], [0, 1], rfl, rfl⟩ : ConPool Nat) := rfl
  have hdistinct : [0, 1].Nodup := by decide
  refine ⟨_, _, hinit, hdistinct, rfl, ?_⟩
  exact (hand_out_exclusive hinit hdistinct [.get true, .get false, .get true, .release true 0] rfl).2.2.1 1 1 rfl

end Ownership

end RichardTest.DbPool
