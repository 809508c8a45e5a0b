import RichardTest.Des.Theorems

namespace RichardTest.Des

-- Both 28-bit halves of the permuted key, rotated to the left.
def rotateHalves (k : Bits 56) (n : Nat) : Bits 56 :=
  Vector.ofFn fun j =>
    if j.val < 28 then bit k ((j.val + n) % 28) else bit k (28 + (j.val - 28 + n) % 28)

-- The permuted key after `i` rounds of the schedule.
def keyBits (key : Chars 8) : Nat → Bits 56
  | 0 => permute pc1Tbl (byteToBit key 64)
  | i + 1 => rotateHalves (keyBits key i) ((mvTbl[i]?).getD 0)

-- The sub-keys as a function of the key alone.
def subKeys (key : Chars 8) : Vector (Bits 48) 16 :=
  Vector.ofFn fun i => permute pc2Tbl (keyBits key (i.val + 1))

theorem bit_rotateHalves (k : Bits 56) (n : Nat) {j : Nat} (hj : j < 56) :
    bit (rotateHalves k n) j =
      if j < 28 then bit k ((j + n) % 28) else bit k (28 + (j - 28 + n) % 28) := by
  rw [rotateHalves, bit_ofFn _ hj]

theorem rotateHalves_replicate_false (n : Nat) :
    rotateHalves (Vector.replicate 56 false) n = Vector.replicate 56 false := by
  apply eq_of_bit
  intro j hj
  rw [bit_rotateHalves _ _ hj]
  simp only [bit_replicate_false, ite_self]

section LoopBit

theorem loopBit_fst (s : Statics) (v : Bits 28) {n : Nat} (hn : n ≤ 28) {j : Nat} (hj : j < 28) :
    bit (loopBit s v n).1 j = bit v ((j + n) % 28) := by
  simp only [loopBit]
  rw [bit_bitCpy _ _ _ _ hj]
  split_ifs with h
  · rw [bit_bitCpy _ _ _ _ (by omega), if_pos (by omega)]
    congr 1
    omega
  · rw [bit_bitCpy _ _ _ _ hj, if_pos (by omega), bit_window _ _ (by omega)]
    congr 1
    omega

theorem loopBit_keyBit (s : Statics) (v : Bits 28) (n : Nat) : (loopBit s v n).2.keyBit = s.keyBit := by
  simp only [loopBit]

theorem loopBit_subKey (s : Statics) (v : Bits 28) (n : Nat) : (loopBit s v n).2.subKey = s.subKey := by
  simp only [loopBit]

end LoopBit

section Schedule

theorem mvTbl_le (i : Nat) : (mvTbl[i]?).getD 0 ≤ 28 := by
  by_cases hi : i < 16
  · interval_cases i <;> decide
  · rw [Vector.getElem?_eq_none (by omega)]
    exact Nat.zero_le 28

-- pc2_tbl reads none of the eight bits that pc1_tbl left behind in `key_bit`.
theorem permute_pc2_window (v : Bits 64) : permute pc2Tbl (window v 0 56) = permute pc2Tbl v := by
  have hlt : ∀ i < 48, (pc2Tbl[i]?).getD 0 - 1 < 56 := by decide
  apply eq_of_bit
  intro i hi
  rw [permute, bit_ofFn _ hi, permute, bit_ofFn _ hi, bit_window _ _ (hlt i hi), Nat.zero_add]

theorem setKeyRound_keyBit (s : Statics) (i : Nat) :
    window (setKeyRound s i).keyBit 0 56 = rotateHalves (window s.keyBit 0 56) ((mvTbl[i]?).getD 0) := by
  have hn := mvTbl_le i
  apply eq_of_bit
  intro j hj
  simp only [setKeyRound, tblReplace_keyBit, loopBit_keyBit]
  rw [bit_window _ _ hj, Nat.zero_add, bit_bitCpy _ _ _ _ (by omega), bit_rotateHalves _ _ hj]
  split_ifs with h1 h2 h2
  · omega
  · rw [loopBit_fst _ _ hn (by omega), bit_window _ _ (Nat.mod_lt _ (by norm_num)),
      bit_bitCpy _ _ _ _ (by omega), if_neg (by omega), bit_window _ _ (by omega), Nat.zero_add]
  · rw [bit_bitCpy _ _ _ _ (by omega), if_pos (by omega), Nat.sub_zero, loopBit_fst _ _ hn h2,
      bit_window _ _ (Nat.mod_lt _ (by norm_num)), bit_window _ _ (by omega)]
  · omega

theorem setKeyRound_subKey (s : Statics) (i : Nat) :
    (setKeyRound s i).subKey =
      s.subKey.setIfInBounds i (permute pc2Tbl (window (setKeyRound s i).keyBit 0 56)) := by
  rw [permute_pc2_window]
  simp only [setKeyRound, tblReplace_fst _ _ pc2Tbl (by norm_num), tblReplace_subKey, tblReplace_keyBit,
    loopBit_keyBit, loopBit_subKey]

-- A sub-key written behind those of the rounds before.
theorem getElem?_subKey_concat {v : Vector (Bits 48) 16} {f : Nat → Bits 48} {n : Nat} (hn : n < 16)
    (h : ∀ i < n, v[i]? = some (f i)) : ∀ i < n + 1, (v.setIfInBounds n (f n))[i]? = some (f i) := by
  intro i hi
  by_cases hin : i = n
  · subst hin
    rw [Vector.getElem?_setIfInBounds_self_of_lt hn]
  · rw [Vector.getElem?_setIfInBounds_ne (Ne.symm hin)]
    exact h i (by omega)

-- By induction on the number of rounds: `key_bit` holds the rotated key and the rounds behind have
-- written their sub-keys.
theorem setKeyRounds (key : Chars 8) (s : Statics) (h : window s.keyBit 0 56 = keyBits key 0) (n : Nat)
    (hn : n ≤ 16) :
    window ((List.range n).foldl setKeyRound s).keyBit 0 56 = keyBits key n ∧
      ∀ i < n, ((List.range n).foldl setKeyRound s).subKey[i]? =
        some (permute pc2Tbl (keyBits key (i + 1))) := by
  induction n with
  | zero => simp only [List.range_zero, List.foldl_nil, h, Nat.not_lt_zero, false_implies, implies_true,
      and_self]
  | succ n ih =>
      obtain ⟨hkey, hsub⟩ := ih (by omega)
      rw [List.range_succ, List.foldl_append, List.foldl_cons, List.foldl_nil]
      generalize (List.range n).foldl setKeyRound s = t at hkey hsub
      have hkey' : window (setKeyRound t n).keyBit 0 56 = keyBits key (n + 1) := by
        rw [setKeyRound_keyBit, hkey, keyBits]
      refine ⟨hkey', ?_⟩
      rw [setKeyRound_subKey, hkey']
      exact getElem?_subKey_concat (f := fun i => permute pc2Tbl (keyBits key (i + 1))) hn hsub

-- Whatever the static arrays held, set_key leaves the sub-keys of its argument.
theorem setKey_subKey (s : Statics) (key : Chars 8) : (setKey s key).subKey = subKeys key := by
  apply Vector.ext
  intro i hi
  apply Option.some.inj
  rw [← Vector.getElem?_eq_getElem hi, subKeys, Vector.getElem_ofFn]
  rw [setKey]
  simp only [tblReplace_fst _ _ pc1Tbl (by norm_num)]
  refine (setKeyRounds key _ ?_ 16 le_rfl).2 i hi
  apply eq_of_bit
  intro j hj
  rw [bit_window _ _ hj, bit_bitCpy _ _ _ _ (by omega), if_pos (by omega), Nat.zero_add, Nat.sub_zero,
    keyBits]

end Schedule

section Calls

-- The calls that work on a block under the sub-keys as they stand.
inductive BlockCall where
  | encrypt (plain : Chars 8)
  | decrypt (cypher : Chars 16)

inductive Call where
  | setKey (myKey : Chars 8)
  | block (call : BlockCall)

def BlockCall.step (s : Statics) : BlockCall → Statics
  | .encrypt plain => (Des.encrypt s plain).2
  | .decrypt cypher => (Des.decrypt s cypher).2

def Call.step (s : Statics) : Call → Statics
  | .setKey myKey => Des.setKey s myKey
  | .block call => call.step s

-- What a sequence of calls leaves in the static arrays.
def runBlocks (s : Statics) (calls : List BlockCall) : Statics := calls.foldl BlockCall.step s

def run (s : Statics) (calls : List Call) : Statics := calls.foldl Call.step s

theorem step_subKey (s : Statics) (call : BlockCall) : (call.step s).subKey = s.subKey := by
  cases call with
  | encrypt plain => exact (encrypt_eq s plain).2
  | decrypt cypher => exact (decrypt_eq s cypher).2

theorem runBlocks_subKey (s : Statics) (calls : List BlockCall) :
    (runBlocks s calls).subKey = s.subKey := by
  unfold runBlocks
  induction calls generalizing s with
  | nil => rfl
  | cons call calls ih => rw [List.foldl_cons, ih, step_subKey]

-- Two states of the static arrays with one set of sub-keys are alike to encrypt and to decrypt.
theorem encrypt_congr {s t : Statics} (h : s.subKey = t.subKey) (plain : Chars 8) :
    (encrypt s plain).1 = (encrypt t plain).1 := by
  rw [(encrypt_eq s plain).1, (encrypt_eq t plain).1, h]

theorem decrypt_congr {s t : Statics} (h : s.subKey = t.subKey) (cypher : Chars 16) :
    (decrypt s cypher).1 = (decrypt t cypher).1 := by
  rw [(decrypt_eq s cypher).1, (decrypt_eq t cypher).1, h]

-- After any calls, a new key and any blocks under it, a block comes out as in a program that has just
-- started and was given that key.
theorem calls_leave_no_trace (before : List Call) (key : Chars 8) (between : List BlockCall) :
    let s := runBlocks (setKey (run initStatics before) key) between
    (∀ plain : Chars 8, (encrypt s plain).1 = (encrypt (setKey initStatics key) plain).1) ∧
      ∀ cypher : Chars 16, (decrypt s cypher).1 = (decrypt (setKey initStatics key) cypher).1 := by
  intro s
  have hkey : s.subKey = (setKey initStatics key).subKey := by
    rw [show s.subKey = _ from runBlocks_subKey _ between, setKey_subKey, setKey_subKey]
  exact ⟨encrypt_congr hkey, decrypt_congr hkey⟩

end Calls

end RichardTest.Des
