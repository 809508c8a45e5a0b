import RichardTest.BigNumCpp.Lemmas
import Mathlib.Data.List.Basic

namespace RichardTest.BigNumCpp.BigNum

section Smear

-- What the sign extension of a character above 7F does to the characters before it.
def smear : List (BitVec 8) → List (BitVec 8)
  | [] => []
  | c :: t => (if ∃ d ∈ t, d.msb then BitVec.allOnes 8 else c) :: smear t

def smearBy (d c : BitVec 8) : BitVec 8 := if d.msb then BitVec.allOnes 8 else c

theorem smear_length (t : List (BitVec 8)) : (smear t).length = t.length := by
  induction t with
  | nil => rfl
  | cons c t ih => rw [smear, List.length_cons, List.length_cons, ih]

theorem smear_append_singleton (t : List (BitVec 8)) (d : BitVec 8) :
    smear (t ++ [d]) = (smear t).map (smearBy d) ++ [d] := by
  induction t with
  | nil => simp [smear]
  | cons c t ih =>
      rw [List.cons_append, smear, ih, smear, List.map_cons, List.cons_append]
      congr 1
      by_cases hd : d.msb
      · rw [smearBy, if_pos hd, if_pos ⟨d, by simp, hd⟩]
      · simp [smearBy, hd, List.mem_append, or_and_right, exists_or]

theorem smear_of_ascii {t : List (BitVec 8)} (h : ∀ c ∈ t, c.msb = false) : smear t = t := by
  induction t with
  | nil => rfl
  | cons c t ih =>
      obtain ⟨hc, ht⟩ := List.forall_mem_cons.mp h
      have hnone : ¬∃ d ∈ t, d.msb := by
        intro hd
        obtain ⟨d, hmem, hmsb⟩ := hd
        rw [ht d hmem] at hmsb
        cases hmsb
      rw [smear, if_neg hnone, ih ht]

theorem smear_eq_self_iff (t : List (BitVec 8)) :
    smear t = t ↔ t.Pairwise fun c d => d.msb → c = BitVec.allOnes 8 := by
  induction t with
  | nil => simp [smear]
  | cons c t ih =>
      rw [smear, List.cons.injEq, ih, List.pairwise_cons]
      refine and_congr_left fun _ => ?_
      by_cases hhigh : ∃ d ∈ t, d.msb
      · rw [if_pos hhigh]
        obtain ⟨d, hmem, hmsb⟩ := hhigh
        exact ⟨fun h _ _ _ => h.symm, fun h => (h d hmem hmsb).symm⟩
      · rw [if_neg hhigh]
        exact iff_of_true rfl fun d hmem hmsb => absurd ⟨d, hmem, hmsb⟩ hhigh

end Smear

section Limb

variable {w : Nat}

-- Byte `j` of a limb.
def byte (x j : Nat) : BitVec 8 := BitVec.ofNat 8 (x / 2 ^ (j * 8))

theorem getLsbD_byte (x j i : Nat) : (byte x j).getLsbD i = (decide (i < 8) && x.testBit (j * 8 + i)) := by
  rw [byte, BitVec.getLsbD_ofNat, ← Nat.shiftRight_eq_div_pow, Nat.testBit_shiftRight]

-- A limb after one more character.
def push (w x : Nat) (c : BitVec 8) : Nat := x * 2 ^ 8 % 2 ^ w ||| ofChar w c

theorem testBit_push (x : Nat) (c : BitVec 8) (i : Nat) :
    (push w x c).testBit i = (decide (i < w) && (decide (8 ≤ i) && x.testBit (i - 8) ||
      if i < 8 then c.getLsbD i else c.msb)) := by
  rw [push, Nat.testBit_or, Nat.testBit_mod_two_pow, Nat.testBit_mul_two_pow, ofChar, BitVec.testBit_toNat,
    BitVec.getLsbD_signExtend, ← Bool.and_or_distrib_left]

theorem byte_push_zero (hw : 32 ≤ w) (x : Nat) (c : BitVec 8) : byte (push w x c) 0 = c := by
  apply BitVec.eq_of_getLsbD_eq
  intro i hi
  rw [getLsbD_byte, testBit_push]
  simp [hi, show i < w by omega]

theorem byte_push_succ (hw : 32 ≤ w) (x : Nat) (c : BitVec 8) {j : Nat} (hj : j < 3) :
    byte (push w x c) (j + 1) = smearBy c (byte x j) := by
  apply BitVec.eq_of_getLsbD_eq
  intro i hi
  have hhigh : ¬(j + 1) * 8 + i < 8 := by omega
  rw [getLsbD_byte, testBit_push, decide_eq_true hi, decide_eq_true (show (j + 1) * 8 + i < w by omega),
    decide_eq_true (show 8 ≤ (j + 1) * 8 + i by omega), if_neg hhigh, Bool.true_and, Bool.true_and,
    Bool.true_and, show (j + 1) * 8 + i - 8 = j * 8 + i by omega, smearBy]
  by_cases hc : c.msb
  · rw [if_pos hc, hc, Bool.or_true, BitVec.getLsbD_allOnes, decide_eq_true hi]
  · rw [if_neg hc, Bool.eq_false_of_not_eq_true hc, Bool.or_false, getLsbD_byte, decide_eq_true hi,
      Bool.true_and]

-- The characters of a limb, first character first.
def bytes (x : Nat) : List (BitVec 8) := [byte x 3, byte x 2, byte x 1, byte x 0]

theorem bytes_push (hw : 32 ≤ w) (x : Nat) (c : BitVec 8) :
    bytes (push w x c) = (bytes x).tail.map (smearBy c) ++ [c] := by
  rw [bytes, byte_push_succ hw x c (by decide), byte_push_succ hw x c (by decide),
    byte_push_succ hw x c (by decide), byte_push_zero hw]
  rfl

theorem printLimb_eq (x : Nat) : printLimb x = (bytes x).filter (· ≠ 0) := rfl

-- A limb after the characters `t`, from an empty one.
def pack (w : Nat) (t : List (BitVec 8)) : Nat := t.foldl (push w) 0

theorem pack_nil : pack w [] = 0 := rfl

theorem pack_append_singleton (t : List (BitVec 8)) (c : BitVec 8) :
    pack w (t ++ [c]) = push w (pack w t) c := by
  rw [pack, List.foldl_append]
  rfl

theorem bytes_pack (hw : 32 ≤ w) {t : List (BitVec 8)} (ht : t.length ≤ 4) :
    bytes (pack w t) = smear (List.replicate (4 - t.length) 0 ++ t) := by
  induction t using List.reverseRecOn with
  | nil =>
      rw [List.append_nil, smear_of_ascii fun c hc => by rw [List.eq_of_mem_replicate hc]; rfl, pack_nil]
      decide
  | append_singleton t c ih =>
      rw [List.length_append, List.length_singleton] at ht
      have hzeros :
          List.replicate (4 - t.length) (0 : BitVec 8) = 0 :: List.replicate (4 - (t.length + 1)) 0 := by
        rw [← List.replicate_succ]
        congr 1
        omega
      rw [pack_append_singleton, bytes_push hw, ih (by omega), List.length_append, List.length_singleton,
        ← List.append_assoc, smear_append_singleton, hzeros, List.cons_append, smear, List.tail_cons]

theorem smear_ne_zero {t : List (BitVec 8)} (hnul : ∀ c ∈ t, c ≠ 0) : ∀ c ∈ smear t, c ≠ 0 := by
  induction t with
  | nil => exact hnul
  | cons c t ih =>
      obtain ⟨hc, ht⟩ := List.forall_mem_cons.mp hnul
      rw [smear, List.forall_mem_cons]
      refine ⟨?_, ih ht⟩
      split_ifs
      · decide
      · exact hc

-- A character above 7F fills the empty characters above it.
theorem smear_zeros_ne_zero {t : List (BitVec 8)} (hnul : ∀ c ∈ t, c ≠ 0) (hhigh : ∃ d ∈ t, d.msb) (n : Nat) :
    ∀ c ∈ smear (List.replicate n 0 ++ t), c ≠ 0 := by
  induction n with
  | zero => exact smear_ne_zero hnul
  | succ n ih =>
      obtain ⟨d, hmem, hmsb⟩ := hhigh
      rw [List.replicate_succ, List.cons_append, smear, if_pos ⟨d, List.mem_append_right _ hmem, hmsb⟩,
        List.forall_mem_cons]
      exact ⟨by decide, ih⟩

-- Up to four characters that a limb gives back: all of them are below 80, or there are four and those before a
-- character from 80 on are FF.
def Kept (t : List (BitVec 8)) : Prop :=
  (∀ c ∈ t, c.msb = false) ∨ (t.length = 4 ∧ t.Pairwise fun c d => d.msb → c = BitVec.allOnes 8)

instance (t : List (BitVec 8)) : Decidable (Kept t) := inferInstanceAs (Decidable (_ ∨ _))

theorem printLimb_of_ascii (hw : 32 ≤ w) {t : List (BitVec 8)} (ht : t.length ≤ 4) (hnul : ∀ c ∈ t, c ≠ 0)
    (hlow : ∀ c ∈ t, c.msb = false) : printLimb (pack w t) = t := by
  have hpadded : ∀ c ∈ List.replicate (4 - t.length) 0 ++ t, c.msb = false := by
    intro c hc
    rcases List.mem_append.mp hc with hc | hc
    · rw [List.eq_of_mem_replicate hc]
      rfl
    · exact hlow c hc
  rw [printLimb_eq, bytes_pack hw ht, smear_of_ascii hpadded, List.filter_append,
    List.filter_eq_self.mpr fun c hc => decide_eq_true (hnul c hc)]
  simp

theorem printLimb_of_high (hw : 32 ≤ w) {t : List (BitVec 8)} (ht : t.length ≤ 4) (hnul : ∀ c ∈ t, c ≠ 0)
    (hhigh : ∃ d ∈ t, d.msb) : printLimb (pack w t) = smear (List.replicate (4 - t.length) 0 ++ t) := by
  rw [printLimb_eq, bytes_pack hw ht]
  exact List.filter_eq_self.mpr fun c hc => decide_eq_true (smear_zeros_ne_zero hnul hhigh _ c hc)

theorem not_high {t : List (BitVec 8)} (h : ¬∃ d ∈ t, d.msb) : ∀ c ∈ t, c.msb = false :=
  fun c hc => Bool.eq_false_of_not_eq_true fun hmsb => h ⟨c, hc, hmsb⟩

theorem printLimb_length (hw : 32 ≤ w) {t : List (BitVec 8)} (ht : t.length = 4) (hnul : ∀ c ∈ t, c ≠ 0) :
    (printLimb (pack w t)).length = 4 := by
  by_cases hhigh : ∃ d ∈ t, d.msb
  · rw [printLimb_of_high hw ht.le hnul hhigh, smear_length, List.length_append, List.length_replicate, ht]
  · rw [printLimb_of_ascii hw ht.le hnul (not_high hhigh), ht]

theorem printLimb_eq_self_iff (hw : 32 ≤ w) {t : List (BitVec 8)} (ht : t.length ≤ 4) (hnul : ∀ c ∈ t, c ≠ 0) :
    printLimb (pack w t) = t ↔ Kept t := by
  by_cases hhigh : ∃ d ∈ t, d.msb
  · have hnot : ¬∀ c ∈ t, c.msb = false := by
      intro hlow
      obtain ⟨d, hmem, hmsb⟩ := hhigh
      rw [hlow d hmem] at hmsb
      cases hmsb
    rw [Kept, or_iff_right hnot, printLimb_of_high hw ht hnul hhigh]
    by_cases hfull : t.length = 4
    · rw [hfull, Nat.sub_self, List.replicate_zero, List.nil_append, smear_eq_self_iff]
      exact (and_iff_right rfl).symm
    · refine iff_of_false (fun heq => hfull ?_) fun h => hfull h.1
      have hlen := congrArg List.length heq
      rw [smear_length, List.length_append, List.length_replicate] at hlen
      omega
  · have hlow := not_high hhigh
    exact iff_of_true (printLimb_of_ascii hw ht hnul hlow) (Or.inl hlow)

end Limb

section Blocks

variable {w : Nat}

-- The characters of `s` that go into limb `k`.
def block (s : List (BitVec 8)) (k : Nat) : List (BitVec 8) := (s.drop (4 * k)).take 4

theorem block_succ (s : List (BitVec 8)) (k : Nat) : block s (k + 1) = block (s.drop 4) k := by
  rw [block, block, List.drop_drop]
  congr 2
  omega

theorem block_nil (k : Nat) : block [] k = [] := by
  rw [block, List.drop_nil, List.take_nil]

-- What the limbs from the first on give back.
def printed (w : Nat) (s : List (BitVec 8)) (n : Nat) : List (BitVec 8) :=
  (List.range n).flatMap fun k => printLimb (pack w (block s k))

theorem printed_succ (s : List (BitVec 8)) (n : Nat) :
    printed w s (n + 1) = printLimb (pack w (s.take 4)) ++ printed w (s.drop 4) n := by
  rw [printed, List.range_succ_eq_map, List.flatMap_cons, List.flatMap_map, printed]
  simp only [Nat.succ_eq_add_one, block_succ]
  rfl

theorem printed_nil (n : Nat) : printed w [] n = [] := by
  rw [printed, List.flatMap_eq_nil_iff]
  intro k _
  rw [block_nil, pack_nil]
  decide

-- A limb that is full gives back four characters, so the limbs after it do not move.
theorem printed_eq_self_iff (hw : 32 ≤ w) (n : Nat) {s : List (BitVec 8)} (hlen : s.length ≤ 4 * n)
    (hnul : ∀ c ∈ s, c ≠ 0) : printed w s n = s ↔ ∀ k < n, Kept (block s k) := by
  induction n generalizing s with
  | zero =>
      have hnil : s = [] := List.length_eq_zero_iff.mp (by omega)
      rw [hnil]
      exact iff_of_true (printed_nil 0) fun k hk => absurd hk (Nat.not_lt_zero k)
  | succ n ih =>
      have hhead : ∀ c ∈ s.take 4, c ≠ 0 := fun c hc => hnul c (List.mem_of_mem_take hc)
      have htail : ∀ c ∈ s.drop 4, c ≠ 0 := fun c hc => hnul c (List.mem_of_mem_drop hc)
      have hrest := ih (by rw [List.length_drop]; omega) htail
      have hfirst := printLimb_eq_self_iff hw (List.length_take_le 4 s) hhead
      have hsplit : (∀ k < n + 1, Kept (block s k)) ↔ Kept (s.take 4) ∧ ∀ k < n, Kept (block (s.drop 4) k) := by
        rw [Nat.forall_lt_succ_left]
        simp only [block_succ]
        rfl
      have hparts : printed w s (n + 1) = s ↔
          printLimb (pack w (s.take 4)) = s.take 4 ∧ printed w (s.drop 4) n = s.drop 4 := by
        rw [printed_succ]
        nth_rewrite 3 [← List.take_append_drop 4 s]
        by_cases hfull : (s.take 4).length = 4
        · apply List.append_eq_append_iff_of_size_eq_left
          rw [printLimb_length hw hfull hhead, hfull]
        · rw [List.length_take] at hfull
          rw [List.drop_eq_nil_of_le (by omega), printed_nil, List.append_nil, List.append_nil]
          exact (and_iff_left rfl).symm
      rw [hparts, hsplit, hfirst, hrest]

end Blocks

section Run

variable {w : Nat}

theorem block_append_singleton (s : List (BitVec 8)) (c : BitVec 8) (k : Nat) :
    block (s ++ [c]) k = if k = s.length / 4 then block s k ++ [c] else block s k := by
  by_cases hle : 4 * k ≤ s.length
  · rw [block, block, List.drop_append_of_le_length hle]
    by_cases hk : k = s.length / 4
    · rw [if_pos hk, List.take_of_length_le (l := s.drop (4 * k)) (by rw [List.length_drop]; omega)]
      apply List.take_of_length_le
      rw [List.length_append, List.length_drop, List.length_singleton]
      omega
    · rw [if_neg hk]
      apply List.take_append_of_le_length
      rw [List.length_drop]
      omega
  · have hbeyond : (s ++ [c]).length ≤ 4 * k := by
      rw [List.length_append, List.length_singleton]
      omega
    rw [if_neg (by omega), block, block, List.drop_eq_nil_of_le hbeyond, List.drop_eq_nil_of_le (by omega)]

theorem packLoop_append (s t : List (BitVec 8)) (i : Nat) (B : BigNum) :
    packLoop w (s ++ t) i B = (packLoop w s i B).bind (packLoop w t (i + s.length)) := by
  induction s generalizing i B with
  | nil => rfl
  | cons c s ih =>
      rw [List.cons_append, List.length_cons, packLoop, packLoop, Nat.add_comm s.length 1, ← Nat.add_assoc]
      simp only [ih, Option.bind_eq_bind, Option.bind_assoc]

theorem packLoop_singleton (c : BitVec 8) {i : Nat} (hi : i / 4 < len1) (B : BigNum) :
    ∃ B', packLoop w [c] i B = some B' ∧
      ∀ k, B'.limb k = if k = i / 4 then push w (B.limb (i / 4)) c else B.limb k := by
  refine ⟨(B.update (i / 4) (B.limb (i / 4) * 2 ^ 8 % 2 ^ w)).update (i / 4) (push w (B.limb (i / 4)) c), ?_, ?_⟩
  · simp only [packLoop, get_of_lt hi, set_of_lt hi, Option.bind_eq_bind, Option.bind_some, limb_update hi,
      if_true, push]
  · intro k
    rw [limb_update hi, limb_update hi]
    split_ifs <;> rfl

-- Limb `k` takes in the characters from `4 * k` on.
theorem packLoop_foldl {s : List (BitVec 8)} (hlen : s.length ≤ 4 * len1) (B : BigNum) :
    ∃ B', packLoop w s 0 B = some B' ∧ ∀ k, B'.limb k = (block s k).foldl (push w) (B.limb k) := by
  induction s using List.reverseRecOn with
  | nil =>
      refine ⟨B, rfl, fun k => ?_⟩
      rw [block_nil, List.foldl_nil]
  | append_singleton s c ih =>
      rw [List.length_append, List.length_singleton] at hlen
      obtain ⟨B₁, hrun₁, hlimb₁⟩ := ih (by omega)
      obtain ⟨B₂, hrun₂, hlimb₂⟩ := packLoop_singleton (w := w) c (i := s.length) (by omega) B₁
      refine ⟨B₂, ?_, fun k => ?_⟩
      · rw [packLoop_append, hrun₁, Option.bind_some, Nat.zero_add, hrun₂]
      · rw [hlimb₂, hlimb₁, hlimb₁, block_append_singleton]
        by_cases hk : k = s.length / 4
        · rw [if_pos hk, if_pos hk, hk, List.foldl_append]
          rfl
        · rw [if_neg hk, if_neg hk]

theorem packLoop_limbs {s : List (BitVec 8)} (hlen : s.length ≤ 4 * len1) {B : BigNum} (hB : ∀ k, B.limb k = 0) :
    ∃ B', packLoop w s 0 B = some B' ∧ ∀ k, B'.limb k = pack w (block s k) := by
  obtain ⟨B', hrun, hlimb⟩ := packLoop_foldl (w := w) hlen B
  refine ⟨B', hrun, fun k => ?_⟩
  rw [hlimb, hB, pack]

theorem printLoop_eq (B : BigNum) (n i : Nat) (hn : i + n ≤ len1) :
    printLoop B n i = some ((List.range n).flatMap fun k => printLimb (B.limb (i + k))) := by
  induction n generalizing i with
  | zero => rfl
  | succ n ih =>
      rw [printLoop, get_of_lt (by omega), ih (i + 1) (by omega), List.range_succ_eq_map, List.flatMap_cons,
        List.flatMap_map]
      simp only [Nat.succ_eq_add_one, Nat.add_zero, Nat.add_assoc, Nat.add_comm 1]
      rfl

theorem limb_zeroFilled (k : Nat) : zeroFilled.limb k = 0 := limb_zeros 0 0 k

theorem printS_ofString (s : List (BitVec 8)) (hne : s ≠ []) (hlen : s.length ≤ 500) :
    (ofString w zeroFilled s).bind printS = some (printed w s ((s.length - 1) / 4 + 2) ++ [10]) := by
  have hpos := List.length_pos_iff.mpr hne
  have hlen1 : len1 = 128 := rfl
  obtain ⟨B, hrun, hlimb⟩ := packLoop_limbs (w := w) (s := s) (by omega) limb_zeroFilled
  have hlength : ((s.length + (2 ^ 64 - 1)) % 2 ^ 64 / 4 + 1) % 2 ^ 32 = (s.length - 1) / 4 + 1 := by omega
  rw [ofString, hrun, hlength]
  show printS _ = _
  rw [printS, printLoop_eq _ _ _ (by simp only; omega)]
  simp only [limb_withLength, Nat.zero_add, hlimb]
  rfl

-- The texts that come back from a BigNum.
def Survives (s : List (BitVec 8)) : Prop := ∀ k ≤ s.length / 4, Kept (block s k)

instance (s : List (BitVec 8)) : Decidable (Survives s) := inferInstanceAs (Decidable (∀ k ≤ _, _))

theorem kept_beyond {s : List (BitVec 8)} {k : Nat} (hk : s.length ≤ 4 * k) : Kept (block s k) := by
  rw [block, List.drop_eq_nil_of_le hk]
  exact Or.inl fun c hc => absurd hc (List.not_mem_nil)

theorem survives_iff {s : List (BitVec 8)} {n : Nat} (hn : s.length ≤ 4 * n) :
    Survives s ↔ ∀ k < n, Kept (block s k) := by
  constructor
  · intro h k _
    by_cases hk : k ≤ s.length / 4
    · exact h k hk
    · exact kept_beyond (by omega)
  · intro h k _
    by_cases hk : k < n
    · exact h k hk
    · exact kept_beyond (by omega)

-- The sign of a character from 80 on is spread over the characters before it in its limb.
theorem printS_ofString_iff (hw : 32 ≤ w) {s : List (BitVec 8)} (hne : s ≠ []) (hlen : s.length ≤ 500)
    (hnul : ∀ c ∈ s, c ≠ 0) :
    (ofString w zeroFilled s).bind printS = some (s ++ [10]) ↔ Survives s := by
  have hn : s.length ≤ 4 * ((s.length - 1) / 4 + 2) := by omega
  rw [printS_ofString s hne hlen, Option.some.injEq, List.append_left_inj, printed_eq_self_iff hw _ hn hnul,
    survives_iff hn]

-- "Hello".
theorem printS_ofString_hello :
    (ofString 64 zeroFilled [0x48, 0x65, 0x6c, 0x6c, 0x6f]).bind printS =
      some ([0x48, 0x65, 0x6c, 0x6c, 0x6f] ++ [10]) :=
  (printS_ofString_iff (by decide) (by decide) (by decide) (by decide)).mpr (by decide)

-- "é" in UTF-8 comes out as FF FF FF A9.
theorem printS_ofString_accent :
    ¬∀ s : List (BitVec 8), s ≠ [] → s.length ≤ 500 → (∀ c ∈ s, c ≠ 0) →
      (ofString 64 zeroFilled s).bind printS = some (s ++ [10]) := by
  intro hall
  have hsame := hall [0xc3, 0xa9] (by decide) (by decide) (by decide)
  have hprinted : (ofString 64 zeroFilled [0xc3, 0xa9]).bind printS = some [0xff, 0xff, 0xff, 0xa9, 10] := by
    decide
  rw [hprinted] at hsame
  exact absurd hsame (by decide)

end Run

end RichardTest.BigNumCpp.BigNum
