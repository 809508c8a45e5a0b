import Mathlib.Data.List.TakeWhile
import Mathlib.Data.List.Flatten
import Mathlib.Tactic.SplitIfs
import Mathlib.Algebra.Ring.Nat

namespace RichardTest.Utf8

-- Strings of UTF-16 units and their bytes in UTF-8. A surrogate without its partner is written as a
-- question mark, and a malformed piece of the bytes is read as U+FFFD.

abbrev Word := BitVec 16
abbrev Byte := BitVec 8

def word (n : Nat) : Word := BitVec.ofNat 16 n
def byte (n : Nat) : Byte := BitVec.ofNat 8 n

theorem word_toNat {n : Nat} (h : n < 2 ^ 16) : (word n).toNat = n := by
  rw [word, BitVec.toNat_ofNat, Nat.mod_eq_of_lt h]

theorem byte_toNat {n : Nat} (h : n < 2 ^ 8) : (byte n).toNat = n := by
  rw [byte, BitVec.toNat_ofNat, Nat.mod_eq_of_lt h]

theorem word_of_toNat (c : Word) : word c.toNat = c := BitVec.eq_of_toNat_eq (word_toNat c.isLt)

section Points

def High (c : Word) : Prop := 0xD800 ≤ c.toNat ∧ c.toNat < 0xDC00
def Low (c : Word) : Prop := 0xDC00 ≤ c.toNat ∧ c.toNat < 0xE000
def Surrogate (n : Nat) : Prop := 0xD800 ≤ n ∧ n < 0xE000

instance (c : Word) : Decidable (High c) := inferInstanceAs (Decidable (_ ∧ _))
instance (c : Word) : Decidable (Low c) := inferInstanceAs (Decidable (_ ∧ _))
instance (n : Nat) : Decidable (Surrogate n) := inferInstanceAs (Decidable (_ ∧ _))

-- A code point that is not a surrogate.
def Scalar (n : Nat) : Prop := n < 0x110000 ∧ ¬Surrogate n

def pair (c d : Word) : Nat := 0x10000 + (c.toNat - 0xD800) * 1024 + (d.toNat - 0xDC00)

def single (c : Word) : Nat := if Surrogate c.toNat then 0x3F else c.toNat

-- The code points of a string.
def codes : List Word → List Nat
  | [] => []
  | [c] => [single c]
  | c :: d :: s => if High c ∧ Low d then pair c d :: codes s else single c :: codes (d :: s)

-- The units of a code point.
def words (n : Nat) : List Word :=
  if n < 0x10000 then [word n] else [word (0xD800 + (n - 0x10000) / 1024), word (0xDC00 + (n - 0x10000) % 1024)]

-- Every surrogate stands in a pair.
def paired : List Word → Bool
  | [] => true
  | [c] => ¬Surrogate c.toNat
  | c :: d :: s => if High c ∧ Low d then paired s else ¬Surrogate c.toNat ∧ paired (d :: s)

theorem single_scalar (c : Word) : Scalar (single c) := by
  have := c.isLt
  unfold single
  split_ifs with h <;> unfold Scalar
  · unfold Surrogate
    omega
  · exact ⟨by omega, h⟩

theorem pair_scalar {c d : Word} (hc : High c) (hd : Low d) : Scalar (pair c d) := by
  unfold High at hc
  unfold Low at hd
  unfold pair Scalar Surrogate
  omega

theorem pair_eq {c d : Word} {x y : Nat} (hc : c.toNat = 0xD800 + x) (hd : d.toNat = 0xDC00 + y) :
    pair c d = 0x10000 + x * 1024 + y := by
  unfold pair
  omega

theorem codes_scalar (s : List Word) : ∀ n ∈ codes s, Scalar n := by
  induction s using codes.induct with
  | case1 => simp [codes]
  | case2 c => simpa [codes] using single_scalar c
  | case3 c d s h ih => simpa [codes, h] using ⟨pair_scalar h.1 h.2, ih⟩
  | case4 c d s h ih => simpa [codes, h] using ⟨single_scalar c, ih⟩

theorem codes_cons {c : Word} (h : ¬Surrogate c.toNat) (s : List Word) : codes (c :: s) = c.toNat :: codes s := by
  have hhigh : ¬High c := by
    unfold High
    unfold Surrogate at h
    omega
  cases s with
  | nil => simp [codes, single, h]
  | cons d s => simp [codes, single, h, hhigh]

theorem paired_cons {c : Word} (h : ¬Surrogate c.toNat) (s : List Word) : paired (c :: s) = paired s := by
  have hhigh : ¬High c := by
    unfold High
    unfold Surrogate at h
    omega
  cases s with
  | nil => simp [paired, h]
  | cons d s => simp [paired, h, hhigh]

-- A code point's units read as that code point, whatever follows them.
theorem words_append {n : Nat} (hn : Scalar n) (s : List Word) :
    codes (words n ++ s) = n :: codes s ∧ paired (words n ++ s) = paired s := by
  unfold Scalar at hn
  unfold words
  split_ifs with hsmall
  · have hword := word_toNat (show n < 2 ^ 16 by omega)
    have hnot : ¬Surrogate (word n).toNat := by
      rw [hword]
      exact hn.2
    rw [List.singleton_append, codes_cons hnot, paired_cons hnot, hword]
    exact ⟨rfl, rfl⟩
  · have hc := word_toNat (show 0xD800 + (n - 0x10000) / 1024 < 2 ^ 16 by omega)
    have hd := word_toNat (show 0xDC00 + (n - 0x10000) % 1024 < 2 ^ 16 by omega)
    have hpair : High (word (0xD800 + (n - 0x10000) / 1024)) ∧ Low (word (0xDC00 + (n - 0x10000) % 1024)) := by
      unfold High Low
      rw [hc, hd]
      omega
    have hvalue : pair (word (0xD800 + (n - 0x10000) / 1024)) (word (0xDC00 + (n - 0x10000) % 1024)) = n := by
      rw [pair_eq hc hd]
      omega
    constructor
    · rw [List.cons_append, List.singleton_append, codes, if_pos hpair, hvalue]
    · rw [List.cons_append, List.singleton_append, paired, if_pos hpair]

theorem codes_words {ns : List Nat} (hns : ∀ n ∈ ns, Scalar n) : codes (ns.flatMap words) = ns := by
  induction ns with
  | nil => rfl
  | cons n ns ih =>
      rw [List.forall_mem_cons] at hns
      rw [List.flatMap_cons, (words_append hns.1 _).1, ih hns.2]

theorem paired_words {ns : List Nat} (hns : ∀ n ∈ ns, Scalar n) : paired (ns.flatMap words) := by
  induction ns with
  | nil => rfl
  | cons n ns ih =>
      rw [List.forall_mem_cons] at hns
      rw [List.flatMap_cons, (words_append hns.1 _).2, ih hns.2]

theorem words_toNat (c : Word) : words c.toNat = [c] := by
  rw [words, if_pos (by simpa using c.isLt), word_of_toNat]

theorem words_pair {c d : Word} (hc : High c) (hd : Low d) : words (pair c d) = [c, d] := by
  unfold High at hc
  unfold Low at hd
  have hlarge : ¬pair c d < 0x10000 := by
    unfold pair
    omega
  rw [words, if_neg hlarge]
  have hfirst : 0xD800 + (pair c d - 0x10000) / 1024 = c.toNat := by
    unfold pair
    omega
  have hsecond : 0xDC00 + (pair c d - 0x10000) % 1024 = d.toNat := by
    unfold pair
    omega
  rw [hfirst, hsecond, word_of_toNat, word_of_toNat]

theorem words_codes {s : List Word} (hs : paired s) : (codes s).flatMap words = s := by
  induction s using codes.induct with
  | case1 => rfl
  | case2 c =>
      simp only [paired, decide_eq_true_eq] at hs
      rw [codes, single, if_neg hs, List.flatMap_singleton, words_toNat]
  | case3 c d s h ih =>
      rw [paired, if_pos h] at hs
      rw [codes, if_pos h, List.flatMap_cons, words_pair h.1 h.2, ih hs]
      rfl
  | case4 c d s h ih =>
      rw [paired, if_neg h] at hs
      obtain ⟨hc, hs⟩ := of_decide_eq_true hs
      rw [codes, if_neg h, single, if_neg hc, List.flatMap_cons, words_toNat, ih hs]
      rfl

-- The strings that the code points keep.
theorem words_codes_iff (s : List Word) : (codes s).flatMap words = s ↔ paired s := by
  constructor
  · intro h
    rw [← h]
    exact paired_words (codes_scalar s)
  · exact words_codes

end Points

section Bytes

-- The bytes of a code point.
def bytes (n : Nat) : List Byte :=
  if n < 0x80 then [byte n]
  else if n < 0x800 then [byte (0xC0 + n / 64), byte (0x80 + n % 64)]
  else if n < 0x10000 then [byte (0xE0 + n / 4096), byte (0x80 + n / 64 % 64), byte (0x80 + n % 64)]
  else [byte (0xF0 + n / 262144), byte (0x80 + n / 4096 % 64), byte (0x80 + n / 64 % 64), byte (0x80 + n % 64)]

def encode (s : List Word) : List Byte := (codes s).flatMap bytes

-- How many bytes follow a leading byte, and the bits it brings.
def leads (b : Byte) : Option (Nat × Nat) :=
  if b.toNat < 0x80 then some (0, b.toNat)
  else if b.toNat < 0xC2 then none
  else if b.toNat < 0xE0 then some (1, b.toNat - 0xC0)
  else if b.toNat < 0xF0 then some (2, b.toNat - 0xE0)
  else if b.toNat < 0xF5 then some (3, b.toNat - 0xF0)
  else none

def Tail (b : Byte) : Prop := 0x80 ≤ b.toNat ∧ b.toNat < 0xC0

instance (b : Byte) : Decidable (Tail b) := inferInstanceAs (Decidable (_ ∧ _))

-- The byte after the leading one: no longer form than needed, and nothing above U+10FFFF.
def Second (lead b : Byte) : Prop :=
  Tail b ∧ (lead.toNat = 0xE0 → 0xA0 ≤ b.toNat) ∧ (lead.toNat = 0xF0 → 0x90 ≤ b.toNat) ∧
    (lead.toNat = 0xF4 → b.toNat < 0x90)

instance (lead b : Byte) : Decidable (Second lead b) := inferInstanceAs (Decidable (_ ∧ _ ∧ _ ∧ _))

-- The bytes that can belong to the character which `lead` begins.
def accepted (lead : Byte) : List Byte → List Byte
  | [] => []
  | b :: bs => if Second lead b then b :: bs.takeWhile (Tail ·) else []

def number (v : Nat) (bs : List Byte) : Nat := bs.foldl (fun v b => v * 64 + b.toNat % 64) v

-- The code point that `lead` begins, and how many of the bytes behind it are read with it.
def next (lead : Byte) (bs : List Byte) : Nat × Nat :=
  match leads lead with
  | none => (0xFFFD, 0)
  | some (k, v) =>
      let tail := accepted lead (bs.take k)
      if tail.length < k then (0xFFFD, tail.length)
      else if Surrogate (number v tail) then (0xFFFD, k)
      else (number v tail, k)

-- The code points of the bytes behind the first `k`.
def points : Nat → List Byte → List Nat
  | _, [] => []
  | k + 1, _ :: bs => points k bs
  | 0, b :: bs => (next b bs).1 :: points (next b bs).2 bs

def decode (bs : List Byte) : List Word := (points 0 bs).flatMap words

theorem points_drop (k : Nat) (bs : List Byte) : points k bs = points 0 (bs.drop k) := by
  induction k generalizing bs with
  | zero => rfl
  | succ k ih =>
      cases bs with
      | nil => simp [points]
      | cons b bs => rw [points, ih, List.drop_succ_cons]

theorem accepted_length_le (lead : Byte) (bs : List Byte) : (accepted lead bs).length ≤ bs.length := by
  cases bs with
  | nil => exact Nat.le_refl _
  | cons b bs =>
      have := (List.takeWhile_prefix (l := bs) fun b => decide (Tail b)).length_le
      rw [accepted]
      split_ifs
      · simpa using this
      · simp

theorem accepted_self {lead b : Byte} {bs : List Byte} (hb : Second lead b) (hbs : ∀ x ∈ bs, Tail x) :
    accepted lead (b :: bs) = b :: bs := by
  rw [accepted, if_pos hb, List.takeWhile_eq_self_iff.mpr (by simpa using hbs)]

theorem tail_toNat (n : Nat) : (byte (0x80 + n % 64)).toNat = 0x80 + n % 64 := byte_toNat (by omega)

theorem tail_byte (n : Nat) : Tail (byte (0x80 + n % 64)) := by
  unfold Tail
  rw [tail_toNat]
  omega

theorem number_cons (v n : Nat) (bs : List Byte) :
    number v (byte (0x80 + n % 64) :: bs) = number (v * 64 + n % 64) bs := by
  have hmod : (0x80 + n % 64) % 64 = n % 64 := by omega
  rw [number, List.foldl_cons, tail_toNat, hmod]
  rfl

-- `lead` and `tail` are the bytes of `n`: they are read together, and as `n`.
structure Spelled (n : Nat) (lead : Byte) (tail : List Byte) : Prop where
  leads : ∃ v, leads lead = some (tail.length, v) ∧ number v tail = n
  accepted : accepted lead tail = tail

theorem bytes_spelled {n : Nat} (hn : Scalar n) : ∃ lead tail, bytes n = lead :: tail ∧ Spelled n lead tail := by
  unfold Scalar at hn
  unfold bytes
  split_ifs with h1 h2 h3
  · have hlead := byte_toNat (show n < 2 ^ 8 by omega)
    refine ⟨_, _, rfl, ⟨n, ?_, rfl⟩, rfl⟩
    rw [Utf8.leads, hlead, if_pos h1]
    rfl
  · have hlead := byte_toNat (show 0xC0 + n / 64 < 2 ^ 8 by omega)
    refine ⟨_, _, rfl, ⟨n / 64, ?_, ?_⟩, ?_⟩
    · rw [Utf8.leads, hlead]
      split_ifs <;> first | omega | simp
    · rw [number_cons]
      exact Nat.div_add_mod' n 64
    · refine accepted_self ⟨tail_byte n, ?_⟩ (by simp)
      rw [hlead]
      omega
  · have hlead := byte_toNat (show 0xE0 + n / 4096 < 2 ^ 8 by omega)
    have hfirst := tail_toNat (n / 64)
    refine ⟨_, _, rfl, ⟨n / 4096, ?_, ?_⟩, ?_⟩
    · rw [Utf8.leads, hlead]
      split_ifs <;> first | omega | simp
    · rw [number_cons, number_cons]
      show (n / 4096 * 64 + n / 64 % 64) * 64 + n % 64 = n
      omega
    · refine accepted_self ⟨tail_byte (n / 64), ?_⟩ (by simpa using tail_byte n)
      rw [hlead, hfirst]
      omega
  · have hlead := byte_toNat (show 0xF0 + n / 262144 < 2 ^ 8 by omega)
    have hfirst := tail_toNat (n / 4096)
    refine ⟨_, _, rfl, ⟨n / 262144, ?_, ?_⟩, ?_⟩
    · rw [Utf8.leads, hlead]
      split_ifs <;> first | omega | simp
    · rw [number_cons, number_cons, number_cons]
      show ((n / 262144 * 64 + n / 4096 % 64) * 64 + n / 64 % 64) * 64 + n % 64 = n
      omega
    · refine accepted_self ⟨tail_byte (n / 4096), ?_⟩ (by simpa using ⟨tail_byte (n / 64), tail_byte n⟩)
      rw [hlead, hfirst]
      omega

theorem Spelled.next_append {n : Nat} {lead : Byte} {tail : List Byte} (h : Spelled n lead tail) (hn : Scalar n)
    (rest : List Byte) : next lead (tail ++ rest) = (n, tail.length) := by
  obtain ⟨⟨v, hlead, hnumber⟩, haccepted⟩ := h
  simp only [next, hlead, List.take_left, haccepted, hnumber, Nat.lt_irrefl, if_false, if_neg hn.2]

-- A whole character is read as itself.
theorem points_bytes {n : Nat} (hn : Scalar n) (rest : List Byte) :
    points 0 (bytes n ++ rest) = n :: points 0 rest := by
  obtain ⟨lead, tail, hbytes, h⟩ := bytes_spelled hn
  rw [hbytes, List.cons_append, points, h.next_append hn, points_drop, List.drop_left]

theorem number_lt (v : Nat) (bs : List Byte) : number v bs < (v + 1) * 64 ^ bs.length := by
  induction bs generalizing v with
  | nil => exact Nat.lt_of_lt_of_eq (Nat.lt_succ_self v) (by simp)
  | cons b bs ih =>
      have hstep : v * 64 + b.toNat % 64 + 1 ≤ (v + 1) * 64 := by omega
      calc number v (b :: bs) < (v * 64 + b.toNat % 64 + 1) * 64 ^ bs.length := ih _
        _ ≤ (v + 1) * 64 * 64 ^ bs.length := Nat.mul_le_mul_right _ hstep
        _ = (v + 1) * 64 ^ (b :: bs).length := by rw [List.length_cons, Nat.pow_succ', Nat.mul_assoc]

theorem le_number (v : Nat) (bs : List Byte) : v * 64 ^ bs.length ≤ number v bs := by
  induction bs generalizing v with
  | nil => exact Nat.le_of_eq (by simp [number])
  | cons b bs ih =>
      calc v * 64 ^ (b :: bs).length = v * 64 * 64 ^ bs.length := by
            rw [List.length_cons, Nat.pow_succ', Nat.mul_assoc]
        _ ≤ (v * 64 + b.toNat % 64) * 64 ^ bs.length := Nat.mul_le_mul_right _ (Nat.le_add_right _ _)
        _ ≤ number v (b :: bs) := ih _

theorem number_cons_bounds (v : Nat) (b : Byte) (bs : List Byte) :
    (v * 64 + b.toNat % 64) * 64 ^ bs.length ≤ number v (b :: bs) ∧
      number v (b :: bs) < (v * 64 + b.toNat % 64 + 1) * 64 ^ bs.length :=
  ⟨le_number (v * 64 + b.toNat % 64) bs, number_lt (v * 64 + b.toNat % 64) bs⟩

theorem second_of_accepted {lead : Byte} {bs : List Byte} (h : accepted lead bs ≠ []) :
    ∃ b tail, accepted lead bs = b :: tail ∧ Second lead b := by
  cases bs with
  | nil => exact absurd rfl h
  | cons b bs =>
      rw [accepted] at h ⊢
      split_ifs at h ⊢ with hb
      · exact ⟨b, _, rfl, hb⟩
      · exact absurd rfl h

-- The least number that needs `k` bytes behind the leading one.
def least : Nat → Nat
  | 0 => 0
  | 1 => 0x80
  | 2 => 0x800
  | _ => 0x10000

-- The range of a complete character. Its ends are in the second byte: after 0xE0 and 0xF0 this is large
-- enough, and after 0xF4 small enough.
theorem number_accepted {lead : Byte} {k v : Nat} (hlead : leads lead = some (k, v)) (bs : List Byte)
    (hlength : (accepted lead bs).length = k) :
    least k ≤ number v (accepted lead bs) ∧ number v (accepted lead bs) < 0x110000 := by
  have hle := le_number v (accepted lead bs)
  have hlt := number_lt v (accepted lead bs)
  have hsecond : ∀ j, k = j + 1 → ∃ b tail, accepted lead bs = b :: tail ∧ tail.length = j ∧ Second lead b := by
    intro j hj
    have hne : accepted lead bs ≠ [] := fun h => by
      rw [h, List.length_nil] at hlength
      omega
    obtain ⟨b, tail, htail, hb⟩ := second_of_accepted hne
    rw [htail, List.length_cons] at hlength
    exact ⟨b, tail, htail, by omega, hb⟩
  rw [hlength] at hle hlt
  unfold leads at hlead
  split_ifs at hlead with h1 h2 h3 h4 h5 <;> obtain ⟨rfl, rfl⟩ := Prod.mk.inj (Option.some.inj hlead)
  · exact ⟨Nat.zero_le _, by omega⟩
  · exact ⟨show 0x80 ≤ _ by omega, by omega⟩
  · refine ⟨?_, by omega⟩
    obtain ⟨b, tail, htail, hj, hb⟩ := hsecond 1 rfl
    obtain ⟨hge, -⟩ := number_cons_bounds (lead.toNat - 0xE0) b tail
    rw [hj] at hge
    rw [htail]
    unfold Second Tail at hb
    show 0x800 ≤ _
    omega
  · obtain ⟨b, tail, htail, hj, hb⟩ := hsecond 2 rfl
    obtain ⟨hge, hlt'⟩ := number_cons_bounds (lead.toNat - 0xF0) b tail
    rw [hj] at hge hlt'
    rw [htail]
    unfold Second Tail at hb
    show 0x10000 ≤ _ ∧ _
    omega

theorem leads_le {lead : Byte} {k v : Nat} (hlead : leads lead = some (k, v)) : k ≤ 3 := by
  unfold leads at hlead
  split_ifs at hlead <;> obtain ⟨rfl, -⟩ := Prod.mk.inj (Option.some.inj hlead) <;> omega

theorem length_bytes {n k : Nat} (hk : k ≤ 3) (h : least k ≤ n) : k + 1 ≤ (bytes n).length := by
  have hcases : k = 0 ∨ k = 1 ∨ k = 2 ∨ k = 3 := by omega
  unfold bytes
  rcases hcases with rfl | rfl | rfl | rfl <;> simp only [least] at h <;> split_ifs <;> simp <;> omega

theorem replacement_spec {k : Nat} (hk : k ≤ 2) : Scalar 0xFFFD ∧ k + 1 ≤ (bytes 0xFFFD).length := by
  have hthree : (bytes 0xFFFD).length = 3 := rfl
  refine ⟨?_, by omega⟩
  unfold Scalar Surrogate
  omega

-- What is read is a code point whose bytes are no fewer than those read.
theorem next_spec (lead : Byte) (bs : List Byte) :
    Scalar (next lead bs).1 ∧ (next lead bs).2 + 1 ≤ (bytes (next lead bs).1).length := by
  unfold next
  split
  · exact replacement_spec (by omega)
  · rename_i k v hlead
    have hle := accepted_length_le lead (bs.take k)
    have htake : (bs.take k).length ≤ k := List.length_take_le k bs
    have hk := leads_le hlead
    simp only
    split_ifs with hshort hsurrogate
    · exact replacement_spec (by omega)
    · obtain ⟨hleast, -⟩ := number_accepted hlead (bs.take k) (by omega)
      -- four bytes spell no surrogate
      have hk3 : k ≠ 3 := by
        rintro rfl
        unfold Surrogate at hsurrogate
        simp only [least] at hleast
        omega
      exact replacement_spec (by omega)
    · obtain ⟨hleast, hlt⟩ := number_accepted hlead (bs.take k) (by omega)
      exact ⟨⟨hlt, hsurrogate⟩, length_bytes hk hleast⟩

theorem points_scalar (k : Nat) (bs : List Byte) : ∀ n ∈ points k bs, Scalar n := by
  induction bs generalizing k with
  | nil => simp [points]
  | cons b bs ih =>
      cases k with
      | zero =>
          rw [points, List.forall_mem_cons]
          exact ⟨(next_spec b bs).1, ih _⟩
      | succ k => exact ih k

theorem length_le_points (k : Nat) (bs : List Byte) : bs.length ≤ k + ((points k bs).flatMap bytes).length := by
  induction bs generalizing k with
  | nil => exact Nat.zero_le _
  | cons b bs ih =>
      cases k with
      | zero =>
          have hnext := (next_spec b bs).2
          have hrest := ih (next b bs).2
          rw [points, List.flatMap_cons, List.length_append, List.length_cons]
          omega
      | succ k =>
          have hrest := ih k
          rw [points, List.length_cons]
          omega

theorem points_flatMap {ns : List Nat} (hns : ∀ n ∈ ns, Scalar n) (rest : List Byte) :
    points 0 (ns.flatMap bytes ++ rest) = ns ++ points 0 rest := by
  induction ns with
  | nil => rfl
  | cons n ns ih =>
      rw [List.forall_mem_cons] at hns
      rw [List.flatMap_cons, List.append_assoc, points_bytes hns.1, ih hns.2, List.cons_append]

end Bytes

section Strings

theorem decode_encode (s : List Word) : decode (encode s) = (codes s).flatMap words := by
  have hpoints := points_flatMap (codes_scalar s) []
  rw [List.append_nil, points, List.append_nil] at hpoints
  rw [decode, encode, hpoints]

theorem decode_encode_iff (s : List Word) : decode (encode s) = s ↔ paired s := by
  rw [decode_encode]
  exact words_codes_iff s

theorem encode_ascii {s : List Word} (hs : ∀ c ∈ s, c.toNat < 0x80) : encode s = s.map fun c => byte c.toNat := by
  induction s with
  | nil => rfl
  | cons c s ih =>
      rw [List.forall_mem_cons] at hs
      have hnot : ¬Surrogate c.toNat := by
        unfold Surrogate
        omega
      rw [encode, codes_cons hnot, List.flatMap_cons, bytes, if_pos hs.1, ← encode, ih hs.2]
      rfl

-- Bytes that are read and written again do not get fewer.
theorem length_le_encode_decode (bs : List Byte) : bs.length ≤ (encode (decode bs)).length := by
  have hpoints := length_le_points 0 bs
  rw [Nat.zero_add] at hpoints
  rwa [encode, decode, codes_words (points_scalar 0 bs)]

end Strings

end RichardTest.Utf8
