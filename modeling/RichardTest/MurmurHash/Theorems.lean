import RichardTest.MurmurHash
import Mathlib.Tactic.IntervalCases

namespace RichardTest.MurmurHash

open BlockHash Function

section Parts

variable {w : Nat} {m : BitVec w}

theorem mul_injective (hm : m.toNat % 2 = 1) : Injective fun h : BitVec w => h * m :=
  (isUnit_of_odd hm).mul_left_injective

theorem xor_left_injective (k : BitVec w) : Injective fun h : BitVec w => h ^^^ k :=
  fun _ _ h => (BitVec.xor_left_inj k).mp h

theorem xor_right_injective (h : BitVec w) : Injective fun k : BitVec w => h ^^^ k :=
  fun _ _ hk => (BitVec.xor_right_inj h).mp hk

theorem mixed_injective (hm : m.toNat % 2 = 1) {r : Nat} (hr : 0 < r) : Injective (mixed m r) :=
  (mul_injective hm).comp ((xor_ushiftRight_injective hr).comp (mul_injective hm))

theorem get_littleEndian (bytes : Bytes) :
    ByteBuffer.get w { bytes, order := .littleEndian } =
      (ofBytes w (bytes.take (w / 8)), { bytes := bytes.drop (w / 8), order := .littleEndian }) := rfl

-- What happens to the state after the last full word.
def lastWord (m : BitVec w) (final : BitVec w → BitVec w) (h : BitVec w) (rest : Bytes) : BitVec w :=
  final (takeFinish m h { bytes := rest, order := .littleEndian }).1

theorem lastWord_of_pos (final : BitVec w → BitVec w) (h : BitVec w) {rest : Bytes} (hpos : 0 < rest.length)
    (hshort : rest.length < w / 8) :
    lastWord m final h rest =
      final ((h ^^^ ofBytes w (rest ++ List.replicate (w / 8 - rest.length) 0#8)) * m) := by
  have hlen : (rest ++ List.replicate (w / 8 - rest.length) 0#8).length = w / 8 := by
    rw [List.length_append, List.length_replicate]
    omega
  simp only [lastWord, takeFinish, ByteBuffer.remaining, if_pos hpos, ByteBuffer.allocatePut, get_littleEndian,
    List.take_of_length_le hlen.le]

-- The loop and what follows it, as a hash over blocks.
theorem wordLoop_takeFinish (round : BitVec w → BitVec w → BitVec w) (final : BitVec w → BitVec w) (fuel : Nat)
    (h : BitVec w) (bytes : Bytes) :
    final (takeFinish m (wordLoop round fuel h { bytes, order := .littleEndian }).1
        (wordLoop round fuel h { bytes, order := .littleEndian }).2).1 =
      digest (w / 8) (fun h x => round h (ofBytes w x)) (lastWord m final) fuel h bytes := by
  induction fuel generalizing h bytes with
  | zero => rfl
  | succ fuel ih =>
      by_cases hfull : w / 8 ≤ bytes.length
      · rw [digest_full fuel h hfull, ← ih, wordLoop, ByteBuffer.remaining, if_pos hfull, get_littleEndian]
      · rw [digest_short _ h (by omega), wordLoop, ByteBuffer.remaining, if_neg hfull, lastWord]

theorem lastWord_injective (hm : m.toNat % 2 = 1) {final : BitVec w → BitVec w} (hfinal : Injective final)
    (rest : Bytes) : Injective fun h => lastWord m final h rest := by
  intro h h' heq
  simp only [lastWord, takeFinish] at heq
  split_ifs at heq
  · exact xor_left_injective _ (mul_injective hm (hfinal heq))
  · exact hfinal heq

theorem lastWord_rest_inj (hm : m.toNat % 2 = 1) {final : BitVec w → BitVec w} (hfinal : Injective final)
    (h : BitVec w) {x y : Bytes} (hlen : x.length = y.length) (hshort : x.length < w / 8)
    (heq : lastWord m final h x = lastWord m final h y) : x = y := by
  by_cases hpos : 0 < x.length
  · rw [lastWord_of_pos final h hpos hshort, lastWord_of_pos final h (hlen ▸ hpos) (hlen ▸ hshort), hlen] at heq
    have hword := xor_right_injective h (mul_injective hm (hfinal heq))
    have hfill := ofBytes_inj (by simp only [List.length_append, hlen]) ?_ hword
    · exact List.append_cancel_right hfill
    · rw [List.length_append, List.length_replicate]
      have := Nat.mul_div_le w 8
      omega
  · rw [List.length_eq_zero_iff.mp (show x.length = 0 by omega),
      List.length_eq_zero_iff.mp (show y.length = 0 by omega)]

-- Both hashes take in whole words, the left-over bytes as one more word, and end with a bijection.
theorem parts_ne (hw : 0 < w / 8) (hm : m.toNat % 2 = 1) (round : BitVec w → BitVec w → BitVec w)
    (hstate : ∀ k, Injective fun h => round h k) (hword : ∀ h, Injective (round h))
    {final : BitVec w → BitVec w} (hfinal : Injective final) (h : BitVec w) {a b : Bytes}
    (hdiffer : DifferInBlock (w / 8) a b) :
    digest (w / 8) (fun h x => round h (ofBytes w x)) (lastWord m final) a.length h a ≠
      digest (w / 8) (fun h x => round h (ofBytes w x)) (lastWord m final) a.length h b := by
  apply digest_ne_of_block hw (fun x => hstate (ofBytes w x)) (lastWord_injective hm hfinal) ?_ ?_ a.length
    (Nat.le_refl _) hdiffer h
  · intro h x y hx hy heq
    have := Nat.mul_div_le w 8
    exact ofBytes_inj (hx.trans hy.symm) (by omega) (hword h heq)
  · intro h x y hlen hshort heq
    exact lastWord_rest_inj hm hfinal h hlen hshort heq

end Parts

section Hash

-- The last three assignments to `h`.
def finalHash (h : BitVec 32) : BitVec 32 :=
  (h ^^^ h >>> 13) * 0x5bd1e995#32 ^^^ ((h ^^^ h >>> 13) * 0x5bd1e995#32) >>> 15

def finalHash64A (h : BitVec 64) : BitVec 64 :=
  (h ^^^ h >>> 47) * 0xc6a4a7935bd1e995#64 ^^^ ((h ^^^ h >>> 47) * 0xc6a4a7935bd1e995#64) >>> 47

theorem finalHash_injective : Injective finalHash :=
  (xor_ushiftRight_injective (by decide)).comp
    ((mul_injective (by decide)).comp (xor_ushiftRight_injective (by decide)))

theorem finalHash64A_injective : Injective finalHash64A :=
  (xor_ushiftRight_injective (by decide)).comp
    ((mul_injective (by decide)).comp (xor_ushiftRight_injective (by decide)))

theorem hashBytes_eq (data : Bytes) (seed : BitVec 32) :
    hashBytes data seed =
      digest 4 (fun h x => (h * 0x5bd1e995#32) ^^^ mixed 0x5bd1e995#32 24 (ofBytes 32 x))
        (lastWord 0x5bd1e995#32 finalHash) data.length (seed ^^^ BitVec.ofNat 32 data.length) data :=
  wordLoop_takeFinish _ finalHash _ _ data

theorem hash64ABytes_eq (data : Bytes) (seed : BitVec 32) :
    hash64ABytes data seed =
      digest 8 (fun h x => (h ^^^ mixed 0xc6a4a7935bd1e995#64 47 (ofBytes 64 x)) * 0xc6a4a7935bd1e995#64)
        (lastWord 0xc6a4a7935bd1e995#64 finalHash64A) data.length
        (seed.signExtend 64 ^^^ ((BitVec.ofNat 32 data.length).signExtend 64 * 0xc6a4a7935bd1e995#64)) data :=
  wordLoop_takeFinish _ finalHash64A _ _ data

theorem hashBytes_ne (seed : BitVec 32) {a b : Bytes} (h : DifferInBlock 4 a b) :
    hashBytes a seed ≠ hashBytes b seed := by
  have hm : (0x5bd1e995#32).toNat % 2 = 1 := by decide
  rw [hashBytes_eq, hashBytes_eq, ← h.length]
  apply parts_ne (by decide) hm (fun h k => (h * 0x5bd1e995#32) ^^^ mixed 0x5bd1e995#32 24 k) ?_ ?_
    finalHash_injective _ h
  · intro k
    exact (xor_left_injective _).comp (mul_injective hm)
  · intro h
    exact (xor_right_injective _).comp (mixed_injective hm (by decide))

theorem hash64ABytes_ne (seed : BitVec 32) {a b : Bytes} (h : DifferInBlock 8 a b) :
    hash64ABytes a seed ≠ hash64ABytes b seed := by
  have hm : (0xc6a4a7935bd1e995#64).toNat % 2 = 1 := by decide
  rw [hash64ABytes_eq, hash64ABytes_eq, ← h.length]
  apply parts_ne (by decide) hm (fun h k => (h ^^^ mixed 0xc6a4a7935bd1e995#64 47 k) * 0xc6a4a7935bd1e995#64)
    ?_ ?_ finalHash64A_injective _ h
  · intro k
    exact (mul_injective hm).comp (xor_left_injective _)
  · intro h
    exact (mul_injective hm).comp ((xor_right_injective _).comp (mixed_injective hm (by decide)))

-- Arrays that differ within one aligned block of eight bytes, or of four, never have the same hash.
theorem murmur_separates_block :
    (∀ (seed : BitVec 32) (a b : Bytes), DifferInBlock 8 a b → hash64ABytes a seed ≠ hash64ABytes b seed) ∧
      ∀ (seed : BitVec 32) (a b : Bytes), DifferInBlock 4 a b → hashBytes a seed ≠ hashBytes b seed :=
  ⟨fun seed _ _ h => hash64ABytes_ne seed h, fun seed _ _ h => hashBytes_ne seed h⟩

theorem murmur_separates_block_nine :
    hash64ABytes [1, 2, 3, 4, 5, 6, 7, 8, 9] 0x1234ABCD#32 ≠
        hash64ABytes [1, 2, 3, 4, 5, 6, 7, 8, 10] 0x1234ABCD#32 ∧
      hashBytes [1, 2, 3, 4, 5, 6] 7#32 ≠ hashBytes [1, 9, 3, 8, 5, 6] 7#32 := by
  constructor
  · refine murmur_separates_block.1 _ _ _ ⟨by decide, rfl, 1, fun j hj => ?_⟩
    have hcases : j < 8 ∨ 16 ≤ j := by omega
    rcases hcases with hlt | hge
    · interval_cases j <;> rfl
    · rw [List.getElem?_eq_none (by simp; omega), List.getElem?_eq_none (by simp; omega)]
  · refine murmur_separates_block.2 _ _ _ ⟨by decide, rfl, 0, fun j hj => ?_⟩
    have hcases : j = 4 ∨ j = 5 ∨ 6 ≤ j := by omega
    rcases hcases with rfl | rfl | hge
    · rfl
    · rfl
    · rw [List.getElem?_eq_none (by simp; omega), List.getElem?_eq_none (by simp; omega)]

end Hash

end RichardTest.MurmurHash
