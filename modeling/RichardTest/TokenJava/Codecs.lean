import RichardTest.TokenJava
import RichardTest.Base64
import Mathlib.Logic.Equiv.Defs
import Mathlib.Algebra.Ring.Nat

namespace RichardTest.TokenJava

section Charset

-- A charset that has every string: ASCII units take one byte, the others a mark and two.
def unitBytes (c : JChar) : Bytes :=
  if c.toNat < 128 then [c.setWidth 8] else [0xFF#8, BitVec.ofNat 8 (c.toNat / 256), c.setWidth 8]

def charsetBytes (s : JString) : Bytes := s.flatMap unitBytes

def charsetString : Bytes → JString
  | [] => []
  | b :: rest =>
      if b.toNat < 128 then b.setWidth 16 :: charsetString rest
      else
        match rest with
        | hi :: lo :: rest => BitVec.ofNat 16 (hi.toNat * 256 + lo.toNat) :: charsetString rest
        | _ => []

theorem charsetString_unitBytes (c : JChar) (rest : Bytes) :
    charsetString (unitBytes c ++ rest) = c :: charsetString rest := by
  rw [unitBytes]
  split_ifs with hc
  · have hbyte : (c.setWidth 8).toNat = c.toNat := by
      rw [BitVec.toNat_setWidth, Nat.mod_eq_of_lt (by omega)]
    rw [List.singleton_append, charsetString.eq_def]
    dsimp only
    rw [if_pos (by rw [hbyte]; exact hc)]
    congr 1
    apply BitVec.eq_of_toNat_eq
    rw [BitVec.toNat_setWidth, hbyte, Nat.mod_eq_of_lt c.isLt]
  · rw [List.cons_append, List.cons_append, List.cons_append, List.nil_append, charsetString.eq_def]
    dsimp only
    rw [if_neg (by decide)]
    congr 1
    have hlt := c.isLt
    apply BitVec.eq_of_toNat_eq
    rw [BitVec.toNat_ofNat, BitVec.toNat_ofNat, BitVec.toNat_setWidth]
    omega

theorem charsetString_charsetBytes (s : JString) : charsetString (charsetBytes s) = s := by
  induction s with
  | nil => rfl
  | cons c s ih => rw [charsetBytes, List.flatMap_cons, charsetString_unitBytes, ← charsetBytes, ih]

end Charset

section Codecs

theorem toChar_toUnit {x : Char} (h : x.toNat < 2 ^ 16) : Char.ofNat (BitVec.ofNat 16 x.toNat).toNat = x := by
  rw [BitVec.toNat_ofNat, Nat.mod_eq_of_lt h, Char.ofNat_toNat]

theorem base64Char_of_mem {x : Char} (h : x ∈ Base64.alphabet ∨ x = '=') :
    x.toNat < 2 ^ 16 ∧ Base64Char (BitVec.ofNat 16 x.toNat) := by
  have hall : (Base64.alphabet ++ ['=']).all fun x =>
      decide (x.toNat < 2 ^ 16 ∧ Base64Char (BitVec.ofNat 16 x.toNat)) := by decide
  have hmem : x ∈ Base64.alphabet ++ ['='] := List.mem_append.mpr (h.imp_right List.mem_singleton.mpr)
  exact of_decide_eq_true (List.all_eq_true.mp hall x hmem)

variable (cipher : Bytes → Equiv.Perm Bytes) (md5 : Bytes → Vector (BitVec 8) 16)

-- Any permutation of the byte strings may stand for the cipher under a key.
def codecs : Env where
  getBytes := charsetBytes
  newString := charsetString
  base64Encode data := (Base64.encode data).map fun x => BitVec.ofNat 16 x.toNat
  base64Decode s := Base64.decode (s.map fun c => Char.ofNat c.toNat)
  desEncrypt key data := .ok (cipher key data)
  desDecrypt key data := .ok ((cipher key).symm data)
  md5

theorem base64Decode_codecs (data : Bytes) :
    Base64.decode (((Base64.encode data).map fun x => BitVec.ofNat 16 x.toNat).map
      fun c : JChar => Char.ofNat c.toNat) = some data := by
  have hback : ((Base64.encode data).map fun x => BitVec.ofNat 16 x.toNat).map
      (fun c : JChar => Char.ofNat c.toNat) = Base64.encode data := by
    rw [List.map_map]
    conv_rhs => rw [← List.map_id (Base64.encode data)]
    apply List.map_congr_left
    intro x hx
    exact toChar_toUnit (base64Char_of_mem (Base64.mem_encode hx)).1
  rw [hback, Base64.decode_encode]

theorem codecs_exact : (codecs cipher md5).Exact where
  charset := charsetString_charsetBytes
  getBytes_nil := rfl
  base64 := base64Decode_codecs
  base64_nil := rfl
  base64_alphabet data c hc := by
    obtain ⟨x, hx, rfl⟩ := List.mem_map.mp hc
    exact (base64Char_of_mem (Base64.mem_encode hx)).2
  des key data encrypted h := by
    cases h
    exact congrArg Except.ok ((cipher key).symm_apply_apply data)

end Codecs

end RichardTest.TokenJava
