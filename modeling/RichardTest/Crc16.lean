import RichardTest.ShiftRegister

namespace RichardTest.Crc16

open Polynomial RichardTest.ShiftRegister

abbrev Byte := BitVec 8

def wCPoly : BitVec 16 := 0x1021#16

-- One round of the inner loop. The `int` that the shift makes is cut to an `unsigned short` again.
def crcBit (wCRCin : BitVec 16) : BitVec 16 :=
  if wCRCin &&& 0x8000#16 ≠ 0#16 then (wCRCin <<< 1) ^^^ wCPoly else wCRCin <<< 1

-- One round of the outer loop.
def crcByte (wCRCin : BitVec 16) (wChar : Byte) : BitVec 16 := crcBit^[8] (wCRCin ^^^ (wChar.setWidth 16 <<< 8))

-- The `usDataLen` bytes from `puchMsg` on.
def crc16Xmodem (puchMsg : List Byte) : BitVec 16 := puchMsg.foldl crcByte 0x0000#16

-- The bits of a message, the most significant bit of each byte first.
def bits (m : List Byte) : List Bool := m.flatMap msbFirst

theorem crcBit_eq : crcBit = shift wCPoly := by
  funext r
  have hmsb : r &&& 0x8000#16 ≠ 0#16 ↔ r.msb = true := by
    rw [show 0x8000#16 = BitVec.twoPow 16 15 from rfl, BitVec.and_twoPow, BitVec.msb_eq_getLsbD_last]
    cases r.getLsbD 15 <;> simp
  rw [crcBit, shift]
  simp only [hmsb]

theorem crc16Xmodem_eq (m : List Byte) : crc16Xmodem m = register wCPoly 0#16 m := by
  rw [crc16Xmodem, register]
  congr 1
  funext r b
  rw [crcByte, crcBit_eq, feed]

theorem generator_wCPoly : generator wCPoly = X ^ 16 + X ^ 12 + X ^ 5 + 1 := by
  have hpoly : poly wCPoly = X ^ 12 + X ^ 5 + 1 := by
    simp only [poly, Finset.sum_range_succ, Finset.sum_range_zero]
    simp [wCPoly, ofBool, monomial_one_right_eq_X_pow]
    ring
  rw [generator, hpoly, ← add_assoc, ← add_assoc]

-- The checksum is the remainder of the message times `X ^ 16`, and so it is linear.
theorem crc16Xmodem_remainder (m : List Byte) :
    poly (crc16Xmodem m) = bitPoly (bits m) * X ^ 16 %ₘ (X ^ 16 + X ^ 12 + X ^ 5 + 1) ∧
      ∀ a b : List Byte, a.length = b.length →
        crc16Xmodem (List.zipWith (· ^^^ ·) a b) = crc16Xmodem a ^^^ crc16Xmodem b := by
  constructor
  · rw [crc16Xmodem_eq, poly_register wCPoly (by decide), generator_wCPoly, bits]
  · intro a b hlen
    rw [crc16Xmodem_eq, crc16Xmodem_eq, crc16Xmodem_eq]
    exact register_xor wCPoly (by decide) a b hlen

theorem crc16Xmodem_remainder_two :
    crc16Xmodem (List.zipWith (· ^^^ ·) [0x98#8, 0x00#8] [0x12#8, 0x01#8]) =
      crc16Xmodem [0x98#8, 0x00#8] ^^^ crc16Xmodem [0x12#8, 0x01#8] :=
  (crc16Xmodem_remainder []).2 [0x98#8, 0x00#8] [0x12#8, 0x01#8] rfl

-- A burst of up to sixteen bits changes the checksum, at any place of a message of any length.
theorem crc16Xmodem_detects_burst (a b : List Byte) (hlen : a.length = b.length) (hne : a ≠ b) (s : Nat)
    (hwindow : ∀ i, (bits a).getD i false ≠ (bits b).getD i false → s ≤ i ∧ i < s + 16) :
    crc16Xmodem a ≠ crc16Xmodem b := by
  rw [crc16Xmodem_eq, crc16Xmodem_eq]
  exact register_ne_of_burst wCPoly (by decide) (by decide) hlen hne s hwindow

theorem crc16Xmodem_detects_burst_sixteen :
    crc16Xmodem [0x98#8, 0x00#8, 0x12#8] ≠ crc16Xmodem [0x91#8, 0xFF#8, 0x72#8] := by
  refine crc16Xmodem_detects_burst _ _ rfl (by decide) 4 fun i hi => ?_
  have hlt : i < 24 := by
    by_contra hge
    have hout := Nat.le_of_not_lt hge
    exact hi (by rw [List.getD_eq_default _ _ hout, List.getD_eq_default _ _ hout])
  have hsmall : ∀ i < 24, (bits [0x98#8, 0x00#8, 0x12#8]).getD i false ≠
      (bits [0x91#8, 0xFF#8, 0x72#8]).getD i false → 4 ≤ i ∧ i < 4 + 16 := by
    decide
  exact hsmall i hlt hi

-- The trailer empties the register just if it is the checksum, the high byte first.
theorem crc16Xmodem_trailer (m : List Byte) (hi lo : Byte) :
    crc16Xmodem (m ++ [hi, lo]) = 0#16 ↔ 256 * hi.toNat + lo.toNat = (crc16Xmodem m).toNat := by
  have htrailer : bitPoly ([hi, lo].flatMap msbFirst) = poly (hi ++ lo) := by
    rw [← bitPoly_msbFirst_append, List.flatMap_cons, List.flatMap_cons, List.flatMap_nil, List.append_nil]
  have hword : (hi ++ lo).toNat = 256 * hi.toNat + lo.toNat := by
    rw [BitVec.toNat_append, ← Nat.shiftLeft_add_eq_or_of_lt lo.isLt, Nat.shiftLeft_eq]
    omega
  rw [crc16Xmodem_eq, crc16Xmodem_eq, register_append_eq_zero_iff wCPoly (by decide) (by decide) m [hi, lo] rfl,
    htrailer, ← hword]
  constructor
  · intro h
    rw [poly_inj h]
  · intro h
    rw [BitVec.eq_of_toNat_eq h]

end RichardTest.Crc16
