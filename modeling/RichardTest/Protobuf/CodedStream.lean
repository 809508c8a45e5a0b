import RichardTest.Protobuf.Theorems

namespace RichardTest.Protobuf.CodedStream

open Wire

-- The wire format: varints, numbers of a fixed length and strings behind their length.

section Raw

-- Bytes that are taken as they are.
def readRaw (n : Nat) : Reader Bytes := fun bytes =>
  if n ≤ bytes.length then some (bytes.take n, bytes.drop n) else none

theorem reads_raw (bytes : Bytes) : Reads (readRaw bytes.length) bytes bytes where
  whole rest := by
    rw [readRaw, if_pos (by rw [List.length_append]; omega), List.take_left, List.drop_left]
  cut p hp hne := by
    exact if_neg fun hle => hne (hp.eq_of_length_le hle)

theorem forward_raw (n : Nat) : Forward (readRaw n) := by
  intro bytes a rest h
  rw [readRaw] at h
  split_ifs at h with hn
  cases h
  exact (List.length_drop ..).trans_le (Nat.sub_le _ _)

end Raw

section Varint

def byte (n : Nat) : Byte := BitVec.ofNat 8 n

theorem byte_toNat {n : Nat} (h : n < 256) : (byte n).toNat = n := by
  rw [byte, BitVec.toNat_ofNat]
  exact Nat.mod_eq_of_lt h

-- Seven bits a byte, the lowest first, in up to `k` bytes; all but the last have their high bit set.
def varintWithin : Nat → Nat → Bytes
  | 0, _ => []
  | k + 1, n => if n < 128 then [byte n] else byte (n % 128 + 128) :: varintWithin k (n / 128)

def varint (n : Nat) : Bytes := varintWithin 10 n

def readVarintWithin : Nat → Reader Nat
  | 0, _ => none
  | _ + 1, [] => none
  | k + 1, b :: rest =>
      if b.toNat < 128 then some (b.toNat, rest)
      else do
        let (v, rest) ← readVarintWithin k rest
        some (b.toNat - 128 + 128 * v, rest)

def readVarint : Reader Nat := readVarintWithin 10

theorem reads_byte (k : Nat) {b : Byte} (hb : b.toNat < 128) : Reads (readVarintWithin (k + 1)) [b] b.toNat where
  whole rest := by rw [List.singleton_append, readVarintWithin, if_pos hb]
  cut p hp hne := by
    have hlen : p.length < 1 := lt_of_le_of_ne hp.length_le fun h => hne (hp.eq_of_length h)
    rw [List.length_eq_zero_iff.mp (Nat.lt_one_iff.mp hlen)]
    rfl

-- A byte with its high bit set goes in front of what is read with one byte less.
theorem reads_cons_byte {k v : Nat} {bytes : Bytes} (h : Reads (readVarintWithin k) bytes v) {b : Byte}
    (hb : ¬b.toNat < 128) : Reads (readVarintWithin (k + 1)) (b :: bytes) (b.toNat - 128 + 128 * v) where
  whole rest := by
    rw [List.cons_append, readVarintWithin, if_neg hb, h.whole rest]
    rfl
  cut p hp hne := by
    cases p with
    | nil => rfl
    | cons c p =>
        obtain ⟨rfl, hpre⟩ := List.cons_prefix_cons.mp hp
        rw [readVarintWithin, if_neg hb, h.cut p hpre fun heq => hne (heq ▸ rfl)]
        rfl

theorem reads_varintWithin (k n : Nat) (h : n < 128 ^ (k + 1)) :
    Reads (readVarintWithin (k + 1)) (varintWithin (k + 1) n) n := by
  induction k generalizing n with
  | zero =>
      have hn : n < 128 := h
      rw [varintWithin, if_pos hn]
      have hbyte := byte_toNat (show n < 256 by omega)
      have hreads := reads_byte 0 (b := byte n) (by omega)
      rwa [hbyte] at hreads
  | succ k ih =>
      rw [varintWithin]
      by_cases hn : n < 128
      · rw [if_pos hn]
        have hbyte := byte_toNat (show n < 256 by omega)
        have hreads := reads_byte (k + 1) (b := byte n) (by omega)
        rwa [hbyte] at hreads
      · rw [if_neg hn]
        have hbyte := byte_toNat (show n % 128 + 128 < 256 by omega)
        have hrest := ih (n / 128) (Nat.div_lt_of_lt_mul (by rw [← pow_succ']; exact h))
        have hreads := reads_cons_byte hrest (b := byte (n % 128 + 128)) (by omega)
        rw [hbyte, Nat.add_sub_cancel, Nat.mod_add_div] at hreads
        exact hreads

theorem reads_varint {n : Nat} (h : n < 2 ^ 64) : Reads readVarint (varint n) n :=
  reads_varintWithin 9 n (h.trans (by decide))

theorem varint_ne_nil (n : Nat) : varint n ≠ [] := by
  rw [varint, varintWithin]
  split_ifs
  · exact List.cons_ne_nil _ _
  · exact List.cons_ne_nil _ _

theorem forward_varint (k : Nat) : Forward (readVarintWithin k) := by
  induction k with
  | zero =>
      intro bytes v rest h
      cases h
  | succ k ih =>
      intro bytes v rest h
      cases bytes with
      | nil => cases h
      | cons b bytes =>
          rw [readVarintWithin] at h
          split_ifs at h with hb
          · cases h
            exact Nat.le_succ _
          · obtain ⟨⟨v', rest'⟩, hv, hend⟩ := Option.bind_eq_some_iff.mp h
            cases hend
            exact (ih bytes v' rest hv).trans (Nat.le_succ _)

-- A varint has at least one byte.
theorem varint_lt {bytes rest : Bytes} {v : Nat} (h : readVarint bytes = some (v, rest)) :
    rest.length < bytes.length := by
  cases bytes with
  | nil => cases h
  | cons b bytes =>
      rw [readVarint, readVarintWithin] at h
      split_ifs at h with hb
      · cases h
        exact Nat.lt_succ_self _
      · obtain ⟨⟨v', rest'⟩, hv, hend⟩ := Option.bind_eq_some_iff.mp h
        cases hend
        exact Nat.lt_succ_of_le (forward_varint 9 bytes v' rest hv)

end Varint

section Fixed

-- `k` bytes, the lowest first.
def littleEndian : Nat → Nat → Bytes
  | 0, _ => []
  | k + 1, n => byte (n % 256) :: littleEndian k (n / 256)

def fromLittleEndian : Bytes → Nat
  | [] => 0
  | b :: bytes => b.toNat + 256 * fromLittleEndian bytes

def readLittleEndian (k : Nat) : Reader Nat := fromLittleEndian <$> readRaw k

theorem length_littleEndian (k n : Nat) : (littleEndian k n).length = k := by
  induction k generalizing n with
  | zero => rfl
  | succ k ih => rw [littleEndian, List.length_cons, ih]

theorem fromLittleEndian_littleEndian (k n : Nat) (h : n < 256 ^ k) :
    fromLittleEndian (littleEndian k n) = n := by
  induction k generalizing n with
  | zero => exact (Nat.lt_one_iff.mp h).symm
  | succ k ih =>
      rw [littleEndian, fromLittleEndian, byte_toNat (Nat.mod_lt n (by decide)),
        ih (n / 256) (Nat.div_lt_of_lt_mul (by rw [← pow_succ']; exact h))]
      exact Nat.mod_add_div n 256

theorem reads_littleEndian {k n : Nat} (h : n < 256 ^ k) : Reads (readLittleEndian k) (littleEndian k n) n := by
  have hraw := (reads_raw (littleEndian k n)).map fromLittleEndian
  rw [length_littleEndian, fromLittleEndian_littleEndian k n h] at hraw
  exact hraw

end Fixed

section Strings

-- A length is an `int`.
def readSize : Reader Nat := do
  let v ← readVarint
  let size := v % 2 ^ 32
  if size < 2 ^ 31 then pure size else failure

theorem reads_size {n : Nat} (h : n < 2 ^ 31) : Reads readSize (varint n) n := by
  have hpure : Reads (if n % 2 ^ 32 < 2 ^ 31 then pure (n % 2 ^ 32) else failure : Reader Nat) [] n := by
    rw [Nat.mod_eq_of_lt (h.trans (by decide)), if_pos h]
    exact reads_nothing n
  have hreads := (reads_varint (h.trans (by decide))).bind (f := fun v =>
    if v % 2 ^ 32 < 2 ^ 31 then pure (v % 2 ^ 32) else failure) hpure
  rw [List.append_nil] at hreads
  exact hreads

def writeBytes (b : Bytes) : Bytes := varint b.length ++ b

def writeString : Ref → Bytes
  | .string s => writeBytes (Utf8.encode s)
  | .bytes b => writeBytes b

-- Bytes that are not UTF-8 do not come back from a string.
def readString : Reader JString := do
  let size ← readSize
  let bytes ← readRaw size
  if Utf8.encode (Utf8.decode bytes) = bytes then pure (Utf8.decode bytes) else failure

-- The bytes of a string are UTF-8, whatever the string is.
theorem encode_decode_encode (s : JString) : Utf8.encode (Utf8.decode (Utf8.encode s)) = Utf8.encode s := by
  rw [Utf8.decode_encode, Utf8.encode, Utf8.codes_words (Utf8.codes_scalar s), ← Utf8.encode]

theorem reads_string (s : JString) (h : (Utf8.encode s).length < 2 ^ 31) :
    Reads readString (writeBytes (Utf8.encode s)) (Utf8.decode (Utf8.encode s)) := by
  have hpure : Reads (if Utf8.encode (Utf8.decode (Utf8.encode s)) = Utf8.encode s
      then pure (Utf8.decode (Utf8.encode s)) else failure : Reader JString) [] (Utf8.decode (Utf8.encode s)) := by
    rw [if_pos (encode_decode_encode s)]
    exact reads_nothing _
  have hraw := (reads_raw (Utf8.encode s)).bind (f := fun bytes =>
    if Utf8.encode (Utf8.decode bytes) = bytes then pure (Utf8.decode bytes) else failure) hpure
  rw [List.append_nil] at hraw
  exact (reads_size h).bind hraw

theorem forward_failure {α : Type} : Forward (failure : Reader α) := by
  intro bytes a rest h
  cases h

theorem forward_string : Forward readString := by
  refine Forward.bind (Forward.bind (forward_varint 10) fun v => ?_) fun size => (forward_raw size).bind fun bytes => ?_
  · show Forward (if v % 2 ^ 32 < 2 ^ 31 then pure (v % 2 ^ 32) else failure)
    split_ifs
    · exact forward_pure _
    · exact forward_failure
  · split_ifs
    · exact forward_pure _
    · exact forward_failure

end Strings

section Tags

def writeTag (wireType number : Nat) : Bytes := varint (number * 8 + wireType)

def readTag : Reader Nat := fun bytes =>
  if bytes = [] then some (0, [])
  else do
    let (v, rest) ← readVarint bytes
    let tag := v % 2 ^ 32
    if tag / 8 = 0 then none else some (tag, rest)

theorem readsTag {wireType number : Nat} (hwire : wireType < 8) (hpos : 1 ≤ number) (hlt : number < 2 ^ 29) :
    ReadsTag readTag (writeTag wireType number) (number * 8 + wireType) := by
  have hvarint := reads_varint (show number * 8 + wireType < 2 ^ 64 by omega)
  refine ⟨varint_ne_nil _, fun rest => ?_, fun p hp hne hnil => ?_⟩
  · have hfull : writeTag wireType number ++ rest ≠ [] := fun h => varint_ne_nil _ (List.append_eq_nil_iff.mp h).1
    have hnumber : ¬(number * 8 + wireType) / 8 = 0 := by omega
    rw [readTag, if_neg hfull, writeTag, hvarint.whole rest]
    show (if (number * 8 + wireType) % 2 ^ 32 / 8 = 0 then none else some (_, rest)) = _
    rw [Nat.mod_eq_of_lt (by omega), if_neg hnumber]
  · rw [readTag, if_neg hnil, hvarint.cut p hp hne]
    rfl

theorem readTag_lt {bytes rest : Bytes} {tag : Nat} (h : readTag bytes = some (tag, rest)) (htag : tag ≠ 0) :
    rest.length < bytes.length := by
  rw [readTag] at h
  split_ifs at h with hnil
  · cases h
    exact absurd rfl htag
  · obtain ⟨⟨v, rest'⟩, hv, hend⟩ := Option.bind_eq_some_iff.mp h
    simp only at hend
    split_ifs at hend
    cases hend
    exact varint_lt hv

end Tags

section Documentation

variable {α β : Type}

def codec (wireType : Nat) (payload : α → Bytes) (read : Reader β) : Codec α β where
  write number a := writeTag wireType number ++ payload a
  computeSize number a := BitVec.ofNat 32 (writeTag wireType number ++ payload a).length
  read

def codec_documented {wireType : Nat} (hwire : wireType < 8) {payload : α → Bytes} {read : Reader β} {valid : α → Prop}
    {value : α → β} (hreads : ∀ a, valid a → Reads read (payload a) (value a)) (hforward : Forward read) :
    (codec wireType payload read).Documented readTag wireType valid value where
  header := writeTag wireType
  payload
  write_eq _ _ _ := rfl
  readsTag _ hpos hlt := readsTag hwire hpos hlt
  reads := hreads
  computeSize_eq _ _ _ := rfl
  forward := hforward

def library : Library Unit where
  copyFromUtf8 := Utf8.encode
  toStringUtf8 := Utf8.decode
  readTag
  int64 := codec 0 (fun x => varint x.toNat) (BitVec.ofNat 64 <$> readVarint)
  -- A negative number is written as a long.
  int32 := codec 0 (fun x => varint (x.signExtend 64).toNat) (BitVec.ofNat 32 <$> readVarint)
  double := codec 1 (fun x => littleEndian 8 x.toNat) (BitVec.ofNat 64 <$> readLittleEndian 8)
  float := codec 5 (fun x => littleEndian 4 x.toNat) (BitVec.ofNat 32 <$> readLittleEndian 4)
  string := codec 2 writeString readString
  unknown :=
    { empty := ()
      mergeFieldFrom := fun _ _ => failure
      writeTo := fun _ => []
      getSerializedSize := fun _ => 0 }
  toByteArray size bytes := if size.toInt = bytes.length then some bytes else none

theorem reads_int64 (x : BitVec 64) : Reads (BitVec.ofNat 64 <$> readVarint) (varint x.toNat) x := by
  have hreads := (reads_varint x.isLt).map (BitVec.ofNat 64)
  rwa [BitVec.ofNat_toNat, BitVec.setWidth_eq] at hreads

theorem reads_int32 (x : BitVec 32) : Reads (BitVec.ofNat 32 <$> readVarint) (varint (x.signExtend 64).toNat) x := by
  have hlow : BitVec.ofNat 32 (x.signExtend 64).toNat = x := by
    rw [BitVec.ofNat_toNat]
    ext i hi
    rw [BitVec.getElem_setWidth, BitVec.getLsbD_signExtend]
    simp [hi, show i < 64 by omega]
  have hreads := (reads_varint (x.signExtend 64).isLt).map (BitVec.ofNat 32)
  rwa [hlow] at hreads

theorem reads_bits {w k : Nat} (hk : 256 ^ k = 2 ^ w) (x : BitVec w) :
    Reads (BitVec.ofNat w <$> readLittleEndian k) (littleEndian k x.toNat) x := by
  have hreads := (reads_littleEndian (k := k) (n := x.toNat) (hk ▸ x.isLt)).map (BitVec.ofNat w)
  rwa [BitVec.ofNat_toNat, BitVec.setWidth_eq] at hreads

def library_documented : library.Documented where
  copyFromUtf8 _ := rfl
  toStringUtf8 _ := rfl
  end_of_input := rfl
  readTag_lt _ _ _ h htag := readTag_lt h htag
  int64 := codec_documented (by decide) (fun x _ => reads_int64 x) ((forward_varint 10).map _)
  int32 := codec_documented (by decide) (fun x _ => reads_int32 x) ((forward_varint 10).map _)
  double := codec_documented (by decide) (fun x _ => reads_bits rfl x) (((forward_raw 8).map _).map _)
  float := codec_documented (by decide) (fun x _ => reads_bits rfl x) (((forward_raw 4).map _).map _)
  string := codec_documented (by decide) (fun r hr => by
    obtain ⟨s, rfl, hlength⟩ := hr
    exact reads_string s hlength) forward_string
  mergeFieldFrom_forward _ _ := forward_failure
  writeTo_empty := rfl
  getSerializedSize_empty := rfl
  toByteArray bytes h := by
    have hsize : (BitVec.ofNat 32 bytes.length).toInt = bytes.length := by
      rw [BitVec.toInt_ofNat', Int.bmod_eq_of_le (by omega) (by omega)]
    exact if_pos hsize

end Documentation

end RichardTest.Protobuf.CodedStream
