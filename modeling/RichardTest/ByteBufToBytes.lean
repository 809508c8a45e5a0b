import Mathlib.Data.List.Basic

namespace RichardTest.ByteBufToBytes

abbrev Bytes := List (BitVec 8)

-- What the class uses of Netty's `ByteBuf` and `Unpooled`. `none` is an exception.
structure ByteBufs (Buf : Type) where
  buffer : Nat → Buf
  readableBytes : Buf → Nat
  writableBytes : Buf → Nat
  -- `src.readBytes(dst, length)`: both buffers afterwards
  readBytesTo : (src dst : Buf) → (length : Nat) → Option (Buf × Buf)
  -- `readBytes(byte[])` for an array of that length
  readBytes : Buf → (length : Nat) → Option (Bytes × Buf)
  release : Buf → Buf

section Reader

variable {Buf : Type} (netty : ByteBufs Buf)

structure Reader (Buf : Type) where
  temp : Buf
  endFlag : Bool

def new (length : Nat) : Reader Buf := { temp := netty.buffer length, endFlag := true }

def reading (reader : Reader Buf) (datas : Buf) : Option (Reader Buf × Buf) := do
  let (datas, temp) ← netty.readBytesTo datas reader.temp (netty.readableBytes datas)
  if netty.writableBytes temp ≠ 0 then return ({ temp, endFlag := false }, datas)
  else return ({ temp, endFlag := true }, datas)

def isEnd (reader : Reader Buf) : Bool := reader.endFlag

def readFull (reader : Reader Buf) : Option (Option Bytes × Reader Buf) :=
  if reader.endFlag then do
    let (contentByte, temp) ← netty.readBytes reader.temp (netty.readableBytes reader.temp)
    return (some contentByte, { reader with temp := netty.release temp })
  else return (none, reader)

-- One call of `reading` after the other.
def readings (reader : Reader Buf) (chunks : List Buf) : Option (Reader Buf) :=
  chunks.foldlM (fun reader datas => (reading netty reader datas).map Prod.fst) reader

end Reader

section Documented

variable {Buf : Type}

-- What Netty documents of these operations, for buffers that have not been released. `content` is what is
-- readable.
structure Documented (netty : ByteBufs Buf) (live : Buf → Prop) (content : Buf → Bytes) : Prop where
  live_buffer : ∀ n, live (netty.buffer n)
  content_buffer : ∀ n, content (netty.buffer n) = []
  writable_buffer : ∀ n, netty.writableBytes (netty.buffer n) = n
  readable : ∀ b, live b → netty.readableBytes b = (content b).length
  readBytes : ∀ b n, live b → n ≤ (content b).length →
    (netty.readBytes b n).map Prod.fst = some ((content b).take n)
  readBytesTo : ∀ src dst n, live src → live dst → n ≤ (content src).length → n ≤ netty.writableBytes dst →
    ∃ src' dst', netty.readBytesTo src dst n = some (src', dst') ∧ live dst' ∧
      content dst' = content dst ++ (content src).take n ∧ netty.writableBytes dst' = netty.writableBytes dst - n

-- The flag and the result say that just `length` bytes have come in, and which.
structure Agrees (netty : ByteBufs Buf) (length : Nat) (bytes : Bytes) (reader : Reader Buf) : Prop where
  isEnd_iff : isEnd reader = true ↔ bytes.length = length
  readFull_end : isEnd reader = true → (readFull netty reader).map Prod.fst = some (some bytes)
  readFull_before : isEnd reader = false → (readFull netty reader).map Prod.fst = some none

variable {netty : ByteBufs Buf} {live : Buf → Prop} {content : Buf → Bytes}

-- The buffer holds what has come in, and has room for the rest.
structure Holds (netty : ByteBufs Buf) (live : Buf → Prop) (content : Buf → Bytes) (length : Nat) (bytes : Bytes)
    (reader : Reader Buf) : Prop where
  live : live reader.temp
  content : content reader.temp = bytes
  writable : netty.writableBytes reader.temp = length - bytes.length

theorem holds_new (doc : Documented netty live content) (length : Nat) :
    Holds netty live content length [] (new netty length) where
  live := doc.live_buffer length
  content := doc.content_buffer length
  writable := doc.writable_buffer length

-- One call takes in the whole chunk, and sets the flag by the room that is left.
theorem reading_spec (doc : Documented netty live content) {length : Nat} {bytes : Bytes} {reader : Reader Buf}
    (h : Holds netty live content length bytes reader) {datas : Buf} (hlive : live datas)
    (hfit : bytes.length + (content datas).length ≤ length) :
    ∃ reader', (reading netty reader datas).map Prod.fst = some reader' ∧
      Holds netty live content length (bytes ++ content datas) reader' ∧
      (reader'.endFlag = true ↔ netty.writableBytes reader'.temp = 0) := by
  have hroom : (content datas).length ≤ netty.writableBytes reader.temp := by
    rw [h.writable]
    omega
  obtain ⟨datas', temp, hrun, hl, hc, hw⟩ :=
    doc.readBytesTo datas reader.temp (content datas).length hlive h.live (Nat.le_refl _) hroom
  have hholds : ∀ flag, Holds netty live content length (bytes ++ content datas) { temp, endFlag := flag } := by
    intro flag
    refine ⟨hl, ?_, ?_⟩
    · rw [hc, h.content, List.take_length]
    · rw [hw, h.writable, List.length_append, Nat.sub_add_eq]
  rw [reading, doc.readable datas hlive, hrun, Option.bind_eq_bind, Option.bind_some]
  by_cases hzero : netty.writableBytes temp = 0
  · exact ⟨{ temp, endFlag := true }, by simp [hzero], hholds true, iff_of_true rfl hzero⟩
  · exact ⟨{ temp, endFlag := false }, by simp [hzero], hholds false, iff_of_false Bool.false_ne_true hzero⟩

-- Where the flag says whether there is room, the reader agrees with what has come in.
theorem Holds.agrees (doc : Documented netty live content) {length : Nat} {bytes : Bytes} {reader : Reader Buf}
    (h : Holds netty live content length bytes reader) (hle : bytes.length ≤ length)
    (hflag : reader.endFlag = true ↔ netty.writableBytes reader.temp = 0) : Agrees netty length bytes reader where
  isEnd_iff := by
    rw [isEnd, hflag, h.writable]
    omega
  readFull_end hend := by
    have hread := doc.readBytes reader.temp _ h.live (Nat.le_refl _)
    rw [h.content, List.take_length] at hread
    obtain ⟨⟨_, temp⟩, hrun, rfl⟩ := Option.map_eq_some_iff.mp hread
    rw [isEnd] at hend
    rw [readFull, if_pos hend, doc.readable reader.temp h.live, h.content, hrun]
    rfl
  readFull_before hend := by
    rw [isEnd] at hend
    rw [readFull, hend]
    rfl

theorem readings_holds (doc : Documented netty live content) (length : Nat) (chunks : List Buf)
    (hlive : ∀ datas ∈ chunks, live datas) :
    ∀ {bytes reader}, Holds netty live content length bytes reader →
      bytes.length + (chunks.flatMap content).length ≤ length →
      ∃ reader', readings netty reader chunks = some reader' ∧
        Holds netty live content length (bytes ++ chunks.flatMap content) reader' ∧
        (chunks ≠ [] → (reader'.endFlag = true ↔ netty.writableBytes reader'.temp = 0)) ∧
        (chunks = [] → reader' = reader) := by
  induction chunks with
  | nil =>
      intro bytes reader h hle
      exact ⟨reader, rfl, by simpa using h, fun hne => absurd rfl hne, fun _ => rfl⟩
  | cons datas chunks ih =>
      intro bytes reader h hle
      rw [List.flatMap_cons, List.length_append] at hle
      obtain ⟨reader', hrun, h', hflag⟩ := reading_spec doc h (hlive datas List.mem_cons_self) (by omega)
      obtain ⟨last, hrest, hlast, hset, hsame⟩ := ih (fun d hd => hlive d (List.mem_cons_of_mem _ hd)) h'
        (by rw [List.length_append]; omega)
      refine ⟨last, ?_, ?_, fun _ => ?_, fun hnil => absurd hnil (List.cons_ne_nil _ _)⟩
      · rw [readings, List.foldlM_cons, hrun]
        exact hrest
      · rwa [List.flatMap_cons, ← List.append_assoc]
      · by_cases hnil : chunks = []
        · rw [hsame hnil]
          exact hflag
        · exact hset hnil

-- Until the first call of `reading` the flag stands as it was set at the start.
theorem readings_agree_iff (doc : Documented netty live content) (length : Nat) (chunks : List Buf)
    (hlive : ∀ datas ∈ chunks, live datas) (hsum : (chunks.flatMap content).length ≤ length) :
    ∃ reader, readings netty (new netty length) chunks = some reader ∧
      (Agrees netty length (chunks.flatMap content) reader ↔ chunks ≠ [] ∨ length = 0) := by
  obtain ⟨reader, hrun, h, hset, hsame⟩ := readings_holds doc length chunks hlive (holds_new doc length)
    (by rwa [List.length_nil, Nat.zero_add])
  rw [List.nil_append] at h
  refine ⟨reader, hrun, fun hagrees => ?_, fun hcond => h.agrees doc hsum ?_⟩
  · by_cases hnil : chunks = []
    · have hend : isEnd reader = true := by rw [hsame hnil]; rfl
      have hlen := hagrees.isEnd_iff.mp hend
      rw [hnil] at hlen
      exact Or.inr hlen.symm
    · exact Or.inl hnil
  · by_cases hnil : chunks = []
    · have hzero := hcond.resolve_left (not_not.mpr hnil)
      rw [hsame hnil, new, doc.writable_buffer]
      exact iff_of_true rfl hzero
    · exact hset hnil

end Documented

section Heap

-- A buffer on the heap of the size asked for: the bytes written, how many of them have been read, and the
-- reference count.
structure HeapBuf where
  capacity : Nat
  written : Bytes
  readerIndex : Nat
  refCnt : Nat
deriving DecidableEq

namespace HeapBuf

-- Not released, and not read past what is written.
def live (b : HeapBuf) : Prop := 0 < b.refCnt ∧ b.readerIndex ≤ b.written.length

instance (b : HeapBuf) : Decidable b.live := inferInstanceAs (Decidable (_ ∧ _))

def content (b : HeapBuf) : Bytes := b.written.drop b.readerIndex

def write (b : HeapBuf) (bytes : Bytes) : Option HeapBuf :=
  if 0 < b.refCnt ∧ bytes.length ≤ b.capacity - b.written.length then
    some { b with written := b.written ++ bytes }
  else none

def read (b : HeapBuf) (length : Nat) : Option (Bytes × HeapBuf) :=
  if 0 < b.refCnt ∧ length ≤ b.written.length - b.readerIndex then
    some (b.content.take length, { b with readerIndex := b.readerIndex + length })
  else none

theorem read_of_live {b : HeapBuf} (hlive : b.live) {n : Nat} (hn : n ≤ b.content.length) :
    b.read n = some (b.content.take n, { b with readerIndex := b.readerIndex + n }) := by
  rw [content, List.length_drop] at hn
  rw [read, if_pos ⟨hlive.1, hn⟩]

theorem write_of_live {b : HeapBuf} (hlive : b.live) {bytes : Bytes}
    (hroom : bytes.length ≤ b.capacity - b.written.length) :
    b.write bytes = some { b with written := b.written ++ bytes } :=
  if_pos ⟨hlive.1, hroom⟩

end HeapBuf

def heap : ByteBufs HeapBuf where
  buffer length := { capacity := length, written := [], readerIndex := 0, refCnt := 1 }
  readableBytes b := b.written.length - b.readerIndex
  writableBytes b := b.capacity - b.written.length
  readBytesTo src dst length := do
    let (bytes, src) ← src.read length
    let dst ← dst.write bytes
    return (src, dst)
  readBytes b length := b.read length
  release b := { b with refCnt := b.refCnt - 1 }

theorem documented_heap : Documented heap HeapBuf.live HeapBuf.content where
  live_buffer n := ⟨Nat.one_pos, Nat.le_refl 0⟩
  content_buffer n := rfl
  writable_buffer n := rfl
  readable b hlive := List.length_drop.symm
  readBytes b n hlive hn := by
    rw [show heap.readBytes b n = b.read n from rfl, HeapBuf.read_of_live hlive hn, Option.map_some]
  readBytesTo src dst n hsrc hdst hn hroom := by
    have htake : (src.content.take n).length = n := List.length_take_of_le hn
    have hwrite : dst.write (src.content.take n) = some { dst with written := dst.written ++ src.content.take n } :=
      HeapBuf.write_of_live hdst (by rw [htake]; exact hroom)
    refine ⟨{ src with readerIndex := src.readerIndex + n },
      { dst with written := dst.written ++ src.content.take n }, ?_, ⟨hdst.1, ?_⟩, ?_, ?_⟩
    · simp only [heap, HeapBuf.read_of_live hsrc hn, Option.bind_eq_bind, Option.bind_some, hwrite]
      rfl
    · rw [List.length_append]
      exact Nat.le_add_right_of_le hdst.2
    · exact List.drop_append_of_le_length hdst.2
    · simp only [heap, List.length_append, htake, Nat.sub_add_eq]

-- `hello` as another buffer hands it over.
def hello : HeapBuf := { capacity := 5, written := [0x68, 0x65, 0x6c, 0x6c, 0x6f], readerIndex := 0, refCnt := 1 }

theorem readings_agree_hello :
    ∃ reader, readings heap (new heap 5) [hello] = some reader ∧
      (Agrees heap 5 hello.content reader ↔ [hello] ≠ [] ∨ 5 = 0) :=
  readings_agree_iff documented_heap 5 [hello] (by decide) (by decide)

-- A reader that expects five bytes and has seen none says that it is at the end.
theorem isEnd_before_reading :
    readings heap (new heap 5) [] = some (new heap 5) ∧ isEnd (new heap 5) = true ∧
      ¬Agrees heap 5 [] (new heap 5) := by
  refine ⟨rfl, rfl, fun hagrees => ?_⟩
  exact absurd (hagrees.isEnd_iff.mp rfl) (by decide)

end Heap

end RichardTest.ByteBufToBytes
