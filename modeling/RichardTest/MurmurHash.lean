import RichardTest.BlockHash

namespace RichardTest.MurmurHash

open BlockHash

abbrev Bytes := List (BitVec 8)

section ByteBuffer

inductive ByteOrder where
  | bigEndian
  | littleEndian
deriving DecidableEq

-- The bytes from the position to the limit.
structure ByteBuffer where
  bytes : Bytes
  order : ByteOrder
deriving DecidableEq

namespace ByteBuffer

def wrap (bytes : Bytes) : ByteBuffer := { bytes, order := .bigEndian }

-- `ByteBuffer.allocate(n)` with a byte order, after `put` of at most `n` bytes and `rewind`.
def allocatePut (n : Nat) (order : ByteOrder) (bytes : Bytes) : ByteBuffer :=
  { bytes := bytes ++ List.replicate (n - bytes.length) 0#8, order }

def remaining (buf : ByteBuffer) : Nat := buf.bytes.length

-- `getInt` for 32 bits and `getLong` for 64, where that many are left.
def get (w : Nat) (buf : ByteBuffer) : BitVec w × ByteBuffer :=
  let bytes := buf.bytes.take (w / 8)
  (ofBytes w (if buf.order = .bigEndian then bytes.reverse else bytes),
    { buf with bytes := buf.bytes.drop (w / 8) })

end ByteBuffer

end ByteBuffer

section Parts

variable {w : Nat}

-- `k *= m; k ^= k >>> r; k *= m`.
def mixed (m : BitVec w) (r : Nat) (k : BitVec w) : BitVec w :=
  let k := k * m
  let k := k ^^^ (k >>> r)
  k * m

-- `while (buf.remaining() >= w / 8)`; each round reads a byte at the least.
def wordLoop (round : BitVec w → BitVec w → BitVec w) :
    (fuel : Nat) → BitVec w → ByteBuffer → BitVec w × ByteBuffer
  | 0, h, buf => (h, buf)
  | fuel + 1, h, buf =>
      if w / 8 ≤ buf.remaining then
        let (k, buf) := buf.get w
        wordLoop round fuel (round h k) buf
      else (h, buf)

-- `if (buf.remaining() > 0)`: the bytes left over, filled up with zeros. `put` leaves none.
def takeFinish (m : BitVec w) (h : BitVec w) (buf : ByteBuffer) : BitVec w × ByteBuffer :=
  if 0 < buf.remaining then
    let finish := ByteBuffer.allocatePut (w / 8) .littleEndian buf.bytes
    let h := h ^^^ (finish.get w).1
    (h * m, { buf with bytes := [] })
  else (h, buf)

end Parts

def hash (buf : ByteBuffer) (seed : BitVec 32) : BitVec 32 × ByteBuffer :=
  let byteOrder := buf.order
  let buf := { buf with order := .littleEndian }
  let m := 0x5bd1e995#32
  let r := 24
  let h := seed ^^^ BitVec.ofNat 32 buf.remaining
  let (h, buf) := wordLoop (fun h k => (h * m) ^^^ mixed m r k) buf.remaining h buf
  let (h, buf) := takeFinish m h buf
  let h := h ^^^ (h >>> 13)
  let h := h * m
  let h := h ^^^ (h >>> 15)
  (h, { buf with order := byteOrder })

-- The `int` arguments are widened with their sign.
def hash64A (buf : ByteBuffer) (seed : BitVec 32) : BitVec 64 × ByteBuffer :=
  let byteOrder := buf.order
  let buf := { buf with order := .littleEndian }
  let m := 0xc6a4a7935bd1e995#64
  let r := 47
  let h := seed.signExtend 64 ^^^ ((BitVec.ofNat 32 buf.remaining).signExtend 64 * m)
  let (h, buf) := wordLoop (fun h k => (h ^^^ mixed m r k) * m) buf.remaining h buf
  let (h, buf) := takeFinish m h buf
  let h := h ^^^ (h >>> r)
  let h := h * m
  let h := h ^^^ (h >>> r)
  (h, { buf with order := byteOrder })

-- `hash(byte[] data, int seed)` and `hash64A(byte[] data, int seed)`.
def hashBytes (data : Bytes) (seed : BitVec 32) : BitVec 32 := (hash (.wrap data) seed).1

def hash64ABytes (data : Bytes) (seed : BitVec 32) : BitVec 64 := (hash64A (.wrap data) seed).1

end RichardTest.MurmurHash
