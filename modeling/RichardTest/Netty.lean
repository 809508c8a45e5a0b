import RichardTest.Utf8

namespace RichardTest.Netty

abbrev JString := List (BitVec 16)
abbrev JInt := BitVec 32
abbrev Bytes := List (BitVec 8)

-- The default charset of the virtual machine.
structure Charset where
  getBytes : JString → Bytes
  newString : Bytes → JString

-- Bytes that are read and written again do not get fewer. UTF-8 and the charsets with a byte for each
-- character are so.
def Charset.Keeps (charset : Charset) : Prop :=
  ∀ bytes, bytes.length ≤ (charset.getBytes (charset.newString bytes)).length

def utf8 : Charset := { getBytes := Utf8.encode, newString := Utf8.decode }

structure MsgHeader where
  version : JInt
  contentLength : JInt
  sessionId : JString
deriving DecidableEq

structure MyMsg where
  msgHeader : MsgHeader
  content : JString
deriving DecidableEq

section ByteBuf

-- What the handlers use of Netty's `ByteBuf`, and how ByteToMessageDecoder puts two buffers together. A read
-- that throws gives the buffer as it leaves it, `none` is an exception too.
structure ByteBufs (Buf : Type) where
  -- the buffer that MessageToByteEncoder allocates for each message
  allocate : Buf
  readableBytes : Buf → Nat
  readInt : Buf → Except Buf (JInt × Buf)
  -- `readBytes(byte[])` for an array of that length
  readBytesTo : Buf → (length : Nat) → Except Buf (Bytes × Buf)
  -- `readBytes(int)`: the new buffer, and the one read from
  readBytes : Buf → (length : Nat) → Except Buf (Buf × Buf)
  array : Buf → Option Bytes
  writeInt : Buf → JInt → Option Buf
  writeBytes : Buf → Bytes → Option Buf
  cumulate : (cumulation data : Buf) → Buf

end ByteBuf

section Codec

variable {Buf : Type} (netty : ByteBufs Buf) (charset : Charset)

-- MsgEncoder. The length is the one of the content, not the header's.
def encode (message : MyMsg) (out : Buf) : Option Buf := do
  let header := message.msgHeader
  let out ← netty.writeInt out header.version
  let out ← netty.writeInt out (BitVec.ofNat 32 message.content.length)
  let out ← netty.writeBytes out (charset.getBytes header.sessionId)
  netty.writeBytes out (charset.getBytes message.content)

-- MsgDecoder. `array` throws for a buffer without an array that can be accessed.
def decode (input : Buf) : Except Buf (List MyMsg × Buf) := do
  let (version, input) ← netty.readInt input
  let (contentLength, input) ← netty.readInt input
  let (sessionByte, input) ← netty.readBytesTo input 36
  let sessionId := charset.newString sessionByte
  let header := { version, contentLength, sessionId }
  let (buf, input) ← netty.readBytes input (netty.readableBytes input)
  match netty.array buf with
  | none => .error input
  | some content => return ([{ msgHeader := header, content := charset.newString content }], input)

end Codec

section ByteToMessageDecoder

variable {Buf Msg : Type} (netty : ByteBufs Buf) (decode : Buf → Except Buf (List Msg × Buf))

-- The bytes not decoded yet, the messages passed on, and the number of exceptions.
structure Channel (Buf Msg : Type) where
  cumulation : Option Buf
  out : List Msg
  faults : Nat

def Channel.start : Channel Buf Msg := { cumulation := none, out := [], faults := 0 }

-- A buffer that has been read to its end is released.
def Channel.keep (channel : Channel Buf Msg) (input : Buf) : Channel Buf Msg :=
  { channel with cumulation := if netty.readableBytes input = 0 then none else some input }

-- The loop of callDecode, for at most `calls` calls. Where decode reads nothing it ends: decode waits for
-- more bytes, or has made a message out of none, which is an exception.
def callDecode : (calls : Nat) → (input : Buf) → Channel Buf Msg → Channel Buf Msg
  | 0, input, channel => channel.keep netty input
  | calls + 1, input, channel =>
      if netty.readableBytes input = 0 then channel.keep netty input
      else
        match decode input with
        | .error rest => Channel.keep netty { channel with faults := channel.faults + 1 } rest
        | .ok (msgs, rest) =>
            let channel' := { channel with out := channel.out ++ msgs }
            if netty.readableBytes rest ≠ netty.readableBytes input then callDecode calls rest channel'
            else if msgs = [] then channel'.keep netty rest
            else Channel.keep netty { channel' with faults := channel.faults + 1 } rest

-- Every call that goes on reads a byte.
def channelRead (channel : Channel Buf Msg) (data : Buf) : Channel Buf Msg :=
  let input :=
    match channel.cumulation with
    | none => data
    | some cumulation => netty.cumulate cumulation data
  callDecode netty decode (netty.readableBytes input) input channel

def channelReads (bufs : List Buf) : Channel Buf Msg := bufs.foldl (channelRead netty decode) Channel.start

end ByteToMessageDecoder

section Documented

variable {Buf : Type}

-- The order in which an int is written.
def bigEndian (value : JInt) : Bytes :=
  [(value >>> 24).setWidth 8, (value >>> 16).setWidth 8, (value >>> 8).setWidth 8, value.setWidth 8]

-- What Netty documents of these operations, for buffers that have not been released. `content` is what is
-- readable. A read that needs more bytes than there are throws an IndexOutOfBoundsException.
structure Documented (netty : ByteBufs Buf) (live : Buf → Prop) (content : Buf → Bytes) : Prop where
  live_allocate : live netty.allocate
  content_allocate : content netty.allocate = []
  readable : ∀ b, live b → netty.readableBytes b = (content b).length
  readInt : ∀ b value rest, live b → content b = bigEndian value ++ rest →
    ∃ b', netty.readInt b = .ok (value, b') ∧ live b' ∧ content b' = rest
  readInt_short : ∀ b, live b → (content b).length < 4 → ∃ b', netty.readInt b = .error b'
  readBytesTo : ∀ b n, live b → n ≤ (content b).length →
    ∃ b', netty.readBytesTo b n = .ok ((content b).take n, b') ∧ live b' ∧ content b' = (content b).drop n
  readBytesTo_short : ∀ b n, live b → (content b).length < n → ∃ b', netty.readBytesTo b n = .error b'
  readBytes : ∀ b n, live b → n ≤ (content b).length →
    ∃ fresh b', netty.readBytes b n = .ok (fresh, b') ∧ content fresh = (content b).take n ∧ live b' ∧
      content b' = (content b).drop n
  writeInt : ∀ b value b', live b → netty.writeInt b value = some b' →
    live b' ∧ content b' = content b ++ bigEndian value
  writeBytes : ∀ b bytes b', live b → netty.writeBytes b bytes = some b' → live b' ∧ content b' = content b ++ bytes

-- The buffer that `readBytes(int)` allocates is on the heap and of just the size asked for, so that its array
-- is what was read. Netty does not promise this: a direct buffer has no array, and a pooled one shares it.
def OwnArray (netty : ByteBufs Buf) (live : Buf → Prop) (content : Buf → Bytes) : Prop :=
  ∀ b n fresh b', live b → netty.readBytes b n = .ok (fresh, b') → netty.array fresh = some (content fresh)

end Documented

section Delivery

variable {Buf : Type} (netty : ByteBufs Buf) (content : Buf → Bytes) (charset : Charset)
variable (msgs : List MyMsg) (outs bufs : List Buf)

-- The buffers that the calls of encode have written.
def Sent : Prop := msgs.map (fun m => encode netty charset m netty.allocate) = outs.map some

-- The messages come out as they are, and no read goes past the bytes there are.
def Delivered : Prop :=
  (channelReads netty (decode netty charset) bufs).out = msgs ∧
    (channelReads netty (decode netty charset) bufs).faults = 0

-- Every buffer that is not empty holds just what one call of encode has written.
def Framed : Prop := (bufs.map content).filter (· ≠ []) = outs.map content

-- What the stream can carry: strings that the charset keeps, and a header that states the right length.
structure Carried (message : MyMsg) : Prop where
  sessionId : charset.newString (charset.getBytes message.msgHeader.sessionId) = message.msgHeader.sessionId
  content : charset.newString (charset.getBytes message.content) = message.content
  contentLength : message.msgHeader.contentLength = BitVec.ofNat 32 message.content.length

end Delivery

end RichardTest.Netty
