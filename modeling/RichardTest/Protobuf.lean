import RichardTest.Utf8
import RichardTest.Wire

namespace RichardTest.Protobuf

open Wire (Byte Bytes Reader Format)

abbrev JString := List (BitVec 16)

-- What stands in a string field: a `String`, or a `ByteString` with its bytes.
inductive Ref where
  | string (s : JString)
  | bytes (b : Bytes)
deriving DecidableEq

-- One type of field: what `CodedOutputStream` writes under a number, how long that is, and how `CodedInputStream`
-- reads what stands behind the tag.
structure Codec (α β : Type) where
  write : Nat → α → Bytes
  computeSize : Nat → α → BitVec 32
  read : Reader β

structure UnknownFieldSet (U : Type) where
  empty : U
  mergeFieldFrom : Nat → U → Reader (Option U)
  writeTo : U → Bytes
  getSerializedSize : U → BitVec 32

-- com.google.protobuf, which is no part of the program. Its toByteArray fills an array of a given size.
structure Library (U : Type) where
  copyFromUtf8 : JString → Bytes
  toStringUtf8 : Bytes → JString
  readTag : Reader Nat
  int64 : Codec (BitVec 64) (BitVec 64)
  int32 : Codec (BitVec 32) (BitVec 32)
  double : Codec (BitVec 64) (BitVec 64)
  float : Codec (BitVec 32) (BitVec 32)
  string : Codec Ref JString
  unknown : UnknownFieldSet U
  toByteArray : BitVec 32 → Bytes → Option Bytes

variable {α β M U : Type} (lib : Library U)

-- What the getters of a string field return. Each leaves it in the field.
def Ref.getString : Ref → JString
  | .string s => s
  | .bytes b => lib.toStringUtf8 b

def Ref.getBytes : Ref → Bytes
  | .string s => lib.copyFromUtf8 s
  | .bytes b => b

-- One of the cases of the constructor that reads a message.
def Codec.case (codec : Codec α β) (set : β → M → M) : Reader (M → M) := set <$> codec.read

section MessageProto

-- `MessageProto.msg`
structure Msg (U : Type) where
  id : Ref
  content : Ref
  memoizedSize : BitVec 32
  unknownFields : U
deriving DecidableEq

def Msg.new : Msg U :=
  { id := .string []
    content := .string []
    memoizedSize := -1
    unknownFields := lib.unknown.empty }

-- What a builder makes of two strings.
def Msg.build (id content : JString) : Msg U := { Msg.new lib with id := .string id, content := .string content }

def Msg.format : Format (Msg U) where
  initial := Msg.new lib
  readTag := lib.readTag
  field
    | 10 => some (lib.string.case fun s m => { m with id := .string s })
    | 18 => some (lib.string.case fun s m => { m with content := .string s })
    | _ => none
  unknown tag m := do
    let unknownFields ← lib.unknown.mergeFieldFrom tag m.unknownFields
    pure (unknownFields.map fun u => { m with unknownFields := u })

def Msg.getIdBytes (m : Msg U) : Bytes × Msg U :=
  let b := m.id.getBytes lib
  (b, { m with id := .bytes b })

def Msg.getContentBytes (m : Msg U) : Bytes × Msg U :=
  let b := m.content.getBytes lib
  (b, { m with content := .bytes b })

def Msg.writeTo (m : Msg U) : Bytes × Msg U :=
  let (idBytes, m) := m.getIdBytes lib
  let id := if idBytes = [] then [] else lib.string.write 1 m.id
  let (contentBytes, m) := m.getContentBytes lib
  let content := if contentBytes = [] then [] else lib.string.write 2 m.content
  (id ++ content ++ lib.unknown.writeTo m.unknownFields, m)

def Msg.getSerializedSize (m : Msg U) : BitVec 32 × Msg U :=
  let size := m.memoizedSize
  if size ≠ -1 then (size, m)
  else
    let (idBytes, m) := m.getIdBytes lib
    let id := if idBytes = [] then 0 else lib.string.computeSize 1 m.id
    let (contentBytes, m) := m.getContentBytes lib
    let content := if contentBytes = [] then 0 else lib.string.computeSize 2 m.content
    let size := id + content + lib.unknown.getSerializedSize m.unknownFields
    (size, { m with memoizedSize := size })

-- The bytes, and the message that has been written.
def Msg.toByteArray (m : Msg U) : Option (Bytes × Msg U) :=
  let (size, m) := m.getSerializedSize lib
  let (bytes, m) := m.writeTo lib
  (lib.toByteArray size bytes).map fun bytes => (bytes, m)

def Msg.parseFrom (bytes : Bytes) : Option (Msg U) := (Msg.format lib).parse bytes

end MessageProto

section GpsData

-- Of the doubles and floats only the bits are kept; these are the ones of both zeros.
def zeroDouble (x : BitVec 64) : Prop := x = 0 ∨ x = BitVec.intMin 64

def zeroFloat (x : BitVec 32) : Prop := x = 0 ∨ x = BitVec.intMin 32

instance (x : BitVec 64) : Decidable (zeroDouble x) := inferInstanceAs (Decidable (_ ∨ _))
instance (x : BitVec 32) : Decidable (zeroFloat x) := inferInstanceAs (Decidable (_ ∨ _))

-- All NaNs have the bits of one.
def doubleToLongBits (x : BitVec 64) : BitVec 64 :=
  if 0x7FF0000000000000 < x.toNat % 2 ^ 63 then 0x7FF8000000000000#64 else x

def floatToIntBits (x : BitVec 32) : BitVec 32 := if 0x7F800000 < x.toNat % 2 ^ 31 then 0x7FC00000#32 else x

-- `GpsData.gps_data`
structure GpsData (U : Type) where
  id : BitVec 64
  terminalId : Ref
  dataTime : Ref
  lon : BitVec 64
  lat : BitVec 64
  speed : BitVec 32
  altitude : BitVec 32
  locType : BitVec 32
  gpsStatus : BitVec 32
  direction : BitVec 32
  satellite : BitVec 32
  memoizedSize : BitVec 32
  unknownFields : U
deriving DecidableEq

def GpsData.new : GpsData U :=
  { id := 0
    terminalId := .string []
    dataTime := .string []
    lon := 0
    lat := 0
    speed := 0
    altitude := 0
    locType := 0
    gpsStatus := 0
    direction := 0
    satellite := 0
    memoizedSize := -1
    unknownFields := lib.unknown.empty }

def GpsData.format : Format (GpsData U) where
  initial := GpsData.new lib
  readTag := lib.readTag
  field
    | 8 => some (lib.int64.case fun x g => { g with id := x })
    | 18 => some (lib.string.case fun s g => { g with terminalId := .string s })
    | 26 => some (lib.string.case fun s g => { g with dataTime := .string s })
    | 33 => some (lib.double.case fun x g => { g with lon := x })
    | 41 => some (lib.double.case fun x g => { g with lat := x })
    | 53 => some (lib.float.case fun x g => { g with speed := x })
    | 56 => some (lib.int32.case fun x g => { g with altitude := x })
    | 64 => some (lib.int32.case fun x g => { g with locType := x })
    | 72 => some (lib.int32.case fun x g => { g with gpsStatus := x })
    | 85 => some (lib.float.case fun x g => { g with direction := x })
    | 88 => some (lib.int32.case fun x g => { g with satellite := x })
    | _ => none
  unknown tag g := do
    let unknownFields ← lib.unknown.mergeFieldFrom tag g.unknownFields
    pure (unknownFields.map fun u => { g with unknownFields := u })

def GpsData.getTerminalIdBytes (g : GpsData U) : Bytes × GpsData U :=
  let b := g.terminalId.getBytes lib
  (b, { g with terminalId := .bytes b })

def GpsData.getDataTimeBytes (g : GpsData U) : Bytes × GpsData U :=
  let b := g.dataTime.getBytes lib
  (b, { g with dataTime := .bytes b })

def GpsData.writeTo (g : GpsData U) : Bytes × GpsData U :=
  let id := if g.id = 0 then [] else lib.int64.write 1 g.id
  let (terminalIdBytes, g) := g.getTerminalIdBytes lib
  let terminalId := if terminalIdBytes = [] then [] else lib.string.write 2 g.terminalId
  let (dataTimeBytes, g) := g.getDataTimeBytes lib
  let dataTime := if dataTimeBytes = [] then [] else lib.string.write 3 g.dataTime
  let lon := if zeroDouble g.lon then [] else lib.double.write 4 g.lon
  let lat := if zeroDouble g.lat then [] else lib.double.write 5 g.lat
  let speed := if zeroFloat g.speed then [] else lib.float.write 6 g.speed
  let altitude := if g.altitude = 0 then [] else lib.int32.write 7 g.altitude
  let locType := if g.locType = 0 then [] else lib.int32.write 8 g.locType
  let gpsStatus := if g.gpsStatus = 0 then [] else lib.int32.write 9 g.gpsStatus
  let direction := if zeroFloat g.direction then [] else lib.float.write 10 g.direction
  let satellite := if g.satellite = 0 then [] else lib.int32.write 11 g.satellite
  (id ++ terminalId ++ dataTime ++ lon ++ lat ++ speed ++ altitude ++ locType ++ gpsStatus ++ direction ++ satellite ++
    lib.unknown.writeTo g.unknownFields, g)

def GpsData.getSerializedSize (g : GpsData U) : BitVec 32 × GpsData U :=
  let size := g.memoizedSize
  if size ≠ -1 then (size, g)
  else
    let id := if g.id = 0 then 0 else lib.int64.computeSize 1 g.id
    let (terminalIdBytes, g) := g.getTerminalIdBytes lib
    let terminalId := if terminalIdBytes = [] then 0 else lib.string.computeSize 2 g.terminalId
    let (dataTimeBytes, g) := g.getDataTimeBytes lib
    let dataTime := if dataTimeBytes = [] then 0 else lib.string.computeSize 3 g.dataTime
    let lon := if zeroDouble g.lon then 0 else lib.double.computeSize 4 g.lon
    let lat := if zeroDouble g.lat then 0 else lib.double.computeSize 5 g.lat
    let speed := if zeroFloat g.speed then 0 else lib.float.computeSize 6 g.speed
    let altitude := if g.altitude = 0 then 0 else lib.int32.computeSize 7 g.altitude
    let locType := if g.locType = 0 then 0 else lib.int32.computeSize 8 g.locType
    let gpsStatus := if g.gpsStatus = 0 then 0 else lib.int32.computeSize 9 g.gpsStatus
    let direction := if zeroFloat g.direction then 0 else lib.float.computeSize 10 g.direction
    let satellite := if g.satellite = 0 then 0 else lib.int32.computeSize 11 g.satellite
    let size := id + terminalId + dataTime + lon + lat + speed + altitude + locType + gpsStatus + direction +
      satellite + lib.unknown.getSerializedSize g.unknownFields
    (size, { g with memoizedSize := size })

def GpsData.toByteArray (g : GpsData U) : Option (Bytes × GpsData U) :=
  let (size, g) := g.getSerializedSize lib
  let (bytes, g) := g.writeTo lib
  (lib.toByteArray size bytes).map fun bytes => (bytes, g)

def GpsData.parseFrom (bytes : Bytes) : Option (GpsData U) := (GpsData.format lib).parse bytes

def GpsData.equals [DecidableEq U] (g other : GpsData U) : Bool :=
  g.id = other.id ∧ g.terminalId.getString lib = other.terminalId.getString lib ∧
    g.dataTime.getString lib = other.dataTime.getString lib ∧
    doubleToLongBits g.lon = doubleToLongBits other.lon ∧ doubleToLongBits g.lat = doubleToLongBits other.lat ∧
    floatToIntBits g.speed = floatToIntBits other.speed ∧ g.altitude = other.altitude ∧ g.locType = other.locType ∧
    g.gpsStatus = other.gpsStatus ∧ floatToIntBits g.direction = floatToIntBits other.direction ∧
    g.satellite = other.satellite ∧ g.unknownFields = other.unknownFields

end GpsData

section Netty

-- One side of a connection behind a ProtobufDecoder: what the handler has got, and whether an exception has
-- closed the channel.
structure Channel (M : Type) where
  received : List M
  closed : Bool
deriving DecidableEq

def Channel.start : Channel M := { received := [], closed := false }

-- Every buffer is read as one message.
def channelRead (fmt : Format M) (channel : Channel M) (buf : Bytes) : Channel M :=
  if channel.closed then channel
  else
    match fmt.parse buf with
    | some m => { channel with received := channel.received ++ [m] }
    | none => { channel with closed := true }

def channelReads (fmt : Format M) (bufs : List Bytes) : Channel M := bufs.foldl (channelRead fmt) Channel.start

def jstr (s : String) : JString := s.toList.map fun c => BitVec.ofNat 16 c.toNat

-- What ServerProtoHandler answers to any message.
def reply : Msg U := Msg.build lib (jstr "123") (jstr "this is a server msg.")

-- A ProtobufEncoder writes the bytes of a message, and no more.
def encode (m : Msg U) : Option Bytes := (m.toByteArray lib).map Prod.fst

-- What MyServer writes for the buffers that come in.
def serve (bufs : List Bytes) : Option (List Bytes) :=
  (channelReads (Msg.format lib) bufs).received.mapM fun _ => encode lib (reply lib)

end Netty

end RichardTest.Protobuf
