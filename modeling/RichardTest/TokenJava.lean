import RichardTest.Utf8
import Mathlib.Data.List.DropRight
import Mathlib.Data.List.Infix
import Mathlib.Algebra.Ring.Int.Defs

namespace RichardTest.TokenJava

-- A Java string is a sequence of UTF-16 units.
abbrev JChar := BitVec 16
abbrev JString := List JChar
abbrev JInt := BitVec 32
abbrev JLong := BitVec 64
abbrev Bytes := List (BitVec 8)

-- A literal of characters below U+10000.
def jstr (s : String) : JString := s.toList.map fun c => BitVec.ofNat 16 c.toNat

def separator : JString := jstr "\x7d|\x7b"

def hashCode (s : JString) : JInt := s.foldl (fun h c => 31#32 * h + c.setWidth 32) 0#32

-- `Integer.toString`, `Long.toString` and `%d`.
def decimal (x : Int) : JString :=
  (if x < 0 then jstr "-" else []) ++ (Nat.toDigits 10 x.natAbs).map fun c => BitVec.ofNat 16 c.toNat

-- The zeros of the runs of decimal digits among the UTF-16 units.
def digitZeros : List Nat :=
  [0x0030, 0x0660, 0x06F0, 0x07C0, 0x0966, 0x09E6, 0x0A66, 0x0AE6, 0x0B66, 0x0BE6, 0x0C66, 0x0CE6, 0x0D66,
    0x0DE6, 0x0E50, 0x0ED0, 0x0F20, 0x1040, 0x1090, 0x17E0, 0x1810, 0x1946, 0x19D0, 0x1A80, 0x1A90, 0x1B50,
    0x1BB0, 0x1C40, 0x1C50, 0xA620, 0xA8D0, 0xA900, 0xA9D0, 0xA9F0, 0xAA50, 0xABF0, 0xFF10]

-- `Character.digit(c, 10)`.
def digit? (c : JChar) : Option Nat :=
  (digitZeros.find? fun z => z ≤ c.toNat ∧ c.toNat < z + 10).map fun z => c.toNat - z

def digitsValue : JString → Nat → Option Nat
  | [], v => some v
  | c :: s, v => do
      let d ← digit? c
      digitsValue s (v * 10 + d)

def unsignedValue (s : JString) : Option Nat := if s = [] then none else digitsValue s 0

def signedValue (s : JString) : Option Int :=
  if s.head? = some 0x2D#16 then (unsignedValue s.tail).map fun n : Nat => -(n : Int)
  else if s.head? = some 0x2B#16 then (unsignedValue s.tail).map fun n : Nat => (n : Int)
  else (unsignedValue s).map fun n : Nat => (n : Int)

-- `none` stands for a NumberFormatException.
def parseInt (s : JString) : Option JInt := do
  let x ← signedValue s
  if -2 ^ 31 ≤ x ∧ x < 2 ^ 31 then some (BitVec.ofInt 32 x) else none

def parseLong (s : JString) : Option JLong := do
  let x ← signedValue s
  if -2 ^ 63 ≤ x ∧ x < 2 ^ 63 then some (BitVec.ofInt 64 x) else none

-- The pieces between the matches of the separator, with `piece` already read.
def pieces : (piece s : JString) → List JString
  | piece, c₁ :: c₂ :: c₃ :: s =>
      if [c₁, c₂, c₃] = separator then piece :: pieces [] s else pieces (piece ++ [c₁]) (c₂ :: c₃ :: s)
  | piece, s => [piece ++ s]

-- `s.split("\\}\\|\\{")`. Empty pieces at the end are dropped, unless nothing matched.
def split (s : JString) : List JString :=
  match pieces [] s with
  | [piece] => [piece]
  | ps => ps.rdropWhile fun piece => piece = []

def trim (s : JString) : JString := (s.dropWhile (· ≤ 0x20#16)).rdropWhile (· ≤ 0x20#16)

-- The charset, Base64, DES and MD5, none of which is part of the program.
structure Env where
  getBytes : JString → Bytes
  newString : Bytes → JString
  base64Encode : Bytes → JString
  base64Decode : JString → Option Bytes
  desEncrypt : (key data : Bytes) → Except JString Bytes
  desDecrypt : (key data : Bytes) → Except JString Bytes
  md5 : Bytes → Vector (BitVec 8) 16

-- `A` to `Z`, `a` to `z`, `0` to `9`, `+`, `/` and `=`.
def Base64Char (c : JChar) : Prop :=
  (0x41 ≤ c.toNat ∧ c.toNat ≤ 0x5A) ∨ (0x61 ≤ c.toNat ∧ c.toNat ≤ 0x7A) ∨
    (0x30 ≤ c.toNat ∧ c.toNat ≤ 0x39) ∨ c.toNat = 0x2B ∨ c.toNat = 0x2F ∨ c.toNat = 0x3D
deriving Decidable

-- What the codecs promise: that they are inverses, and which characters Base64 uses.
structure Env.Exact (env : Env) : Prop where
  charset : ∀ s, env.newString (env.getBytes s) = s
  getBytes_nil : env.getBytes [] = []
  base64 : ∀ b, env.base64Decode (env.base64Encode b) = some b
  base64_nil : env.base64Encode [] = []
  base64_alphabet : ∀ b, ∀ c ∈ env.base64Encode b, Base64Char c
  des : ∀ key data cipher, env.desEncrypt key data = .ok cipher → env.desDecrypt key cipher = .ok data

structure Token where
  tokenHash : JInt := 0#32
  tokenPrefix : Option JString := none
  deviceId : JString
  appId : JString
  tokenTime : JLong
  userId : JString
deriving DecidableEq

variable (env : Env)

def hexDigit (n : Nat) : JChar := BitVec.ofNat 16 (if n < 10 then 0x30 + n else 0x57 + n)

-- `CodecNCrypto.byteToHexString`
def byteToHexString (bytes : Bytes) : JString :=
  bytes.flatMap fun b => [hexDigit (b.toNat / 16), hexDigit (b.toNat % 16)]

-- `CodecNCrypto.hexMD5`
def hexMD5 (value : JString) : JString := byteToHexString (env.md5 (Utf8.encode value)).toList

-- The 32 digits of the digest are enough for the substring.
def getHex8 (deviceId : JString) : Except JString JString :=
  if deviceId = [] then .ok []
  else if separator <:+: deviceId then .error (jstr "deviceId-" ++ deviceId ++ jstr " is invalid.")
  else
    let md532 := hexMD5 env deviceId
    .ok (jstr "RV1:" ++ (md532.drop 11).take 8)

-- The constructor, at the time `now`.
def newToken (appId userId deviceId : JString) (now : JLong) : Except JString Token := do
  let deviceId ← getHex8 env deviceId
  pure { deviceId := deviceId, appId := appId, tokenTime := now, userId := userId }

-- What the hash is taken of.
def baseString (t : Token) : JString :=
  jstr "f" ++ separator ++ t.deviceId ++ separator ++ t.appId ++ separator ++ decimal t.tokenTime.toInt ++
    separator ++ env.base64Encode (env.getBytes t.userId)

def payload (t : Token) : JString :=
  decimal (hashCode (baseString env t)).toInt ++ separator ++ baseString env t

-- The text, and the token with the hash that was set.
def toTokenString (t : Token) (secureKey : Bytes) : Except JString (JString × Token) :=
  if separator <:+: t.deviceId then .error (jstr "deviceId-" ++ t.deviceId ++ jstr " is invalid.")
  else do
    let data ← env.desEncrypt secureKey (env.getBytes (payload env t))
    pure (env.base64Encode data, { t with tokenHash := hashCode (baseString env t) })

def mapAppId (appId : JString) : JString :=
  if appId = jstr "e5t4ouvpegsxa" then jstr "mgb7ka1nmyp5q"
  else if appId = jstr "mgb7ka1nmyp5g" then jstr "82hegw5u8mb94"
  else appId

-- `none` stands for any exception.
def fillingToken (tokenString : JString) : Option Token := do
  let base := split tokenString
  let tokenHash ← parseInt (← base[0]?)
  let tokenPrefix ← base[1]?
  let deviceId ← base[2]?
  let appId ← base[3]?
  let tokenTime ← parseLong (← base[4]?)
  let userId ← env.base64Decode (← base[5]?)
  some { tokenHash := tokenHash, tokenPrefix := some tokenPrefix, deviceId := deviceId,
         appId := mapAppId appId, tokenTime := tokenTime, userId := env.newString userId }

def verifyTokenHash (t : Token) : Bool := t.tokenPrefix = some (jstr "f")

-- fromTokenString behind the decryption. A text that cannot be decrypted has no payload.
def fromPayload (tokenString : JString) (payload : Option JString) : Except JString Token :=
  match payload.bind (fillingToken env) with
  | none => .error (tokenString ++ jstr " Error!")
  | some token => if verifyTokenHash token then .ok token else .error (jstr "Miss match token hash!")

def decryptPayload (secureKey : Bytes) (text : JString) : Option JString := do
  let data ← env.base64Decode text
  let data ← (env.desDecrypt secureKey data).toOption
  some (env.newString data)

def fromTokenString (secureKey : Bytes) (tokenString : JString) : Except JString Token :=
  fromPayload env tokenString (decryptPayload env secureKey (trim tokenString))

def checkDeviceId (t : Token) (deviceId : JString) : Except JString Bool :=
  if t.deviceId = [] then .ok true
  else if ¬jstr "RV1:" <+: t.deviceId then .ok true
  else do
    let did ← getHex8 env deviceId
    pure (t.deviceId = did)

-- A token that is passed on as a text under one key after the other.
def hop (t : Token) (secureKey : Bytes) : Except JString Token := do
  let (tokenString, _) ← toTokenString env t secureKey
  fromTokenString env secureKey tokenString

def hops (t : Token) (secureKeys : List Bytes) : Except JString Token := secureKeys.foldlM (hop env) t

end RichardTest.TokenJava
