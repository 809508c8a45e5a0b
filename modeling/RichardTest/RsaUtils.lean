import RichardTest.Utf8

namespace RichardTest.RsaUtils

abbrev JString := List (BitVec 16)
abbrev Bytes := List (BitVec 8)

-- Base64 of commons-codec or of java.util. `none` stands for an exception here and below.
structure Base64 where
  encode : Bytes → JString
  decode : Bytes → Option Bytes
  decodeString : JString → Option Bytes

-- `ArrayUtils` of commons-lang3.
structure ArrayUtils where
  subarray : (array : Bytes) → (startIndexInclusive endIndexExclusive : Nat) → Bytes
  addAll : Bytes → Bytes → Bytes

-- The provider of "RSA/ECB/PKCS1Padding". `Random` is the state of the generator that pads and blinds.
structure Jce (PublicKey PrivateKey Random : Type) where
  generatePublic : Bytes → Option PublicKey
  generatePrivate : Bytes → Option PrivateKey
  encryptFinal : PublicKey → Random → Bytes → Option (Bytes × Random)
  decryptFinal : PrivateKey → Random → Bytes → Option (Bytes × Random)

structure Libraries (PublicKey PrivateKey Random : Type) where
  commonsCodec : Base64
  javaUtil : Base64
  arrayUtils : ArrayUtils
  jce : Jce PublicKey PrivateKey Random

-- `for (int i = 0; i < data.length; i += step)` around `cipher.doFinal`.
def doFinalLoop {Random : Type} (arrayUtils : ArrayUtils) (doFinal : Random → Bytes → Option (Bytes × Random))
    (step : Nat) (hstep : 0 < step) (data : Bytes) (i : Nat) (dataReturn : Bytes) (random : Random) :
    Option (Bytes × Random) :=
  if i < data.length then do
    let (block, random) ← doFinal random (arrayUtils.subarray data i (i + step))
    doFinalLoop arrayUtils doFinal step hstep data (i + step) (arrayUtils.addAll dataReturn block) random
  else some (dataReturn, random)
termination_by data.length - i

variable {PublicKey PrivateKey Random : Type}

section

variable (base64 : Base64) (arrayUtils : ArrayUtils) (jce : Jce PublicKey PrivateKey Random)

-- The two classes differ in the Base64 they use. The default charset, of `new String(dataReturn)`, is UTF-8.
def encryptWith (random : Random) (str publicKey : JString) : Option JString := do
  let decoded ← base64.decodeString publicKey
  let pubKey ← jce.generatePublic decoded
  let data := Utf8.encode str
  let (dataReturn, _) ← doFinalLoop arrayUtils (jce.encryptFinal pubKey) 100 (by decide) data 0 [] random
  some (base64.encode dataReturn)

def decryptWith (random : Random) (str privateKey : JString) : Option JString := do
  let data ← base64.decode (Utf8.encode str)
  let decoded ← base64.decodeString privateKey
  let priKey ← jce.generatePrivate decoded
  let (dataReturn, _) ← doFinalLoop arrayUtils (jce.decryptFinal priKey) 128 (by decide) data 0 [] random
  some (Utf8.decode dataReturn)

end

variable (libraries : Libraries PublicKey PrivateKey Random)

namespace RSAUtils

def encrypt (random : Random) (str publicKey : JString) : Option JString :=
  encryptWith libraries.commonsCodec libraries.arrayUtils libraries.jce random str publicKey

def decrypt (random : Random) (str privateKey : JString) : Option JString :=
  decryptWith libraries.commonsCodec libraries.arrayUtils libraries.jce random str privateKey

end RSAUtils

namespace RSAUtl

def encrypt (random : Random) (str pubKy : JString) : Option JString :=
  encryptWith libraries.javaUtil libraries.arrayUtils libraries.jce random str pubKy

def decrypt (random : Random) (str priKy : JString) : Option JString :=
  decryptWith libraries.javaUtil libraries.arrayUtils libraries.jce random str priKy

end RSAUtl

section Assumptions

-- The text of some bytes, which goes through UTF-8 on its way back, gives these bytes.
def Base64.Exact (base64 : Base64) : Prop := ∀ data, base64.decode (Utf8.encode (base64.encode data)) = some data

-- An end behind the array is the array's end.
structure ArrayUtils.Documented (arrayUtils : ArrayUtils) : Prop where
  subarray_eq : ∀ array i j, arrayUtils.subarray array i j = (array.take j).drop i
  addAll_eq : ∀ array1 array2, arrayUtils.addAll array1 array2 = array1 ++ array2

-- Each block of at most 100 bytes becomes 128 bytes that decrypt to it, whatever was drawn before.
def Jce.Inverts (jce : Jce PublicKey PrivateKey Random) (pubKey : PublicKey) (priKey : PrivateKey) : Prop :=
  ∀ (random : Random) (block : Bytes), block.length ≤ 100 →
    ∃ cipher after, jce.encryptFinal pubKey random block = some (cipher, after) ∧ cipher.length = 128 ∧
      ∀ random', ∃ after', jce.decryptFinal priKey random' cipher = some (block, after')

-- The two texts hold the keys of a pair.
structure KeyPair (base64 : Base64) (jce : Jce PublicKey PrivateKey Random) (publicKey privateKey : JString) where
  publicBytes : Bytes
  privateBytes : Bytes
  pubKey : PublicKey
  priKey : PrivateKey
  decode_public : base64.decodeString publicKey = some publicBytes
  decode_private : base64.decodeString privateKey = some privateBytes
  generate_public : jce.generatePublic publicBytes = some pubKey
  generate_private : jce.generatePrivate privateBytes = some priKey
  inverts : jce.Inverts pubKey priKey

end Assumptions

end RichardTest.RsaUtils
