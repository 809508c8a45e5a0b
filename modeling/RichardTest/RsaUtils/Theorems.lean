import RichardTest.RsaUtils
import RichardTest.Base64

namespace RichardTest.RsaUtils

section Loops

variable {arrayUtils : ArrayUtils} (harrays : arrayUtils.Documented)

include harrays

theorem subarray_length_le (array : Bytes) (i step : Nat) : (arrayUtils.subarray array i (i + step)).length ≤ step := by
  rw [harrays.subarray_eq, List.length_drop, List.length_take]
  omega

theorem subarray_append_drop (array : Bytes) (i step : Nat) :
    arrayUtils.subarray array i (i + step) ++ array.drop (i + step) = array.drop i := by
  rw [harrays.subarray_eq, List.drop_take, Nat.add_sub_cancel_left, ← List.drop_drop, List.take_append_drop]

theorem subarray_middle (before block after : Bytes) :
    arrayUtils.subarray (before ++ (block ++ after)) before.length (before.length + block.length) = block := by
  rw [harrays.subarray_eq, List.drop_take, Nat.add_sub_cancel_left, List.drop_left, List.take_left]

variable {Random : Type} {encryptFinal decryptFinal : Random → Bytes → Option (Bytes × Random)} {k l : Nat}
  (hk : 0 < k) (hl : 0 < l)
  (hinverse : ∀ (random : Random) (block : Bytes), block.length ≤ k →
    ∃ cipher after, encryptFinal random block = some (cipher, after) ∧ cipher.length = l ∧
      ∀ random', ∃ after', decryptFinal random' cipher = some (block, after'))

include hinverse in
-- The loop over blocks of `l` bytes undoes the one over blocks of `k` bytes. Both go on from any place: the
-- first from `i`, the second from behind the bytes `before`.
theorem doFinalLoop_inverse (data : Bytes) (i : Nat) (dataReturn : Bytes) (random : Random) :
    ∃ out after, doFinalLoop arrayUtils encryptFinal k hk data i dataReturn random = some (dataReturn ++ out, after) ∧
      ∀ (before dataReturn' : Bytes) (random' : Random), ∃ after',
        doFinalLoop arrayUtils decryptFinal l hl (before ++ out) before.length dataReturn' random' =
          some (dataReturn' ++ data.drop i, after') := by
  -- by the number of bytes behind `i`
  induction hn : data.length - i using Nat.strong_induction_on generalizing i dataReturn random with
  | _ n ih =>
      by_cases hi : i < data.length
      · obtain ⟨cipher, after, hencrypt, hlength, hdecrypt⟩ :=
          hinverse random (arrayUtils.subarray data i (i + k)) (subarray_length_le harrays data i k)
        obtain ⟨out, after, hloop, hback⟩ :=
          ih (data.length - (i + k)) (by omega) (i + k) (dataReturn ++ cipher) after rfl
        refine ⟨cipher ++ out, after, ?_, ?_⟩
        · rw [doFinalLoop, if_pos hi, hencrypt, ← List.append_assoc, ← hloop, ← harrays.addAll_eq]
          rfl
        · intro before dataReturn' random'
          obtain ⟨after', hblock⟩ := hdecrypt random'
          obtain ⟨after'', hrest⟩ := hback (before ++ cipher) (dataReturn' ++ arrayUtils.subarray data i (i + k)) after'
          refine ⟨after'', ?_⟩
          -- the second loop stands where the block's `l` bytes begin, and takes just these
          have hinside : before.length < (before ++ (cipher ++ out)).length := by
            rw [List.length_append, List.length_append]
            omega
          have hmiddle := subarray_middle harrays before cipher out
          rw [hlength] at hmiddle
          rw [List.length_append, hlength, List.append_assoc, List.append_assoc, subarray_append_drop harrays] at hrest
          rw [doFinalLoop, if_pos hinside, hmiddle, hblock, ← hrest, ← harrays.addAll_eq dataReturn']
          rfl
      · refine ⟨[], random, ?_, fun before dataReturn' random' => ⟨random', ?_⟩⟩
        · rw [doFinalLoop, if_neg hi, List.append_nil]
        · rw [List.append_nil, doFinalLoop, if_neg (Nat.lt_irrefl _), List.drop_eq_nil_of_le (by omega),
            List.append_nil]

end Loops

section RoundTrip

variable {PublicKey PrivateKey Random : Type}

-- What comes back is the string as UTF-8 keeps it.
theorem decryptWith_encryptWith {base64 : Base64} {arrayUtils : ArrayUtils} {jce : Jce PublicKey PrivateKey Random}
    (hbase64 : base64.Exact) (harrays : arrayUtils.Documented) {publicKey privateKey : JString}
    (keys : KeyPair base64 jce publicKey privateKey) (str : JString) (random random' : Random) :
    ∃ text, encryptWith base64 arrayUtils jce random str publicKey = some text ∧
      decryptWith base64 arrayUtils jce random' text privateKey = some (Utf8.decode (Utf8.encode str)) := by
  obtain ⟨out, after, hencrypt, hdecrypt⟩ :=
    doFinalLoop_inverse harrays (by decide) (by decide) keys.inverts (Utf8.encode str) 0 [] random
  obtain ⟨after', hback⟩ := hdecrypt [] [] random'
  simp only [List.nil_append, List.length_nil, List.drop_zero] at hencrypt hback
  refine ⟨base64.encode out, ?_, ?_⟩
  · simp only [encryptWith, keys.decode_public, keys.generate_public, hencrypt, Option.bind_eq_bind,
      Option.bind_some]
  · simp only [decryptWith, hbase64 out, keys.decode_private, keys.generate_private, hback, Option.bind_eq_bind,
      Option.bind_some]

-- Both classes give every string back that has no surrogate without its partner, and no other.
theorem plaintext_restored_iff (libraries : Libraries PublicKey PrivateKey Random)
    (hcommons : libraries.commonsCodec.Exact) (hjava : libraries.javaUtil.Exact)
    (harrays : libraries.arrayUtils.Documented)
    {publicKey privateKey : JString}
    (commonsKeys : KeyPair libraries.commonsCodec libraries.jce publicKey privateKey)
    (javaKeys : KeyPair libraries.javaUtil libraries.jce publicKey privateKey) (str : JString)
    (random random' : Random) :
    (∃ text out, RSAUtils.encrypt libraries random str publicKey = some text ∧
      RSAUtils.decrypt libraries random' text privateKey = some out ∧ (out = str ↔ Utf8.paired str)) ∧
    (∃ text out, RSAUtl.encrypt libraries random str publicKey = some text ∧
      RSAUtl.decrypt libraries random' text privateKey = some out ∧ (out = str ↔ Utf8.paired str)) := by
  obtain ⟨text, hencrypt, hdecrypt⟩ := decryptWith_encryptWith hcommons harrays commonsKeys str random random'
  obtain ⟨text', hencrypt', hdecrypt'⟩ := decryptWith_encryptWith hjava harrays javaKeys str random random'
  exact ⟨⟨text, _, hencrypt, hdecrypt, Utf8.decode_encode_iff str⟩,
    ⟨text', _, hencrypt', hdecrypt', Utf8.decode_encode_iff str⟩⟩

end RoundTrip

section Padding

-- PKCS #1 around the identity instead of the power: 0, 2, bytes that are not 0, again 0, and the block.
def pad (block : Bytes) : Bytes := 0#8 :: 2#8 :: (List.replicate (125 - block.length) 0xFF#8 ++ 0#8 :: block)

def unpad (cipher : Bytes) : Bytes := ((cipher.drop 2).dropWhile (· ≠ 0#8)).tail

def paddingOnly : Jce Unit Unit Unit where
  generatePublic _ := some ()
  generatePrivate _ := some ()
  encryptFinal _ _ block := if block.length ≤ 117 then some (pad block, ()) else none
  decryptFinal _ _ cipher := if cipher.length = 128 then some (unpad cipher, ()) else none

def base64Text : Base64 where
  encode data := (RichardTest.Base64.encode data).map fun x => Utf8.word x.toNat
  decode bytes := RichardTest.Base64.decode (bytes.map fun b => Char.ofNat b.toNat)
  decodeString s := RichardTest.Base64.decode (s.map fun c => Char.ofNat c.toNat)

def listUtils : ArrayUtils where
  subarray array i j := (array.take j).drop i
  addAll := (· ++ ·)

theorem listUtils_documented : listUtils.Documented := ⟨fun _ _ _ => rfl, fun _ _ => rfl⟩

def paddingLibraries : Libraries Unit Unit Unit :=
  { commonsCodec := base64Text, javaUtil := base64Text, arrayUtils := listUtils, jce := paddingOnly }

theorem length_pad {block : Bytes} (h : block.length ≤ 117) : (pad block).length = 128 := by
  simp only [pad, List.length_cons, List.length_append, List.length_replicate]
  omega

theorem unpad_pad (block : Bytes) : unpad (pad block) = block := by
  have hfill : ∀ b ∈ List.replicate (125 - block.length) 0xFF#8, decide (b ≠ 0#8) = true := by
    intro b hb
    rw [List.eq_of_mem_replicate hb]
    rfl
  rw [unpad, pad, List.drop_succ_cons, List.drop_succ_cons, List.drop_zero, List.dropWhile_append_of_pos hfill]
  rfl

theorem paddingOnly_inverts : paddingOnly.Inverts () () := by
  intro random block hblock
  have hlength : (pad block).length = 128 := length_pad (by omega)
  refine ⟨pad block, (), if_pos (by omega), hlength, fun random' => ⟨(), ?_⟩⟩
  simp only [paddingOnly, hlength, if_true, unpad_pad]

theorem base64_ascii {x : Char} (h : x ∈ RichardTest.Base64.alphabet ∨ x = '=') : x.toNat < 0x80 := by
  have hall : (RichardTest.Base64.alphabet ++ ['=']).all fun x => decide (x.toNat < 0x80) := by decide
  have hmem : x ∈ RichardTest.Base64.alphabet ++ ['='] :=
    List.mem_append.mpr (h.imp_right List.mem_singleton.mpr)
  exact of_decide_eq_true (List.all_eq_true.mp hall x hmem)

theorem base64Text_exact : base64Text.Exact := by
  intro data
  have hascii : ∀ x ∈ RichardTest.Base64.encode data, x.toNat < 0x80 :=
    fun x hx => base64_ascii (RichardTest.Base64.mem_encode hx)
  have hword : ∀ x ∈ RichardTest.Base64.encode data, (Utf8.word x.toNat).toNat = x.toNat := by
    intro x hx
    have := hascii x hx
    exact Utf8.word_toNat (by omega)
  have hchars : (RichardTest.Base64.encode data).map
      (fun x => Char.ofNat (Utf8.byte (Utf8.word x.toNat).toNat).toNat) = RichardTest.Base64.encode data := by
    refine Eq.trans (List.map_congr_left fun x hx => ?_) (List.map_id _)
    have := hascii x hx
    rw [hword x hx, Utf8.byte_toNat (by omega), Char.ofNat_toNat]
    rfl
  have hbytes : Utf8.encode (base64Text.encode data) =
      (base64Text.encode data).map fun c => Utf8.byte c.toNat := by
    apply Utf8.encode_ascii
    rw [base64Text, List.forall_mem_map]
    intro x hx
    rw [hword x hx]
    exact hascii x hx
  rw [hbytes]
  simp only [base64Text, List.map_map]
  exact (congrArg RichardTest.Base64.decode hchars).trans (RichardTest.Base64.decode_encode data)

-- A text that Base64 takes for a key.
def keyText : JString := base64Text.encode [1#8, 0#8, 1#8]

def paddingKeys : KeyPair base64Text paddingOnly keyText keyText where
  publicBytes := [1#8, 0#8, 1#8]
  privateBytes := [1#8, 0#8, 1#8]
  pubKey := ()
  priKey := ()
  decode_public := by decide
  decode_private := by decide
  generate_public := rfl
  generate_private := rfl
  inverts := paddingOnly_inverts

-- A character of three bytes across the border of two blocks.
theorem plaintext_restored_across_blocks :
    ∃ text,
      RSAUtils.encrypt paddingLibraries () (List.replicate 99 0x61#16 ++ [0x597D#16]) keyText = some text ∧
      RSAUtils.decrypt paddingLibraries () text keyText = some (List.replicate 99 0x61#16 ++ [0x597D#16]) := by
  obtain ⟨⟨text, out, hencrypt, hdecrypt, hout⟩, -⟩ := plaintext_restored_iff paddingLibraries base64Text_exact
    base64Text_exact listUtils_documented paddingKeys paddingKeys (List.replicate 99 0x61#16 ++ [0x597D#16]) () ()
  rw [hout.mpr (by decide +kernel)] at hdecrypt
  exact ⟨text, hencrypt, hdecrypt⟩

-- A surrogate on its own comes back as a question mark.
theorem lone_surrogate_not_restored :
    base64Text.Exact ∧ listUtils.Documented ∧ paddingOnly.Inverts () () ∧
      ¬∃ text, RSAUtils.encrypt paddingLibraries () [0xD800#16] keyText = some text ∧
        RSAUtils.decrypt paddingLibraries () text keyText = some [0xD800#16] := by
  refine ⟨base64Text_exact, listUtils_documented, paddingOnly_inverts, ?_⟩
  rintro ⟨text, hencrypt, hdecrypt⟩
  obtain ⟨text', hencrypt', hdecrypt'⟩ :=
    decryptWith_encryptWith base64Text_exact listUtils_documented paddingKeys [0xD800#16] () ()
  obtain rfl : text = text' := Option.some.inj (hencrypt.symm.trans hencrypt')
  exact absurd (hdecrypt.symm.trans hdecrypt') (by decide)

end Padding

end RichardTest.RsaUtils
