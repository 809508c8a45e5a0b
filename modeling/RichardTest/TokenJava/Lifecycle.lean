import RichardTest.TokenJava.Theorems

namespace RichardTest.TokenJava

section Pieces

-- No piece holds a separator, with what is already read of the first one taken into account.
theorem not_infix_of_mem_pieces {piece s p : JString} (h : ¬separator <:+: piece ++ s.take 2)
    (hp : p ∈ pieces piece s) : ¬separator <:+: p := by
  induction piece, s using pieces.induct with
  | case1 piece c₁ c₂ c₃ s hsep ih =>
      rw [pieces, if_pos hsep, List.mem_cons] at hp
      rcases hp with rfl | hp
      · exact fun hin => h (hin.trans (List.prefix_append _ _).isInfix)
      · refine ih (fun hin => ?_) hp
        have hlen := hin.length_le
        rw [separator_eq, List.nil_append, List.length_take] at hlen
        exact absurd (hlen.trans (min_le_left 2 _)) (by decide)
  | case2 piece c₁ c₂ c₃ s hsep ih =>
      rw [pieces, if_neg hsep] at hp
      refine ih (fun hin => ?_) hp
      rw [show piece ++ [c₁] ++ (c₂ :: c₃ :: s).take 2 = piece ++ [c₁, c₂] ++ [c₃] by simp,
        List.infix_concat_iff] at hin
      rcases hin with hsuffix | hin
      · have heq := (List.suffix_of_suffix_length_le hsuffix
          (show [c₁, c₂, c₃] <:+ piece ++ [c₁, c₂] ++ [c₃] from ⟨piece, by simp⟩)
          (by rw [separator_eq]; rfl)).eq_of_length (by rw [separator_eq]; rfl)
        exact hsep heq.symm
      · exact h hin
  | case3 piece s hshort =>
      have htake : s.take 2 = s := by
        rcases s with _ | ⟨c₁, _ | ⟨c₂, _ | ⟨c₃, s⟩⟩⟩
        · rfl
        · rfl
        · rfl
        · exact absurd rfl (hshort c₁ c₂ c₃ s)
      rw [pieces, List.mem_singleton] at hp
      · rwa [hp, ← htake]
      · exact hshort

theorem not_infix_of_mem_split {s p : JString} (hp : p ∈ split s) : ¬separator <:+: p := by
  have hall : ∀ p ∈ pieces [] s, ¬separator <:+: p := fun p hp =>
    not_infix_of_mem_pieces (fun hin => by
      have hlen := hin.length_le
      rw [separator_eq, List.nil_append, List.length_take] at hlen
      exact absurd (hlen.trans (min_le_left 2 _)) (by decide)) hp
  rw [split] at hp
  split at hp
  next piece hone => exact hall p (hone ▸ hp)
  next ps hps => exact hall p ((List.rdropWhile_prefix _ _).subset hp)

end Pieces

section AppIds

theorem mapAppId_mapAppId (appId : JString) : mapAppId (mapAppId appId) = mapAppId appId := by
  by_cases h : appId = jstr "e5t4ouvpegsxa"
  · subst h
    decide
  · by_cases h' : appId = jstr "mgb7ka1nmyp5g"
    · subst h'
      decide
    · have hsame : mapAppId appId = appId := by rw [mapAppId, if_neg h, if_neg h']
      rw [hsame, hsame]

theorem infix_mapAppId_iff (appId : JString) : separator <:+: mapAppId appId ↔ separator <:+: appId := by
  rw [mapAppId]
  split_ifs with h h'
  · rw [h]
    decide
  · rw [h']
    decide
  · rfl

end AppIds

section Hops

variable {env : Env} (hexact : env.Exact) {t t' token : Token} {key : Bytes} {keys : List Bytes}

include hexact

theorem hop_eq_ok (h : hop env t key = .ok t') :
    ¬separator <:+: t.deviceId ∧ fillingToken env (payload env t) = some t' := by
  rw [hop] at h
  cases hto : toTokenString env t key with
  | error m =>
      rw [hto] at h
      cases h
  | ok p =>
      rw [hto] at h
      exact ⟨(toTokenString_ok hto).1, ((fromTokenString_of_payload (decryptPayload_text hexact hto) t').mp h).1⟩

-- Whatever the fields hold, the deviceId arrives, and there is no separator in the appId that arrives.
theorem hop_fields (h : hop env t key = .ok t') : t'.deviceId = t.deviceId ∧ ¬separator <:+: t'.appId := by
  obtain ⟨hdev, hfill⟩ := hop_eq_ok hexact h
  obtain ⟨b0, b1, b2, b3, b4, b5, rest, hash, time, user, hsplit, -, -, -, rfl⟩ :=
    (fillingToken_eq_some_iff env _ t').mp hfill
  have happ := not_infix_of_mem_split (s := payload env t) (p := b3) (by rw [hsplit]; simp)
  have hpre := List.rdropWhile_prefix (fun piece : JString => decide (piece = [])) (l := decimal (hashCode
    (baseString env t)).toInt :: jstr "f" :: t.deviceId :: pieces [] (t.appId ++ (separator ++ (decimal
      t.tokenTime.toInt ++ (separator ++ env.base64Encode (env.getBytes t.userId))))))
  rw [← split_eq (pieces_payload env hdev), hsplit] at hpre
  simp only [List.cons_prefix_cons] at hpre
  exact ⟨hpre.2.2.1, fun hin => happ ((infix_mapAppId_iff b3).mp hin)⟩

theorem hop_ok (hdev : ¬separator <:+: t.deviceId) (happ : ¬separator <:+: t.appId) (huser : t.userId ≠ [])
    (haccepts : ∀ data, ∃ cipher, env.desEncrypt key data = .ok cipher) :
    hop env t key = .ok { t with
      tokenHash := hashCode (baseString env t), tokenPrefix := some (jstr "f"), appId := mapAppId t.appId } := by
  obtain ⟨cipher, hcipher⟩ := haccepts (env.getBytes (payload env t))
  have hto : toTokenString env t key =
      .ok (env.base64Encode cipher, { t with tokenHash := hashCode (baseString env t) }) := by
    rw [toTokenString, if_neg hdev, hcipher]
    rfl
  rw [hop, hto]
  exact (fromTokenString_of_payload (decryptPayload_text hexact hto) _).mpr
    ⟨fillingToken_payload hexact hdev happ huser, rfl⟩

omit hexact in
variable (env) in
theorem hops_singleton (t : Token) (key : Bytes) : hops env t [key] = hop env t key := by
  rw [hops, List.foldlM_cons]
  cases hop env t key with
  | error m => rfl
  | ok u => rfl

theorem hops_deviceId (h : hops env t keys = .ok t') : t'.deviceId = t.deviceId := by
  induction keys generalizing t with
  | nil =>
      cases h
      rfl
  | cons key keys ih =>
      rw [hops, List.foldlM_cons] at h
      cases hhop : hop env t key with
      | error m =>
          rw [hhop] at h
          cases h
      | ok u =>
          rw [hhop] at h
          exact (ih h).trans (hop_fields hexact hhop).1

theorem hops_appId (happ : ¬separator <:+: t.appId) (h : hops env t keys = .ok t') : ¬separator <:+: t'.appId := by
  induction keys generalizing t with
  | nil =>
      cases h
      exact happ
  | cons key keys ih =>
      rw [hops, List.foldlM_cons] at h
      cases hhop : hop env t key with
      | error m =>
          rw [hhop] at h
          cases h
      | ok u =>
          rw [hhop] at h
          exact ih (hop_fields hexact hhop).2 h

-- The fields that arrive, the appId mapped by the first hop.
def Carries (t t' : Token) : Prop :=
  t'.deviceId = t.deviceId ∧ t'.appId = mapAppId t.appId ∧ t'.tokenTime = t.tokenTime ∧ t'.userId = t.userId

theorem hops_carry (hdev : ¬separator <:+: t.deviceId) (happ : ¬separator <:+: t.appId) (huser : t.userId ≠ [])
    (haccepts : ∀ key ∈ keys, ∀ data, ∃ cipher, env.desEncrypt key data = .ok cipher) (hkeys : keys ≠ []) :
    ∃ t', hops env t keys = .ok t' ∧ Carries t t' := by
  induction keys generalizing t with
  | nil => exact absurd rfl hkeys
  | cons key keys ih =>
      obtain ⟨hkey, hrest⟩ := List.forall_mem_cons.mp haccepts
      have hhop := hop_ok hexact hdev happ huser hkey
      by_cases hlast : keys = []
      · subst hlast
        exact ⟨_, (hops_singleton env t key).trans hhop, rfl, rfl, rfl, rfl⟩
      · obtain ⟨t', hrun, hdevice, happId, htime, huserId⟩ := ih
          (t := { t with tokenHash := hashCode (baseString env t), tokenPrefix := some (jstr "f"),
                         appId := mapAppId t.appId })
          hdev (fun hin => happ ((infix_mapAppId_iff t.appId).mp hin)) huser hrest hlast
        refine ⟨t', ?_, hdevice, happId.trans (mapAppId_mapAppId t.appId), htime, huserId⟩
        rw [hops, List.foldlM_cons, hhop]
        exact hrun

-- A token survives any number of hops exactly when its appId holds no separator and its userId is not empty.
theorem hops_iff (hdev : ¬separator <:+: t.deviceId) (hkeys : keys ≠ [])
    (haccepts : ∀ key ∈ keys, ∀ data, ∃ cipher, env.desEncrypt key data = .ok cipher) :
    (∃ t', hops env t keys = .ok t' ∧ Carries t t') ↔ ¬separator <:+: t.appId ∧ t.userId ≠ [] := by
  refine ⟨?_, fun h => hops_carry hexact hdev h.1 h.2 haccepts hkeys⟩
  rintro ⟨t', h, -, happId, -⟩
  obtain ⟨key, keys, rfl⟩ := List.exists_cons_of_ne_nil hkeys
  rw [hops, List.foldlM_cons] at h
  cases hhop : hop env t key with
  | error m =>
      rw [hhop] at h
      cases h
  | ok u =>
      rw [hhop] at h
      have happ : ¬separator <:+: t.appId := by
        have harrived := hops_appId hexact (hop_fields hexact hhop).2 h
        rwa [happId, infix_mapAppId_iff] at harrived
      refine ⟨happ, fun huser => ?_⟩
      have hnone := (hop_eq_ok hexact hhop).2
      rw [fillingToken_no_userId hexact hdev happ huser] at hnone
      cases hnone

end Hops

section DeviceIds

variable {env : Env} {appId userId deviceId : JString} {now : JLong} {token : Token}

-- The eight digits that stand for a deviceId.
def slice (env : Env) (deviceId : JString) : JString := ((hexMD5 env deviceId).drop 11).take 8

theorem newToken_deviceId (h : newToken env appId userId deviceId now = .ok token) :
    token.appId = appId ∧ token.tokenTime = now ∧ token.userId = userId ∧
      token.deviceId = if deviceId = [] then [] else jstr "RV1:" ++ slice env deviceId := by
  rw [newToken, getHex8] at h
  split_ifs at h ⊢ with hnil hsep
  · cases h
    exact ⟨rfl, rfl, rfl, rfl⟩
  · cases h
  · cases h
    exact ⟨rfl, rfl, rfl, rfl⟩

theorem RV1_ne_nil (s : JString) : jstr "RV1:" ++ s ≠ [] := List.append_ne_nil_of_left_ne_nil (by decide) s

-- The answer for a token that was built from a deviceId.
theorem checkDeviceId_eq {t : Token} (h : t.deviceId = if deviceId = [] then [] else jstr "RV1:" ++ slice env deviceId)
    (d : JString) :
    checkDeviceId env t d =
      if deviceId = [] then .ok true
      else if d = [] then .ok false
      else if separator <:+: d then .error (jstr "deviceId-" ++ d ++ jstr " is invalid.")
      else .ok (slice env d = slice env deviceId) := by
  rw [checkDeviceId, h]
  by_cases hnil : deviceId = []
  · rw [if_pos hnil, if_pos rfl, if_pos hnil]
  · rw [if_neg hnil, if_neg (RV1_ne_nil _), if_neg (not_not_intro (List.prefix_append _ _)), if_neg hnil, getHex8]
    split_ifs with hd hsep
    · exact congrArg Except.ok (decide_eq_false (RV1_ne_nil _))
    · rfl
    · refine congrArg Except.ok (decide_eq_decide.mpr ?_)
      rw [List.append_cancel_left_eq, eq_comm]
      rfl

-- The digest is written without a `}`.
theorem notMem_byteToHexString (bytes : Bytes) : 0x7D#16 ∉ byteToHexString bytes := by
  have hdigit : ∀ n < 16, 0x7D#16 ≠ hexDigit n := by decide
  intro h
  obtain ⟨b, -, hb⟩ := List.mem_flatMap.mp h
  have hlt := b.isLt
  rcases List.mem_cons.mp hb with hhigh | hlow
  · exact hdigit (b.toNat / 16) (by omega) hhigh
  · exact hdigit (b.toNat % 16) (by omega) (List.mem_singleton.mp hlow)

-- A token of the constructor survives any number of hops exactly when its appId holds no separator and its userId is
-- not empty.
theorem newToken_hops_iff (hexact : env.Exact) (hnew : newToken env appId userId deviceId now = .ok token)
    {keys : List Bytes} (hkeys : keys ≠ [])
    (haccepts : ∀ key ∈ keys, ∀ data, ∃ cipher, env.desEncrypt key data = .ok cipher) :
    (∃ t, hops env token keys = .ok t ∧ t.deviceId = token.deviceId ∧ t.appId = mapAppId appId ∧ t.tokenTime = now ∧
        t.userId = userId) ↔ ¬separator <:+: appId ∧ userId ≠ [] := by
  obtain ⟨happ, htime, huser, hdev⟩ := newToken_deviceId hnew
  have hplain : 0x7D#16 ∉ token.deviceId := by
    rw [hdev]
    split_ifs with hnil
    · exact List.not_mem_nil
    · rw [List.mem_append, not_or]
      exact ⟨by decide, fun hmem => notMem_byteToHexString _ (List.mem_of_mem_drop (List.mem_of_mem_take hmem))⟩
  rw [← happ, ← htime, ← huser]
  exact hops_iff hexact (not_infix_of_notMem hplain) hkeys haccepts

-- The DES text of the token that is built for the device `d`, with the digest of that name.
def deviceEnv : Env :=
  codecs (fun _ => Equiv.swap (charsetBytes (samplePayload ["-1831889187", "f", "RV1:50195b44", "a", "0", "dQ=="]))
      (bigEndian 48 0xF462BDEEC159BFB7CE9B9B0A5169B7BA66E2899A20A63BB77F461A06FD8CCA5404BBC09A0D23516349D1E04CECA1EC6F))
    (fun _ => #v[0x82, 0x77, 0xE0, 0x91, 0x0D, 0x75, 0x01, 0x95, 0xB4, 0x48, 0x79, 0x76, 0x16, 0xE0, 0x91, 0xAD])

def deviceToken : Token :=
  { deviceId := jstr "RV1:50195b44", appId := jstr "a", tokenTime := 0#64, userId := jstr "u" }

theorem newToken_hops_device :
    ∃ t, hops deviceEnv deviceToken [sampleKey] = .ok t ∧ t.deviceId = deviceToken.deviceId ∧
      t.appId = mapAppId (jstr "a") ∧ t.tokenTime = 0#64 ∧ t.userId = jstr "u" :=
  (@newToken_hops_iff deviceEnv (jstr "a") (jstr "u") (jstr "d") 0#64 deviceToken (codecs_exact _ _)
    (by decide) [sampleKey] (List.cons_ne_nil _ _) fun _ _ _ => ⟨_, rfl⟩).mpr ⟨by decide, by decide⟩

theorem checkDeviceId_hops (hexact : env.Exact) (hnew : newToken env appId userId deviceId now = .ok token)
    {keys : List Bytes} {t : Token} (hrun : hops env token keys = .ok t) (d : JString) :
    checkDeviceId env t d =
      if deviceId = [] then .ok true
      else if d = [] then .ok false
      else if separator <:+: d then .error (jstr "deviceId-" ++ d ++ jstr " is invalid.")
      else .ok (slice env d = slice env deviceId) :=
  checkDeviceId_eq ((hops_deviceId hexact hrun).trans (newToken_deviceId hnew).2.2.2) d

theorem checkDeviceId_hops_device :
    checkDeviceId deviceEnv
      { deviceToken with tokenHash := BitVec.ofInt 32 (-1831889187), tokenPrefix := some (jstr "f") } (jstr "d") =
        .ok true :=
  (@checkDeviceId_hops deviceEnv (jstr "a") (jstr "u") (jstr "d") 0#64 deviceToken (codecs_exact _ _) (by decide)
    [sampleKey] _ (by decide +kernel) (jstr "d")).trans (by decide)

end DeviceIds

end RichardTest.TokenJava
