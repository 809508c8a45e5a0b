import RichardTest.TokenJava.Codecs
import Mathlib.Logic.Equiv.Basic

namespace RichardTest.TokenJava

section Split

variable {piece s f : JString} {x : JChar}

theorem separator_eq : separator = [0x7D#16, 0x7C#16, 0x7B#16] := by decide

theorem pieces_separator : pieces piece (separator ++ s) = piece :: pieces [] s := by
  rw [separator_eq, List.cons_append, List.cons_append, List.cons_append, List.nil_append, pieces,
    if_pos separator_eq.symm]

theorem pieces_skip (h : ¬ separator <+: x :: s) : pieces piece (x :: s) = pieces (piece ++ [x]) s := by
  match s with
  | [] => simp [pieces]
  | [y] => simp [pieces]
  | y :: z :: s =>
      rw [pieces, if_neg]
      intro heq
      rw [← heq] at h
      exact h ⟨s, rfl⟩

-- No occurrence of the separator begins before the separator that follows a piece.
theorem separator_not_first (hf : ¬ separator <:+: x :: f) : ¬ separator <+: x :: (f ++ (separator ++ s)) := by
  intro h
  rw [separator_eq] at h hf
  match f with
  | [] => simp [List.cons_prefix_cons] at h
  | [y] => simp [List.cons_prefix_cons] at h
  | y :: z :: f =>
      simp only [List.cons_append, List.cons_prefix_cons] at h
      obtain ⟨rfl, rfl, rfl, -⟩ := h
      exact hf ⟨[], f, rfl⟩

theorem not_infix_tail (hf : ¬ separator <:+: x :: f) : ¬ separator <:+: f :=
  fun h => hf (h.trans (List.suffix_cons x f).isInfix)

theorem pieces_append (hf : ¬ separator <:+: f) :
    pieces piece (f ++ (separator ++ s)) = (piece ++ f) :: pieces [] s := by
  induction f generalizing piece with
  | nil => rw [List.nil_append, List.append_nil, pieces_separator]
  | cons x f ih =>
      rw [List.cons_append, pieces_skip (separator_not_first hf), ih (not_infix_tail hf), List.append_assoc,
        List.singleton_append]

theorem pieces_last (hf : ¬ separator <:+: f) : pieces piece f = [piece ++ f] := by
  induction f generalizing piece with
  | nil => simp [pieces]
  | cons x f ih =>
      rw [pieces_skip fun h => hf h.isInfix, ih (not_infix_tail hf), List.append_assoc, List.singleton_append]

end Split

section Decimal

-- The unit of a decimal digit.
def digitUnit (d : Nat) : JChar := BitVec.ofNat 16 (Nat.digitChar d).toNat

theorem digit?_digitUnit {d : Nat} (h : d < 10) : digit? (digitUnit d) = some d := by
  revert d
  decide

theorem digitUnit_plain {d : Nat} (h : d < 10) :
    digitUnit d ≠ 0x2D#16 ∧ digitUnit d ≠ 0x2B#16 ∧ digitUnit d ≠ 0x7D#16 := by
  revert d
  decide

def digitUnits (n : Nat) : JString := (Nat.toDigits 10 n).map fun c => BitVec.ofNat 16 c.toNat

theorem digitUnits_of_lt {n : Nat} (h : n < 10) : digitUnits n = [digitUnit n] := by
  rw [digitUnits, Nat.toDigits_of_lt_base h]
  rfl

theorem digitUnits_of_ge {n : Nat} (h : 10 ≤ n) :
    digitUnits n = digitUnits (n / 10) ++ [digitUnit (n % 10)] := by
  have hsplit := Nat.toDigits_append_toDigits (b := 10) (n := n / 10) (d := n % 10) (by decide) (by omega)
    (Nat.mod_lt n (by decide))
  rw [Nat.div_add_mod] at hsplit
  rw [digitUnits, ← hsplit, List.map_append, Nat.toDigits_of_lt_base (Nat.mod_lt n (by decide))]
  rfl

-- By induction on the number without its last digit.
theorem mem_digitUnits {n : Nat} {c : JChar} (hc : c ∈ digitUnits n) : ∃ d < 10, c = digitUnit d := by
  induction n using Nat.strong_induction_on with
  | h n ih =>
      by_cases hn : n < 10
      · rw [digitUnits_of_lt hn, List.mem_singleton] at hc
        exact ⟨n, hn, hc⟩
      · rw [digitUnits_of_ge (by omega), List.mem_append, List.mem_singleton] at hc
        rcases hc with hc | hc
        · exact ih (n / 10) (by omega) hc
        · exact ⟨n % 10, Nat.mod_lt n (by decide), hc⟩

theorem digitUnits_ne_nil (n : Nat) : digitUnits n ≠ [] := by
  by_cases hn : n < 10
  · rw [digitUnits_of_lt hn]
    simp
  · rw [digitUnits_of_ge (by omega)]
    simp

theorem digitsValue_append (s : JString) (c : JChar) (v : Nat) :
    digitsValue (s ++ [c]) v = (digitsValue s v).bind fun w => (digit? c).map fun d => w * 10 + d := by
  induction s generalizing v with
  | nil =>
      rw [List.nil_append, digitsValue, digitsValue, Option.bind_some]
      cases digit? c <;> rfl
  | cons x s ih =>
      rw [List.cons_append, digitsValue, digitsValue]
      cases digit? x with
      | none => rfl
      | some d => exact ih (v * 10 + d)

theorem unsignedValue_digitUnits (n : Nat) : unsignedValue (digitUnits n) = some n := by
  rw [unsignedValue, if_neg (digitUnits_ne_nil n)]
  induction n using Nat.strong_induction_on with
  | h n ih =>
      by_cases hn : n < 10
      · rw [digitUnits_of_lt hn, digitsValue, digit?_digitUnit hn]
        simp [digitsValue]
      · rw [digitUnits_of_ge (by omega), digitsValue_append, ih (n / 10) (by omega), Option.bind_some,
          digit?_digitUnit (Nat.mod_lt n (by decide)), Option.map_some, Nat.div_add_mod']

theorem decimal_of_neg {x : Int} (h : x < 0) : decimal x = 0x2D#16 :: digitUnits x.natAbs := by
  rw [decimal, if_pos h]
  rfl

theorem decimal_of_nonneg {x : Int} (h : ¬ x < 0) : decimal x = digitUnits x.natAbs := by
  rw [decimal, if_neg h]
  rfl

theorem signedValue_decimal (x : Int) : signedValue (decimal x) = some x := by
  rw [signedValue]
  by_cases hx : x < 0
  · rw [decimal_of_neg hx, List.head?_cons, if_pos rfl, List.tail_cons, unsignedValue_digitUnits, Option.map_some]
    congr 1
    omega
  · rw [decimal_of_nonneg hx, if_neg, if_neg, unsignedValue_digitUnits, Option.map_some]
    · congr 1
      omega
    · intro hplus
      obtain ⟨d, hd, heq⟩ := mem_digitUnits (List.mem_of_mem_head? hplus)
      exact (digitUnit_plain hd).2.1 heq.symm
    · intro hminus
      obtain ⟨d, hd, heq⟩ := mem_digitUnits (List.mem_of_mem_head? hminus)
      exact (digitUnit_plain hd).1 heq.symm

theorem parseInt_decimal (h : JInt) : parseInt (decimal h.toInt) = some h := by
  have hlo := BitVec.le_toInt h
  have hhi := BitVec.toInt_lt (x := h)
  rw [parseInt, signedValue_decimal, Option.bind_eq_bind, Option.bind_some, if_pos (by omega),
    BitVec.ofInt_toInt]

theorem parseLong_decimal (t : JLong) : parseLong (decimal t.toInt) = some t := by
  have hlo := BitVec.le_toInt t
  have hhi := BitVec.toInt_lt (x := t)
  rw [parseLong, signedValue_decimal, Option.bind_eq_bind, Option.bind_some, if_pos (by omega),
    BitVec.ofInt_toInt]

theorem not_infix_of_notMem {s : JString} (h : 0x7D#16 ∉ s) : ¬ separator <:+: s := by
  intro hin
  exact h (hin.subset (by rw [separator_eq]; exact List.mem_cons_self))

theorem separator_not_infix_decimal (x : Int) : ¬ separator <:+: decimal x := by
  apply not_infix_of_notMem
  intro hmem
  have hunits : ∀ n, 0x7D#16 ∉ digitUnits n := fun n h => by
    obtain ⟨d, hd, heq⟩ := mem_digitUnits h
    exact (digitUnit_plain hd).2.2 heq.symm
  by_cases hx : x < 0
  · rw [decimal_of_neg hx, List.mem_cons] at hmem
    exact hmem.elim (by decide) (hunits _)
  · rw [decimal_of_nonneg hx] at hmem
    exact hunits _ hmem

end Decimal

section Fields

-- What fillingToken needs of a payload, and what it makes of it.
theorem fillingToken_eq_some_iff (env : Env) (s : JString) (t : Token) :
    fillingToken env s = some t ↔
      ∃ b0 b1 b2 b3 b4 b5 rest h time user, split s = b0 :: b1 :: b2 :: b3 :: b4 :: b5 :: rest ∧
        parseInt b0 = some h ∧ parseLong b4 = some time ∧ env.base64Decode b5 = some user ∧
        t = { tokenHash := h, tokenPrefix := some b1, deviceId := b2, appId := mapAppId b3,
              tokenTime := time, userId := env.newString user } := by
  constructor
  · intro hfill
    rw [fillingToken] at hfill
    simp only [Option.bind_eq_bind, Option.bind_eq_some_iff, Option.some.injEq] at hfill
    obtain ⟨b0, h0, h, hh, b1, h1, b2, h2, b3, h3, b4, h4, time, htime, b5, h5, user, huser, rfl⟩ := hfill
    match hsplit : split s with
    | c0 :: c1 :: c2 :: c3 :: c4 :: c5 :: rest =>
        rw [hsplit] at h0 h1 h2 h3 h4 h5
        cases h0
        cases h1
        cases h2
        cases h3
        cases h4
        cases h5
        exact ⟨_, _, _, _, _, _, rest, h, time, user, rfl, hh, htime, huser, rfl⟩
    | [] | [_] | [_, _] | [_, _, _] | [_, _, _, _] | [_, _, _, _, _] =>
        rw [hsplit] at h5
        cases h5
  · intro hfields
    obtain ⟨b0, b1, b2, b3, b4, b5, rest, h, time, user, hsplit, hh, htime, huser, rfl⟩ := hfields
    simp [fillingToken, hsplit, hh, htime, huser]

theorem split_eq {s f g : JString} {ps : List JString} (h : pieces [] s = f :: g :: ps) :
    split s = (f :: g :: ps).rdropWhile fun piece => piece = [] := by
  rw [split, h]

theorem exists_first_separator {s : JString} (h : separator <:+: s) :
    ∃ a b, s = a ++ (separator ++ b) ∧ ¬ separator <:+: a := by
  induction s with
  | nil =>
      rw [separator_eq] at h
      simp at h
  | cons x s ih =>
      by_cases hpre : separator <+: x :: s
      · obtain ⟨b, hb⟩ := hpre
        exact ⟨[], b, hb.symm, by rw [separator_eq]; simp⟩
      · obtain ⟨a, b, rfl, ha⟩ := ih ((List.infix_cons_iff.mp h).resolve_left hpre)
        refine ⟨x :: a, b, rfl, fun hin => ?_⟩
        rcases List.infix_cons_iff.mp hin with hxa | ha'
        · exact hpre (hxa.trans (List.prefix_append (x :: a) _))
        · exact ha ha'

end Fields

section RoundTrip

variable {env : Env} (hexact : env.Exact)

include hexact

theorem base64_char {b : Bytes} {c : JChar} (hc : c ∈ env.base64Encode b) : ¬ c ≤ 0x20#16 ∧ c ≠ 0x7D#16 := by
  have halphabet := hexact.base64_alphabet b c hc
  rw [Base64Char] at halphabet
  constructor
  · rw [BitVec.le_def, show (0x20#16).toNat = 0x20 from rfl]
    omega
  · intro h
    rw [h, show (0x7D#16).toNat = 0x7D from rfl] at halphabet
    omega

theorem base64_userId_ne_nil {userId : JString} (h : userId ≠ []) :
    env.base64Encode (env.getBytes userId) ≠ [] := by
  intro hnil
  have hbytes : env.getBytes userId = [] := by
    have hdecode := hexact.base64 (env.getBytes userId)
    rw [hnil, ← hexact.base64_nil, hexact.base64] at hdecode
    exact (Option.some.inj hdecode).symm
  apply h
  rw [← hexact.charset userId, hbytes, ← hexact.getBytes_nil, hexact.charset]

theorem trim_base64 (b : Bytes) : trim (env.base64Encode b) = env.base64Encode b := by
  have hno : ∀ c ∈ env.base64Encode b, ¬ decide (c ≤ 0x20#16) = true := fun c hc =>
    fun h => (base64_char hexact hc).1 (of_decide_eq_true h)
  rw [trim, List.dropWhile_eq_self_iff.mpr, List.rdropWhile_eq_self_iff]
  · intro hne
    exact hno _ (List.getLast_mem hne)
  · intro hlen
    exact hno _ (List.getElem_mem hlen)

omit hexact in
theorem toTokenString_ok {t t' : Token} {key : Bytes} {text : JString}
    (h : toTokenString env t key = .ok (text, t')) :
    ¬ separator <:+: t.deviceId ∧ t' = { t with tokenHash := hashCode (baseString env t) } ∧
      ∃ data, env.desEncrypt key (env.getBytes (payload env t)) = .ok data ∧ text = env.base64Encode data := by
  rw [toTokenString] at h
  split_ifs at h with hdev
  cases hdes : env.desEncrypt key (env.getBytes (payload env t)) with
  | error m =>
      rw [hdes] at h
      cases h
  | ok data =>
      rw [hdes] at h
      cases h
      exact ⟨hdev, rfl, data, rfl, rfl⟩

theorem decryptPayload_text {t t' : Token} {key : Bytes} {text : JString}
    (h : toTokenString env t key = .ok (text, t')) :
    decryptPayload env key (trim text) = some (payload env t) := by
  obtain ⟨-, -, data, hdes, rfl⟩ := toTokenString_ok h
  rw [trim_base64 hexact, decryptPayload, hexact.base64, Option.bind_eq_bind, Option.bind_some,
    hexact.des _ _ _ hdes]
  simp [Except.toOption, hexact.charset]

omit hexact in
variable (env) in
theorem pieces_payload {t : Token} (hdev : ¬ separator <:+: t.deviceId) :
    pieces [] (payload env t) = decimal (hashCode (baseString env t)).toInt :: jstr "f" :: t.deviceId ::
      pieces [] (t.appId ++ (separator ++ (decimal t.tokenTime.toInt ++ (separator ++
        env.base64Encode (env.getBytes t.userId))))) := by
  have hf : ¬ separator <:+: jstr "f" := not_infix_of_notMem (by decide)
  rw [payload, List.append_assoc, pieces_append (separator_not_infix_decimal _), List.nil_append]
  congr 1
  simp only [baseString, List.append_assoc]
  rw [pieces_append hf, pieces_append hdev, List.nil_append, List.nil_append]

theorem pieces_tail {t : Token} (happ : ¬ separator <:+: t.appId) :
    pieces [] (t.appId ++ (separator ++ (decimal t.tokenTime.toInt ++ (separator ++
      env.base64Encode (env.getBytes t.userId))))) =
      [t.appId, decimal t.tokenTime.toInt, env.base64Encode (env.getBytes t.userId)] := by
  have huser : ¬ separator <:+: env.base64Encode (env.getBytes t.userId) :=
    not_infix_of_notMem fun h => (base64_char hexact h).2 rfl
  rw [pieces_append happ, pieces_append (separator_not_infix_decimal _), pieces_last huser]
  simp only [List.nil_append]

-- The fields come back when each of them survives the split.
theorem fillingToken_payload {t : Token} (hdev : ¬ separator <:+: t.deviceId)
    (happ : ¬ separator <:+: t.appId) (huser : t.userId ≠ []) :
    fillingToken env (payload env t) = some { t with
      tokenHash := hashCode (baseString env t), tokenPrefix := some (jstr "f"), appId := mapAppId t.appId } := by
  have hsplit := split_eq (pieces_payload env hdev)
  rw [pieces_tail hexact happ, List.rdropWhile_eq_self_iff.mpr] at hsplit
  · rw [fillingToken_eq_some_iff]
    exact ⟨_, _, _, _, _, _, [], _, _, _, hsplit, parseInt_decimal _, parseLong_decimal _, hexact.base64 _,
      by rw [hexact.charset]⟩
  · intro _
    simpa using base64_userId_ne_nil hexact huser

-- Without a userId the last field is dropped by the split.
theorem fillingToken_no_userId {t : Token} (hdev : ¬ separator <:+: t.deviceId)
    (happ : ¬ separator <:+: t.appId) (huser : t.userId = []) : fillingToken env (payload env t) = none := by
  have hsplit := split_eq (pieces_payload env hdev)
  rw [pieces_tail hexact happ, huser, hexact.getBytes_nil, hexact.base64_nil] at hsplit
  have hlen : (split (payload env t)).length ≤ 5 := by
    have hdrop := List.rdropWhile_concat_pos (fun piece : JString => decide (piece = []))
      [decimal (hashCode (baseString env t)).toInt, jstr "f", t.deviceId, t.appId, decimal t.tokenTime.toInt]
      [] (by simp)
    rw [hsplit]
    exact (congrArg List.length hdrop).trans_le (List.rdropWhile_prefix _ _).length_le
  rw [Option.eq_none_iff_forall_ne_some]
  intro t' hfill
  obtain ⟨b0, b1, b2, b3, b4, b5, rest, -, -, -, heq, -⟩ := (fillingToken_eq_some_iff env _ t').mp hfill
  rw [heq] at hlen
  simp only [List.length_cons] at hlen
  omega

omit hexact in
theorem mapAppId_ne (a b : JString) : mapAppId a ≠ a ++ (separator ++ b) := by
  intro heq
  have hin : separator <:+: mapAppId a := by
    rw [heq]
    exact ⟨a, b, List.append_assoc a separator b⟩
  rw [mapAppId] at heq hin
  split_ifs at heq hin
  · exact absurd hin (by decide)
  · exact absurd hin (by decide)
  · have hlen := congrArg List.length heq
    rw [List.length_append, List.length_append, separator_eq] at hlen
    simp only [List.length_cons] at hlen
    omega

omit hexact in
-- With a separator in it the appId is cut.
theorem fillingToken_cut_appId {t t' : Token} (hdev : ¬ separator <:+: t.deviceId)
    (happ : separator <:+: t.appId) (h : fillingToken env (payload env t) = some t') : t'.appId ≠ t.appId := by
  obtain ⟨a, b, hsplit, ha⟩ := exists_first_separator happ
  obtain ⟨b0, b1, b2, b3, b4, b5, rest, hash, time, user, heq, -, -, -, rfl⟩ :=
    (fillingToken_eq_some_iff env _ t').mp h
  rw [split_eq (pieces_payload env hdev)] at heq
  have hpre := List.rdropWhile_prefix (fun piece : JString => decide (piece = []))
    (l := decimal (hashCode (baseString env t)).toInt :: jstr "f" :: t.deviceId ::
      pieces [] (t.appId ++ (separator ++ (decimal t.tokenTime.toInt ++ (separator ++
        env.base64Encode (env.getBytes t.userId))))))
  rw [heq, hsplit, List.append_assoc, List.append_assoc, pieces_append ha] at hpre
  simp only [List.cons_prefix_cons, List.nil_append] at hpre
  rw [hpre.2.2.2.1, hsplit]
  exact mapAppId_ne a b

end RoundTrip

theorem newToken_ok {env : Env} {appId userId deviceId : JString} {now : JLong} {t : Token}
    (h : newToken env appId userId deviceId now = .ok t) : t.appId = appId ∧ t.userId = userId := by
  rw [newToken] at h
  cases hhex : getHex8 env deviceId with
  | error m =>
      rw [hhex] at h
      cases h
  | ok d =>
      rw [hhex] at h
      cases h
      exact ⟨rfl, rfl⟩

theorem fromTokenString_of_payload {env : Env} {key : Bytes} {text s : JString}
    (h : decryptPayload env key (trim text) = some s) (t : Token) :
    fromTokenString env key text = .ok t ↔ fillingToken env s = some t ∧ t.tokenPrefix = some (jstr "f") := by
  rw [fromTokenString, h, fromPayload, Option.bind_some]
  cases fillingToken env s with
  | none => simp
  | some t' =>
      dsimp only
      split_ifs with hverify
      · rw [verifyTokenHash, decide_eq_true_eq] at hverify
        constructor
        · intro heq
          cases heq
          exact ⟨rfl, hverify⟩
        · intro heq
          cases heq.1
          rfl
      · constructor
        · intro heq
          cases heq
        · intro heq
          cases heq.1
          exact absurd (decide_eq_true heq.2) hverify

-- A token survives exactly when its appId holds no separator and its userId is not empty.
theorem token_round_trip_iff (env : Env) (hexact : env.Exact) (key : Bytes) (appId userId deviceId : JString)
    (now : JLong) (token token' : Token) (text : JString)
    (hnew : newToken env appId userId deviceId now = .ok token)
    (hmap : appId ≠ jstr "e5t4ouvpegsxa") (hmap' : appId ≠ jstr "mgb7ka1nmyp5g")
    (hto : toTokenString env token key = .ok (text, token')) :
    (∃ t, fromTokenString env key text = .ok t ∧ t.deviceId = token'.deviceId ∧ t.appId = token'.appId ∧
        t.tokenTime = token'.tokenTime ∧ t.userId = token'.userId ∧ t.tokenHash = token'.tokenHash) ↔
      ¬ separator <:+: appId ∧ userId ≠ [] := by
  obtain ⟨happ, huser⟩ := newToken_ok hnew
  obtain ⟨hdev, rfl, -⟩ := toTokenString_ok hto
  simp only [fromTokenString_of_payload (decryptPayload_text hexact hto)]
  rw [← happ] at hmap hmap' ⊢
  rw [← huser]
  constructor
  · intro h
    obtain ⟨t, ⟨hfill, -⟩, -, happ', -⟩ := h
    have hsep : ¬ separator <:+: token.appId := fun hsep => fillingToken_cut_appId hdev hsep hfill happ'
    refine ⟨hsep, fun hempty => ?_⟩
    rw [fillingToken_no_userId hexact hdev hsep hempty] at hfill
    cases hfill
  · intro h
    refine ⟨_, ⟨fillingToken_payload hexact hdev h.1 h.2, rfl⟩, rfl, ?_, rfl, rfl, rfl⟩
    rw [mapAppId, if_neg hmap, if_neg hmap']

-- The bytes of a number, the highest first.
def bigEndian : (count n : Nat) → Bytes
  | 0, _ => []
  | count + 1, n => bigEndian count (n / 256) ++ [BitVec.ofNat 8 n]

-- What DES makes of one text under the key `12345678`. The key and the device id do not enter.
def sampleEnv (text : JString) (count n : Nat) : Env :=
  codecs (fun _ => Equiv.swap (charsetBytes text) (bigEndian count n))
    (fun _ => Vector.replicate 16 0)

def samplePayload (fields : List String) : JString := separator.intercalate (fields.map jstr)

def sampleKey : Bytes := charsetBytes (jstr "12345678")

theorem token_round_trip_sample :
    ∃ t, fromTokenString
        (sampleEnv (samplePayload ["-1734379398", "f", "", "a", "0", "dQ=="]) 40
          0x2B6E7400062B50DB22AECD4ABF7F600100F328266D86E3B104424D6DC0C2B3E636CE9D1992E7CC2A)
        sampleKey (jstr "K250AAYrUNsirs1Kv39gAQDzKCZthuOxBEJNbcDCs+Y2zp0ZkufMKg==") = .ok t ∧
      t.deviceId = [] ∧ t.appId = jstr "a" ∧ t.tokenTime = 0#64 ∧ t.userId = jstr "u" ∧
      t.tokenHash = BitVec.ofInt 32 (-1734379398) :=
  (token_round_trip_iff _ (codecs_exact _ _) sampleKey (jstr "a") (jstr "u") [] 0#64
    { deviceId := [], appId := jstr "a", tokenTime := 0#64, userId := jstr "u" }
    { tokenHash := BitVec.ofInt 32 (-1734379398), deviceId := [], appId := jstr "a", tokenTime := 0#64,
      userId := jstr "u" } _ rfl (by decide) (by decide) (by decide)).mpr
    ⟨by decide, by decide⟩

-- An empty userId: the text is not accepted again.
theorem token_lost_empty_userId :
    ¬ ∀ (env : Env), env.Exact → ∀ (key : Bytes) (appId userId deviceId : JString) (now : JLong)
      (token token' : Token) (text : JString), newToken env appId userId deviceId now = .ok token →
      appId ≠ jstr "e5t4ouvpegsxa" → appId ≠ jstr "mgb7ka1nmyp5g" →
      toTokenString env token key = .ok (text, token') →
      ∃ t, fromTokenString env key text = .ok t ∧ t.deviceId = token'.deviceId ∧ t.appId = token'.appId ∧
        t.tokenTime = token'.tokenTime ∧ t.userId = token'.userId ∧ t.tokenHash = token'.tokenHash := by
  intro h
  obtain ⟨t, ht, -⟩ := h
    (sampleEnv (samplePayload ["-1612994003", "f", "", "a", "0", ""]) 32
      0xCEBBB9D5813A58726998C7BD860EB2F100F328266D86E3B17FA5513E26F8ACF7)
    (codecs_exact _ _) sampleKey (jstr "a") [] [] 0#64
    { deviceId := [], appId := jstr "a", tokenTime := 0#64, userId := [] }
    { tokenHash := BitVec.ofInt 32 (-1612994003), deviceId := [], appId := jstr "a", tokenTime := 0#64,
      userId := [] }
    (jstr "zru51YE6WHJpmMe9hg6y8QDzKCZthuOxf6VRPib4rPc=") rfl (by decide) (by decide) (by decide)
  have hrun : (fromTokenString
      (sampleEnv (samplePayload ["-1612994003", "f", "", "a", "0", ""]) 32
        0xCEBBB9D5813A58726998C7BD860EB2F100F328266D86E3B17FA5513E26F8ACF7)
      sampleKey (jstr "zru51YE6WHJpmMe9hg6y8QDzKCZthuOxf6VRPib4rPc=")).isOk = false := by decide +kernel
  rw [ht] at hrun
  cases hrun

section Integrity

-- The text in front of the first separator and the text behind it.
def cut : (piece s : JString) → Option (JString × JString)
  | piece, c₁ :: c₂ :: c₃ :: s =>
      if [c₁, c₂, c₃] = separator then some (piece, s) else cut (piece ++ [c₁]) (c₂ :: c₃ :: s)
  | _, _ => none

-- The hash field holds what toTokenString puts there.
def hashMatches (payload : JString) : Bool :=
  match cut [] payload with
  | some (first, rest) => parseInt first = some (hashCode rest)
  | none => false

-- The payload has six fields, of the types and the prefix that fromTokenString looks for.
def WellFormed (env : Env) (payload : JString) : Prop :=
  ∃ b0 b1 b2 b3 b4 b5 rest, split payload = b0 :: b1 :: b2 :: b3 :: b4 :: b5 :: rest ∧
    (parseInt b0).isSome ∧ b1 = jstr "f" ∧ (parseLong b4).isSome ∧ (env.base64Decode b5).isSome

theorem fromTokenString_ok_iff {env : Env} {key : Bytes} {text payload : JString}
    (h : decryptPayload env key (trim text) = some payload) :
    (∃ t, fromTokenString env key text = .ok t) ↔ WellFormed env payload := by
  simp only [fromTokenString_of_payload h, fillingToken_eq_some_iff]
  constructor
  · intro hok
    obtain ⟨t, ⟨b0, b1, b2, b3, b4, b5, rest, hash, time, user, hsplit, hh, htime, huser, rfl⟩, hf⟩ := hok
    exact ⟨b0, b1, b2, b3, b4, b5, rest, hsplit, by rw [hh]; rfl, Option.some.inj hf, by rw [htime]; rfl,
      by rw [huser]; rfl⟩
  · intro hwf
    obtain ⟨b0, b1, b2, b3, b4, b5, rest, hsplit, hh, rfl, htime, huser⟩ := hwf
    obtain ⟨hash, hh⟩ := Option.isSome_iff_exists.mp hh
    obtain ⟨time, htime⟩ := Option.isSome_iff_exists.mp htime
    obtain ⟨user, huser⟩ := Option.isSome_iff_exists.mp huser
    exact ⟨_, ⟨b0, _, b2, b3, b4, b5, rest, hash, time, user, hsplit, hh, htime, huser, rfl⟩, rfl⟩

-- A payload is held to its hash exactly when it is malformed anyway, or its hash happens to match.
theorem token_integrity_iff (env : Env) (key : Bytes) (text payload : JString)
    (h : decryptPayload env key (trim text) = some payload) :
    (∀ t, fromTokenString env key text = .ok t → hashMatches payload) ↔
      ¬ WellFormed env payload ∨ hashMatches payload := by
  rw [← fromTokenString_ok_iff h]
  constructor
  · intro hclaim
    by_cases hok : ∃ t, fromTokenString env key text = .ok t
    · obtain ⟨t, ht⟩ := hok
      exact .inr (hclaim t ht)
    · exact .inl hok
  · intro hcond t ht
    exact hcond.resolve_left fun hnone => hnone ⟨t, ht⟩

-- A payload that is a token, and whose hash is right.
theorem token_integrity_sample :
    hashMatches (samplePayload ["-1734379398", "f", "", "a", "0", "dQ=="]) = true ∧
      ∀ t, fromTokenString
          (sampleEnv (samplePayload ["-1734379398", "f", "", "a", "0", "dQ=="]) 40
            0x2B6E7400062B50DB22AECD4ABF7F600100F328266D86E3B104424D6DC0C2B3E636CE9D1992E7CC2A)
          sampleKey (jstr "K250AAYrUNsirs1Kv39gAQDzKCZthuOxBEJNbcDCs+Y2zp0ZkufMKg==") = .ok t →
        hashMatches (samplePayload ["-1734379398", "f", "", "a", "0", "dQ=="]) :=
  have hmatch : hashMatches (samplePayload ["-1734379398", "f", "", "a", "0", "dQ=="]) = true := by decide
  ⟨hmatch, (token_integrity_iff _ sampleKey _ _ (by decide +kernel)).mpr (.inr hmatch)⟩

-- The same payload with the hash field 0 is taken as well.
theorem token_integrity_forged :
    ¬ ∀ (env : Env) (key : Bytes) (text payload : JString),
      decryptPayload env key (trim text) = some payload →
      ∀ t, fromTokenString env key text = .ok t → hashMatches payload := by
  intro h
  have hforged := h
    (sampleEnv (samplePayload ["0", "f", "", "a", "0", "dQ=="]) 24 0x369E462754FA74F368300702C1360C401635928CAC2BB58B)
    sampleKey (jstr "Np5GJ1T6dPNoMAcCwTYMQBY1koysK7WL") (samplePayload ["0", "f", "", "a", "0", "dQ=="])
    (by decide)
    { tokenHash := 0#32, tokenPrefix := some (jstr "f"), deviceId := [], appId := jstr "a", tokenTime := 0#64,
      userId := jstr "u" }
    (by decide)
  exact absurd hforged (by decide)

end Integrity

end RichardTest.TokenJava
