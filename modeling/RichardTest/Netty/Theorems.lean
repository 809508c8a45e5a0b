import RichardTest.ByteBufToBytes
import RichardTest.Netty

namespace RichardTest.Netty

section Frames

theorem append_bigEndian (value : JInt) :
    (value >>> 24).setWidth 8 ++ (value >>> 16).setWidth 8 ++ (value >>> 8).setWidth 8 ++ value.setWidth 8 =
      value := by
  apply BitVec.eq_of_getLsbD_eq
  intro i hi
  simp only [BitVec.getLsbD_append, BitVec.getLsbD_setWidth, BitVec.getLsbD_ushiftRight]
  split_ifs with h1 h2 h3
  · simp [h1]
  · simp [show i - 8 < 8 by omega, show 8 + (i - 8) = i by omega]
  · simp [show i - 8 - 8 < 8 by omega, show 16 + (i - 8 - 8) = i by omega]
  · simp [show i - 8 - 8 - 8 < 8 by omega, show 24 + (i - 8 - 8 - 8) = i by omega]

theorem bigEndian_injective : Function.Injective bigEndian := by
  intro v w h
  simp only [bigEndian, List.cons.injEq, and_true] at h
  obtain ⟨h1, h2, h3, h4⟩ := h
  rw [← append_bigEndian v, ← append_bigEndian w, h1, h2, h3, h4]

theorem bigEndian_append (a b c d : BitVec 8) : bigEndian (a ++ b ++ c ++ d) = [a, b, c, d] := by
  have h8 (i : Nat) : ¬8 + i < 8 := by omega
  have h16 (i : Nat) : ¬16 + i < 8 ∧ 16 + i - 8 = 8 + i := by omega
  have h24 (i : Nat) : ¬24 + i < 8 ∧ 24 + i - 8 = 16 + i := by omega
  simp only [bigEndian, List.cons.injEq, and_true]
  refine ⟨?_, ?_, ?_, ?_⟩ <;> apply BitVec.eq_of_getLsbD_eq <;> intro i hi <;>
    simp only [BitVec.getLsbD_setWidth, BitVec.getLsbD_ushiftRight, BitVec.getLsbD_append, hi, h8, h16, h24,
      Nat.add_sub_cancel_left, if_true, if_false, decide_true, Bool.true_and]

theorem exists_bigEndian {bytes : Bytes} (h : 4 ≤ bytes.length) :
    ∃ value rest, bytes = bigEndian value ++ rest := by
  match bytes, h with
  | a :: b :: c :: d :: rest, _ => exact ⟨a ++ b ++ c ++ d, rest, by rw [bigEndian_append]; rfl⟩

-- What a buffer has to hold for decode: a header of 44 bytes, and anything behind it.
structure Frame where
  version : JInt
  contentLength : JInt
  session : Bytes
  content : Bytes
  session_length : session.length = 36

variable (charset : Charset)

namespace Frame

def bytes (f : Frame) : Bytes := bigEndian f.version ++ (bigEndian f.contentLength ++ (f.session ++ f.content))

def msg (f : Frame) : MyMsg :=
  { msgHeader :=
      { version := f.version
        contentLength := f.contentLength
        sessionId := charset.newString f.session }
    content := charset.newString f.content }

theorem length_bytes (f : Frame) : f.bytes.length = 44 + f.content.length := by
  simp only [bytes, bigEndian, List.length_append, List.length_cons, List.length_nil, f.session_length]
  omega

end Frame

variable {charset}
variable {Buf : Type} {netty : ByteBufs Buf} {live : Buf → Prop} {content : Buf → Bytes}

variable (charset) in
theorem decode_frame (doc : Documented netty live content) (harray : OwnArray netty live content) {input : Buf}
    (hlive : live input) {f : Frame} (hinput : content input = f.bytes) :
    ∃ rest, decode netty charset input = .ok ([f.msg charset], rest) ∧ live rest ∧ content rest = [] := by
  obtain ⟨b₁, hversion, hlive₁, h₁⟩ := doc.readInt input f.version _ hlive hinput
  obtain ⟨b₂, hlength, hlive₂, h₂⟩ := doc.readInt b₁ f.contentLength _ hlive₁ h₁
  have h36 : 36 ≤ (content b₂).length := by
    rw [h₂, List.length_append, f.session_length]
    exact Nat.le_add_right 36 _
  obtain ⟨b₃, hsession, hlive₃, h₃⟩ := doc.readBytesTo b₂ 36 hlive₂ h36
  rw [h₂, ← f.session_length, List.take_left] at hsession
  rw [h₂, ← f.session_length, List.drop_left] at h₃
  obtain ⟨fresh, rest, hcontent, hfresh, hrest, hempty⟩ :=
    doc.readBytes b₃ (content b₃).length hlive₃ (Nat.le_refl _)
  rw [List.take_length, h₃] at hfresh
  rw [List.drop_length] at hempty
  have hown := harray b₃ _ fresh rest hlive₃ hcontent
  rw [hfresh] at hown
  rw [f.session_length] at hsession
  refine ⟨rest, ?_, hrest, hempty⟩
  simp only [decode, hversion, hlength, hsession, doc.readable b₃ hlive₃, hcontent, hown, bind, Except.bind, pure,
    Except.pure]
  rfl

-- decode fails on anything else.
theorem exists_frame (doc : Documented netty live content) {input rest : Buf} (hlive : live input)
    {msgs : List MyMsg} (h : decode netty charset input = .ok (msgs, rest)) :
    ∃ f : Frame, content input = f.bytes := by
  rw [decode] at h
  by_cases h4 : 4 ≤ (content input).length
  · obtain ⟨version, bytes₁, hinput⟩ := exists_bigEndian h4
    obtain ⟨b₁, hversion, hlive₁, h₁⟩ := doc.readInt input version bytes₁ hlive hinput
    simp only [hversion, bind, Except.bind] at h
    by_cases h8 : 4 ≤ (content b₁).length
    · obtain ⟨contentLength, bytes₂, hb₁⟩ := exists_bigEndian h8
      obtain ⟨b₂, hlength, hlive₂, h₂⟩ := doc.readInt b₁ contentLength bytes₂ hlive₁ hb₁
      simp only [hlength] at h
      by_cases h36 : 36 ≤ (content b₂).length
      · refine ⟨⟨version, contentLength, bytes₂.take 36, bytes₂.drop 36, ?_⟩, ?_⟩
        · exact List.length_take_of_le (h₂ ▸ h36)
        · rw [hinput, ← h₁, hb₁, Frame.bytes, List.take_append_drop]
      · obtain ⟨b₃, hshort⟩ := doc.readBytesTo_short b₂ 36 hlive₂ (Nat.lt_of_not_le h36)
        simp [hshort] at h
    · obtain ⟨b₂, hshort⟩ := doc.readInt_short b₁ hlive₁ (Nat.lt_of_not_le h8)
      simp [hshort] at h
  · obtain ⟨b₁, hshort⟩ := doc.readInt_short input hlive (Nat.lt_of_not_le h4)
    simp [hshort, bind, Except.bind] at h

def encoded (charset : Charset) (message : MyMsg) : Bytes :=
  bigEndian message.msgHeader.version ++ (bigEndian (BitVec.ofNat 32 message.content.length) ++
    (charset.getBytes message.msgHeader.sessionId ++ charset.getBytes message.content))

theorem content_encode (doc : Documented netty live content) {message : MyMsg} {out : Buf}
    (h : encode netty charset message netty.allocate = some out) : content out = encoded charset message := by
  rw [encode] at h
  obtain ⟨b₁, hversion, h⟩ := Option.bind_eq_some_iff.mp h
  obtain ⟨b₂, hlength, h⟩ := Option.bind_eq_some_iff.mp h
  obtain ⟨b₃, hsession, hcontent⟩ := Option.bind_eq_some_iff.mp h
  obtain ⟨hlive₁, h₁⟩ := doc.writeInt _ _ _ doc.live_allocate hversion
  obtain ⟨hlive₂, h₂⟩ := doc.writeInt _ _ _ hlive₁ hlength
  obtain ⟨hlive₃, h₃⟩ := doc.writeBytes _ _ _ hlive₂ hsession
  obtain ⟨-, h₄⟩ := doc.writeBytes _ _ _ hlive₃ hcontent
  rw [h₄, h₃, h₂, h₁, doc.content_allocate, List.nil_append, List.append_assoc, List.append_assoc, encoded]

end Frames

section Runs

variable {Buf Msg : Type} {netty : ByteBufs Buf} {live : Buf → Prop} {content : Buf → Bytes}
variable {decode : Buf → Except Buf (List Msg × Buf)} {channel : Channel Buf Msg}

theorem readableBytes_eq_zero (doc : Documented netty live content) {b : Buf} (hlive : live b)
    (h : content b = []) : netty.readableBytes b = 0 := by
  rw [doc.readable b hlive, h, List.length_nil]

theorem keep_nil (h : channel.cumulation = none) {input : Buf} (hinput : netty.readableBytes input = 0) :
    channel.keep netty input = channel := by
  rw [Channel.keep, if_pos hinput, ← h]

theorem callDecode_nil (h : channel.cumulation = none) {input : Buf} (hinput : netty.readableBytes input = 0)
    (calls : Nat) : callDecode netty decode calls input channel = channel := by
  cases calls with
  | zero => exact keep_nil h hinput
  | succ calls => rw [callDecode, if_pos hinput, keep_nil h hinput]

theorem channelRead_first (h : channel.cumulation = none) (data : Buf) :
    channelRead netty decode channel data = callDecode netty decode (netty.readableBytes data) data channel := by
  rw [channelRead, h]

theorem channelRead_nil (doc : Documented netty live content) (h : channel.cumulation = none) {data : Buf}
    (hlive : live data) (hdata : content data = []) : channelRead netty decode channel data = channel := by
  rw [channelRead_first h]
  exact callDecode_nil h (readableBytes_eq_zero doc hlive hdata) _

-- A buffer on its own, when decode reads it to the end.
theorem channelRead_ok (doc : Documented netty live content) (h : channel.cumulation = none) {data rest : Buf}
    (hlive : live data) (hdata : content data ≠ []) {msgs : List Msg} (hdecode : decode data = .ok (msgs, rest))
    (hrest : live rest) (hempty : content rest = []) :
    channelRead netty decode channel data = { channel with out := channel.out ++ msgs } := by
  have hpos := List.length_pos_iff.mpr hdata
  obtain ⟨n, hn⟩ := Nat.exists_eq_add_of_lt hpos
  have hzero := readableBytes_eq_zero doc hrest hempty
  rw [channelRead_first h, doc.readable data hlive, hn, Nat.zero_add, callDecode, doc.readable data hlive,
    if_neg (by omega), hdecode]
  simp only [hzero]
  rw [if_pos (by omega)]
  exact callDecode_nil (by exact h) hzero _

theorem channelRead_error (doc : Documented netty live content) (h : channel.cumulation = none) {data rest : Buf}
    (hlive : live data) (hdata : content data ≠ []) (hdecode : decode data = .error rest) :
    (channelRead netty decode channel data).faults = channel.faults + 1 := by
  have hpos := List.length_pos_iff.mpr hdata
  obtain ⟨n, hn⟩ := Nat.exists_eq_add_of_lt hpos
  rw [channelRead_first h, doc.readable data hlive, hn, Nat.zero_add, callDecode, doc.readable data hlive,
    if_neg (by omega), hdecode]
  rfl

variable (netty decode)

-- No exception is taken back, whatever the buffers do.
theorem faults_le_callDecode (calls : Nat) (input : Buf) (channel : Channel Buf Msg) :
    channel.faults ≤ (callDecode netty decode calls input channel).faults := by
  induction calls generalizing input channel with
  | zero => exact Nat.le_refl _
  | succ calls ih =>
      rw [callDecode]
      split_ifs with hempty
      · exact Nat.le_refl _
      · split
        · exact Nat.le_succ _
        · rename_i msgs rest _
          simp only
          split_ifs
          · exact ih rest { channel with out := channel.out ++ msgs }
          · exact Nat.le_refl _
          · exact Nat.le_succ _

theorem faults_le_foldl (bufs : List Buf) (channel : Channel Buf Msg) :
    channel.faults ≤ (bufs.foldl (channelRead netty decode) channel).faults := by
  induction bufs generalizing channel with
  | nil => exact Nat.le_refl _
  | cons data bufs ih =>
      have hread : channel.faults ≤ (channelRead netty decode channel data).faults :=
        faults_le_callDecode netty decode _ _ channel
      exact Nat.le_trans hread (ih _)

-- A decode that always throws passes nothing on.
theorem out_callDecode (h : ∀ input, ∃ rest, decode input = .error rest) (calls : Nat) (input : Buf)
    (channel : Channel Buf Msg) : (callDecode netty decode calls input channel).out = channel.out := by
  cases calls with
  | zero => rfl
  | succ calls =>
      obtain ⟨rest, hdecode⟩ := h input
      rw [callDecode, hdecode]
      split_ifs <;> rfl

theorem out_foldl (h : ∀ input, ∃ rest, decode input = .error rest) (bufs : List Buf) (channel : Channel Buf Msg) :
    (bufs.foldl (channelRead netty decode) channel).out = channel.out := by
  induction bufs generalizing channel with
  | nil => rfl
  | cons data bufs ih => rw [List.foldl_cons, ih, channelRead, out_callDecode netty decode h]

end Runs

section Delivery

variable {Buf : Type} {netty : ByteBufs Buf} {live : Buf → Prop} {content : Buf → Bytes} {charset : Charset}

-- As long as nothing fails each buffer is read on its own: it is one frame, and nothing of it is kept.
theorem foldl_frames (doc : Documented netty live content) (harray : OwnArray netty live content)
    {channel : Channel Buf MyMsg} (h : channel.cumulation = none) {bufs : List Buf} (hlive : ∀ b ∈ bufs, live b)
    {frames : List Frame} (hbufs : (bufs.map content).filter (· ≠ []) = frames.map Frame.bytes) :
    bufs.foldl (channelRead netty (decode netty charset)) channel =
      { channel with out := channel.out ++ frames.map (Frame.msg charset) } := by
  induction bufs generalizing channel frames with
  | nil =>
      obtain rfl : frames = [] := by simpa using hbufs.symm
      simp
  | cons data bufs ih =>
      rw [List.forall_mem_cons] at hlive
      rw [List.map_cons] at hbufs
      by_cases hdata : content data = []
      · rw [List.foldl_cons, channelRead_nil doc h hlive.1 hdata]
        exact ih h hlive.2 (by simpa [hdata] using hbufs)
      · rw [List.filter_cons_of_pos (by simpa using hdata)] at hbufs
        cases frames with
        | nil => simp at hbufs
        | cons f frames =>
            rw [List.map_cons, List.cons.injEq] at hbufs
            obtain ⟨hf, hbufs⟩ := hbufs
            obtain ⟨rest, hdecode, hrest, hempty⟩ := decode_frame charset doc harray hlive.1 hf
            rw [List.foldl_cons, channelRead_ok doc h hlive.1 hdata hdecode hrest hempty]
            refine Eq.trans (ih (by exact h) hlive.2 hbufs) ?_
            simp

theorem exists_frames (doc : Documented netty live content) (harray : OwnArray netty live content)
    {channel : Channel Buf MyMsg} (h : channel.cumulation = none) {bufs : List Buf} (hlive : ∀ b ∈ bufs, live b)
    (hfaults : (bufs.foldl (channelRead netty (decode netty charset)) channel).faults = channel.faults) :
    ∃ frames : List Frame, (bufs.map content).filter (· ≠ []) = frames.map Frame.bytes := by
  induction bufs generalizing channel with
  | nil => exact ⟨[], rfl⟩
  | cons data bufs ih =>
      rw [List.forall_mem_cons] at hlive
      rw [List.foldl_cons] at hfaults
      rw [List.map_cons]
      by_cases hdata : content data = []
      · rw [channelRead_nil doc h hlive.1 hdata] at hfaults
        simpa [hdata] using ih h hlive.2 hfaults
      · cases hdecode : decode netty charset data with
        | error rest =>
            have hfault := channelRead_error doc h hlive.1 hdata hdecode
            have hle := faults_le_foldl netty (decode netty charset) bufs
              (channelRead netty (decode netty charset) channel data)
            omega
        | ok read =>
            obtain ⟨msgs, rest⟩ := read
            obtain ⟨f, hf⟩ := exists_frame doc hlive.1 hdecode
            obtain ⟨rest', hdecode', hrest, hempty⟩ := decode_frame charset doc harray hlive.1 hf
            rw [channelRead_ok doc h hlive.1 hdata hdecode' hrest hempty] at hfaults
            obtain ⟨frames, hframes⟩ := ih (by exact h) hlive.2 hfaults
            refine ⟨f :: frames, ?_⟩
            rw [List.filter_cons_of_pos (by simpa using hdata), hframes, List.map_cons, hf]

-- A buffer that ends inside the header makes a read fail.
theorem faults_of_short (doc : Documented netty live content) {channel : Channel Buf MyMsg}
    (h : channel.cumulation = none) {data : Buf} (hlive : live data) (hdata : content data ≠ [])
    (hshort : (content data).length < 44) :
    (channelRead netty (decode netty charset) channel data).faults = channel.faults + 1 := by
  cases hdecode : decode netty charset data with
  | error rest => exact channelRead_error doc h hlive hdata hdecode
  | ok read =>
      obtain ⟨msgs, rest⟩ := read
      obtain ⟨f, hf⟩ := exists_frame doc hlive hdecode
      have hlength := f.length_bytes
      rw [hf] at hshort
      omega

theorem delivered_iff_frames (doc : Documented netty live content) (harray : OwnArray netty live content)
    (msgs : List MyMsg) {bufs : List Buf} (hlive : ∀ b ∈ bufs, live b) :
    Delivered netty charset msgs bufs ↔
      ∃ frames : List Frame,
        (bufs.map content).filter (· ≠ []) = frames.map Frame.bytes ∧ frames.map (Frame.msg charset) = msgs := by
  constructor
  · rintro ⟨hout, hfaults⟩
    obtain ⟨frames, hframes⟩ := exists_frames doc harray rfl hlive hfaults
    refine ⟨frames, hframes, ?_⟩
    rw [← hout, channelReads, foldl_frames doc harray rfl hlive hframes]
    rfl
  · rintro ⟨frames, hframes, rfl⟩
    rw [Delivered, channelReads, foldl_frames doc harray rfl hlive hframes]
    exact ⟨rfl, rfl⟩

-- What encode writes is a frame, and decode reads the message from it that it was written for, unless the
-- stream cannot carry this message.
def frameOf (message : MyMsg) (h : (charset.getBytes message.msgHeader.sessionId).length = 36) : Frame :=
  { version := message.msgHeader.version
    contentLength := BitVec.ofNat 32 message.content.length
    session := charset.getBytes message.msgHeader.sessionId
    content := charset.getBytes message.content
    session_length := h }

theorem Carried.msg_frameOf {message : MyMsg} (hcarried : Carried charset message)
    (h : (charset.getBytes message.msgHeader.sessionId).length = 36) :
    (frameOf message h).msg charset = message := by
  obtain ⟨⟨version, contentLength, sessionId⟩, content⟩ := message
  obtain ⟨hsession, hcontent, hlength⟩ := hcarried
  simp only at hsession hcontent hlength
  simp only [Frame.msg, frameOf, hsession, hcontent, hlength]

theorem carried_of_bytes {f : Frame}
    (hsession : (charset.getBytes (f.msg charset).msgHeader.sessionId).length = 36)
    (h : f.bytes = encoded charset (f.msg charset)) : Carried charset (f.msg charset) := by
  have hrest := List.append_cancel_left h
  obtain ⟨hlength, hbytes⟩ := List.append_inj hrest rfl
  obtain ⟨hsession', hcontent⟩ := List.append_inj hbytes (f.session_length.trans hsession.symm)
  exact ⟨congrArg charset.newString hsession'.symm, congrArg charset.newString hcontent.symm,
    bigEndian_injective hlength⟩

theorem map_content_of_sent (doc : Documented netty live content) {msgs : List MyMsg} {outs : List Buf}
    (hsent : Sent netty charset msgs outs) : outs.map content = msgs.map (encoded charset) := by
  induction msgs generalizing outs with
  | nil =>
      obtain rfl : outs = [] := by simpa [Sent] using hsent.symm
      rfl
  | cons m msgs ih =>
      cases outs with
      | nil => simp [Sent] at hsent
      | cons out outs =>
          rw [Sent, List.map_cons, List.map_cons, List.cons.injEq] at hsent
          rw [List.map_cons, List.map_cons, ih hsent.2, content_encode doc hsent.1]

end Delivery

section Alignment

variable {α β : Type*} {f g : α → List β}

theorem length_flatten_map_le {l : List α} (hle : ∀ a ∈ l, (f a).length ≤ (g a).length) :
    (l.map f).flatten.length ≤ (l.map g).flatten.length := by
  induction l with
  | nil => exact Nat.le_refl _
  | cons a l ih =>
      rw [List.forall_mem_cons] at hle
      simpa using Nat.add_le_add hle.1 (ih hle.2)

-- Two ways to cut one list are the same where no piece of the first is longer.
theorem map_eq_of_flatten_eq {l : List α} (hle : ∀ a ∈ l, (f a).length ≤ (g a).length)
    (h : (l.map f).flatten = (l.map g).flatten) : l.map f = l.map g := by
  induction l with
  | nil => rfl
  | cons a l ih =>
      rw [List.forall_mem_cons] at hle
      have hrest := length_flatten_map_le hle.2
      have hlength := congrArg List.length h
      simp only [List.map_cons, List.flatten_cons, List.length_append] at h hlength
      obtain ⟨hhead, htail⟩ := List.append_inj h (by omega)
      rw [List.map_cons, List.map_cons, hhead, ih hle.2 htail]

end Alignment

section Delivery

variable {Buf : Type} {netty : ByteBufs Buf} {live : Buf → Prop} {content : Buf → Bytes} {charset : Charset}
variable {msgs : List MyMsg} {outs bufs : List Buf}

theorem delivered_of_framed (doc : Documented netty live content) (harray : OwnArray netty live content)
    (hlive : ∀ b ∈ bufs, live b) (hsession : ∀ m ∈ msgs, (charset.getBytes m.msgHeader.sessionId).length = 36)
    (hsent : Sent netty charset msgs outs) (hframed : Framed content outs bufs)
    (hcarried : ∀ m ∈ msgs, Carried charset m) : Delivered netty charset msgs bufs := by
  rw [delivered_iff_frames doc harray msgs hlive]
  refine ⟨msgs.pmap frameOf hsession, ?_, ?_⟩
  · rw [hframed, map_content_of_sent doc hsent, List.map_pmap]
    exact (List.pmap_eq_map hsession).symm
  · rw [List.map_pmap]
    calc msgs.pmap (fun m h => (frameOf m h).msg charset) hsession
        = msgs.pmap (fun m _ => id m) hsession :=
          List.pmap_congr_left msgs fun m hm h _ => (hcarried m hm).msg_frameOf h
      _ = msgs.map id := List.pmap_eq_map hsession
      _ = msgs := List.map_id msgs

theorem framed_of_delivered (doc : Documented netty live content) (harray : OwnArray netty live content)
    (hcharset : charset.Keeps) (hlive : ∀ b ∈ bufs, live b)
    (hsession : ∀ m ∈ msgs, (charset.getBytes m.msgHeader.sessionId).length = 36)
    (hsent : Sent netty charset msgs outs) (hcut : bufs.flatMap content = outs.flatMap content)
    (hdelivered : Delivered netty charset msgs bufs) :
    Framed content outs bufs ∧ ∀ m ∈ msgs, Carried charset m := by
  obtain ⟨frames, hframes, rfl⟩ := (delivered_iff_frames doc harray msgs hlive).mp hdelivered
  have houts := map_content_of_sent doc hsent
  rw [List.map_map] at houts
  rw [List.forall_mem_map] at hsession
  -- no frame is longer than what encode writes for its message, and all of them are as long together
  have hle : ∀ f ∈ frames, f.bytes.length ≤ (encoded charset (f.msg charset)).length := by
    intro f hf
    have hcontent := hcharset f.content
    have hbytes := f.length_bytes
    have hlength : (encoded charset (f.msg charset)).length =
        44 + (charset.getBytes (charset.newString f.content)).length :=
      (frameOf (f.msg charset) (hsession f hf)).length_bytes
    omega
  have hflatten : (frames.map Frame.bytes).flatten =
      (frames.map fun f => encoded charset (f.msg charset)).flatten := by
    rw [← hframes, List.flatten_filter_ne_nil, ← List.flatMap_def, hcut, List.flatMap_def, houts]
    rfl
  have hmap := map_eq_of_flatten_eq hle hflatten
  refine ⟨?_, ?_⟩
  · rw [Framed, hframes, hmap, houts]
    rfl
  · rw [List.forall_mem_map]
    intro f hf
    exact carried_of_bytes (hsession f hf) (List.map_inj_left.mp hmap f hf)

-- decode takes all the bytes there are for one message. It gives back what encode was called with just
-- where the buffers are cut as encode has written them.
theorem delivered_iff_framed (doc : Documented netty live content) (harray : OwnArray netty live content)
    (hlive : ∀ b ∈ bufs, live b) (hsession : ∀ m ∈ msgs, (charset.getBytes m.msgHeader.sessionId).length = 36)
    (hsent : Sent netty charset msgs outs) (hcut : bufs.flatMap content = outs.flatMap content) :
    (Framed content outs bufs ∧ (∀ m ∈ msgs, Carried charset m) → Delivered netty charset msgs bufs) ∧
      (charset.Keeps →
        (Delivered netty charset msgs bufs ↔
          Framed content outs bufs ∧ ∀ m ∈ msgs, Carried charset m)) := by
  have henough : Framed content outs bufs ∧ (∀ m ∈ msgs, Carried charset m) → Delivered netty charset msgs bufs :=
    fun h => delivered_of_framed doc harray hlive hsession hsent h.1 h.2
  exact ⟨henough, fun hcharset =>
    ⟨framed_of_delivered doc harray hcharset hlive hsession hsent hcut, henough⟩⟩

theorem decode_error_of_noArray (harray : ∀ b, netty.array b = none) (input : Buf) :
    ∃ rest, decode netty charset input = .error rest := by
  rw [decode]
  cases netty.readInt input with
  | error rest => exact ⟨rest, rfl⟩
  | ok read =>
      simp only [bind, Except.bind]
      cases netty.readInt read.2 with
      | error rest => exact ⟨rest, rfl⟩
      | ok read =>
          simp only
          cases netty.readBytesTo read.2 36 with
          | error rest => exact ⟨rest, rfl⟩
          | ok read =>
              simp only
              cases netty.readBytes read.2 (netty.readableBytes read.2) with
              | error rest => exact ⟨rest, rfl⟩
              | ok read => exact ⟨read.2, by simp only [harray]⟩

-- With direct buffers, however they are cut, no message comes out.
theorem eq_nil_of_noArray (harray : ∀ b, netty.array b = none) (h : Delivered netty charset msgs bufs) :
    msgs = [] := by
  rw [← h.1, channelReads, out_foldl netty _ (decode_error_of_noArray harray)]
  rfl

end Delivery

section Utf8

theorem utf8_keeps : utf8.Keeps := Utf8.length_le_encode_decode

theorem carried_utf8_iff (message : MyMsg) :
    Carried utf8 message ↔ Utf8.paired message.msgHeader.sessionId ∧ Utf8.paired message.content ∧
      message.msgHeader.contentLength = BitVec.ofNat 32 message.content.length := by
  rw [← Utf8.decode_encode_iff, ← Utf8.decode_encode_iff]
  constructor
  · rintro ⟨hsession, hcontent, hlength⟩
    exact ⟨hsession, hcontent, hlength⟩
  · rintro ⟨hsession, hcontent, hlength⟩
    exact ⟨hsession, hcontent, hlength⟩

end Utf8

section Heap

open ByteBufToBytes (HeapBuf)

-- A buffer on the heap that holds just these bytes.
def wrapped (bytes : Bytes) : HeapBuf :=
  { capacity := bytes.length
    written := bytes
    readerIndex := 0
    refCnt := 1 }

-- An array is handed out whole, what is not written yet included.
def heap : ByteBufs HeapBuf where
  allocate :=
    { capacity := 2147483647
      written := []
      readerIndex := 0
      refCnt := 1 }
  readableBytes b := b.written.length - b.readerIndex
  readInt b :=
    match b.read 4 with
    | some ([b₁, b₂, b₃, b₄], b') => .ok (b₁ ++ b₂ ++ b₃ ++ b₄, b')
    | _ => .error b
  readBytesTo b length :=
    match b.read length with
    | some read => .ok read
    | none => .error b
  readBytes b length :=
    match b.read length with
    | some (bytes, b') => .ok (wrapped bytes, b')
    | none => .error b
  array b := some (b.written ++ List.replicate (b.capacity - b.written.length) 0)
  writeInt b value := b.write (bigEndian value)
  writeBytes b bytes := b.write bytes
  cumulate cumulation data := wrapped (cumulation.content ++ data.content)

theorem read_none {b : HeapBuf} {n : Nat} (h : b.content.length < n) : b.read n = none := by
  rw [HeapBuf.content, List.length_drop] at h
  rw [HeapBuf.read, if_neg fun hread => absurd hread.2 (Nat.not_le_of_lt h)]

theorem write_some {b b' : HeapBuf} {bytes : Bytes} (hlive : b.live) (h : b.write bytes = some b') :
    b'.live ∧ b'.content = b.content ++ bytes := by
  rw [HeapBuf.write] at h
  split_ifs at h
  obtain rfl := Option.some.inj h
  refine ⟨⟨hlive.1, ?_⟩, List.drop_append_of_le_length hlive.2⟩
  rw [List.length_append]
  exact Nat.le_add_right_of_le hlive.2

-- What is left after a read.
theorem content_read {b : HeapBuf} {n : Nat} (hlive : b.live) (hn : n ≤ b.content.length) :
    HeapBuf.live { b with readerIndex := b.readerIndex + n } ∧
      HeapBuf.content { b with readerIndex := b.readerIndex + n } = b.content.drop n := by
  rw [HeapBuf.content, List.length_drop] at hn
  have hle := hlive.2
  exact ⟨⟨hlive.1, by simp only; omega⟩, List.drop_drop.symm⟩

theorem documented_heap : Documented heap HeapBuf.live HeapBuf.content where
  live_allocate := by decide
  content_allocate := rfl
  readable b hlive := List.length_drop.symm
  readInt b value rest hlive hcontent := by
    have h4 : 4 ≤ b.content.length := by simp [hcontent, bigEndian]
    obtain ⟨hlive', hrest⟩ := content_read hlive h4
    refine ⟨_, ?_, hlive', hrest.trans (by rw [hcontent]; rfl)⟩
    simp only [heap, HeapBuf.read_of_live hlive h4, hcontent, bigEndian, List.cons_append, List.nil_append,
      List.take_succ_cons, List.take_zero, append_bigEndian]
  readInt_short b hlive hshort := ⟨b, by simp only [heap, read_none hshort]⟩
  readBytesTo b n hlive hn := by
    obtain ⟨hlive', hrest⟩ := content_read hlive hn
    exact ⟨_, by simp only [heap, HeapBuf.read_of_live hlive hn], hlive', hrest⟩
  readBytesTo_short b n hlive hshort := ⟨b, by simp only [heap, read_none hshort]⟩
  readBytes b n hlive hn := by
    obtain ⟨hlive', hrest⟩ := content_read hlive hn
    exact ⟨wrapped (b.content.take n), _, by simp only [heap, HeapBuf.read_of_live hlive hn], rfl, hlive', hrest⟩
  writeInt b value b' hlive h := write_some hlive h
  writeBytes b bytes b' hlive h := write_some hlive h

theorem ownArray_heap : OwnArray heap HeapBuf.live HeapBuf.content := by
  intro b n fresh b' hlive h
  simp only [heap] at h ⊢
  split at h
  · obtain ⟨rfl, rfl⟩ := Prod.mk.inj (Except.ok.inj h)
    simp [wrapped, HeapBuf.content]
  · simp at h

-- A message with a session of 36 characters.
def message (content : String) : MyMsg :=
  { msgHeader :=
      { version := 1#32
        contentLength := BitVec.ofNat 32 content.length
        sessionId := "123e4567-e89b-12d3-a456-426614174000".toList.map fun c => BitVec.ofNat 16 c.toNat }
    content := content.toList.map fun c => BitVec.ofNat 16 c.toNat }

-- The buffer that encode hands on for a message.
def sent (content : String) : HeapBuf := { heap.allocate with written := encoded utf8 (message content) }

theorem delivered_two_buffers :
    Delivered heap utf8 [message "hi", message "there"]
      [wrapped (encoded utf8 (message "hi")), wrapped [], wrapped (encoded utf8 (message "there"))] := by
  have hsent : Sent heap utf8 [message "hi", message "there"] [sent "hi", sent "there"] := by
    rw [Sent]
    decide
  have hframed : Framed HeapBuf.content [sent "hi", sent "there"]
      [wrapped (encoded utf8 (message "hi")), wrapped [], wrapped (encoded utf8 (message "there"))] := by
    rw [Framed]
    decide
  refine ((delivered_iff_framed documented_heap ownArray_heap (by decide) (by decide) hsent (by decide)).2
    utf8_keeps).mpr ⟨hframed, ?_⟩
  simp only [List.forall_mem_cons, carried_utf8_iff]
  decide

-- Two messages in one buffer come out as one.
theorem not_delivered_one_buffer :
    (∀ m ∈ [message "hi", message "there"], (utf8.getBytes m.msgHeader.sessionId).length = 36) ∧
      Sent heap utf8 [message "hi", message "there"] [sent "hi", sent "there"] ∧
      [wrapped (encoded utf8 (message "hi") ++ encoded utf8 (message "there"))].flatMap HeapBuf.content =
        [sent "hi", sent "there"].flatMap HeapBuf.content ∧
      ¬Delivered heap utf8 [message "hi", message "there"]
        [wrapped (encoded utf8 (message "hi") ++ encoded utf8 (message "there"))] := by
  rw [Sent, Delivered]
  decide

end Heap

end RichardTest.Netty
