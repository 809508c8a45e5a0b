import RichardTest.Protobuf.CodedStream

namespace RichardTest.Protobuf

open Wire

variable {U : Type} {lib : Library U}

-- What is read in place of a string field, which is left out where it has no bytes.
theorem Ref.Valid.restored (doc : lib.Documented) {r : Ref} (hr : r.Valid) :
    (if r.getBytes lib = [] then [] else (Ref.bytes (r.getBytes lib)).getString lib) =
      Utf8.decode (Utf8.encode (r.getString lib)) := by
  rw [← hr.getString_getBytes doc]
  split_ifs with hnil
  · rw [hnil]
    exact (doc.toStringUtf8 []).symm
  · rfl

section Delivery

theorem id_case (doc : lib.Documented) : Case (Msg.format lib) doc.string 1 fun s m => { m with id := .string s } :=
  ⟨rfl, by decide, by decide, rfl⟩

theorem content_case (doc : lib.Documented) :
    Case (Msg.format lib) doc.string 2 fun s m => { m with content := .string s } :=
  ⟨rfl, by decide, by decide, rfl⟩

def Msg.fields (doc : lib.Documented) {m : Msg U} (hm : m.WellFormed lib) : List (Field (Msg.format lib)) :=
  (id_case doc).fields (m.id.getBytes lib = []) (hm.id.encoded doc) ++
    (content_case doc).fields (m.content.getBytes lib = []) (hm.content.encoded doc)

theorem Msg.write_fields (doc : lib.Documented) {m : Msg U} (hm : m.WellFormed lib) :
    write (Msg.fields doc hm) = m.text lib := by
  rw [Msg.fields, write_append, Case.write_fields, Case.write_fields]
  show _ = _ ++ lib.unknown.writeTo m.unknownFields
  rw [hm.unknownFields, doc.writeTo_empty, List.append_nil]

variable (lib) in
-- A message as a program builds it, of strings that have a UTF-8 form.
structure Carried where
  id : JString
  content : JString
  id_paired : Utf8.paired id
  content_paired : Utf8.paired content
  wellFormed : (Msg.build lib id content).WellFormed lib

def Carried.msg (c : Carried lib) : Msg U := Msg.build lib c.id c.content

variable (lib) in
def fieldCount (m : Msg U) : Nat :=
  (if m.id.getBytes lib = [] then 0 else 1) + if m.content.getBytes lib = [] then 0 else 1

theorem fieldCount_id_le (m : Msg U) (s : JString) :
    fieldCount lib { m with id := .string s } ≤ fieldCount lib m + 1 := by
  rw [fieldCount, fieldCount]
  split_ifs <;> omega

theorem fieldCount_content_le (m : Msg U) (s : JString) :
    fieldCount lib { m with content := .string s } ≤ fieldCount lib m + 1 := by
  rw [fieldCount, fieldCount]
  split_ifs <;> omega

def msgLayout (doc : lib.Documented) : Layout (Msg.format lib) (Carried lib) where
  end_of_input := doc.end_of_input
  value := Carried.msg
  fields c := Msg.fields doc c.wellFormed
  size := fieldCount lib
  size_initial := by
    have hnil : lib.copyFromUtf8 [] = [] := doc.copyFromUtf8 []
    show (if lib.copyFromUtf8 [] = [] then 0 else 1) + (if lib.copyFromUtf8 [] = [] then 0 else 1) = 0
    rw [if_pos hnil]
  size_set c f hf m := by
    rcases List.mem_append.mp hf with hid | hcontent
    · rw [(id_case doc).set_of_mem _ _ hid]
      exact fieldCount_id_le m _
    · rw [(content_case doc).set_of_mem _ _ hcontent]
      exact fieldCount_content_le m _
  length_fields c := by
    rw [Msg.fields, List.length_append, Case.length_fields, Case.length_fields]
    rfl
  apply_fields c := by
    rw [Msg.fields, apply_append, (id_case doc).apply_fields _ _ (c.wellFormed.id.restored doc) rfl,
      (content_case doc).apply_fields _ _ (c.wellFormed.content.restored doc) rfl]
    show Msg.mk (.string (Utf8.decode (Utf8.encode c.id))) (.string (Utf8.decode (Utf8.encode c.content))) _ _ = _
    rw [(Utf8.decode_encode_iff c.id).mpr c.id_paired, (Utf8.decode_encode_iff c.content).mpr c.content_paired]
    rfl

theorem msgLayout_bytes (doc : lib.Documented) (c : Carried lib) : (msgLayout doc).bytes c = c.msg.text lib :=
  Msg.write_fields doc c.wellFormed

theorem encode_eq (doc : lib.Documented) (c : Carried lib) : encode lib c.msg = some ((msgLayout doc).bytes c) := by
  rw [encode, Carried.msg, Msg.toByteArray_eq doc c.wellFormed, msgLayout_bytes]
  rfl

theorem mapM_eq_some_map {α β : Type} {f : α → Option β} {g : α → β} (h : ∀ a, f a = some (g a)) (as : List α) :
    as.mapM f = some (as.map g) := by
  induction as with
  | nil => rfl
  | cons a as ih => rw [List.mapM_cons, h, ih]; rfl

theorem foldl_closed {M : Type} (fmt : Format M) (bufs : List Bytes) {channel : Channel M}
    (hclosed : channel.closed = true) : bufs.foldl (channelRead fmt) channel = channel := by
  induction bufs with
  | nil => rfl
  | cons buf bufs ih => rw [List.foldl_cons, channelRead, if_pos hclosed, ih]

-- A channel that is still open has read every buffer as a message.
theorem foldl_channelRead_iff {M : Type} (fmt : Format M) (bufs : List Bytes) (got received : List M) :
    bufs.foldl (channelRead fmt) { received := got, closed := false } = { received, closed := false } ↔
      ∃ ms, received = got ++ ms ∧ bufs.map fmt.parse = ms.map some := by
  induction bufs generalizing got with
  | nil =>
      constructor
      · intro h
        have hgot : got = received := congrArg Channel.received h
        exact ⟨[], by rw [hgot, List.append_nil], rfl⟩
      · rintro ⟨ms, hreceived, hms⟩
        rw [List.map_nil] at hms
        rw [hreceived, List.map_eq_nil_iff.mp hms.symm, List.foldl_nil, List.append_nil]
  | cons buf bufs ih =>
      rw [List.foldl_cons, List.map_cons]
      cases hparse : fmt.parse buf with
      | none =>
          have hread : channelRead fmt { received := got, closed := false } buf =
              { received := got, closed := true } := by
            rw [channelRead, if_neg Bool.false_ne_true, hparse]
          rw [hread, foldl_closed fmt bufs rfl]
          constructor
          · intro h
            cases h
          · rintro ⟨ms, -, hms⟩
            cases ms <;> cases hms
      | some m =>
          have hread : channelRead fmt { received := got, closed := false } buf =
              { received := got ++ [m], closed := false } := by
            rw [channelRead, if_neg Bool.false_ne_true, hparse]
          rw [hread, ih (got ++ [m])]
          constructor
          · rintro ⟨ms, rfl, hms⟩
            exact ⟨m :: ms, List.append_assoc .., by rw [hms, List.map_cons]⟩
          · rintro ⟨ms, rfl, hms⟩
            cases ms with
            | nil => cases hms
            | cons m' ms =>
                rw [List.map_cons, List.cons.injEq, Option.some.injEq] at hms
                obtain ⟨rfl, hrest⟩ := hms
                exact ⟨ms, List.append_cons got m ms, hrest⟩

theorem channelReads_iff {M : Type} (fmt : Format M) (bufs : List Bytes) (ms : List M) :
    channelReads fmt bufs = { received := ms, closed := false } ↔ bufs.map fmt.parse = ms.map some := by
  rw [channelReads, Channel.start, foldl_channelRead_iff]
  constructor
  · rintro ⟨_, rfl, h⟩
    exact h
  · intro h
    exact ⟨ms, rfl, h⟩

theorem channelReads_layout_iff {M ι : Type} {fmt : Format M} (layout : Layout fmt ι) (is : List ι) {bufs : List Bytes}
    (hbufs : bufs.flatten = (is.map layout.bytes).flatten) :
    channelReads fmt bufs = { received := is.map layout.value, closed := false } ↔ bufs = is.map layout.bytes := by
  rw [channelReads_iff, layout.split_iff is hbufs]

-- The answer of the server is such a message too.
def replyCarried (hlength : ((reply lib).text lib).length < 2 ^ 31) : Carried lib where
  id := jstr "123"
  content := jstr "this is a server msg."
  id_paired := by decide
  content_paired := by decide
  wellFormed :=
    { id := by
        show (Utf8.encode (jstr "123")).length < 2 ^ 31
        decide
      content := by
        show (Utf8.encode (jstr "this is a server msg.")).length < 2 ^ 31
        decide
      unknownFields := rfl
      length_text := hlength
      memoizedSize := Or.inl rfl }

theorem serve_eq (doc : lib.Documented) (hlength : ((reply lib).text lib).length < 2 ^ 31) (bufs : List Bytes) :
    serve lib bufs = some (((channelReads (Msg.format lib) bufs).received.map fun _ => replyCarried hlength).map
      (msgLayout doc).bytes) := by
  rw [serve, List.map_map]
  exact mapM_eq_some_map (fun _ => encode_eq doc (replyCarried hlength)) _

-- A client sends messages and the server answers each. However TCP cuts the two streams, both sides have got what was
-- sent to them exactly where the buffers are the messages, one for one, none of which is empty then.
theorem exchange_iff (doc : lib.Documented) (sent : List (Carried lib))
    (hlength : ((reply lib).text lib).length < 2 ^ 31) :
    ∃ chunks answer, (sent.map Carried.msg).mapM (encode lib) = some chunks ∧ encode lib (reply lib) = some answer ∧
      ∀ bufs back : List Bytes, [] ∉ bufs → bufs.flatten = chunks.flatten →
        (serve lib bufs).map List.flatten = some back.flatten →
        ((channelReads (Msg.format lib) bufs = { received := sent.map Carried.msg, closed := false } ∧
          channelReads (Msg.format lib) back = { received := sent.map fun _ => reply lib, closed := false }) ↔
          [] ∉ chunks ∧ bufs = chunks ∧ back = sent.map fun _ => answer) := by
  have hchunks : (sent.map Carried.msg).mapM (encode lib) = some (sent.map (msgLayout doc).bytes) := by
    rw [List.mapM_map]
    exact mapM_eq_some_map (encode_eq doc) sent
  refine ⟨_, _, hchunks, encode_eq doc (replyCarried hlength), fun bufs back hbufs hcut hback => ?_⟩
  have hserver := channelReads_layout_iff (msgLayout doc) sent hcut
  have hclient (hgot : channelReads (Msg.format lib) bufs = { received := sent.map Carried.msg, closed := false }) :
      channelReads (Msg.format lib) back = { received := sent.map fun _ => reply lib, closed := false } ↔
        back = sent.map fun _ => (msgLayout doc).bytes (replyCarried hlength) := by
    rw [serve_eq doc hlength, hgot] at hback
    have hanswers : back.flatten = ((sent.map fun _ => replyCarried hlength).map (msgLayout doc).bytes).flatten := by
      rw [← Option.some.inj hback]
      simp only [List.map_map]
      rfl
    have hiff := channelReads_layout_iff (msgLayout doc) _ hanswers
    simp only [List.map_map] at hiff
    exact hiff
  constructor
  · rintro ⟨hgot, hanswered⟩
    have hwhole := hserver.mp hgot
    exact ⟨hwhole ▸ hbufs, hwhole, (hclient hgot).mp hanswered⟩
  · rintro ⟨-, hwhole, hanswers⟩
    have hgot := hserver.mpr hwhole
    exact ⟨hgot, (hclient hgot).mpr hanswers⟩

def hello : Carried CodedStream.library where
  id := jstr "1"
  content := jstr "hello, where are you?"
  id_paired := by decide
  content_paired := by decide
  wellFormed :=
    { id := by
        show (Utf8.encode (jstr "1")).length < 2 ^ 31
        decide
      content := by
        show (Utf8.encode (jstr "hello, where are you?")).length < 2 ^ 31
        decide
      unknownFields := rfl
      length_text := by decide
      memoizedSize := Or.inl rfl }

def hellos : List (Carried CodedStream.library) := [hello, hello]

theorem exchange_hellos : ∃ chunks answer, (hellos.map Carried.msg).mapM (encode CodedStream.library) = some chunks ∧
    encode CodedStream.library (reply CodedStream.library) = some answer ∧
    channelReads (Msg.format CodedStream.library) chunks = { received := hellos.map Carried.msg, closed := false } ∧
    channelReads (Msg.format CodedStream.library) [answer, answer] =
      { received := hellos.map fun _ => reply CodedStream.library, closed := false } := by
  obtain ⟨chunks, answer, hchunks, hanswer, hiff⟩ := exchange_iff CodedStream.library_documented hellos (by decide)
  have hsent : chunks = hellos.map fun c => c.msg.text CodedStream.library :=
    Option.some.inj (hchunks.symm.trans (by decide))
  have hreply : answer = (reply CodedStream.library).text CodedStream.library :=
    Option.some.inj (hanswer.symm.trans (by decide))
  subst hsent hreply
  exact ⟨_, _, hchunks, hanswer, (hiff _ _ (by decide) rfl (by decide)).mpr ⟨by decide, rfl, rfl⟩⟩

end Delivery

section RoundTrip

variable (lib) in
-- What a GPS record is after it has been written and read.
def GpsData.restored (g : GpsData U) : GpsData U :=
  { g with
    terminalId := .string (Utf8.decode (Utf8.encode (g.terminalId.getString lib)))
    dataTime := .string (Utf8.decode (Utf8.encode (g.dataTime.getString lib)))
    lon := if zeroDouble g.lon then 0 else g.lon
    lat := if zeroDouble g.lat then 0 else g.lat
    speed := if zeroFloat g.speed then 0 else g.speed
    direction := if zeroFloat g.direction then 0 else g.direction
    memoizedSize := -1
    unknownFields := lib.unknown.empty }

theorem ite_eq_self {α : Type} (x : α) {y : α} [Decidable (x = y)] : (if x = y then y else x) = x := by
  split_ifs with h
  · exact h.symm
  · rfl

theorem GpsData.parseFrom_text (doc : lib.Documented) {g : GpsData U} (hg : g.WellFormed lib) :
    GpsData.parseFrom lib (g.text lib) = some (g.restored lib) := by
  have c1 : Case (GpsData.format lib) doc.int64 1 (fun x g => { g with id := x }) := ⟨rfl, by decide, by decide, rfl⟩
  have c2 : Case (GpsData.format lib) doc.string 2 (fun s g => { g with terminalId := .string s }) :=
    ⟨rfl, by decide, by decide, rfl⟩
  have c3 : Case (GpsData.format lib) doc.string 3 (fun s g => { g with dataTime := .string s }) :=
    ⟨rfl, by decide, by decide, rfl⟩
  have c4 : Case (GpsData.format lib) doc.double 4 (fun x g => { g with lon := x }) := ⟨rfl, by decide, by decide, rfl⟩
  have c5 : Case (GpsData.format lib) doc.double 5 (fun x g => { g with lat := x }) := ⟨rfl, by decide, by decide, rfl⟩
  have c6 : Case (GpsData.format lib) doc.float 6 (fun x g => { g with speed := x }) := ⟨rfl, by decide, by decide, rfl⟩
  have c7 : Case (GpsData.format lib) doc.int32 7 (fun x g => { g with altitude := x }) :=
    ⟨rfl, by decide, by decide, rfl⟩
  have c8 : Case (GpsData.format lib) doc.int32 8 (fun x g => { g with locType := x }) :=
    ⟨rfl, by decide, by decide, rfl⟩
  have c9 : Case (GpsData.format lib) doc.int32 9 (fun x g => { g with gpsStatus := x }) :=
    ⟨rfl, by decide, by decide, rfl⟩
  have c10 : Case (GpsData.format lib) doc.float 10 (fun x g => { g with direction := x }) :=
    ⟨rfl, by decide, by decide, rfl⟩
  have c11 : Case (GpsData.format lib) doc.int32 11 (fun x g => { g with satellite := x }) :=
    ⟨rfl, by decide, by decide, rfl⟩
  have hparse := parse_write doc.end_of_input (c1.fields (a := g.id) (g.id = 0) trivial ++
      c2.fields (g.terminalId.getBytes lib = []) (hg.terminalId.encoded doc) ++
      c3.fields (g.dataTime.getBytes lib = []) (hg.dataTime.encoded doc) ++
      c4.fields (a := g.lon) (zeroDouble g.lon) trivial ++ c5.fields (a := g.lat) (zeroDouble g.lat) trivial ++
      c6.fields (a := g.speed) (zeroFloat g.speed) trivial ++ c7.fields (a := g.altitude) (g.altitude = 0) trivial ++
      c8.fields (a := g.locType) (g.locType = 0) trivial ++ c9.fields (a := g.gpsStatus) (g.gpsStatus = 0) trivial ++
      c10.fields (a := g.direction) (zeroFloat g.direction) trivial ++
      c11.fields (a := g.satellite) (g.satellite = 0) trivial)
  have hinitial : (GpsData.format lib).initial = GpsData.new lib := rfl
  simp only [write_append, apply_append, Case.write_fields, hinitial, GpsData.new,
    c1.apply_fields _ _ (ite_eq_self g.id), c2.apply_fields _ _ (hg.terminalId.restored doc),
    c3.apply_fields _ _ (hg.dataTime.restored doc),
    c4.apply_fields _ _ (rfl : (if zeroDouble g.lon then 0 else g.lon) = _),
    c5.apply_fields _ _ (rfl : (if zeroDouble g.lat then 0 else g.lat) = _),
    c6.apply_fields _ _ (rfl : (if zeroFloat g.speed then 0 else g.speed) = _),
    c7.apply_fields _ _ (ite_eq_self g.altitude), c8.apply_fields _ _ (ite_eq_self g.locType),
    c9.apply_fields _ _ (ite_eq_self g.gpsStatus),
    c10.apply_fields _ _ (rfl : (if zeroFloat g.direction then 0 else g.direction) = _),
    c11.apply_fields _ _ (ite_eq_self g.satellite)] at hparse
  rw [GpsData.parseFrom, GpsData.text, GpsData.writeTo]
  show (GpsData.format lib).parse (_ ++ lib.unknown.writeTo g.unknownFields) = _
  rw [hg.unknownFields, doc.writeTo_empty, List.append_nil]
  exact hparse

-- Both zeros are read as the same one.
theorem doubleToLongBits_iff (x : BitVec 64) :
    doubleToLongBits (if zeroDouble x then 0 else x) = doubleToLongBits x ↔ x ≠ BitVec.intMin 64 := by
  by_cases hneg : x = BitVec.intMin 64
  · subst hneg
    decide
  · refine iff_of_true ?_ hneg
    split_ifs with hzero
    · rw [hzero.resolve_right hneg]
    · rfl

theorem floatToIntBits_iff (x : BitVec 32) :
    floatToIntBits (if zeroFloat x then 0 else x) = floatToIntBits x ↔ x ≠ BitVec.intMin 32 := by
  by_cases hneg : x = BitVec.intMin 32
  · subst hneg
    decide
  · refine iff_of_true ?_ hneg
    split_ifs with hzero
    · rw [hzero.resolve_right hneg]
    · rfl

-- None of the four numbers is a negative zero.
def GpsData.Unsigned (g : GpsData U) : Prop :=
  g.lon ≠ BitVec.intMin 64 ∧ g.lat ≠ BitVec.intMin 64 ∧ g.speed ≠ BitVec.intMin 32 ∧ g.direction ≠ BitVec.intMin 32

theorem GpsData.restored_equals_iff [DecidableEq U] {g : GpsData U} (other : GpsData U) (hother : other.id = g.id ∧
    other.lon = g.lon ∧ other.lat = g.lat ∧ other.speed = g.speed ∧ other.altitude = g.altitude ∧
    other.locType = g.locType ∧ other.gpsStatus = g.gpsStatus ∧ other.direction = g.direction ∧
    other.satellite = g.satellite ∧ other.unknownFields = lib.unknown.empty) :
    (g.restored lib).equals lib other = true ↔
      g.Unsigned ∧ Utf8.decode (Utf8.encode (g.terminalId.getString lib)) = other.terminalId.getString lib ∧
        Utf8.decode (Utf8.encode (g.dataTime.getString lib)) = other.dataTime.getString lib := by
  obtain ⟨hid, hlon, hlat, hspeed, haltitude, hlocType, hgpsStatus, hdirection, hsatellite, hunknown⟩ := hother
  simp only [GpsData.equals, GpsData.restored, hid, hlon, hlat, hspeed, haltitude, hlocType, hgpsStatus, hdirection,
    hsatellite, hunknown, decide_eq_true_eq, true_and, and_true, doubleToLongBits_iff, floatToIntBits_iff, Unsigned,
    Ref.getString]
  tauto

-- A GPS record is read as it has been written, negative zeros apart, and as it was before, lone surrogates apart.
theorem gps_roundTrip_iff [DecidableEq U] (doc : lib.Documented) {g : GpsData U} (hg : g.WellFormed lib) :
    ∃ bytes written read, g.toByteArray lib = some (bytes, written) ∧ GpsData.parseFrom lib bytes = some read ∧
      (read.equals lib written = true ↔ g.Unsigned) ∧
      (read.equals lib g = true ↔
        g.Unsigned ∧ Utf8.paired (g.terminalId.getString lib) ∧ Utf8.paired (g.dataTime.getString lib)) := by
  refine ⟨_, _, _, GpsData.toByteArray_eq doc hg, GpsData.parseFrom_text doc hg, ?_, ?_⟩
  · rw [GpsData.restored_equals_iff (g := g) (g.written lib)
      ⟨rfl, rfl, rfl, rfl, rfl, rfl, rfl, rfl, rfl, hg.unknownFields⟩]
    exact and_iff_left ⟨(hg.terminalId.getString_getBytes doc).symm, (hg.dataTime.getString_getBytes doc).symm⟩
  · rw [GpsData.restored_equals_iff g ⟨rfl, rfl, rfl, rfl, rfl, rfl, rfl, rfl, rfl, hg.unknownFields⟩,
      Utf8.decode_encode_iff, Utf8.decode_encode_iff]

-- The record of TestProtobuf.
def gpsData : GpsData Unit :=
  { GpsData.new CodedStream.library with
    id := 10
    altitude := 10
    direction := 0x41A00000#32 }

theorem gps_roundTrip_gpsData : ∃ bytes written read,
    gpsData.toByteArray CodedStream.library = some (bytes, written) ∧
      GpsData.parseFrom CodedStream.library bytes = some read ∧ read.equals CodedStream.library written = true ∧
      read.equals CodedStream.library gpsData = true := by
  have hgpsData : gpsData.WellFormed CodedStream.library :=
    { terminalId := by
        show (Utf8.encode []).length < 2 ^ 31
        decide
      dataTime := by
        show (Utf8.encode []).length < 2 ^ 31
        decide
      unknownFields := rfl
      length_text := by decide
      memoizedSize := Or.inl rfl }
  obtain ⟨bytes, written, read, hwritten, hread, hafter, hbefore⟩ :=
    gps_roundTrip_iff CodedStream.library_documented hgpsData
  have hunsigned : gpsData.Unsigned := by
    unfold GpsData.Unsigned
    decide
  exact ⟨bytes, written, read, hwritten, hread, hafter.mpr hunsigned, hbefore.mpr ⟨hunsigned, by decide, by decide⟩⟩

end RoundTrip

end RichardTest.Protobuf
