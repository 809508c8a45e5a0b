import RichardTest.Protobuf

namespace RichardTest.Protobuf

open Wire

variable {α β M U : Type} {lib : Library U}

section Documentation

-- What is written of a value under a number is a tag and a payload that is read back as `value a`.
structure Codec.Documented (codec : Codec α β) (readTag : Reader Nat) (wireType : Nat) (valid : α → Prop)
    (value : α → β) where
  header : Nat → Bytes
  payload : α → Bytes
  write_eq : ∀ number a, valid a → codec.write number a = header number ++ payload a
  readsTag : ∀ number, 1 ≤ number → number < 2 ^ 29 → ReadsTag readTag (header number) (number * 8 + wireType)
  reads : ∀ a, valid a → Reads codec.read (payload a) (value a)
  computeSize_eq : ∀ number a, valid a → codec.computeSize number a = BitVec.ofNat 32 (codec.write number a).length
  forward : Forward codec.read

-- The bytes of a string. Those that a builder is given are checked to be in UTF-8.
def Ref.Valid : Ref → Prop
  | .string s => (Utf8.encode s).length < 2 ^ 31
  | .bytes b => ∃ s, b = Utf8.encode s ∧ b.length < 2 ^ 31

def Ref.Encoded (r : Ref) : Prop := ∃ s, r = .bytes (Utf8.encode s) ∧ (Utf8.encode s).length < 2 ^ 31

structure Library.Documented (lib : Library U) where
  copyFromUtf8 : ∀ s, lib.copyFromUtf8 s = Utf8.encode s
  toStringUtf8 : ∀ s, lib.toStringUtf8 (Utf8.encode s) = Utf8.decode (Utf8.encode s)
  end_of_input : lib.readTag [] = some (0, [])
  readTag_lt : ∀ bytes tag rest, lib.readTag bytes = some (tag, rest) → tag ≠ 0 → rest.length < bytes.length
  int64 : lib.int64.Documented lib.readTag 0 (fun _ => True) id
  int32 : lib.int32.Documented lib.readTag 0 (fun _ => True) id
  double : lib.double.Documented lib.readTag 1 (fun _ => True) id
  float : lib.float.Documented lib.readTag 5 (fun _ => True) id
  string : lib.string.Documented lib.readTag 2 Ref.Encoded (Ref.getString lib)
  mergeFieldFrom_forward : ∀ tag u, Forward (lib.unknown.mergeFieldFrom tag u)
  writeTo_empty : lib.unknown.writeTo lib.unknown.empty = []
  getSerializedSize_empty : lib.unknown.getSerializedSize lib.unknown.empty = 0
  toByteArray : ∀ bytes, bytes.length < 2 ^ 31 → lib.toByteArray (BitVec.ofNat 32 bytes.length) bytes = some bytes

theorem Ref.Valid.encoded (doc : lib.Documented) {r : Ref} (hr : r.Valid) : (Ref.bytes (r.getBytes lib)).Encoded := by
  cases r with
  | string s => exact ⟨s, congrArg Ref.bytes (doc.copyFromUtf8 s), hr⟩
  | bytes b =>
      obtain ⟨s, rfl, hlength⟩ := hr
      exact ⟨s, rfl, hlength⟩

-- A string that has been written is read as its bytes are.
theorem Ref.Valid.getString_getBytes (doc : lib.Documented) {r : Ref} (hr : r.Valid) :
    lib.toStringUtf8 (r.getBytes lib) = Utf8.decode (Utf8.encode (r.getString lib)) := by
  cases r with
  | string s => rw [getBytes, doc.copyFromUtf8, doc.toStringUtf8, getString]
  | bytes b =>
      obtain ⟨s, rfl, -⟩ := hr
      rw [getBytes, getString, doc.toStringUtf8, Utf8.decode_encode, Utf8.decode_encode,
        Utf8.codes_words (Utf8.codes_scalar s)]

end Documentation

-- What a field adds to the size of a message is as long as what is written of it.
theorem Codec.Documented.size_eq {codec : Codec α β} {readTag : Reader Nat} {wireType : Nat} {valid : α → Prop}
    {value : α → β} (doc : codec.Documented readTag wireType valid value) (skip : Prop) [Decidable skip] (number : Nat)
    {a : α} (ha : valid a) : (if skip then 0 else codec.computeSize number a) =
      BitVec.ofNat 32 (if skip then [] else codec.write number a).length := by
  split_ifs with hskip
  · rfl
  · exact doc.computeSize_eq number a ha

section Fields

variable {fmt : Format M} {codec : Codec α β} {readTag : Reader Nat} {wireType : Nat} {valid : α → Prop} {value : α → β}
  {doc : codec.Documented readTag wireType valid value} {number : Nat} {set : β → M → M} {a : α}

-- A number whose tag is the one of a case.
structure Case (fmt : Format M) (doc : codec.Documented readTag wireType valid value) (number : Nat)
    (set : β → M → M) : Prop where
  readTag_eq : fmt.readTag = readTag
  number_pos : 1 ≤ number
  number_lt : number < 2 ^ 29
  known : fmt.field (number * 8 + wireType) = some (codec.case set)

-- The field that writeTo makes of a value, if it makes one.
def Case.fields (c : Case fmt doc number set) (skip : Prop) [Decidable skip] (ha : valid a) : List (Field fmt) :=
  if skip then []
  else
    [{ tag := number * 8 + wireType
       header := doc.header number
       payload := doc.payload a
       read := codec.case set
       set := set (value a)
       tag_ne_zero := by
         have := c.number_pos
         omega
       readsTag := by
         rw [c.readTag_eq]
         exact doc.readsTag number c.number_pos c.number_lt
       known := c.known
       reads := (doc.reads a ha).map set }]

variable (c : Case fmt doc number set) (skip : Prop) [Decidable skip] (ha : valid a)

theorem Case.write_fields : write (c.fields skip ha) = if skip then [] else codec.write number a := by
  rw [Case.fields]
  split_ifs with hskip
  · rfl
  · rw [write, List.flatMap_singleton, doc.write_eq number a ha]
    rfl

theorem Case.apply_fields {initial b : β} {m : M} (hb : (if skip then initial else value a) = b)
    (hm : set initial m = m) : apply (c.fields skip ha) m = set b m := by
  rw [← hb, Case.fields]
  split_ifs with hskip
  · exact hm.symm
  · rfl

theorem Case.length_fields : (c.fields skip ha).length = if skip then 0 else 1 := by
  rw [Case.fields]
  split_ifs with hskip
  · rfl
  · rfl

theorem Case.set_of_mem {f : Field fmt} (hf : f ∈ c.fields skip ha) : f.set = set (value a) := by
  rw [Case.fields] at hf
  split_ifs at hf with hskip
  · cases hf
  · rw [List.mem_singleton.mp hf]

end Fields

section Msg

variable (lib) in
def Msg.text (m : Msg U) : Bytes := (m.writeTo lib).1

variable (lib) in
-- A message as it is built, read or written: its size is not known yet or it is right.
structure Msg.WellFormed (m : Msg U) : Prop where
  id : m.id.Valid
  content : m.content.Valid
  unknownFields : m.unknownFields = lib.unknown.empty
  length_text : (m.text lib).length < 2 ^ 31
  memoizedSize : m.memoizedSize = -1 ∨ m.memoizedSize = BitVec.ofNat 32 (m.text lib).length

variable (lib) in
-- What is left behind: the strings have become bytes, and the size is kept.
def Msg.written (m : Msg U) : Msg U :=
  { m with
    id := .bytes (m.id.getBytes lib)
    content := .bytes (m.content.getBytes lib)
    memoizedSize := BitVec.ofNat 32 (m.text lib).length }

theorem Msg.getSerializedSize_eq (doc : lib.Documented) {m : Msg U} (hm : m.WellFormed lib) :
    (m.getSerializedSize lib).1 = BitVec.ofNat 32 (m.text lib).length := by
  by_cases hfresh : m.memoizedSize = -1
  · rw [Msg.getSerializedSize, if_neg (not_not_intro hfresh), Msg.text, Msg.writeTo]
    simp only [Msg.getIdBytes, Msg.getContentBytes, hm.unknownFields, doc.writeTo_empty, doc.getSerializedSize_empty,
      List.append_nil, List.length_append, BitVec.ofNat_add]
    rw [doc.string.size_eq _ _ (hm.id.encoded doc), doc.string.size_eq _ _ (hm.content.encoded doc)]
    exact BitVec.add_zero _
  · rw [Msg.getSerializedSize, if_pos hfresh]
    exact hm.memoizedSize.resolve_left hfresh

theorem Msg.writeTo_getSerializedSize (doc : lib.Documented) {m : Msg U} (hm : m.WellFormed lib) :
    (m.getSerializedSize lib).2.writeTo lib = (m.text lib, m.written lib) := by
  have hsize := Msg.getSerializedSize_eq doc hm
  by_cases hfresh : m.memoizedSize = -1
  · rw [Msg.written, ← hsize, Msg.getSerializedSize, if_neg (not_not_intro hfresh)]
    rfl
  · rw [Msg.written, ← hm.memoizedSize.resolve_left hfresh, Msg.getSerializedSize, if_pos hfresh]
    rfl

theorem Msg.toByteArray_eq (doc : lib.Documented) {m : Msg U} (hm : m.WellFormed lib) :
    m.toByteArray lib = some (m.text lib, m.written lib) := by
  show (lib.toByteArray (m.getSerializedSize lib).1 ((m.getSerializedSize lib).2.writeTo lib).1).map
    (fun bytes => (bytes, ((m.getSerializedSize lib).2.writeTo lib).2)) = _
  rw [Msg.getSerializedSize_eq doc hm, Msg.writeTo_getSerializedSize doc hm, doc.toByteArray _ hm.length_text]
  rfl

theorem Msg.format_forward (doc : lib.Documented) : (Msg.format lib).Forward where
  readTag := doc.readTag_lt
  field tag read h := by
    simp only [Msg.format] at h
    split at h
    · cases h
      exact doc.string.forward.map _
    · cases h
      exact doc.string.forward.map _
    · cases h
  unknown tag m := (doc.mergeFieldFrom_forward tag m.unknownFields).bind fun _ => forward_pure _

end Msg

section GpsData

variable (lib) in
def GpsData.text (g : GpsData U) : Bytes := (g.writeTo lib).1

variable (lib) in
structure GpsData.WellFormed (g : GpsData U) : Prop where
  terminalId : g.terminalId.Valid
  dataTime : g.dataTime.Valid
  unknownFields : g.unknownFields = lib.unknown.empty
  length_text : (g.text lib).length < 2 ^ 31
  memoizedSize : g.memoizedSize = -1 ∨ g.memoizedSize = BitVec.ofNat 32 (g.text lib).length

variable (lib) in
def GpsData.written (g : GpsData U) : GpsData U :=
  { g with
    terminalId := .bytes (g.terminalId.getBytes lib)
    dataTime := .bytes (g.dataTime.getBytes lib)
    memoizedSize := BitVec.ofNat 32 (g.text lib).length }

theorem GpsData.getSerializedSize_eq (doc : lib.Documented) {g : GpsData U} (hg : g.WellFormed lib) :
    (g.getSerializedSize lib).1 = BitVec.ofNat 32 (g.text lib).length := by
  by_cases hfresh : g.memoizedSize = -1
  · rw [GpsData.getSerializedSize, if_neg (not_not_intro hfresh), GpsData.text, GpsData.writeTo]
    simp only [GpsData.getTerminalIdBytes, GpsData.getDataTimeBytes, hg.unknownFields, doc.writeTo_empty,
      doc.getSerializedSize_empty, List.append_nil, List.length_append, BitVec.ofNat_add]
    simp only [doc.int64.size_eq _ _ trivial, doc.string.size_eq _ _ (hg.terminalId.encoded doc),
      doc.string.size_eq _ _ (hg.dataTime.encoded doc), doc.double.size_eq _ _ trivial, doc.float.size_eq _ _ trivial,
      doc.int32.size_eq _ _ trivial]
    exact BitVec.add_zero _
  · rw [GpsData.getSerializedSize, if_pos hfresh]
    exact hg.memoizedSize.resolve_left hfresh

theorem GpsData.writeTo_getSerializedSize (doc : lib.Documented) {g : GpsData U} (hg : g.WellFormed lib) :
    (g.getSerializedSize lib).2.writeTo lib = (g.text lib, g.written lib) := by
  have hsize := GpsData.getSerializedSize_eq doc hg
  by_cases hfresh : g.memoizedSize = -1
  · rw [GpsData.written, ← hsize, GpsData.getSerializedSize, if_neg (not_not_intro hfresh)]
    rfl
  · rw [GpsData.written, ← hg.memoizedSize.resolve_left hfresh, GpsData.getSerializedSize, if_pos hfresh]
    rfl

theorem GpsData.toByteArray_eq (doc : lib.Documented) {g : GpsData U} (hg : g.WellFormed lib) :
    g.toByteArray lib = some (g.text lib, g.written lib) := by
  show (lib.toByteArray (g.getSerializedSize lib).1 ((g.getSerializedSize lib).2.writeTo lib).1).map
    (fun bytes => (bytes, ((g.getSerializedSize lib).2.writeTo lib).2)) = _
  rw [GpsData.getSerializedSize_eq doc hg, GpsData.writeTo_getSerializedSize doc hg, doc.toByteArray _ hg.length_text]
  rfl

theorem GpsData.format_forward (doc : lib.Documented) : (GpsData.format lib).Forward where
  readTag := doc.readTag_lt
  field tag read h := by
    simp only [GpsData.format] at h
    split at h
    all_goals cases h
    · exact doc.int64.forward.map _
    · exact doc.string.forward.map _
    · exact doc.string.forward.map _
    · exact doc.double.forward.map _
    · exact doc.double.forward.map _
    · exact doc.float.forward.map _
    · exact doc.int32.forward.map _
    · exact doc.int32.forward.map _
    · exact doc.int32.forward.map _
    · exact doc.float.forward.map _
    · exact doc.int32.forward.map _
  unknown tag g := (doc.mergeFieldFrom_forward tag g.unknownFields).bind fun _ => forward_pure _

end GpsData

end RichardTest.Protobuf
