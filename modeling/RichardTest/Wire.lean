import Mathlib.Data.List.Basic
import Mathlib.Algebra.Order.Ring.Nat

namespace RichardTest.Wire

abbrev Byte := BitVec 8
abbrev Bytes := List Byte

-- What is read, and the bytes behind it; nothing where an exception is thrown.
abbrev Reader := StateT Bytes Option

section Reading

variable {α β : Type}

-- A reader takes just these bytes for `a`, whatever follows, and fails on every part of them.
structure Reads (read : Reader α) (bytes : Bytes) (a : α) : Prop where
  whole : ∀ rest, read (bytes ++ rest) = some (a, rest)
  cut : ∀ p, p <+: bytes → p ≠ bytes → read p = none

-- The same for the tag in front of a field, where the end of the input is no failure.
structure ReadsTag (readTag : Reader Nat) (header : Bytes) (tag : Nat) : Prop where
  ne_nil : header ≠ []
  whole : ∀ rest, readTag (header ++ rest) = some (tag, rest)
  cut : ∀ p, p <+: header → p ≠ header → p ≠ [] → readTag p = none

-- Nothing is put back.
def Forward (read : Reader α) : Prop := ∀ bytes a rest, read bytes = some (a, rest) → rest.length ≤ bytes.length

theorem Forward.map {x : Reader α} (hx : Forward x) (f : α → β) : Forward (f <$> x) := by
  intro bytes b rest h
  obtain ⟨⟨a, rest'⟩, ha, hb⟩ := Option.bind_eq_some_iff.mp h
  cases hb
  exact hx bytes a rest ha

theorem Forward.bind {x : Reader α} {f : α → Reader β} (hx : Forward x) (hf : ∀ a, Forward (f a)) :
    Forward (x >>= f) := by
  intro bytes b rest h
  obtain ⟨⟨a, rest'⟩, ha, hb⟩ := Option.bind_eq_some_iff.mp h
  exact (hf a rest' b rest hb).trans (hx bytes a rest' ha)

theorem forward_pure (a : α) : Forward (pure a) := by
  intro bytes b rest h
  cases h
  exact Nat.le_refl _

theorem reads_nothing (a : α) : Reads (pure a) [] a where
  whole _ := rfl
  cut _ hp hne := absurd (List.prefix_nil.mp hp) hne

-- A prefix of two texts ends in the first one or behind it.
theorem prefix_append_cases {p a b : Bytes} (h : p <+: a ++ b) :
    (p <+: a ∧ p ≠ a) ∨ ∃ q, p = a ++ q ∧ q <+: b := by
  by_cases hlen : p.length < a.length
  · refine Or.inl ⟨List.prefix_of_prefix_length_le h (List.prefix_append a b) hlen.le, ?_⟩
    rintro rfl
    exact absurd hlen (lt_irrefl _)
  · obtain ⟨q, rfl⟩ := List.prefix_of_prefix_length_le (List.prefix_append a b) h (not_lt.mp hlen)
    exact Or.inr ⟨q, rfl, (List.prefix_append_right_inj a).mp h⟩

theorem Reads.bind {x : Reader α} {f : α → Reader β} {bytes bytes' : Bytes} {a : α} {b : β}
    (hx : Reads x bytes a) (hf : Reads (f a) bytes' b) : Reads (x >>= f) (bytes ++ bytes') b where
  whole rest := by
    show (x _).bind _ = _
    rw [List.append_assoc, hx.whole]
    exact hf.whole rest
  cut p hp hne := by
    show (x _).bind _ = _
    rcases prefix_append_cases hp with ⟨hpre, hne'⟩ | ⟨q, rfl, hq⟩
    · rw [hx.cut p hpre hne']
      rfl
    · rw [hx.whole]
      exact hf.cut q hq fun h => hne (h ▸ rfl)

theorem Reads.map {x : Reader α} {bytes : Bytes} {a : α} (hx : Reads x bytes a) (f : α → β) :
    Reads (f <$> x) bytes (f a) := by
  have h := hx.bind (f := fun a => pure (f a)) (reads_nothing (f a))
  rw [List.append_nil] at h
  exact h

end Reading

section Messages

variable {M : Type}

-- A kind of message: what stands in the switch over the tags. A field that has no case is unknown; where its
-- tag ends the message instead, nothing is read.
structure Format (M : Type) where
  initial : M
  readTag : Reader Nat
  field : Nat → Option (Reader (M → M))
  unknown : Nat → M → Reader (Option M)

-- The loop over the fields, up to the tag zero. A message that ends with another tag is thrown away.
def Format.loop (fmt : Format M) : Nat → M → Reader M
  | 0, _ => failure
  | fuel + 1, m => do
      let tag ← fmt.readTag
      if tag = 0 then pure m
      else
        match fmt.field tag with
        | some read => do
            let set ← read
            fmt.loop fuel (set m)
        | none => do
            let m ← fmt.unknown tag m
            match m with
            | some m => fmt.loop fuel m
            | none => failure

-- Every round but the last one takes a byte.
def Format.parse (fmt : Format M) (bytes : Bytes) : Option M :=
  (fmt.loop (bytes.length + 1) fmt.initial bytes).map Prod.fst

structure Format.Forward (fmt : Format M) : Prop where
  readTag : ∀ bytes tag rest, fmt.readTag bytes = some (tag, rest) → tag ≠ 0 → rest.length < bytes.length
  field : ∀ tag read, fmt.field tag = some read → Wire.Forward read
  unknown : ∀ tag m, Wire.Forward (fmt.unknown tag m)

variable {fmt : Format M}

theorem loop_succ_of_lt (hfmt : fmt.Forward) (fuel : Nat) (m : M) {bytes : Bytes} (h : bytes.length < fuel) :
    fmt.loop (fuel + 1) m bytes = fmt.loop fuel m bytes := by
  induction fuel generalizing m bytes with
  | zero => exact absurd h (Nat.not_lt_zero _)
  | succ fuel ih =>
      rw [Format.loop, Format.loop]
      show (fmt.readTag bytes).bind _ = (fmt.readTag bytes).bind _
      refine Option.bind_congr fun p htag => ?_
      obtain ⟨tag, rest⟩ := p
      by_cases hzero : tag = 0
      · simp only [hzero, if_true]
      have hrest := hfmt.readTag bytes tag rest htag hzero
      simp only [if_neg hzero]
      cases hfield : fmt.field tag with
      | some read =>
          show (read rest).bind _ = (read rest).bind _
          refine Option.bind_congr fun q hread => ?_
          have hle := hfmt.field tag read hfield rest q.1 q.2 hread
          exact ih (q.1 m) (by omega)
      | none =>
          show (fmt.unknown tag m rest).bind _ = (fmt.unknown tag m rest).bind _
          refine Option.bind_congr fun q hread => ?_
          obtain ⟨m', rest'⟩ := q
          have hle := hfmt.unknown tag m rest m' rest' hread
          cases m' with
          | none => rfl
          | some m' => exact ih m' (show rest'.length < fuel by omega)

-- So the loop ends by itself, however often it might go round.
theorem parse_of_lt (hfmt : fmt.Forward) {fuel : Nat} {bytes : Bytes} (h : bytes.length < fuel) :
    (fmt.loop fuel fmt.initial bytes).map Prod.fst = fmt.parse bytes := by
  induction fuel, h using Nat.le_induction with
  | base => rfl
  | succ fuel hlt ih => rw [loop_succ_of_lt hfmt fuel fmt.initial hlt, ih]

-- A field of a message as it is written: its tag, what is behind it, and what reading it does.
structure Field (fmt : Format M) where
  tag : Nat
  header : Bytes
  payload : Bytes
  read : Reader (M → M)
  set : M → M
  tag_ne_zero : tag ≠ 0
  readsTag : ReadsTag fmt.readTag header tag
  known : fmt.field tag = some read
  reads : Reads read payload set

def Field.bytes (f : Field fmt) : Bytes := f.header ++ f.payload

def write (fs : List (Field fmt)) : Bytes := fs.flatMap Field.bytes

-- What a message becomes when the fields are read one after the other.
def apply (fs : List (Field fmt)) (m : M) : M := fs.foldl (fun m f => f.set m) m

theorem Field.bytes_ne_nil (f : Field fmt) : f.bytes ≠ [] := fun h =>
  f.readsTag.ne_nil (List.append_eq_nil_iff.mp h).1

theorem loop_field (f : Field fmt) (fuel : Nat) (m : M) (rest : Bytes) :
    fmt.loop (fuel + 1) m (f.bytes ++ rest) = fmt.loop fuel (f.set m) rest := by
  rw [Field.bytes, List.append_assoc, Format.loop]
  show (fmt.readTag _).bind _ = _
  rw [f.readsTag.whole]
  show (if f.tag = 0 then pure m else _ : Reader M) (f.payload ++ rest) = _
  rw [if_neg f.tag_ne_zero, f.known]
  show (f.read _).bind _ = _
  rw [f.reads.whole]
  rfl

-- A field that ends too early is an error.
theorem loop_cut (f : Field fmt) (fuel : Nat) (m : M) {p : Bytes} (hp : p <+: f.bytes) (hne : p ≠ f.bytes)
    (hnil : p ≠ []) : fmt.loop (fuel + 1) m p = none := by
  rw [Format.loop]
  show (fmt.readTag _).bind _ = _
  rcases prefix_append_cases hp with ⟨hpre, hne'⟩ | ⟨q, rfl, hpre⟩
  · rw [f.readsTag.cut p hpre hne' hnil]
    rfl
  · rw [f.readsTag.whole]
    show (if f.tag = 0 then pure m else _ : Reader M) q = _
    rw [if_neg f.tag_ne_zero, f.known]
    show (f.read _).bind _ = _
    rw [f.reads.cut q hpre fun h => hne (by rw [h]; rfl)]
    rfl

theorem loop_nil (hend : fmt.readTag [] = some (0, [])) (fuel : Nat) (m : M) :
    fmt.loop (fuel + 1) m [] = some (m, []) := by
  rw [Format.loop]
  show (fmt.readTag _).bind _ = _
  rw [hend]
  rfl

theorem length_le_write (fs : List (Field fmt)) : fs.length ≤ (write fs).length := by
  induction fs with
  | nil => exact le_refl 0
  | cons f fs ih =>
      have hpos := List.length_pos_iff.mpr f.bytes_ne_nil
      rw [write, List.flatMap_cons, List.length_append, ← write, List.length_cons]
      omega

-- What the loop accepts of a text of whole fields are whole fields, and it reads them in their order.
theorem loop_prefix (hend : fmt.readTag [] = some (0, [])) (fs : List (Field fmt)) {p rest : Bytes}
    (hp : p <+: write fs) {fuel : Nat} {m m' : M} (h : fmt.loop fuel m p = some (m', rest)) :
    ∃ front back, fs = front ++ back ∧ p = write front ∧ m' = apply front m := by
  induction fs generalizing p fuel m with
  | nil =>
      have hnil : p = [] := List.prefix_nil.mp hp
      cases fuel with
      | zero => cases h
      | succ fuel =>
          rw [hnil, loop_nil hend] at h
          cases h
          exact ⟨[], [], rfl, hnil, rfl⟩
  | cons f fs ih =>
      cases fuel with
      | zero => cases h
      | succ fuel =>
          by_cases hnil : p = []
          · rw [hnil, loop_nil hend] at h
            cases h
            exact ⟨[], f :: fs, rfl, hnil, rfl⟩
          rw [write, List.flatMap_cons, ← write] at hp
          rcases prefix_append_cases hp with ⟨hpre, hne⟩ | ⟨q, rfl, hq⟩
          · rw [loop_cut f fuel m hpre hne hnil] at h
            cases h
          · rw [loop_field] at h
            obtain ⟨front, back, rfl, rfl, rfl⟩ := ih hq h
            exact ⟨f :: front, back, rfl, by rw [write, write, List.flatMap_cons], rfl⟩

theorem loop_write (hend : fmt.readTag [] = some (0, [])) (fs : List (Field fmt)) {fuel : Nat}
    (hfuel : fs.length < fuel) (m : M) : fmt.loop fuel m (write fs) = some (apply fs m, []) := by
  induction fs generalizing fuel m with
  | nil =>
      obtain ⟨k, rfl⟩ := Nat.exists_eq_succ_of_ne_zero (Nat.ne_zero_of_lt hfuel)
      exact loop_nil hend k m
  | cons f fs ih =>
      cases fuel with
      | zero => exact absurd hfuel (Nat.not_lt_zero _)
      | succ fuel =>
          rw [write, List.flatMap_cons, ← write, loop_field, ih (Nat.lt_of_succ_lt_succ hfuel)]
          rfl

theorem parse_write (hend : fmt.readTag [] = some (0, [])) (fs : List (Field fmt)) :
    fmt.parse (write fs) = some (apply fs fmt.initial) := by
  rw [Format.parse, loop_write hend fs (Nat.lt_succ_of_le (length_le_write fs))]
  rfl

end Messages

section Layouts

variable {M ι : Type} {fmt : Format M}

-- The messages `value i` that their fields give back, none of which can be left out: `size` says how many are needed.
structure Layout (fmt : Format M) (ι : Type) where
  end_of_input : fmt.readTag [] = some (0, [])
  value : ι → M
  fields : ι → List (Field fmt)
  size : M → Nat
  size_initial : size fmt.initial = 0
  size_set : ∀ i, ∀ f ∈ fields i, ∀ m, size (f.set m) ≤ size m + 1
  length_fields : ∀ i, (fields i).length = size (value i)
  apply_fields : ∀ i, apply (fields i) fmt.initial = value i

def Layout.bytes (layout : Layout fmt ι) (i : ι) : Bytes := write (layout.fields i)

theorem Layout.parse_bytes (layout : Layout fmt ι) (i : ι) : fmt.parse (layout.bytes i) = some (layout.value i) := by
  rw [bytes, parse_write layout.end_of_input, layout.apply_fields]

theorem write_append (fs gs : List (Field fmt)) : write (fs ++ gs) = write fs ++ write gs :=
  List.flatMap_append

theorem apply_append (fs gs : List (Field fmt)) (m : M) : apply (fs ++ gs) m = apply gs (apply fs m) :=
  List.foldl_append

theorem eq_nil_of_write {fs : List (Field fmt)} (h : write fs = []) : fs = [] := by
  have hlength := length_le_write fs
  rw [h] at hlength
  exact List.length_eq_zero_iff.mp (Nat.le_zero.mp hlength)

-- However a text of fields is cut, the pieces that are read as messages are groups of its fields.
theorem exists_groups (hend : fmt.readTag [] = some (0, [])) (fs : List (Field fmt)) {bufs : List Bytes}
    (hbufs : bufs.flatten = write fs) {ms : List M} (hparse : bufs.map fmt.parse = ms.map some) :
    ∃ groups : List (List (Field fmt)), groups.flatten = fs ∧ bufs = groups.map write ∧
      ms = groups.map fun group => apply group fmt.initial := by
  induction bufs generalizing fs ms with
  | nil =>
      rw [List.map_nil] at hparse
      exact ⟨[], (eq_nil_of_write hbufs.symm).symm, rfl, List.map_eq_nil_iff.mp hparse.symm⟩
  | cons buf bufs ih =>
      cases ms with
      | nil => cases hparse
      | cons m ms =>
          rw [List.map_cons, List.map_cons, List.cons.injEq] at hparse
          rw [List.flatten_cons] at hbufs
          obtain ⟨⟨m', rest⟩, hloop, rfl⟩ := Option.map_eq_some_iff.mp hparse.1
          obtain ⟨front, back, rfl, rfl, rfl⟩ := loop_prefix hend fs ⟨bufs.flatten, hbufs⟩ hloop
          rw [write_append, List.append_cancel_left_eq] at hbufs
          obtain ⟨groups, rfl, rfl, rfl⟩ := ih back hbufs hparse.2
          exact ⟨front :: groups, rfl, rfl, rfl⟩

theorem size_apply_le {size : M → Nat} {fs : List (Field fmt)}
    (hsize : ∀ f ∈ fs, ∀ m, size (f.set m) ≤ size m + 1) (m : M) : size (apply fs m) ≤ size m + fs.length := by
  induction fs generalizing m with
  | nil => exact le_refl _
  | cons f fs ih =>
      have hset := hsize f List.mem_cons_self m
      have hrest := ih (fun g hg => hsize g (List.mem_cons_of_mem f hg)) (f.set m)
      rw [List.length_cons]
      calc size (apply (f :: fs) m) ≤ size (f.set m) + fs.length := hrest
        _ ≤ size m + (fs.length + 1) := by omega

-- A group that is read as the message `value i` is as long as the fields of `i`.
theorem Layout.length_fields_le (layout : Layout fmt ι) {i : ι} {group : List (Field fmt)}
    (hsize : ∀ f ∈ group, ∀ m, layout.size (f.set m) ≤ layout.size m + 1)
    (hvalue : layout.value i = apply group fmt.initial) : (layout.fields i).length ≤ group.length := by
  have hle := size_apply_le hsize fmt.initial
  rw [layout.size_initial, Nat.zero_add, ← hvalue] at hle
  exact (layout.length_fields i).trans_le hle

theorem Layout.length_flatMap_le (layout : Layout fmt ι) (is : List ι) {groups : List (List (Field fmt))}
    (hsize : ∀ f ∈ groups.flatten, ∀ m, layout.size (f.set m) ≤ layout.size m + 1)
    (hvalue : is.map layout.value = groups.map fun group => apply group fmt.initial) :
    (is.flatMap layout.fields).length ≤ groups.flatten.length := by
  induction is generalizing groups with
  | nil => exact Nat.zero_le _
  | cons i is ih =>
      cases groups with
      | nil => cases hvalue
      | cons group groups =>
          rw [List.map_cons, List.map_cons, List.cons.injEq] at hvalue
          have hhead := layout.length_fields_le (fun f hf => hsize f (List.mem_append_left _ hf)) hvalue.1
          have htail := ih (fun f hf => hsize f (List.mem_append_right _ hf)) hvalue.2
          rw [List.flatMap_cons, List.flatten_cons, List.length_append, List.length_append]
          exact Nat.add_le_add hhead htail

-- No group is shorter than the fields of its message, so none is longer either.
theorem Layout.groups_eq (layout : Layout fmt ι) (is : List ι) {groups : List (List (Field fmt))}
    (hflat : groups.flatten = is.flatMap layout.fields)
    (hsize : ∀ f ∈ groups.flatten, ∀ m, layout.size (f.set m) ≤ layout.size m + 1)
    (hvalue : is.map layout.value = groups.map fun group => apply group fmt.initial) :
    groups = is.map layout.fields := by
  induction is generalizing groups with
  | nil => exact List.map_eq_nil_iff.mp hvalue.symm
  | cons i is ih =>
      cases groups with
      | nil => cases hvalue
      | cons group groups =>
          rw [List.map_cons, List.map_cons, List.cons.injEq] at hvalue
          have hhead := layout.length_fields_le (fun f hf => hsize f (List.mem_append_left _ hf)) hvalue.1
          have htail := layout.length_flatMap_le is (fun f hf => hsize f (List.mem_append_right _ hf)) hvalue.2
          rw [List.flatten_cons, List.flatMap_cons] at hflat
          have hlength := congrArg List.length hflat
          rw [List.length_append, List.length_append] at hlength
          obtain ⟨rfl, hrest⟩ := List.append_inj hflat (by omega)
          rw [List.map_cons, ih hrest (fun f hf => hsize f (List.mem_append_right _ hf)) hvalue.2]

theorem Layout.write_flatMap (layout : Layout fmt ι) (is : List ι) :
    write (is.flatMap layout.fields) = (is.map layout.bytes).flatten := by
  induction is with
  | nil => rfl
  | cons i is ih => rw [List.flatMap_cons, write_append, ih, List.map_cons, List.flatten_cons, bytes]

-- Messages that follow each other in a stream are read back from its pieces where, and only where, the pieces are
-- the messages.
theorem Layout.split_iff (layout : Layout fmt ι) (is : List ι) {bufs : List Bytes}
    (hbufs : bufs.flatten = (is.map layout.bytes).flatten) :
    bufs.map fmt.parse = (is.map layout.value).map some ↔ bufs = is.map layout.bytes := by
  constructor
  · intro hparse
    obtain ⟨groups, hgroups, rfl, hvalue⟩ :=
      exists_groups layout.end_of_input _ (hbufs.trans (layout.write_flatMap is).symm) hparse
    have hsize : ∀ f ∈ groups.flatten, ∀ m, layout.size (f.set m) ≤ layout.size m + 1 := by
      intro f hf
      rw [hgroups] at hf
      obtain ⟨i, -, hfield⟩ := List.mem_flatMap.mp hf
      exact layout.size_set i f hfield
    rw [layout.groups_eq is hgroups hsize hvalue, List.map_map]
    rfl
  · rintro rfl
    rw [List.map_map, List.map_map]
    exact List.map_congr_left fun i _ => layout.parse_bytes i

end Layouts

end RichardTest.Wire
