import RichardTest.DtParser.Agreement

namespace RichardTest.DtParser

open RichardTest.Http (CString strlen lit upToNul sprintf filled chars_append)
open RichardTest.Json (Value quote render renderMembers parse plain blank parse_render leaves leavesElems
  leavesMembers leavesMembers_append Distinct)
open RichardTest.DtParser.Sized (Sizes Usable)
open RichardTest.DtParserPy (takeFields slice keys_takeFields slice_eq)

section Bounds

-- How far the parser reads at fixed offsets.
theorem read_lt (t : CString) : unitAt t + 186 + extSpan (idOf t) ≤ 380 := by
  unfold unitAt extSpan
  split_ifs <;> omega

theorem charAt_idOf (t : CString) : charAt (idOf t) 3 = charAt t (unitAt t + 7) := charAt_sub t _ 4 3 (by omega)

-- The texts for which every write of the parser stays inside of its array.
def WritesFit (t : CString) : Prop :=
  ¬ Naked t ∧ strlen t + 57 + (if charAt t 15 = '0' then 11 else 0) < 1024 ∧
    (charAt t (unitAt t + 7) = '2' → strlen t < 822 + unitAt t)

instance (t : CString) : Decidable (WritesFit t) := inferInstanceAs (Decidable (_ ∧ _ ∧ _))

end Bounds

-- The body of the http server has 1024 cells. No read leaves them, and so the parser fails at writes only.
theorem prsDt_writes_iff (t : CString) (ht : strlen t ≤ 1023) :
    (prsDt (filled 1024 t.chars)).isSome ↔ WritesFit t := by
  have hmem : filled 1024 t.chars = cells t (1024 - strlen t) := rfl
  have hread := read_lt t
  rw [hmem, Option.isSome_iff_exists]
  simp only [prsDt_eq_some_iff (t := t) (k := 1024 - strlen t) (by omega) (by omega), strlen_headerText,
    strlen_report_lt_iff t (show 624 < 1024 by decide), charAt_idOf, WritesFit]
  constructor
  · rintro ⟨x, hnaked, hheader, hreport, -⟩
    exact ⟨hnaked, by omega, fun h2 => by have := hreport h2; omega⟩
  · rintro ⟨hnaked, hheader, hreport⟩
    exact ⟨_, hnaked, by omega, fun h2 => by have := hreport h2; omega, rfl⟩

theorem prsDt_writes_frame : (prsDt (filled 1024 (frame "80").chars)).isSome :=
  (prsDt_writes_iff (frame "80") (by decide +kernel)).mpr (by decide +kernel)

-- The array of the bare data is cleared with the size of another one, which is twice as large.
theorem prsDt_overflows_naked :
    strlen (lit "0002000000000001") ≤ 1023 ∧
      ¬ (prsDt (filled 1024 (lit "0002000000000001").chars)).isSome = true := by
  have hmem : filled 1024 (lit "0002000000000001").chars =
    cells (lit "0002000000000001") (1024 - strlen (lit "0002000000000001")) := rfl
  have hlen : strlen (lit "0002000000000001") = 16 := rfl
  have hnaked : Naked (lit "0002000000000001") := by decide
  have hread := read_lt (lit "0002000000000001")
  refine ⟨by omega, ?_⟩
  rw [hmem, prsDt_eq (by omega) (by omega)]
  simp only [if_pos hnaked, Option.bind_fun_none, Option.isSome_none, Bool.false_eq_true, not_false_eq_true]

section Large

-- Every array has room for the whole input and for what the parser adds to it, and `dt_obj`, which is
-- cleared with the size of `dt`, is not the smaller one.
structure Large (z : Sizes) (t : CString) : Prop where
  room : ∀ size ∈ [z.dt, z.ctrl, z.seq, z.dtObj, z.dtU, z.id, z.objDt, z.evtDt, z.tmp, z.atDt],
    strlen t + 1024 ≤ size
  cleared : z.dt ≤ z.dtObj

variable {z : Sizes} {t : CString} (hlarge : Large z t)

include hlarge

theorem Large.usable : Usable z := by
  have hroom := hlarge.room
  simp only [List.forall_mem_cons] at hroom
  constructor <;> omega

theorem reportArray_of_large (id : CString) (i : Nat) :
    reportArray z id (rest t i) = some (objText id (rest t i)) := by
  have hroom := hlarge.room
  simp only [List.forall_mem_cons] at hroom
  have hobj := strlen_objText id (rest t i)
  have hevt := strlen_evtText (rest (rest t i) 178)
  have hat := strlen_atText (rest (rest t i) 178)
  have hempty : strlen (lit "") = 0 := rfl
  rw [strlen_rest, strlen_rest] at hat
  rw [extText, strlen_rest] at hobj
  rw [reportArray, extArray]
  split_ifs at hobj ⊢
  · rw [bind_sprintf (by omega), sprintf_of_lt (by omega)]
  · rw [bind_sprintf (by omega), sprintf_of_lt (by omega)]
  · rw [Option.bind_some, sprintf_of_lt (by omega)]

-- Then the parser returns, and this is its text.
def reportText (t : CString) : CString :=
  if Naked t then nakedText t (unitAt t) else objText (idOf t) (rest t (unitAt t + 8))

theorem prsDt_of_large {k : Nat} (hk : 0 < k) (hread : 380 < strlen t + k) :
    Sized.prsDt z (cells t k) = some (reportText t) := by
  have hroom := hlarge.room
  simp only [List.forall_mem_cons] at hroom
  have hheader := strlen_headerText t
  have hunit := strlen_unitText (rest t (unitAt t))
  have hnaked := strlen_nakedText t (unitAt t)
  have hclear : memset z.dtObj z.dt = some () := if_pos hlarge.cleared
  have hreach := read_lt t
  rw [strlen_rest] at hunit
  rw [sized_prsDt_eq hk hlarge.usable (by omega), reportArray_of_large hlarge, hclear, bind_sprintf, reportText]
  · split_ifs
    · rw [Option.bind_some, sprintf_of_lt (by omega)]
    · rw [bind_sprintf (by omega)]
  · split_ifs at hheader <;> omega

end Large

section WellFormed

-- An object that the text of a parser holds, with no member of one name twice.
def WellFormed (x : CString) : Prop := ∃ ms, parse x.chars = some (.obj ms) ∧ Distinct (.obj ms)

variable {s : List Char}

theorem distinct_takeFields (fields : List (String × Nat)) (i : Nat) : ∀ m ∈ takeFields s fields i, Distinct m.2 := by
  induction fields generalizing i with
  | nil => exact List.forall_mem_nil _
  | cons field fields ih =>
      rw [takeFields, List.forall_mem_cons]
      exact ⟨.str _, ih _⟩

theorem distinct_obj (fields : List (String × Nat)) (i : Nat) (more : List (List Char × Value))
    (hkeys : (fields.map (fun f => f.1.toList) ++ more.map Prod.fst).Nodup) (hmore : ∀ m ∈ more, Distinct m.2) :
    Distinct (.obj (takeFields s fields i ++ more)) := by
  refine .obj _ ?_ (List.forall_mem_append.mpr ⟨distinct_takeFields fields i, hmore⟩)
  rw [List.map_append, keys_takeFields]
  exact hkeys

theorem distinct_member (fields : List (String × Nat)) (i : Nat) (key : String) {v : Value} (hv : Distinct v)
    (hkeys : (fields.map (fun f => f.1.toList) ++ [key.toList]).Nodup) :
    Distinct (.obj (takeFields s fields i ++ [(key.toList, v)])) :=
  distinct_obj fields i _ hkeys (List.forall_mem_singleton.mpr hv)

theorem distinct_evtLoop (rounds i : Nat) : ∀ v ∈ DtParserPy.evtLoop s rounds i, Distinct v := by
  induction rounds generalizing i with
  | zero => exact List.forall_mem_nil _
  | succ rounds ih =>
      have hround := distinct_obj (s := s) DtParserPy.evtDtFields i [] (by decide) (List.forall_mem_nil _)
      rw [List.append_nil] at hround
      rw [DtParserPy.evtLoop, List.forall_mem_cons]
      exact ⟨hround, ih _⟩

theorem distinct_extValue (id : CString) (v : Value) (hv : extValue id s = some v) : Distinct v := by
  rw [extValue] at hv
  split_ifs at hv
  · obtain rfl := Option.some.inj hv
    exact distinct_member DtParserPy.evtFields 0 "dt" (.arr _ (distinct_evtLoop 3 18)) (by decide)
  · obtain rfl := Option.some.inj hv
    exact distinct_member [("date", 6)] 0 "dt" (.str _) (by decide)

theorem wellFormed_objText_iff (id t : CString) (ht : t.chars.all plain = true) :
    WellFormed (objText id t) ↔ charAt id 3 = '3' ∨ charAt id 3 = '2' := by
  rw [WellFormed, parse_objText t id ht]
  constructor
  · rintro ⟨ms, hparse, -⟩
    obtain ⟨v, hv, -⟩ := Option.map_eq_some_iff.mp hparse
    rw [extValue] at hv
    split_ifs at hv with h3 h2
    · exact .inl h3
    · exact .inr h2
  · intro hid
    obtain ⟨v, hv⟩ : ∃ v, extValue id (t.chars.drop 178) = some v := by
      rw [extValue]
      split_ifs with h3 h2
      · exact ⟨_, rfl⟩
      · exact ⟨_, rfl⟩
      · exact absurd hid (not_or.mpr ⟨h3, h2⟩)
    rw [hv]
    exact ⟨_, rfl, distinct_member DtParserPy.objFields 0 "ext" (distinct_extValue id v hv) (by decide)⟩

theorem wellFormed_nakedText (t : CString) (ht : t.chars.all plain = true) (i : Nat) :
    WellFormed (nakedText t i) := by
  have hdata : Distinct (.str (t.chars.drop i)) := .str _
  have hplain := DtParserPy.plain_obj ht [] rfl 0 _
    (DtParserPy.plain_member "dt" rfl (.str _ (DtParserPy.plain_drop ht i)))
  have hparse := parse_render (show [].all blank = true from rfl) _
    (DtParserPy.plain_obj ht [] rfl 0 _ (DtParserPy.plain_member "ext" rfl hplain)) [] rfl
  refine ⟨_, Eq.trans (congrArg parse ?_) hparse,
    distinct_member (s := t.chars) [] 0 "ext" (distinct_member [] 0 "dt" hdata (by decide)) (by decide)⟩
  have hopen : (lit "\x7b\"ext\":\x7b\"dt\":\"").chars =
    '\x7b' :: (quote "ext".toList ++ ':' :: '\x7b' :: (quote "dt".toList ++ [':', '"'])) := rfl
  have hclose : (lit "\"\x7d\x7d").chars = ['"', '\x7d', '\x7d'] := rfl
  rw [nakedText, chars_append, chars_append, hopen, hclose]
  simp [takeFields, render, renderMembers, quote, rest]

end WellFormed

-- The bare data always is an object. A report is one only if its id names an extension, since else nothing
-- stands behind the name of that member.
theorem prsDt_wellFormed_iff (z : Sizes) (t : CString) (k : Nat) (hk : 0 < k) (hlarge : Large z t)
    (hhex : t.chars.all DtParserPy.isHex = true) (hlen : 450 ≤ strlen t) :
    (∃ x, Sized.prsDt z (cells t k) = some x ∧ WellFormed x) ↔
      Naked t ∨ charAt t (unitAt t + 7) = '3' ∨ charAt t (unitAt t + 7) = '2' := by
  have hplain := DtParserPy.plain_of_hex hhex
  have hreport := prsDt_of_large hlarge hk (by omega)
  have hwell : WellFormed (reportText t) ↔
      Naked t ∨ charAt t (unitAt t + 7) = '3' ∨ charAt t (unitAt t + 7) = '2' := by
    rw [reportText, ← charAt_idOf]
    split_ifs with hnaked
    · exact ⟨fun _ => .inl hnaked, fun _ => wellFormed_nakedText t hplain _⟩
    · rw [wellFormed_objText_iff _ _ (DtParserPy.plain_drop hplain _)]
      exact ⟨.inr, fun h => h.resolve_left hnaked⟩
  rw [← hwell]
  constructor
  · rintro ⟨x, hx, hform⟩
    obtain rfl := Option.some.inj (hreport.symm.trans hx)
    exact hform
  · exact fun hform => ⟨_, hreport, hform⟩

-- A frame of 450 characters with its object id left open, and arrays that hold any text made of it.
def reportFrame (id : String) : CString :=
  upToNul ("88C3BB1BE2623880".toList ++ List.replicate 46 '0' ++ "0301".toList ++ id.toList ++
    List.replicate 380 '0')

def roomy : Sizes := ⟨2048, 2048, 2048, 2048, 2048, 2048, 2048, 2048, 2048, 2048⟩

theorem prsDt_wellFormed_evt :
    ∃ x, Sized.prsDt roomy (cells (reportFrame "8003") 1) = some x ∧ WellFormed x :=
  (prsDt_wellFormed_iff roomy (reportFrame "8003") 1 (by decide) ⟨by decide +kernel, by decide⟩ (by decide +kernel)
    (by decide +kernel)).mpr (.inr (.inl (by decide +kernel)))

theorem prsDt_not_wellFormed :
    Large roomy (reportFrame "8001") ∧ (reportFrame "8001").chars.all DtParserPy.isHex = true ∧
      450 ≤ strlen (reportFrame "8001") ∧
      ¬ ∃ x, Sized.prsDt roomy (cells (reportFrame "8001") 1) = some x ∧ WellFormed x := by
  have hlarge : Large roomy (reportFrame "8001") := ⟨by decide +kernel, by decide⟩
  have hhex : (reportFrame "8001").chars.all DtParserPy.isHex = true := by decide +kernel
  have hlen : 450 ≤ strlen (reportFrame "8001") := by decide +kernel
  have hnaked : ¬ Naked (reportFrame "8001") := by decide
  have hid : ¬ (charAt (idOf (reportFrame "8001")) 3 = '3' ∨ charAt (idOf (reportFrame "8001")) 3 = '2') := by
    decide
  refine ⟨hlarge, hhex, hlen, ?_⟩
  rintro ⟨x, hx, hform⟩
  obtain rfl := Option.some.inj ((prsDt_of_large hlarge (by decide) (by omega)).symm.trans hx)
  rw [reportText, if_neg hnaked,
    wellFormed_objText_iff _ _ (DtParserPy.plain_drop (DtParserPy.plain_of_hex hhex) _)] at hform
  exact hid hform

section Leaves

variable {s : List Char}

-- The values of a run of fields are the characters that it takes.
theorem leaves_takeFields (fields : List (String × Nat)) (i : Nat) :
    leavesMembers (takeFields s fields i) = (s.drop i).take (widths fields) := by
  induction fields generalizing i with
  | nil => rfl
  | cons field fields ih =>
      obtain ⟨key, n⟩ := field
      rw [takeFields, leavesMembers, leaves, ih, slice_eq, widths, List.take_add, List.drop_drop]

theorem leaves_evtLoop (rounds i : Nat) :
    leavesElems (DtParserPy.evtLoop s rounds i) = (s.drop i).take (38 * rounds) := by
  induction rounds generalizing i with
  | zero => rfl
  | succ rounds ih =>
      have hwidths : widths DtParserPy.evtDtFields = 38 := rfl
      rw [DtParserPy.evtLoop, leavesElems, leaves, leaves_takeFields, ih, hwidths, Nat.mul_succ,
        Nat.add_comm (38 * rounds), List.take_add, List.drop_drop]

theorem leaves_prsEvtExt : leaves (DtParserPy.prsEvtExt s) = s.take 132 := by
  have hwidths : widths DtParserPy.evtFields = 18 := rfl
  rw [DtParserPy.prsEvtExt, leaves, leavesMembers_append, leaves_takeFields, hwidths, leavesMembers, leaves,
    leaves_evtLoop, leavesMembers, List.append_nil, List.drop_zero, ← List.take_add]

theorem leaves_prsAtExt : leaves (DtParserPy.prsAtExt false s) = s := by
  have hwidths : widths [("date", 6)] = 6 := rfl
  rw [DtParserPy.prsAtExt, if_neg Bool.false_ne_true, leaves, leavesMembers_append, leaves_takeFields, hwidths,
    leavesMembers, leaves, leavesMembers, List.append_nil, List.drop_zero, List.take_append_drop]

theorem leaves_obj (v : Value) :
    leaves (.obj (takeFields s DtParserPy.objFields 0 ++ [("ext".toList, v)])) = s.take 178 ++ leaves v := by
  have hwidths : widths DtParserPy.objFields = 178 := rfl
  rw [leaves, leavesMembers_append, leaves_takeFields, hwidths, leavesMembers, leavesMembers, List.append_nil,
    List.drop_zero]

-- The parser of the object returns a text, and the leaves of that text are these characters.
def Leaves (id s : CString) (k : Nat) (chars : List Char) : Prop :=
  ∃ x v, prsUpRptDtObj id (cells s k) = some x ∧ parse x.chars = some v ∧ leaves v = chars

variable {t : CString} {k : Nat} (hk : 0 < k) (hhex : t.chars.all DtParserPy.isHex = true)

include hk hhex

theorem leaves_evt (id : CString) (h3 : charAt id 3 = '3') (hlen : 310 ≤ strlen t) :
    Leaves id t k (t.chars.take 310) := by
  have hspan : extSpan id = 132 := if_pos h3
  have hfits := strlen_objText_evt id t h3
  have hparse := parse_objText t id (DtParserPy.plain_of_hex hhex)
  rw [extValue, if_pos h3, Option.map_some] at hparse
  refine ⟨_, _, ?_, hparse, ?_⟩
  · rw [prsUpRptDtObj_eq hk id (by omega), sprintf_of_lt (by omega)]
  · rw [leaves_obj, leaves_prsEvtExt, show 310 = 178 + 132 from rfl, List.take_add]

theorem leaves_at_iff (id : CString) (h2 : charAt id 3 = '2') (hlen : 184 ≤ strlen t) :
    Leaves id t k t.chars ↔ strlen t < 814 := by
  have h3 : ¬ charAt id 3 = '3' := by rw [h2]; decide
  have hspan : extSpan id = 6 := by rw [extSpan, if_neg h3, if_pos h2]
  have hobj := strlen_objText_at id t h2
  have hparse := parse_objText t id (DtParserPy.plain_of_hex hhex)
  rw [extValue, if_neg h3, if_pos h2, Option.map_some] at hparse
  rw [Leaves, prsUpRptDtObj_eq hk id (by omega)]
  constructor
  · rintro ⟨x, v, hx, -⟩
    have := (sprintf_eq_some.mp hx).1
    omega
  · intro hlt
    refine ⟨_, _, sprintf_of_lt (by omega), hparse, ?_⟩
    rw [leaves_obj, leaves_prsAtExt, List.take_append_drop]

end Leaves

-- No character is lost or taken twice, up to the reports that do not fit their array.
theorem prsUpRptDtObj_leaves_iff (id t : CString) (k : Nat) (hk : 0 < k)
    (hhex : t.chars.all DtParserPy.isHex = true) :
    ((charAt id 3 = '3' → 310 ≤ strlen t → Leaves id t k (t.chars.take 310)) ∧
      (charAt id 3 = '2' → 184 ≤ strlen t → Leaves id t k t.chars)) ↔
    ¬ (charAt id 3 = '2' ∧ 814 ≤ strlen t) := by
  constructor
  · rintro ⟨-, hat⟩ ⟨h2, hlen⟩
    have := (leaves_at_iff hk hhex id h2 (by omega)).mp (hat h2 (by omega))
    omega
  · intro hshort
    refine ⟨fun h3 hlen => leaves_evt hk hhex id h3 hlen, fun h2 hlen => ?_⟩
    rw [leaves_at_iff hk hhex id h2 hlen]
    by_contra hge
    exact hshort ⟨h2, Nat.le_of_not_lt hge⟩

theorem prsUpRptDtObj_leaves_evt :
    Leaves (lit "8003") (upToNul (List.replicate 310 '0')) 1 (List.replicate 310 '0') := by
  have h := ((prsUpRptDtObj_leaves_iff (lit "8003") (upToNul (List.replicate 310 '0')) 1 (by decide)
    (by decide +kernel)).mpr (by decide)).1 (by decide) (by decide +kernel)
  have hchars : (upToNul (List.replicate 310 '0')).chars.take 310 = List.replicate 310 '0' := by decide +kernel
  rwa [hchars] at h

theorem prsUpRptDtObj_loses_leaves :
    (upToNul (List.replicate 814 '0')).chars.all DtParserPy.isHex = true ∧
      184 ≤ strlen (upToNul (List.replicate 814 '0')) ∧
      ¬ Leaves (lit "8002") (upToNul (List.replicate 814 '0')) 1 (upToNul (List.replicate 814 '0')).chars := by
  have hhex : (upToNul (List.replicate 814 '0')).chars.all DtParserPy.isHex = true := by decide +kernel
  have hlen : strlen (upToNul (List.replicate 814 '0')) = 814 := by decide +kernel
  refine ⟨hhex, by omega, fun h => ?_⟩
  have := (leaves_at_iff Nat.one_pos hhex (lit "8002") rfl (by omega)).mp h
  omega

end RichardTest.DtParser
