import RichardTest.DtParser.Texts
import RichardTest.DtParserPy.Theorems

namespace RichardTest.DtParser

open RichardTest.Http (CString strlen lit upToNul chars_append)
open RichardTest.Json (Value quote render renderMembers renderElems renderMembers_append parse plain blank
  run_append run_openObj run_render parse_render Plain Same)
open RichardTest.DtParserPy (takeFields slice)

section Render

-- The literals in front of the first value of an object and of any other one.
def firstLit (key : String) : List Char := '\x7b' :: (quote key.toList ++ [':', '"'])

def nextLit (key : String) : List Char := '"' :: ',' :: (quote key.toList ++ [':', '"'])

-- The literals of the fields name these keys.
def Names (fields keys : List (String × Nat)) : Prop :=
  fields.map (fun f => ((lit f.1).chars, f.2)) = keys.map fun f => (nextLit f.1, f.2)

theorem chars_sub (t : CString) (i n : Nat) : (sub t i n).chars = slice t.chars i (i + n) := by
  rw [sub, slice, Nat.add_sub_cancel_left]

variable (t : CString)

theorem fieldsText_next (fields keys : List (String × Nat)) (h : Names fields keys) (i : Nat) :
    (fieldsText t fields i).chars ++ ['"'] = '"' :: renderMembers [] (takeFields t.chars keys i) := by
  induction fields generalizing keys i with
  | nil =>
      obtain rfl : keys = [] := by simpa [Names] using h.symm
      rfl
  | cons field fields ih =>
      cases keys with
      | nil => simp [Names] at h
      | cons key keys =>
          obtain ⟨text, n⟩ := field
          obtain ⟨key, n'⟩ := key
          simp only [Names, List.map_cons, List.cons.injEq, Prod.mk.injEq] at h
          obtain ⟨⟨hlit, rfl⟩, hrest⟩ := h
          rw [fieldsText, chars_append, chars_append, hlit, List.append_assoc, ih keys hrest, takeFields,
            renderMembers, render, chars_sub]
          simp [nextLit, quote]

theorem fieldsText_first (text : String) (n : Nat) (fields : List (String × Nat)) (key : String)
    (keys : List (String × Nat)) (htext : (lit text).chars = firstLit key) (h : Names fields keys) (i : Nat)
    (tail : List Char) :
    (fieldsText t ((text, n) :: fields) i).chars ++ '"' :: tail =
      '\x7b' :: (quote key.toList ++ ':' :: ([] ++ render [] (.str (slice t.chars i (i + n)))) ++
        renderMembers [] (takeFields t.chars keys (i + n))) ++ tail := by
  have hnext : (fieldsText t fields (i + n)).chars ++ '"' :: tail =
      '"' :: (renderMembers [] (takeFields t.chars keys (i + n)) ++ tail) := by
    rw [← List.singleton_append, ← List.append_assoc, fieldsText_next t fields keys h]
    rfl
  rw [fieldsText, chars_append, chars_append, htext, chars_sub, render, List.append_assoc, hnext]
  simp [firstLit, quote]

theorem fieldsText_render (text : String) (n : Nat) (fields : List (String × Nat)) (key : String)
    (keys : List (String × Nat)) (htext : (lit text).chars = firstLit key) (h : Names fields keys) (i : Nat)
    (more : List (List Char × Value)) :
    (fieldsText t ((text, n) :: fields) i).chars ++ '"' :: (renderMembers [] more ++ ['\x7d']) =
      render [] (.obj (takeFields t.chars ((key, n) :: keys) i ++ more)) := by
  have hmembers : takeFields t.chars ((key, n) :: keys) i ++ more =
    (key.toList, .str (slice t.chars i (i + n))) :: (takeFields t.chars keys (i + n) ++ more) := rfl
  rw [hmembers, render, renderMembers_append, fieldsText_first t text n fields key keys htext h]
  simp

-- The texts of the C parser are those of the values that the Python program takes from the same place.
theorem evtDtText_render (j i : Nat) :
    (evtDtText t j i).chars =
      (if j > 0 then [','] else []) ++ render [] (.obj (takeFields t.chars DtParserPy.evtDtFields i)) := by
  have hclose : (lit "\"\x7d").chars = ['"', '\x7d'] := rfl
  have hcomma : (if j > 0 then lit "," else lit "").chars = if j > 0 then [','] else [] := by
    split_ifs <;> rfl
  have hfields := fieldsText_render t "\x7b\"date\":\"" 6 evtDtFields.tail "date" DtParserPy.evtDtFields.tail
    rfl rfl i []
  rw [List.append_nil] at hfields
  rw [evtDtText, chars_append, chars_append, hcomma, hclose, List.append_assoc]
  exact congrArg _ hfields

theorem evtLoopText_render (rounds j i : Nat) :
    (evtLoopText t rounds (j + 1) i).chars = renderElems [] (DtParserPy.evtLoop t.chars rounds i) := by
  induction rounds generalizing j i with
  | zero => rfl
  | succ rounds ih =>
      rw [evtLoopText, chars_append, evtDtText_render, if_pos (Nat.succ_pos j), ih, DtParserPy.evtLoop,
        renderElems]
      rfl

theorem evtText_render : (evtText t).chars = render [] (DtParserPy.prsEvtExt t.chars) := by
  have hopen : (lit "\",\"dt\":[").chars = '"' :: ',' :: (quote "dt".toList ++ [':', '[']) := rfl
  have hclose : (lit "]\x7d").chars = [']', '\x7d'] := rfl
  have hloop : (evtLoopText t 3 0 18).chars = render [] (.obj (takeFields t.chars DtParserPy.evtDtFields 18)) ++
      renderElems [] (DtParserPy.evtLoop t.chars 2 56) := by
    rw [evtLoopText, chars_append, evtDtText_render, evtLoopText_render]
    rfl
  have hthree : DtParserPy.evtLoop t.chars 3 18 =
    .obj (takeFields t.chars DtParserPy.evtDtFields 18) :: DtParserPy.evtLoop t.chars 2 56 := rfl
  have hfields := fieldsText_render t "\x7b\"evt\":\"" 2 [("\",\"fvStdS1\":\"", 16)] "evt" [("fvStdS1", 16)]
    rfl rfl 0 [("dt".toList, .arr (DtParserPy.evtLoop t.chars 3 18))]
  rw [DtParserPy.prsEvtExt, DtParserPy.evtFields, ← hfields, evtText, chars_append, chars_append, chars_append,
    hopen, hclose, hloop, hthree, renderMembers, render, renderMembers, evtFields]
  simp

theorem atText_render : (atText t).chars = render [] (DtParserPy.prsAtExt false t.chars) := by
  have hopen : (lit "\",\"dt\":\"").chars = '"' :: ',' :: (quote "dt".toList ++ [':', '"']) := rfl
  have hclose : (lit "\"\x7d").chars = ['"', '\x7d'] := rfl
  have hfields := fieldsText_render t "\x7b\"date\":\"" 6 [] "date" [] rfl rfl 0
    [("dt".toList, .str (t.chars.drop 6))]
  rw [DtParserPy.prsAtExt, if_neg Bool.false_ne_true, ← hfields, atText, dtText, chars_append, chars_append,
    chars_append, hopen, hclose, renderMembers, render, renderMembers, rest]
  simp [quote]

-- The object with an extension, whose text is that of a value.
theorem objText_render (id : CString) (v : Value) (hext : (extText id (rest t 178)).chars = render [] v) :
    (objText id t).chars =
      render [] (.obj (takeFields t.chars DtParserPy.objFields 0 ++ [("ext".toList, v)])) := by
  have hopen : (lit "\",\"ext\":").chars = '"' :: ',' :: (quote "ext".toList ++ [':']) := rfl
  have hclose : (lit "\x7d").chars = ['\x7d'] := rfl
  have hfields := fieldsText_render t "\x7b\"time\":\"" 12 objFields.tail "time" DtParserPy.objFields.tail
    rfl rfl 0 [("ext".toList, v)]
  rw [show DtParserPy.objFields = ("time", 12) :: DtParserPy.objFields.tail from rfl, ← hfields, objText,
    chars_append, chars_append, chars_append, hopen, hclose, hext, renderMembers, renderMembers]
  simp [objFields]

-- Without an extension nothing stands behind the last colon.
theorem parse_objText_noExt (id : CString) (ht : t.chars.all plain = true)
    (hext : extText id (rest t 178) = lit "") : parse (objText id t).chars = none := by
  have htext : (objText id t).chars = (fieldsText t objFields 0).chars ++
      '"' :: (',' :: (quote "ext".toList ++ [':', '\x7d'])) := by
    rw [objText, hext, append_empty, chars_append, chars_append, List.append_assoc]
    rfl
  have hplain := DtParserPy.plain_takeFields ht DtParserPy.objFields rfl 0
  have hopen := run_openObj (show [].all blank = true from rfl) "time".toList (.str (slice t.chars 0 12))
    (takeFields t.chars DtParserPy.objFields.tail 12) [] (fun m hm => (hplain m hm).1)
    (fun m hm fs => run_render rfl m.2 (hplain m hm).2 fs)
  rw [htext, show objFields = ("\x7b\"time\":\"", 12) :: objFields.tail from rfl,
    fieldsText_first t _ 12 objFields.tail "time" DtParserPy.objFields.tail rfl rfl, parse,
    run_append, hopen, Option.bind_some]
  rfl

-- The value of the extension, where the C parser writes one.
def extValue (id : CString) (s : List Char) : Option Value :=
  if charAt id 3 = '3' then some (DtParserPy.prsEvtExt s)
  else if charAt id 3 = '2' then some (DtParserPy.prsAtExt false s)
  else none

theorem parse_objText (id : CString) (ht : t.chars.all plain = true) :
    parse (objText id t).chars = (extValue id (t.chars.drop 178)).map fun v =>
      .obj (takeFields t.chars DtParserPy.objFields 0 ++ [("ext".toList, v)]) := by
  have hparse : ∀ v, Plain v → (extText id (rest t 178)).chars = render [] v → parse (objText id t).chars =
      some (.obj (takeFields t.chars DtParserPy.objFields 0 ++ [("ext".toList, v)])) := by
    intro v hv hext
    have hplain := DtParserPy.plain_obj ht DtParserPy.objFields rfl 0 _
      (DtParserPy.plain_member "ext" rfl hv)
    have h := parse_render (show [].all blank = true from rfl) _ hplain [] rfl
    rwa [List.append_nil, ← objText_render t id v hext] at h
  have hdrop : (t.chars.drop 178).all plain = true := DtParserPy.plain_drop ht 178
  rw [extValue]
  split_ifs with h3 h2
  · refine hparse _ (DtParserPy.plain_prsEvtExt hdrop) ?_
    rw [extText, if_pos h3, evtText_render]
    rfl
  · refine hparse _ (DtParserPy.plain_prsAtExt hdrop) ?_
    rw [extText, if_neg h3, if_pos h2, atText_render]
    rfl
  · exact parse_objText_noExt t id ht (by rw [extText, if_neg h3, if_neg h2])

end Render

section Agreement

-- A string that holds the header, the data unit and the extension that its own bytes announce.
def Complete (t : CString) : Prop := unitAt t + 186 + extSpan (idOf t) ≤ strlen t

instance (t : CString) : Decidable (Complete t) := inferInstanceAs (Decidable (_ ≤ _))

-- Both parsers print an object, and the objects denote the same fields.
def Agree (t : CString) : Prop :=
  ∃ x out v w, prsDt (cells t 1) = some x ∧ DtParserPy.main t.chars = some out ∧
    parse x.chars = some v ∧ parse out = some w ∧ Same v w

variable (t : CString) (hhex : t.chars.all DtParserPy.isHex = true) (hcomplete : Complete t)

omit hhex hcomplete in
-- The Python program asks for whole bytes where the C parser asks for their last digits.
theorem report_of_not_naked (hnaked : ¬ Naked t) :
    DtParserPy.report t.chars = DtParserPy.objValue (slice t.chars 66 70) (t.chars.drop 70) := by
  refine if_neg fun h => hnaked ?_
  obtain ⟨hctrl, hseq⟩ := h
  have hlast : charAt t 3 = '2' := by
    rw [← charAt_sub t 2 2 1 (by omega), charAt, chars_sub, hctrl]
    rfl
  have hlast' : charAt t 15 = '1' := by
    rw [← charAt_sub t 14 2 1 (by omega), charAt, chars_sub, hseq]
    rfl
  exact ⟨hlast, hlast'⟩

include hhex hcomplete

theorem agree_iff_same :
    Agree t ↔ ¬ Naked t ∧ strlen (headerText t) < 1024 ∧
      strlen (objText (idOf t) (rest t (unitAt t + 8))) < 1024 ∧
      ∃ v, extValue (idOf t) (t.chars.drop (unitAt t + 186)) = some v ∧
        Same (.obj (takeFields (t.chars.drop (unitAt t + 8)) DtParserPy.objFields 0 ++ [("ext".toList, v)]))
          (DtParserPy.objValue (slice t.chars 66 70) (t.chars.drop 70)) := by
  have hplain := DtParserPy.plain_of_hex hhex
  have hlen : 16 ≤ t.chars.length := by
    unfold Complete unitAt strlen at hcomplete
    split_ifs at hcomplete <;> omega
  have hprs := prsDt_eq_some_iff (t := t) (k := 1) Nat.one_pos (Nat.lt_succ_of_le hcomplete)
  obtain ⟨out, hout, hparse⟩ := Option.bind_eq_some_iff.mp (DtParserPy.parse_main hhex hlen)
  have hobj := parse_objText (rest t (unitAt t + 8)) (idOf t) (DtParserPy.plain_drop hplain _)
  rw [rest, List.drop_drop] at hobj
  constructor
  · rintro ⟨x, out', v, w, hx, hout', hv, hw, hsame⟩
    obtain ⟨hnaked, hheader, hfits, rfl⟩ := (hprs x).mp hx
    obtain rfl := Option.some.inj (hout.symm.trans hout')
    obtain rfl := Option.some.inj (hparse.symm.trans hw)
    rw [report_of_not_naked t hnaked] at hsame
    obtain ⟨v, hext, rfl⟩ := Option.map_eq_some_iff.mp (hobj.symm.trans hv)
    exact ⟨hnaked, hheader, hfits, v, hext, hsame⟩
  · rintro ⟨hnaked, hheader, hfits, v, hext, hsame⟩
    rw [← report_of_not_naked t hnaked] at hsame
    rw [hext] at hobj
    exact ⟨_, out, _, _, (hprs _).mpr ⟨hnaked, hheader, hfits, rfl⟩, hout, hobj, hparse, hsame⟩

-- Where the header has an application id, an object of one of the two kinds that both parsers know. Else
-- the C parser reads 46 characters before the Python program, and they have to find the same there.
def SameReport (t : CString) : Prop :=
  if charAt t 15 = '0' then
    sub t 66 4 = lit "8003" ∧ strlen t + 68 < 1024 ∨ sub t 66 4 = lit "8002" ∧ strlen t + 140 < 1024
  else
    ¬ Naked t ∧ charAt t 23 = '3' ∧ sub t 66 4 = lit "8003" ∧ sub t 24 310 = sub t 70 310 ∧ strlen t + 57 < 1024

instance (t : CString) : Decidable (SameReport t) := inferInstanceAs (Decidable (ite _ _ _))

omit hhex hcomplete in
theorem slice_eq_iff (text : String) : slice t.chars 66 70 = (lit text).chars ↔ sub t 66 4 = lit text := by
  rw [CString.ext_iff, chars_sub]

theorem agree_iff_of_appId (h0 : charAt t 15 = '0') :
    Agree t ↔
      sub t 66 4 = lit "8003" ∧ strlen t + 68 < 1024 ∨ sub t 66 4 = lit "8002" ∧ strlen t + 140 < 1024 := by
  have hnaked : ¬ Naked t := fun h => absurd (h0.symm.trans h.2) (by decide)
  have hat : unitAt t = 62 := if_pos h0
  have hid : idOf t = sub t 66 4 := by rw [idOf, hat]
  have h3 : (lit "8003").chars = "8003".toList := rfl
  have h2 : (lit "8002").chars = "8002".toList := rfl
  rw [agree_iff_same t hhex hcomplete, strlen_headerText, if_pos h0, hat, hid]
  constructor
  · rintro ⟨-, hheader, hfits, v, -, hsame⟩
    obtain ⟨-, ⟨hid3, -⟩ | ⟨hid2, -⟩⟩ := DtParserPy.objValue_of_same _ v hsame
    · exact .inl ⟨(slice_eq_iff t _).mp (hid3.trans h3.symm), by omega⟩
    · have hid2 := (slice_eq_iff t _).mp (hid2.trans h2.symm)
      rw [hid2, strlen_objText_at _ _ rfl, strlen_rest] at hfits
      exact .inr ⟨hid2, by omega⟩
  · rintro (⟨hid3, hlen⟩ | ⟨hid2, hlen⟩)
    · refine ⟨hnaked, by omega, ?_, DtParserPy.prsEvtExt (t.chars.drop 248), ?_, ?_⟩
      · rw [hid3]
        have := strlen_objText_evt (lit "8003") (rest t (62 + 8)) rfl
        omega
      · rw [hid3]
        rfl
      · rw [(slice_eq_iff t _).mpr hid3, DtParserPy.objValue, List.drop_drop]
        exact Same.refl _
    · refine ⟨hnaked, by omega, ?_, DtParserPy.prsAtExt false (t.chars.drop 248), ?_, ?_⟩
      · rw [hid2, strlen_objText_at _ _ rfl, strlen_rest]
        omega
      · rw [hid2]
        rfl
      · rw [(slice_eq_iff t _).mpr hid2, DtParserPy.objValue, List.drop_drop]
        exact Same.refl _

theorem agree_iff_of_noAppId (h0 : ¬ charAt t 15 = '0') :
    Agree t ↔ ¬ Naked t ∧ charAt t 23 = '3' ∧ sub t 66 4 = lit "8003" ∧ sub t 24 310 = sub t 70 310 ∧
      strlen t + 57 < 1024 := by
  have hat : unitAt t = 16 := if_neg h0
  have hid : charAt (idOf t) 3 = charAt t 23 := by
    rw [idOf, hat]
    exact charAt_sub t 20 4 3 (by omega)
  have h3 : (lit "8003").chars = "8003".toList := rfl
  have hread := hcomplete
  unfold Complete extSpan at hread
  rw [agree_iff_same t hhex hcomplete, strlen_headerText, if_neg h0, hat]
  rw [hat, hid] at hread
  constructor
  · rintro ⟨hnaked, hheader, hfits, v, hext, hsame⟩
    obtain ⟨hfields, hsame⟩ := DtParserPy.objValue_of_same _ v hsame
    rw [extValue, hid] at hext
    split_ifs at hext with hlast hlast'
    · obtain rfl := Option.some.inj hext
      rcases hsame with ⟨hid3, hsame⟩ | ⟨-, hsame⟩
      · have hevt := DtParserPy.prsEvtExt_of_same hsame
        refine ⟨hnaked, hlast, (slice_eq_iff t _).mp (hid3.trans h3.symm), ?_, by omega⟩
        rw [CString.ext_iff, sub, sub]
        dsimp only
        rw [show 310 = 178 + 132 from rfl, List.take_add, List.take_add, List.drop_drop, hfields, hevt]
      · exact absurd hsame DtParserPy.not_same_evt_at
    · obtain rfl := Option.some.inj hext
      rcases hsame with ⟨-, hsame⟩ | ⟨-, hsame⟩
      · exact absurd hsame DtParserPy.not_same_at_evt
      · -- the extension goes on to the end of the string, which lies 46 characters apart
        have htail := congrArg List.length (DtParserPy.prsAtExt_of_same hsame)
        rw [List.length_drop, List.length_drop, List.length_drop] at htail
        rw [if_neg hlast, if_pos hlast', strlen] at hread
        omega
  · rintro ⟨hnaked, hlast, hid3, hperiod, hlen⟩
    have hperiod : (t.chars.drop 24).take 310 = (t.chars.drop 70).take 310 := CString.ext_iff.mp hperiod
    have hfields := DtParserPy.takeFields_congr hperiod DtParserPy.objFields 0 (by decide)
    have hevt : DtParserPy.prsEvtExt (t.chars.drop 202) = DtParserPy.prsEvtExt ((t.chars.drop 70).drop 178) := by
      have h := DtParserPy.take_drop_congr hperiod 178 132 (by omega)
      rw [List.drop_drop] at h
      exact DtParserPy.prsEvtExt_congr h
    refine ⟨hnaked, by omega, ?_, DtParserPy.prsEvtExt (t.chars.drop 202), ?_, ?_⟩
    · have := strlen_objText_evt (idOf t) (rest t (16 + 8)) (hid.trans hlast)
      omega
    · rw [extValue, if_pos (hid.trans hlast)]
    · rw [(slice_eq_iff t _).mpr hid3, DtParserPy.objValue, hfields, hevt]
      exact Same.refl _

end Agreement

-- On complete hex strings the parsers agree exactly there.
theorem parsers_agree_iff (t : CString) (hhex : t.chars.all DtParserPy.isHex = true) (hcomplete : Complete t) :
    Agree t ↔ SameReport t := by
  rw [SameReport]
  split_ifs with h0
  · exact agree_iff_of_appId t hhex hcomplete h0
  · exact agree_iff_of_noAppId t hhex hcomplete h0

-- The header and the data unit of the frame in the README of the http server, with its byte seq left open.
def frame (seq : String) : CString :=
  upToNul ("88C3BB1BE26238".toList ++ seq.toList ++ List.replicate 46 '0' ++ "03018003".toList ++
    List.replicate 310 '0')

theorem parsers_agree_frame : Agree (frame "80") := by
  have hhex : (frame "80").chars.all DtParserPy.isHex = true := by decide +kernel
  have hcomplete : Complete (frame "80") := by decide +kernel
  have hsame : SameReport (frame "80") := by decide +kernel
  exact (parsers_agree_iff (frame "80") hhex hcomplete).mpr hsame

-- Without its last digit 0 the C parser reads the data unit where the application id stands.
theorem parsers_disagree_frame :
    (frame "81").chars.all DtParserPy.isHex = true ∧ Complete (frame "81") ∧ ¬ Agree (frame "81") := by
  have hhex : (frame "81").chars.all DtParserPy.isHex = true := by decide +kernel
  have hcomplete : Complete (frame "81") := by decide +kernel
  have hseq : ¬ charAt (frame "81") 15 = '0' := by decide
  have hid : ¬ charAt (frame "81") 23 = '3' := by decide
  refine ⟨hhex, hcomplete, fun h => ?_⟩
  exact hid ((agree_iff_of_noAppId (frame "81") hhex hcomplete hseq).mp h).2.1

end RichardTest.DtParser
