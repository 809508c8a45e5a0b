import RichardTest.DtParserPy

namespace RichardTest.DtParserPy

open RichardTest.Json

section Plain

def isHex (c : Char) : Bool := (hexDigit c).isSome

theorem plain_of_isHex (c : Char) (hc : isHex c = true) : plain c = true := by
  rw [plain, decide_eq_true_eq]
  refine ⟨?_, ?_, ?_⟩
  · rintro rfl
    exact absurd hc (by decide)
  · rintro rfl
    exact absurd hc (by decide)
  · unfold isHex hexDigit at hc
    split_ifs at hc with h₁ h₂ h₃
    · exact Nat.le_trans (show 32 ≤ '0'.toNat by decide) h₁.1
    · exact Nat.le_trans (show 32 ≤ 'A'.toNat by decide) h₂.1
    · exact Nat.le_trans (show 32 ≤ 'a'.toNat by decide) h₃.1
    · contradiction

theorem plain_member (key : String) (hkey : key.toList.all plain = true) {v : Value} (hv : Plain v) :
    ∀ m ∈ [(key.toList, v)], m.1.all plain = true ∧ Plain m.2 := by
  intro m hm
  obtain rfl := List.mem_singleton.mp hm
  exact ⟨hkey, hv⟩

variable {s : List Char}

theorem plain_of_hex (hs : s.all isHex = true) : s.all plain = true :=
  List.all_eq_true.mpr fun c hc => plain_of_isHex c (List.all_eq_true.mp hs c hc)

variable (hs : s.all plain = true)

include hs

theorem plain_drop (i : Nat) : (s.drop i).all plain = true :=
  List.all_eq_true.mpr fun c hc => List.all_eq_true.mp hs c (List.mem_of_mem_drop hc)

theorem plain_slice (i j : Nat) : (slice s i j).all plain = true :=
  List.all_eq_true.mpr fun c hc => List.all_eq_true.mp hs c (List.mem_of_mem_drop (List.mem_of_mem_take hc))

theorem plain_takeFields (fields : List (String × Nat))
    (hfields : fields.all (fun f => f.1.toList.all plain) = true) (i : Nat) :
    ∀ m ∈ takeFields s fields i, m.1.all plain = true ∧ Plain m.2 := by
  induction fields generalizing i with
  | nil => simp [takeFields]
  | cons field fields ih =>
      obtain ⟨key, n⟩ := field
      rw [List.all_cons, Bool.and_eq_true] at hfields
      rw [takeFields, List.forall_mem_cons]
      exact ⟨⟨hfields.1, .str _ (plain_slice hs _ _)⟩, ih hfields.2 _⟩

-- An object of fields and one more member.
theorem plain_obj (fields : List (String × Nat)) (hfields : fields.all (fun f => f.1.toList.all plain) = true)
    (i : Nat) (more : List (List Char × Value)) (hmore : ∀ m ∈ more, m.1.all plain = true ∧ Plain m.2) :
    Plain (.obj (takeFields s fields i ++ more)) := by
  have hall := List.forall_mem_append.mpr ⟨plain_takeFields hs fields hfields i, hmore⟩
  exact .obj _ (fun m hm => (hall m hm).1) fun m hm => (hall m hm).2

end Plain

section Report

-- The extension by the object id.
def extMembers (id s : List Char) : List (List Char × Value) :=
  if id = "8003".toList then [("ext".toList, prsEvtExt s)]
  else if id = "8002".toList then [("ext".toList, prsAtExt false s)]
  else []

def objValue (id s : List Char) : Value := .obj (takeFields s objFields 0 ++ extMembers id (s.drop 178))

def IsNakeDt (s : List Char) : Prop := slice s 2 4 = "C2".toList ∧ slice s 14 16 = "81".toList

instance (s : List Char) : Decidable (IsNakeDt s) := inferInstanceAs (Decidable (_ ∧ _))

-- The object that the program prints.
def report (s : List Char) : Value :=
  if IsNakeDt s then .obj [("ext".toList, .obj [("dt".toList, .str (s.drop 62))])]
  else objValue (slice s 66 70) (s.drop 70)

theorem prsUpRptDtObj_eq (id s : List Char) : prsUpRptDtObj false id s = dumps (objValue id s) := by
  rw [prsUpRptDtObj, objValue, extMembers, if_neg (by simp)]
  split_ifs with h₃ h₂
  · rfl
  · rfl
  · rw [List.append_nil]

variable {s : List Char}

theorem int16_nonneg (hs : s.all isHex = true) (hne : s ≠ []) : ∃ x, int16 s = some x ∧ 0 ≤ x := by
  have hfold : ∀ (l : List Char) (x : Int), l.all isHex = true → 0 ≤ x →
      ∃ y, l.foldlM (fun x c => (hexDigit c).map fun d => 16 * x + (d : Int)) x = some y ∧ 0 ≤ y := by
    intro l
    induction l with
    | nil => exact fun x _ hx => ⟨x, rfl, hx⟩
    | cons c l ih =>
        intro x hl hx
        rw [List.all_cons, Bool.and_eq_true] at hl
        obtain ⟨d, hd⟩ := Option.isSome_iff_exists.mp hl.1
        rw [List.foldlM_cons, hd]
        exact ih (16 * x + (d : Int)) hl.2 (by omega)
  obtain ⟨y, hy, hnonneg⟩ := hfold s 0 hs (by omega)
  exact ⟨y, by rw [int16, if_neg hne, hy], hnonneg⟩

theorem loads_dumps (v : Value) (hv : Plain v) : loads (dumps v) = some v := by
  have h := parse_render (show [' '].all blank = true from rfl) v hv [] rfl
  rwa [List.append_nil] at h

-- The dictionaries that the program prints and reads back on its way.
def cmdValue (s : List Char) : Value :=
  .obj (takeFields s cmdFields 0 ++ (takeFields s [("appId", 46)] 16 ++ [("dt".toList, .str (s.drop 62))]))

def unitValue (s : List Char) : Value :=
  .obj (takeFields s unitFields 0 ++ [("dt".toList, .str (s.drop 8))])

theorem loads_prsUpRptCmd (hs : s.all isHex = true) (hlen : 16 ≤ s.length) :
    (prsUpRptCmd s).bind loads = some (cmdValue s) := by
  have hplain := plain_of_hex hs
  have hseq : (slice s 14 16).all isHex = true := List.all_eq_true.mpr fun c hc =>
    List.all_eq_true.mp hs c (List.mem_of_mem_drop (List.mem_of_mem_take hc))
  have hne : slice s 14 16 ≠ [] := by
    refine List.ne_nil_of_length_pos ?_
    rw [slice, List.length_take, List.length_drop]
    omega
  obtain ⟨seq, hseq, hnonneg⟩ := int16_nonneg hseq hne
  have hmore : ∀ m ∈ takeFields s [("appId", 46)] 16 ++ [("dt".toList, .str (s.drop 62))],
      m.1.all plain = true ∧ Plain m.2 := List.forall_mem_append.mpr
    ⟨plain_takeFields hplain _ rfl 16, plain_member "dt" rfl (.str _ (plain_drop hplain 62))⟩
  rw [prsUpRptCmd, hseq]
  simp only [Option.bind_eq_bind, Option.bind_some, List.append_assoc]
  rw [if_pos (Or.inl hnonneg), Option.bind_some]
  exact loads_dumps _ (plain_obj hplain cmdFields rfl 0 _ hmore)

-- The application id is taken from every string, since no hex number is negative.
theorem main_eq (hs : s.all isHex = true) (hlen : 16 ≤ s.length) :
    main s = some (dumps (report s) ++ ['\n']) := by
  have hplain := plain_of_hex hs
  have hunit : loads (prsDtU false (s.drop 62)) = some (unitValue (s.drop 62)) := by
    rw [prsDtU, if_neg Bool.false_ne_true]
    exact loads_dumps _ (plain_obj (plain_drop hplain 62) unitFields rfl 0 _
      (plain_member "dt" rfl (.str _ (plain_drop (plain_drop hplain 62) 8))))
  have hnake : loads (prsDtU true (s.drop 62)) = some (.obj [("dt".toList, .str (s.drop 62))]) := by
    rw [prsDtU, if_pos rfl]
    exact loads_dumps _ (plain_obj hplain [] rfl 0 _ (plain_member "dt" rfl (.str _ (plain_drop hplain 62))))
  have hctrl : item (cmdValue s) "ctrl" = some (slice s 2 4) := rfl
  have hseq : item (cmdValue s) "seq" = some (slice s 14 16) := rfl
  have hdt : item (cmdValue s) "dt" = some (s.drop 62) := rfl
  rw [main, if_neg (List.ne_nil_of_length_pos (by omega))]
  simp only [Option.bind_eq_bind]
  rw [← Option.bind_assoc, loads_prsUpRptCmd hs hlen, Option.bind_some, hctrl, Option.bind_some, hseq,
    Option.bind_some, hdt, Option.bind_some, report]
  by_cases hn : IsNakeDt s
  · have hdec : decide (slice s 2 4 = "C2".toList ∧ slice s 14 16 = "81".toList) = true := decide_eq_true hn
    have hdata : item (.obj [("dt".toList, .str (s.drop 62))]) "dt" = some (s.drop 62) := rfl
    have hobj : prsUpRptDtObj true "8002".toList (s.drop 62) =
      dumps (.obj [("ext".toList, prsAtExt true (s.drop 62))]) := if_pos ⟨rfl, rfl⟩
    rw [hdec, hnake, if_pos hn]
    simp only [Option.bind_some, if_true, hdata, hobj]
    rfl
  · have hdec : decide (slice s 2 4 = "C2".toList ∧ slice s 14 16 = "81".toList) = false := decide_eq_false hn
    have hid : item (unitValue (s.drop 62)) "id" = some (slice s 66 70) := by
      rw [← show slice (s.drop 62) 4 8 = slice s 66 70 by rw [slice, slice, List.drop_drop]]
      rfl
    have hdata : item (unitValue (s.drop 62)) "dt" = some (s.drop 70) := by
      rw [← show (s.drop 62).drop 8 = s.drop 70 from List.drop_drop]
      rfl
    rw [hdec, hunit, if_neg hn]
    simp only [Option.bind_some, Bool.false_eq_true, if_false, hid, hdata, prsUpRptDtObj_eq]

end Report

section Printed

variable {s : List Char} (hs : s.all plain = true)

include hs

theorem plain_evtLoop (rounds i : Nat) : ∀ v ∈ evtLoop s rounds i, Plain v := by
  induction rounds generalizing i with
  | zero => simp [evtLoop]
  | succ rounds ih =>
      have hround := plain_obj hs evtDtFields rfl i [] (by simp)
      rw [List.append_nil] at hround
      rw [evtLoop, List.forall_mem_cons]
      exact ⟨hround, ih _⟩

theorem plain_prsEvtExt : Plain (prsEvtExt s) :=
  plain_obj hs evtFields rfl 0 _
    (plain_member "dt" rfl (.arr _ (plain_evtLoop hs 3 18)))

theorem plain_prsAtExt : Plain (prsAtExt false s) :=
  plain_obj hs [("date", 6)] rfl 0 _ (plain_member "dt" rfl (.str _ (plain_drop hs 6)))

theorem plain_extMembers (id : List Char) : ∀ m ∈ extMembers id s, m.1.all plain = true ∧ Plain m.2 := by
  rw [extMembers]
  split_ifs
  · exact plain_member "ext" rfl (plain_prsEvtExt hs)
  · exact plain_member "ext" rfl (plain_prsAtExt hs)
  · simp

theorem plain_objValue (id : List Char) : Plain (objValue id s) :=
  plain_obj hs objFields rfl 0 _ (plain_extMembers (plain_drop hs 178) id)

theorem plain_report : Plain (report s) := by
  rw [report]
  split_ifs
  · have hdt := plain_obj hs [] rfl 0 _ (plain_member "dt" rfl (.str _ (plain_drop hs 62)))
    exact plain_obj hs [] rfl 0 _ (plain_member "ext" rfl hdt)
  · exact plain_objValue (plain_drop hs 70) _

omit hs in
-- What the program prints is read as that object.
theorem parse_main (hhex : s.all isHex = true) (hlen : 16 ≤ s.length) :
    (main s).bind parse = some (report s) := by
  have hplain := plain_of_hex hhex
  rw [main_eq hhex hlen, Option.bind_some]
  exact parse_render (show [' '].all blank = true from rfl) _ (plain_report hplain) ['\n'] rfl

end Printed

section Values

variable {s s' : List Char}

def widths : List (String × Nat) → Nat
  | [] => 0
  | (_, n) :: fields => n + widths fields

theorem slice_eq (i n : Nat) : slice s i (i + n) = (s.drop i).take n := by
  rw [slice, Nat.add_sub_cancel_left]

-- The characters that two strings have in common.
theorem take_drop_congr {m : Nat} (h : s.take m = s'.take m) (i n : Nat) (hn : i + n ≤ m) :
    (s.drop i).take n = (s'.drop i).take n := by
  have hcut : ∀ l : List Char, (l.drop i).take n = ((l.take m).drop i).take n := fun l => by
    rw [List.drop_take, List.take_take, Nat.min_eq_left (by omega)]
  rw [hcut s, hcut s', h]

theorem takeFields_congr {m : Nat} (h : s.take m = s'.take m) (fields : List (String × Nat)) (i : Nat)
    (hm : i + widths fields ≤ m) : takeFields s fields i = takeFields s' fields i := by
  induction fields generalizing i with
  | nil => rfl
  | cons field fields ih =>
      obtain ⟨key, n⟩ := field
      rw [widths] at hm
      rw [takeFields, takeFields, slice_eq, slice_eq, take_drop_congr h i n (by omega), ih _ (by omega)]

theorem keys_takeFields (fields : List (String × Nat)) (i : Nat) :
    (takeFields s fields i).map Prod.fst = fields.map fun f => f.1.toList := by
  induction fields generalizing i with
  | nil => rfl
  | cons field fields ih => rw [takeFields, List.map_cons, List.map_cons, ih]

-- In an object each member is found under its key.
theorem get_takeFields (fields : List (String × Nat)) (i : Nat) (more : List (List Char × Value))
    (hkeys : (fields.map (fun f => f.1.toList) ++ more.map Prod.fst).Nodup) :
    ∀ m ∈ takeFields s fields i ++ more,
      (Value.obj (takeFields s fields i ++ more)).get (.key m.1) = some m.2 := by
  intro m hm
  refine get_eq_some _ ?_ hm
  rw [List.map_append, keys_takeFields]
  exact hkeys

-- Two values that denote the same and hold the fields of two strings.
theorem takeFields_of_same {v w : Value} (h : Same v w) (fields : List (String × Nat)) (i : Nat)
    (hv : ∀ m ∈ takeFields s fields i, v.get (.key m.1) = some m.2)
    (hw : ∀ m ∈ takeFields s' fields i, w.get (.key m.1) = some m.2) :
    (s.drop i).take (widths fields) = (s'.drop i).take (widths fields) := by
  induction fields generalizing i with
  | nil => rfl
  | cons field fields ih =>
      obtain ⟨key, n⟩ := field
      rw [takeFields, List.forall_mem_cons, slice_eq] at hv hw
      obtain ⟨w', hw', hsame⟩ := h.get _ _ hv.1
      obtain rfl := Option.some.inj (hw'.symm.trans hw.1)
      have hhead : (s.drop i).take n = (s'.drop i).take n := by
        have := hsame.node_eq
        injection this
      have htail := ih (i + n) hv.2 hw.2
      rw [widths, List.take_add, List.take_add, List.drop_drop, List.drop_drop, hhead, htail]

-- Objects of the same fields and of one more member each.
theorem obj_of_same (fields : List (String × Nat)) (key : String) (v w : Value)
    (hkeys : (fields.map (fun f => f.1.toList) ++ [key.toList]).Nodup)
    (h : Same (.obj (takeFields s fields 0 ++ [(key.toList, v)]))
      (.obj (takeFields s' fields 0 ++ [(key.toList, w)]))) :
    s.take (widths fields) = s'.take (widths fields) ∧ Same v w := by
  have hv := get_takeFields (s := s) fields 0 [(key.toList, v)] hkeys
  have hw := get_takeFields (s := s') fields 0 [(key.toList, w)] hkeys
  rw [List.forall_mem_append] at hv hw
  obtain ⟨w', hw', hsame⟩ := h.get _ _ (hv.2 (key.toList, v) List.mem_cons_self)
  obtain rfl := Option.some.inj (hw'.symm.trans (hw.2 (key.toList, w) List.mem_cons_self))
  exact ⟨takeFields_of_same h fields 0 hv.1 hw.1, hsame⟩

theorem evtLoop_of_same (rounds i : Nat)
    (h : ∀ (j : Nat) v w, (evtLoop s rounds i)[j]? = some v → (evtLoop s' rounds i)[j]? = some w → Same v w) :
    (s.drop i).take (38 * rounds) = (s'.drop i).take (38 * rounds) := by
  induction rounds generalizing i with
  | zero => rfl
  | succ rounds ih =>
      have hround := takeFields_of_same (h 0 _ _ rfl rfl) evtDtFields i
        (by simpa using get_takeFields (s := s) evtDtFields i [] (by decide))
        (by simpa using get_takeFields (s := s') evtDtFields i [] (by decide))
      have hrest := ih (i + 38) fun j => h (j + 1)
      have hwidths : widths evtDtFields = 38 := rfl
      rw [hwidths] at hround
      rw [Nat.mul_succ, Nat.add_comm, List.take_add, List.take_add, List.drop_drop, List.drop_drop, hround,
        hrest]

theorem prsEvtExt_of_same (h : Same (prsEvtExt s) (prsEvtExt s')) : s.take 132 = s'.take 132 := by
  have hwidths : widths evtFields = 18 := rfl
  obtain ⟨hhead, hdt⟩ := obj_of_same evtFields "dt" _ _ (by decide) h
  have hloop : (s.drop 18).take 114 = (s'.drop 18).take 114 := evtLoop_of_same 3 18 fun j v w hv hw => by
    obtain ⟨w', hw', hsame⟩ := hdt.get (.index j) v hv
    obtain rfl := Option.some.inj (hw'.symm.trans hw)
    exact hsame
  rw [hwidths] at hhead
  rw [show 132 = 18 + 114 from rfl, List.take_add, List.take_add, hhead, hloop]

theorem evtLoop_congr {m : Nat} (h : s.take m = s'.take m) (rounds i : Nat) (hm : i + 38 * rounds ≤ m) :
    evtLoop s rounds i = evtLoop s' rounds i := by
  induction rounds generalizing i with
  | zero => rfl
  | succ rounds ih =>
      have hwidths : widths evtDtFields = 38 := rfl
      rw [evtLoop, evtLoop, takeFields_congr h evtDtFields i (by omega), ih (i + 38) (by omega)]

theorem prsEvtExt_congr (h : s.take 132 = s'.take 132) : prsEvtExt s = prsEvtExt s' := by
  rw [prsEvtExt, prsEvtExt, takeFields_congr h evtFields 0 (by decide), evtLoop_congr h 3 18 (by decide)]

theorem prsAtExt_of_same (h : Same (prsAtExt false s) (prsAtExt false s')) : s = s' := by
  have hwidths : widths [("date", 6)] = 6 := rfl
  obtain ⟨hhead, hdt⟩ := obj_of_same [("date", 6)] "dt" _ _ (by decide) h
  have htail : s.drop 6 = s'.drop 6 := by
    have := hdt.node_eq
    injection this
  rw [hwidths] at hhead
  rw [← List.take_append_drop 6 s, ← List.take_append_drop 6 s', hhead, htail]

-- The two kinds of extension have different fields.
theorem not_same_evt_at : ¬ Same (prsEvtExt s) (prsAtExt false s') := by
  intro h
  obtain ⟨w, hw, -⟩ := h.get (.key "evt".toList) _ rfl
  contradiction

theorem not_same_at_evt : ¬ Same (prsAtExt false s) (prsEvtExt s') := by
  intro h
  obtain ⟨w, hw, -⟩ := h.get (.key "date".toList) _ rfl
  contradiction

-- An object with an extension is that of the program only where the program knows its id.
theorem objValue_of_same (id : List Char) (v : Value)
    (h : Same (.obj (takeFields s objFields 0 ++ [("ext".toList, v)])) (objValue id s')) :
    s.take 178 = s'.take 178 ∧ (id = "8003".toList ∧ Same v (prsEvtExt (s'.drop 178)) ∨
      id = "8002".toList ∧ Same v (prsAtExt false (s'.drop 178))) := by
  have hkeys : (objFields.map (fun f => f.1.toList) ++ ["ext".toList]).Nodup := by decide
  rw [objValue, extMembers] at h
  split_ifs at h with h₃ h₂
  · obtain ⟨hfields, hext⟩ := obj_of_same objFields "ext" _ _ hkeys h
    exact ⟨hfields, .inl ⟨h₃, hext⟩⟩
  · obtain ⟨hfields, hext⟩ := obj_of_same objFields "ext" _ _ hkeys h
    exact ⟨hfields, .inr ⟨h₂, hext⟩⟩
  · obtain ⟨w, hw, -⟩ := h.get (.key "ext".toList) v rfl
    contradiction

end Values

end RichardTest.DtParserPy
