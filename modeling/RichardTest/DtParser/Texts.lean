import RichardTest.DtParser.Sized
import RichardTest.Http.Scan

namespace RichardTest.DtParser

open RichardTest.Http (CString Buffer strlen lit upToNul cstr sprintf zeros strlen_append)
open RichardTest.DtParser.Sized (Sizes Usable declared usable_declared prsDt_declared prsUpRptDtObj_declared)

section Strings

variable {a b x : CString} {size : Nat}

theorem append_assoc (a b c : CString) : a ++ b ++ c = a ++ (b ++ c) :=
  CString.ext (List.append_assoc ..)

theorem append_empty (a : CString) : a ++ lit "" = a := CString.ext (List.append_nil _)

theorem empty_append (a : CString) : lit "" ++ a = a := rfl

theorem sprintf_eq_some {y : CString} : sprintf size x = some y ↔ strlen x < size ∧ x = y := by
  rw [sprintf]
  split_ifs with h
  · simp [h]
  · simp [h]

theorem sprintf_of_lt (h : strlen x < size) : sprintf size x = some x := if_pos h

theorem sprintf_of_not_lt (h : ¬ strlen x < size) : sprintf size x = none := if_neg h

-- Two appends to one array are the append of both texts.
theorem strcat_bind {β : Type} (f : CString → Option β) :
    ((sprintf size a).bind fun dt => (strcat size dt x).bind f) = (sprintf size (a ++ x)).bind f := by
  rw [sprintf]
  split_ifs with h
  · rfl
  · rw [sprintf, if_neg (by rw [strlen_append]; omega)]
    rfl

theorem strcat_last : ((sprintf size a).bind fun dt => strcat size dt x) = sprintf size (a ++ x) := by
  rw [← Option.bind_fun_some (sprintf size (a ++ x)), ← strcat_bind]
  simp only [Option.bind_fun_some]

-- A text that is put together in an array of its own first.
theorem strcat_array {m : Nat} {y : CString} :
    ((sprintf size a).bind fun dt => (sprintf m x).bind fun x => (strcat size dt x).bind fun dt => strcat size dt y) =
      (sprintf m x).bind fun _ => sprintf size (a ++ x ++ y) := by
  by_cases hx : strlen x < m
  · simp only [sprintf_of_lt hx, Option.bind_some]
    rw [strcat_bind, strcat_last]
  · simp only [sprintf_of_not_lt hx, Option.bind_none, Option.bind_fun_none]

end Strings

section Memory

-- The characters of `t` from `i` on, and `n` of them.
def rest (t : CString) (i : Nat) : CString := ⟨t.chars.drop i, fun h => t.nulFree (List.mem_of_mem_drop h)⟩

def sub (t : CString) (i n : Nat) : CString :=
  ⟨(t.chars.drop i).take n, fun h => t.nulFree (List.mem_of_mem_drop (List.mem_of_mem_take h))⟩

theorem strlen_rest (t : CString) (i : Nat) : strlen (rest t i) = strlen t - i := List.length_drop

theorem strlen_sub (t : CString) (i n : Nat) : strlen (sub t i n) = min n (strlen t - i) := by
  rw [strlen, sub, List.length_take, List.length_drop]
  rfl

theorem rest_rest (t : CString) (i j : Nat) : rest (rest t i) j = rest t (i + j) :=
  CString.ext (List.drop_drop ..)

theorem sub_rest (t : CString) (i j n : Nat) : sub (rest t i) j n = sub t (i + j) n := by
  apply CString.ext
  simp only [sub, rest, List.drop_drop]

-- A string in memory and the cells behind it, all of them NUL.
def cells (t : CString) (k : Nat) : Buffer := t.chars ++ zeros k

variable {t : CString} {k : Nat}

theorem drop_cells (i : Nat) : (cells t k).drop i = cells (rest t i) (k - (i - strlen t)) := by
  rw [cells, List.drop_append, cells, rest, zeros, zeros, List.drop_replicate]
  rfl

theorem upToNul_append_zeros (l : List Char) (hl : '\x00' ∉ l) (n : Nat) :
    (upToNul (l ++ zeros n)).chars = l := by
  have hchars : ∀ c ∈ l, decide (c ≠ '\x00') = true := fun c hc => decide_eq_true fun h => hl (h ▸ hc)
  rw [upToNul]
  dsimp only
  rw [List.takeWhile_append_of_pos hchars]
  cases n <;> simp [zeros, List.replicate_succ]

theorem cstr_cells (hk : 0 < k) : cstr (cells t k) = some t := by
  obtain ⟨k, rfl⟩ := Nat.exists_eq_add_of_lt hk
  rw [cstr, if_pos (by simp [cells, zeros])]
  exact congrArg some (CString.ext (upToNul_append_zeros t.chars t.nulFree _))

theorem getElem?_cells {i : Nat} (hi : i < strlen t + k) : (cells t k)[i]? = some (charAt t i) := by
  rw [cells, charAt, List.getD_eq_getElem?_getD]
  rcases Nat.lt_or_ge i (strlen t) with h | h
  · rw [List.getElem?_append_left h, List.getElem?_eq_getElem h, Option.getD_some]
  · rw [List.getElem?_append_right h, List.getElem?_eq_none h, zeros, List.getElem?_replicate, if_pos]
    · rfl
    · rw [strlen] at h hi
      omega

variable (hk : 0 < k)

include hk

theorem cstr_drop_cells {i : Nat} (hi : i < strlen t + k) : cstr ((cells t k).drop i) = some (rest t i) := by
  rw [drop_cells]
  exact cstr_cells (by omega)

-- What is read behind the end of the string is empty.
theorem chars_cells {i : Nat} (hi : i < strlen t + k) (n : Nat) : chars (cells t k) i n = some (sub t i n) := by
  have hread : '\x00' ∈ ((cells t k).drop i).take n ∨ i + n ≤ (cells t k).length := by
    rw [or_iff_not_imp_right]
    intro hn
    rw [List.take_of_length_le (by rw [List.length_drop]; omega), drop_cells, cells, zeros,
      List.mem_append, List.mem_replicate]
    exact .inr ⟨by omega, rfl⟩
  rw [chars, if_pos hread, drop_cells, cells, List.take_append, zeros, List.take_replicate]
  exact congrArg some (CString.ext (upToNul_append_zeros _ (sub t i n).nulFree _))

-- A copy of a few characters into a cleared array with room for them.
theorem strncat_empty {i n size : Nat} (hi : i < strlen t + k) (hn : n < size) :
    strncat size (lit "") (cells t k) i n = some (sub t i n) := by
  rw [strncat, chars_cells hk hi]
  exact if_pos (show strlen (sub t i n) < size by rw [strlen_sub]; omega)

end Memory

section Fields

-- The text that a run of fields adds.
def fieldsText (t : CString) : List (String × Nat) → Nat → CString
  | [], _ => lit ""
  | (text, n) :: fields, i => lit text ++ sub t i n ++ fieldsText t fields (i + n)

-- The characters that a run of fields reads, and those that it adds to them.
def widths : List (String × Nat) → Nat
  | [] => 0
  | (_, n) :: fields => n + widths fields

def litLen : List (String × Nat) → Nat
  | [] => 0
  | (text, _) :: fields => strlen (lit text) + litLen fields

theorem strlen_fieldsText (t : CString) (fields : List (String × Nat)) (i : Nat) :
    strlen (fieldsText t fields i) = litLen fields + min (widths fields) (strlen t - i) := by
  induction fields generalizing i with
  | nil => rw [fieldsText, litLen, widths, Nat.zero_min]; rfl
  | cons field fields ih =>
      obtain ⟨text, n⟩ := field
      rw [fieldsText, strlen_append, strlen_append, strlen_sub, ih, litLen, widths]
      omega

variable {β : Type} {t : CString} {k size : Nat} (hk : 0 < k)

include hk

-- By induction on the fields. Whatever the next field adds, the array has to hold the whole text.
theorem catFields_bind (fields : List (String × Nat)) (i : Nat) (hi : i + widths fields < strlen t + k)
    (dt : CString) (f : Nat × CString → Option β) :
    ((sprintf size dt).bind fun dt => (catFields size (cells t k) fields i dt).bind f) =
      (sprintf size (dt ++ fieldsText t fields i)).bind fun dt => f (i + widths fields, dt) := by
  induction fields generalizing i dt with
  | nil =>
      rw [fieldsText, append_empty]
      rfl
  | cons field fields ih =>
      obtain ⟨text, n⟩ := field
      rw [widths] at hi ⊢
      simp only [catFields, strncat, chars_cells hk (show i < strlen t + k by omega) n, Option.bind_eq_bind,
        Option.bind_some, Option.bind_assoc, strcat_bind]
      rw [ih (i + n) (by omega), fieldsText, Nat.add_assoc]
      simp only [append_assoc]

-- The same from the cleared array on.
theorem catFields_start (fields : List (String × Nat)) (i : Nat) (hi : i + widths fields < strlen t + k)
    (hsize : 0 < size) (f : Nat × CString → Option β) :
    ((catFields size (cells t k) fields i (lit "")).bind f) =
      (sprintf size (fieldsText t fields i)).bind fun dt => f (i + widths fields, dt) := by
  have hempty : sprintf size (lit "") = some (lit "") := if_pos hsize
  rw [← empty_append (fieldsText t fields i), ← catFields_bind hk fields i hi, hempty, Option.bind_some]

end Fields

section Data

-- An object that ends in the rest of the string, as its member dt.
def dtText (a t : CString) (i : Nat) : CString :=
  a ++ lit "\",\"dt\":\"" ++ rest t i ++ lit "\"\x7d"

theorem strlen_dtText (a t : CString) (i : Nat) : strlen (dtText a t i) = strlen a + 10 + (strlen t - i) := by
  have hopen : strlen (lit "\",\"dt\":\"") = 8 := rfl
  have hclose : strlen (lit "\"\x7d") = 2 := rfl
  rw [dtText, strlen_append, strlen_append, strlen_append, strlen_rest, hopen, hclose]
  omega

theorem dt_bind {β : Type} {t : CString} {k i : Nat} (size : Nat) (hk : 0 < k) (hi : i < strlen t + k) (a : CString)
    (f : CString → Option β) :
    ((sprintf size a).bind fun dt => (strcat size dt (lit "\",\"dt\":\"")).bind fun dt =>
      (cstr ((cells t k).drop i)).bind fun x => (strcat size dt x).bind fun dt =>
      (strcat size dt (lit "\"\x7d")).bind f) =
    (sprintf size (dtText a t i)).bind f := by
  rw [strcat_bind, cstr_drop_cells hk hi]
  simp only [Option.bind_some]
  rw [strcat_bind, strcat_bind, dtText]

end Data

section Extensions

theorem bind_sprintf {β : Type} {size : Nat} {x : CString} (hx : strlen x < size) (f : CString → Option β) :
    (sprintf size x).bind f = f x := by
  rw [sprintf, if_pos hx, Option.bind_some]

-- One round of the loop.
def evtDtText (t : CString) (j i : Nat) : CString :=
  (if j > 0 then lit "," else lit "") ++ fieldsText t evtDtFields i ++ lit "\"\x7d"

def evtLoopText (t : CString) : (rounds j i : Nat) → CString
  | 0, _, _ => lit ""
  | rounds + 1, j, i => evtDtText t j i ++ evtLoopText t rounds (j + 1) (i + 38)

def evtText (t : CString) : CString :=
  fieldsText t evtFields 0 ++ lit "\",\"dt\":[" ++ evtLoopText t 3 0 18 ++ lit "]\x7d"

def atText (t : CString) : CString := dtText (fieldsText t [("\x7b\"date\":\"", 6)] 0) t 6

theorem strlen_evtDtText (t : CString) (j i : Nat) :
    strlen (evtDtText t j i) = (if j > 0 then 1 else 0) + 30 + min 38 (strlen t - i) := by
  have hlit : litLen evtDtFields = 28 := rfl
  have hwidths : widths evtDtFields = 38 := rfl
  have hclose : strlen (lit "\"\x7d") = 2 := rfl
  have hcomma : strlen (if j > 0 then lit "," else lit "") = if j > 0 then 1 else 0 := by
    split_ifs <;> rfl
  rw [evtDtText, strlen_append, strlen_append, strlen_fieldsText, hlit, hwidths, hclose, hcomma]
  omega

theorem strlen_evtText (t : CString) : strlen (evtText t) = 123 + min 132 (strlen t) := by
  have hlit : litLen evtFields = 21 := rfl
  have hwidths : widths evtFields = 18 := rfl
  have hopen : strlen (lit "\",\"dt\":[") = 8 := rfl
  have hclose : strlen (lit "]\x7d") = 2 := rfl
  have hempty : strlen (lit "") = 0 := rfl
  simp only [evtText, evtLoopText, strlen_append, strlen_fieldsText, strlen_evtDtText, hlit, hwidths, hopen,
    hclose, hempty]
  split_ifs <;> omega

theorem strlen_atText (t : CString) : strlen (atText t) = 19 + strlen t := by
  have hlit : litLen [("\x7b\"date\":\"", 6)] = 9 := rfl
  have hwidths : widths [("\x7b\"date\":\"", 6)] = 6 := rfl
  rw [atText, strlen_dtText, strlen_fieldsText, hlit, hwidths]
  omega

variable {β : Type} {t : CString} {k : Nat} (hk : 0 < k) {z : Sizes} (hz : Usable z)

include hk hz

-- The array of a round is large enough, whatever the characters are.
theorem evtLoop_bind (rounds j i : Nat) (hi : i + 38 * rounds < strlen t + k) (dt : CString)
    (f : CString → Option β) :
    ((sprintf z.evtDt dt).bind fun dt => (Sized.evtLoop z (cells t k) rounds j i dt).bind f) =
      (sprintf z.evtDt (dt ++ evtLoopText t rounds j i)).bind f := by
  induction rounds generalizing j i dt with
  | zero =>
      rw [evtLoopText, append_empty]
      rfl
  | succ rounds ih =>
      have hround : strlen (evtDtText t j i) < z.tmp := by
        have := hz.tmp
        rw [strlen_evtDtText]
        split_ifs <;> omega
      have hwidths : widths evtDtFields = 38 := rfl
      have hstart : strcat z.tmp (lit "") (if j > 0 then lit "," else lit "") =
          sprintf z.tmp (if j > 0 then lit "," else lit "") := rfl
      rw [evtLoopText, ← append_assoc, ← ih (j + 1) (i + 38) (by omega), ← strcat_bind]
      congr 1
      funext dt
      simp only [Sized.evtLoop, Option.bind_eq_bind, Option.bind_assoc, hstart]
      rw [catFields_bind hk evtDtFields i (by omega)]
      dsimp only
      rw [strcat_bind, ← evtDtText, bind_sprintf hround, hwidths]

theorem prsEvtExt_eq (hread : 132 < strlen t + k) :
    Sized.prsEvtExt z (cells t k) = sprintf z.evtDt (evtText t) := by
  have hwidths : widths evtFields = 18 := rfl
  rw [Sized.prsEvtExt]
  simp only [Option.bind_eq_bind]
  rw [catFields_start hk evtFields 0 (by omega) hz.evtDt]
  dsimp only
  rw [strcat_bind, hwidths, evtLoop_bind hk hz 3 0 _ (by omega), strcat_last, evtText]

theorem prsAtExt_eq (hread : 6 < strlen t + k) :
    Sized.prsAtExt z (cells t k) = sprintf z.atDt (atText t) := by
  have hwidths : widths [("\x7b\"date\":\"", 6)] = 6 := rfl
  rw [Sized.prsAtExt]
  simp only [Option.bind_eq_bind]
  rw [catFields_start hk _ 0 (by omega) hz.atDt, hwidths]
  have h := dt_bind z.atDt hk hread (fieldsText t [("\x7b\"date\":\"", 6)] 0) some
  simp only [Option.bind_fun_some] at h
  exact h

end Extensions

section Report

def extText (id t : CString) : CString :=
  if charAt id 3 = '3' then evtText t else if charAt id 3 = '2' then atText t else lit ""

def objText (id t : CString) : CString :=
  fieldsText t objFields 0 ++ lit "\",\"ext\":" ++ extText id (rest t 178) ++ lit "\x7d"

-- How far the extension is read at fixed offsets.
def extSpan (id : CString) : Nat := if charAt id 3 = '3' then 132 else if charAt id 3 = '2' then 6 else 0

def unitText (t : CString) : CString := dtText (fieldsText t unitFields 0) t 8

theorem strlen_objText (id t : CString) :
    strlen (objText id t) = 191 + min 178 (strlen t) + strlen (extText id (rest t 178)) := by
  have hlit : litLen objFields = 182 := rfl
  have hwidths : widths objFields = 178 := rfl
  have hopen : strlen (lit "\",\"ext\":") = 8 := rfl
  have hclose : strlen (lit "\x7d") = 1 := rfl
  rw [objText, strlen_append, strlen_append, strlen_append, strlen_fieldsText, hlit, hwidths, hopen, hclose]
  omega

theorem strlen_objText_evt (id t : CString) (h3 : charAt id 3 = '3') : strlen (objText id t) ≤ 624 := by
  rw [strlen_objText, extText, if_pos h3, strlen_evtText, strlen_rest]
  omega

-- The only extension that goes on to the end of the string.
theorem strlen_objText_at (id t : CString) (h2 : charAt id 3 = '2') :
    strlen (objText id t) = 210 + strlen t := by
  have h3 : ¬ charAt id 3 = '3' := by rw [h2]; decide
  rw [strlen_objText, extText, if_neg h3, if_pos h2, strlen_atText, strlen_rest]
  omega

theorem strlen_objText_none (id t : CString) (h3 : ¬ charAt id 3 = '3') (h2 : ¬ charAt id 3 = '2') :
    strlen (objText id t) ≤ 369 := by
  have hempty : strlen (lit "") = 0 := rfl
  rw [strlen_objText, extText, if_neg h3, if_neg h2, hempty]
  omega

theorem strlen_unitText (t : CString) : strlen (unitText t) = 34 + strlen t := by
  have hlit : litLen unitFields = 24 := rfl
  have hwidths : widths unitFields = 8 := rfl
  rw [unitText, strlen_dtText, strlen_fieldsText, hlit, hwidths]
  omega

-- The extension in the array of its own.
def extArray (z : Sizes) (id t : CString) : Option CString :=
  if charAt id 3 = '3' then sprintf z.evtDt (evtText t)
  else if charAt id 3 = '2' then sprintf z.atDt (atText t)
  else some (lit "")

def reportArray (z : Sizes) (id t : CString) : Option CString :=
  (extArray z id (rest t 178)).bind fun _ => sprintf z.objDt (objText id t)

section Sized

variable {t : CString} {k : Nat} (hk : 0 < k) {z : Sizes} (hz : Usable z)

include hk hz

theorem sized_prsUpRptDtObj_eq (id : CString) (hread : 178 + extSpan id < strlen t + k) :
    Sized.prsUpRptDtObj z id (cells t k) = reportArray z id t := by
  have hwidths : widths objFields = 178 := rfl
  rw [Sized.prsUpRptDtObj]
  simp only [Option.bind_eq_bind]
  rw [catFields_start hk objFields 0 (by omega) hz.objDt]
  dsimp only
  rw [strcat_bind, hwidths, Nat.zero_add, drop_cells, reportArray, extArray, objText, extText]
  rw [extSpan] at hread
  split_ifs at hread ⊢ with h3 h2
  · rw [prsEvtExt_eq (by omega) hz (by rw [strlen_rest]; omega)]
    exact strcat_array
  · rw [prsAtExt_eq (by omega) hz (by rw [strlen_rest]; omega)]
    exact strcat_array
  · simp only [Option.bind_some]
    rw [strcat_last, append_empty]

theorem sized_prsDtU_eq (hread : 186 + extSpan (sub t 4 4) < strlen t + k) :
    Sized.prsDtU z (cells t k) = (sprintf z.dtU (unitText t)).bind fun _ =>
      reportArray z (sub t 4 4) (rest t 8) := by
  have hwidths : widths unitFields = 8 := rfl
  rw [Sized.prsDtU]
  simp only [Option.bind_eq_bind]
  rw [catFields_start hk unitFields 0 (by omega) hz.dtU,
    strncat_empty hk (by omega) (Nat.lt_of_succ_le hz.id), hwidths]
  simp only [Option.bind_some, Nat.zero_add]
  rw [dt_bind z.dtU hk (by omega), drop_cells, sized_prsUpRptDtObj_eq (by omega) hz _ (by rw [strlen_rest]; omega),
    unitText]

end Sized

-- In the arrays of the source the extension fits where the whole object does.
theorem reportArray_declared (id t : CString) : reportArray declared id t = sprintf 1024 (objText id t) := by
  have hobj := strlen_objText id t
  rw [extText] at hobj
  rw [reportArray, extArray]
  split_ifs at hobj ⊢ with h3 h2
  · exact bind_sprintf (by rw [strlen_evtText]; show _ < 1024; omega) _
  · by_cases hat : strlen (atText (rest t 178)) < 1024
    · exact bind_sprintf hat _
    · have harray : sprintf declared.atDt (atText (rest t 178)) = none := sprintf_of_not_lt hat
      rw [harray, Option.bind_none, sprintf_of_not_lt (by omega)]
  · rfl

theorem prsUpRptDtObj_eq {t : CString} {k : Nat} (hk : 0 < k) (id : CString)
    (hread : 178 + extSpan id < strlen t + k) :
    prsUpRptDtObj id (cells t k) = sprintf 1024 (objText id t) := by
  rw [← prsUpRptDtObj_declared, sized_prsUpRptDtObj_eq hk usable_declared id hread, reportArray_declared]

end Report

section Header

theorem charAt_sub (t : CString) (i n j : Nat) (hj : j < n) : charAt (sub t i n) j = charAt t (i + j) := by
  rw [charAt, charAt, sub, List.getD_eq_getElem?_getD, List.getElem?_take_of_lt hj, List.getElem?_drop]
  rfl

def headerText (t : CString) : CString :=
  if charAt t 15 = '0' then
    dtText (fieldsText t headerFields 0 ++ fieldsText t [("\",\"appId\":\"", 46)] 16) t 62
  else dtText (fieldsText t headerFields 0) t 16

-- The offset of the data unit.
def unitAt (t : CString) : Nat := if charAt t 15 = '0' then 62 else 16

-- The object id in the data unit.
def idOf (t : CString) : CString := sub t (unitAt t + 4) 4

def Naked (t : CString) : Prop := charAt t 3 = '2' ∧ charAt t 15 = '1'

instance (t : CString) : Decidable (Naked t) := inferInstanceAs (Decidable (_ ∧ _))

theorem strlen_headerText (t : CString) :
    strlen (headerText t) = 57 + (if charAt t 15 = '0' then 11 else 0) + strlen t := by
  have hlit : litLen headerFields = 47 := rfl
  have hwidths : widths headerFields = 16 := rfl
  have happ : litLen [("\",\"appId\":\"", 46)] = 11 := rfl
  have happ' : widths [("\",\"appId\":\"", 46)] = 46 := rfl
  rw [headerText]
  split_ifs with h0
  · rw [strlen_dtText, strlen_append, strlen_fieldsText, strlen_fieldsText, hlit, hwidths, happ, happ']
    omega
  · rw [strlen_dtText, strlen_fieldsText, hlit, hwidths]
    omega

-- The bare data of the naked frames.
def nakedText (t : CString) (i : Nat) : CString := lit "\x7b\"ext\":\x7b\"dt\":\"" ++ rest t i ++ lit "\"\x7d\x7d"

theorem strlen_nakedText (t : CString) (i : Nat) : strlen (nakedText t i) = 17 + (strlen t - i) := by
  have hopen : strlen (lit "\x7b\"ext\":\x7b\"dt\":\"") = 14 := rfl
  have hclose : strlen (lit "\"\x7d\x7d") = 3 := rfl
  rw [nakedText, strlen_append, strlen_append, strlen_rest, hopen, hclose]
  omega

section Sized

variable {t : CString} {k : Nat} (hk : 0 < k) {z : Sizes}

include hk

theorem nakedObj_eq {i : Nat} (hi : i < strlen t + k) :
    Sized.nakedObj z ((cells t k).drop i) = (memset z.dtObj z.dt).bind fun _ => sprintf z.dtObj (nakedText t i) := by
  have hstart : strcat z.dtObj (lit "") (lit "\x7b\"ext\":\x7b\"dt\":\"") =
    sprintf z.dtObj (lit "\x7b\"ext\":\x7b\"dt\":\"") := rfl
  rw [Sized.nakedObj, cstr_drop_cells hk hi, hstart]
  simp only [Option.bind_eq_bind, Option.bind_some]
  rw [strcat_bind, strcat_last, nakedText]

variable (hz : Usable z)

include hz

-- What the parser does behind the header, at the offset `i` of the data unit.
theorem unit_bind (header : CString) (i : Nat) (hread : i + 186 + extSpan (sub t (i + 4) 4) < strlen t + k)
    (naked : Prop) [Decidable naked] :
    ((sprintf z.dt header).bind fun dt => (strcat z.dt dt (lit "\",\"dt\":\"")).bind fun dt =>
      (cstr ((cells t k).drop i)).bind fun x => (strcat z.dt dt x).bind fun dt =>
      (strcat z.dt dt (lit "\"\x7d")).bind fun _ =>
      if naked then Sized.nakedObj z ((cells t k).drop i) else Sized.prsDtU z ((cells t k).drop i)) =
    (sprintf z.dt (dtText header t i)).bind fun _ =>
      if naked then (memset z.dtObj z.dt).bind fun _ => sprintf z.dtObj (nakedText t i)
      else (sprintf z.dtU (unitText (rest t i))).bind fun _ => reportArray z (sub t (i + 4) 4) (rest t (i + 8)) := by
  rw [dt_bind z.dt hk (by omega), nakedObj_eq hk (by omega), drop_cells,
    sized_prsDtU_eq (by omega) hz (by rw [sub_rest, strlen_rest]; omega), sub_rest, rest_rest]

theorem sized_prsDt_eq (hread : unitAt t + 186 + extSpan (idOf t) < strlen t + k) :
    Sized.prsDt z (cells t k) = (sprintf z.dt (headerText t)).bind fun _ =>
      if Naked t then (memset z.dtObj z.dt).bind fun _ => sprintf z.dtObj (nakedText t (unitAt t))
      else (sprintf z.dtU (unitText (rest t (unitAt t)))).bind fun _ =>
        reportArray z (idOf t) (rest t (unitAt t + 8)) := by
  have hwidths : widths headerFields = 16 := rfl
  have hwidths' : widths [("\",\"appId\":\"", 46)] = 46 := rfl
  rw [Sized.prsDt, Sized.prsUpRptDt]
  simp only [Option.bind_eq_bind]
  rw [catFields_start hk headerFields 0 (by omega) hz.dt, strncat_empty hk (by omega) (Nat.lt_of_succ_le hz.ctrl),
    strncat_empty hk (by omega) (Nat.lt_of_succ_le hz.seq), hwidths]
  simp only [Option.bind_some, Nat.zero_add, Nat.reduceSub, getElem?_cells (show 15 < strlen t + k by omega),
    charAt_sub t 2 2 1 (by omega), charAt_sub t 14 2 1 (by omega), Nat.reduceAdd]
  rw [idOf, unitAt] at hread
  rw [headerText, idOf, unitAt]
  by_cases h0 : charAt t 15 = '0'
  · simp only [if_pos h0] at hread ⊢
    rw [catFields_bind hk [("\",\"appId\":\"", 46)] 16 (by omega), hwidths']
    exact unit_bind hk hz _ 62 hread (Naked t)
  · simp only [if_neg h0] at hread ⊢
    exact unit_bind hk hz _ 16 hread (Naked t)

end Sized

-- Only the extension that is copied to the end of the text can grow.
theorem strlen_report_lt_iff (t : CString) {n : Nat} (hn : 624 < n) :
    strlen (objText (idOf t) (rest t (unitAt t + 8))) < n ↔
      (charAt (idOf t) 3 = '2' → strlen t + 202 < n + unitAt t) := by
  by_cases h2 : charAt (idOf t) 3 = '2'
  · rw [strlen_objText_at _ _ h2, strlen_rest, imp_iff_right h2]
    omega
  · refine ⟨fun _ h => absurd h h2, fun _ => ?_⟩
    by_cases h3 : charAt (idOf t) 3 = '3'
    · exact (strlen_objText_evt _ _ h3).trans_lt hn
    · exact (strlen_objText_none _ _ h3 h2).trans_lt (by omega)

variable {t : CString} {k : Nat} (hk : 0 < k)

include hk

-- In the arrays of the source the data unit fits where the header does, and the clearing of the bare data
-- runs behind its array.
theorem prsDt_eq (hread : unitAt t + 186 + extSpan (idOf t) < strlen t + k) :
    prsDt (cells t k) = (sprintf 1024 (headerText t)).bind fun _ =>
      if Naked t then none else sprintf 1024 (objText (idOf t) (rest t (unitAt t + 8))) := by
  rw [← prsDt_declared, sized_prsDt_eq hk usable_declared hread, reportArray_declared]
  by_cases hheader : strlen (headerText t) < 1024
  · have hunit : strlen (unitText (rest t (unitAt t))) < 1024 := by
      rw [strlen_headerText] at hheader
      rw [strlen_unitText, strlen_rest]
      omega
    have hclear : memset declared.dtObj declared.dt = none := rfl
    have harray : sprintf declared.dtU (unitText (rest t (unitAt t))) = some (unitText (rest t (unitAt t))) :=
      sprintf_of_lt hunit
    rw [hclear, Option.bind_none, harray, Option.bind_some]
    rfl
  · have harray : sprintf declared.dt (headerText t) = none := sprintf_of_not_lt hheader
    rw [harray, sprintf_of_not_lt hheader, Option.bind_none, Option.bind_none]

-- The outcome of the parser: the object, where its text and that of the header fit their arrays.
theorem prsDt_eq_some_iff (hread : unitAt t + 186 + extSpan (idOf t) < strlen t + k) (x : CString) :
    prsDt (cells t k) = some x ↔
      ¬ Naked t ∧ strlen (headerText t) < 1024 ∧ strlen (objText (idOf t) (rest t (unitAt t + 8))) < 1024 ∧
        objText (idOf t) (rest t (unitAt t + 8)) = x := by
  rw [prsDt_eq hk hread, Option.bind_eq_some_iff]
  simp only [sprintf_eq_some]
  by_cases hnaked : Naked t
  · simp [hnaked]
  · simp [hnaked, sprintf_eq_some]

end Header

end RichardTest.DtParser
