import RichardTest.Http.Bounds

namespace RichardTest.Http

section Objects

def isWhite (c : Char) : Bool := c = ' ' ∨ c = '\t' ∨ c = '\n' ∨ c = '\r'

-- A member of a flat object: two strings without quotes, and the white space around the tokens.
structure Member where
  key : List Char
  value : List Char
  before : List Char
  behindKey : List Char
  behindColon : List Char
  behind : List Char
  key_quoteFree : '"' ∉ key
  value_quoteFree : '"' ∉ value
  before_white : ∀ c ∈ before, isWhite c = true
  behindKey_white : ∀ c ∈ behindKey, isWhite c = true
  behindColon_white : ∀ c ∈ behindColon, isWhite c = true
  behind_white : ∀ c ∈ behind, isWhite c = true

namespace Member

-- From the quote that ends the key on.
def valueText (m : Member) : List Char :=
  '"' :: (m.behindKey ++ ':' :: (m.behindColon ++ '"' :: (m.value ++ '"' :: m.behind)))

def text (m : Member) : List Char := m.before ++ '"' :: (m.key ++ m.valueText)

end Member

def membersText : List Member → List Char
  | [] => []
  | [m] => m.text
  | m :: ms => m.text ++ ',' :: membersText ms

-- A JSON object whose members are strings, as it may be written.
structure FlatObject where
  members : List Member
  before : List Char
  behind : List Char
  keys_nodup : (members.map Member.key).Nodup
  before_white : ∀ c ∈ before, isWhite c = true
  behind_white : ∀ c ∈ behind, isWhite c = true

namespace FlatObject

def text (o : FlatObject) : List Char := o.before ++ '{' :: (membersText o.members ++ '}' :: o.behind)

-- Where the key of a member begins, with the members `ms` before it.
def keyAt (o : FlatObject) (ms : List Member) (m : Member) : Nat :=
  o.before.length + 1 + (ms.flatMap fun b => b.text ++ [',']).length + m.before.length + 1

end FlatObject

theorem membersText_split (ms : List Member) (m : Member) (ms' : List Member) :
    ∃ rest, membersText (ms ++ m :: ms') = (ms.flatMap fun b => b.text ++ [',']) ++ (m.text ++ rest) := by
  induction ms with
  | nil =>
      cases ms' with
      | nil => exact ⟨[], by simp [membersText]⟩
      | cons m' ms' => exact ⟨',' :: membersText (m' :: ms'), by simp [membersText]⟩
  | cons b ms ih =>
      obtain ⟨rest, hrest⟩ := ih
      refine ⟨rest, ?_⟩
      have hcons : membersText (b :: (ms ++ m :: ms')) = b.text ++ ',' :: membersText (ms ++ m :: ms') := by
        cases ms with
        | nil => rfl
        | cons b' ms => rfl
      rw [List.cons_append, hcons, hrest]
      simp

-- The text up to a key, the key, and the value behind it.
theorem FlatObject.text_split (o : FlatObject) {ms ms' : List Member} {m : Member}
    (h : o.members = ms ++ m :: ms') :
    ∃ front rest, o.text = front ++ (m.key ++ (m.valueText ++ rest)) ∧ front.length = o.keyAt ms m := by
  obtain ⟨rest, hrest⟩ := membersText_split ms m ms'
  refine ⟨o.before ++ '{' :: ((ms.flatMap fun b => b.text ++ [',']) ++ (m.before ++ ['"'])),
    rest ++ '}' :: o.behind, ?_, ?_⟩
  · rw [FlatObject.text, h, hrest]
    simp [Member.text]
  · simp only [FlatObject.keyAt, List.length_append, List.length_cons, List.length_nil]
    omega

end Objects

section Reading

-- What getjsonv reads behind the first place where the characters of the key stand.
def jsonRead (s jsonk : CString) : List Char :=
  match firstAt jsonk.chars s.chars with
  | none => []
  | some p =>
      if p + strlen jsonk < strlen s then (scanned 1 (s.chars.drop (p + strlen jsonk + 1))).1 else []

theorem firstAt_le (jsonk front rest : List Char) (hrest : rest ≠ []) (hkey : rest.take jsonk.length = jsonk) :
    ∃ p, firstAt jsonk (front ++ rest) = some p ∧ p ≤ front.length := by
  induction front with
  | nil =>
      obtain ⟨c, s, rfl⟩ := List.exists_cons_of_ne_nil hrest
      exact ⟨0, by rw [List.nil_append, firstAt, if_pos hkey], Nat.le_refl 0⟩
  | cons c front ih =>
      obtain ⟨p, hp, hle⟩ := ih
      rw [List.cons_append, firstAt]
      split_ifs
      · exact ⟨0, rfl, Nat.zero_le _⟩
      · exact ⟨p + 1, by rw [hp, Option.map_some], Nat.succ_le_succ hle⟩

theorem scanned_subset (k : Nat) (s : List Char) : (scanned k s).1 ⊆ s := by
  induction s generalizing k with
  | nil => exact List.Subset.refl _
  | cons c s ih =>
      rw [scanned]
      split_ifs
      · exact List.subset_cons_of_subset c (ih (k + 1))
      · exact List.cons_subset_cons c (ih k)
      · exact List.nil_subset _

-- Characters that are neither colon nor quote are read whatever the counter is, and a quote raises it.
theorem scanned_plain (k : Nat) (w s : List Char) (hw : ∀ c ∈ w, c ≠ ':' ∧ c ≠ '"') :
    scanned k (w ++ s) = (w ++ (scanned k s).1, w.length + (scanned k s).2) := by
  induction w with
  | nil => simp
  | cons c w ih =>
      obtain ⟨hcolon, hquote⟩ := hw c List.mem_cons_self
      rw [List.cons_append, scanned, if_neg fun h => h.2.elim hcolon hquote, if_pos hquote,
        ih fun c hc => hw c (List.mem_cons_of_mem _ hc), List.length_cons]
      simp only [List.cons_append, Nat.add_right_comm]

theorem scanned_value (v rest : List Char) (hv : '"' ∉ v) : scanned 3 (v ++ '"' :: rest) = (v, v.length) := by
  induction v with
  | nil => rfl
  | cons c v ih =>
      rw [List.mem_cons, not_or] at hv
      rw [List.cons_append, scanned, if_neg fun h => absurd h.1 (lt_irrefl 3), if_pos (Ne.symm hv.1), ih hv.2,
        List.length_cons]

theorem white_plain {w : List Char} (hw : ∀ c ∈ w, isWhite c = true) : ∀ c ∈ w, c ≠ ':' ∧ c ≠ '"' := by
  intro c hc
  have hwhite := hw c hc
  rw [isWhite, decide_eq_true_eq] at hwhite
  rcases hwhite with rfl | rfl | rfl | rfl <;> decide

-- Behind a key of the object the white space around the colon is read along with the value.
theorem scanned_member (m : Member) (rest : List Char) :
    scanned 1 (m.behindKey ++ ':' :: (m.behindColon ++ '"' :: (m.value ++ '"' :: rest))) =
      (m.behindKey ++ (m.behindColon ++ m.value),
        m.behindKey.length + (m.behindColon.length + (m.value.length + 1) + 1)) := by
  have hcolon : ∀ s, scanned 1 (':' :: s) = ((scanned 2 s).1, (scanned 2 s).2 + 1) := fun s => by
    rw [scanned, if_pos ⟨by decide, Or.inl rfl⟩]
  have hquote : ∀ s, scanned 2 ('"' :: s) = ((scanned 3 s).1, (scanned 3 s).2 + 1) := fun s => by
    rw [scanned, if_pos ⟨by decide, Or.inr rfl⟩]
  rw [scanned_plain 1 _ _ (white_plain m.behindKey_white), hcolon,
    scanned_plain 2 _ _ (white_plain m.behindColon_white), hquote, scanned_value _ _ m.value_quoteFree]

end Reading

section Target

theorem cstr_eq_some_iff (t : Buffer) (V : CString) : cstr t = some V ↔ V.chars ++ ['\x00'] <+: t := by
  refine ⟨fun h => ?_, cstr_of_prefix V⟩
  rw [cstr] at h
  split_ifs at h with hnul
  have hchars : t.takeWhile (· ≠ '\x00') = V.chars := congrArg CString.chars (Option.some.inj h)
  have hsplit := List.takeWhile_append_dropWhile (p := (· ≠ '\x00')) (l := t)
  rw [hchars] at hsplit
  cases hrest : t.dropWhile (· ≠ '\x00') with
  | nil =>
      rw [List.dropWhile_eq_nil_iff] at hrest
      simpa using hrest _ hnul
  | cons c rest =>
      have hc := List.head?_dropWhile_not (· ≠ '\x00') t
      rw [hrest] at hc
      have hcnul : c = '\x00' := by simpa using hc
      rw [hrest, hcnul] at hsplit
      exact ⟨rest, by rw [← hsplit, List.append_assoc, List.singleton_append]⟩

-- What was read, the old contents of the array behind it and the NUL at `i` make up the string.
def Completes (read : List Char) (i : Nat) (t : Buffer) (V : List Char) : Prop :=
  V = read ++ (t.take V.length).drop read.length ∧ V.length ≤ i ∧ i < t.length ∧
    (V.length = i ∨ t[V.length]? = some '\x00')

theorem length_le_of_completes {read : List Char} {i : Nat} {t : Buffer} {V : List Char}
    (h : Completes read i t V) : read.length ≤ V.length := by
  have := congrArg List.length h.1
  rw [List.length_append] at this
  omega

theorem prefix_snoc_iff (V t : List Char) (c : Char) :
    V ++ [c] <+: t ↔ t.take V.length = V ∧ t[V.length]? = some c := by
  constructor
  · rintro ⟨r, rfl⟩
    simp
  · rintro ⟨htake, hget⟩
    rw [List.prefix_iff_eq_take, List.length_append, List.length_singleton, List.take_add_one, htake, hget]
    rfl

theorem cstr_set_iff (read : List Char) (i : Nat) (t : Buffer) (V : CString) (hread : '\x00' ∉ read)
    (hi : i < t.length) (hlen : read.length ≤ i) :
    cstr ((read ++ t.drop read.length).set i '\x00') = some V ↔ Completes read i t V.chars := by
  have hb : (read ++ t.drop read.length).length = t.length := by
    rw [List.length_append, List.length_drop]
    omega
  have htake : read.length ≤ V.chars.length → (read ++ t.drop read.length).take V.chars.length =
      read ++ (t.take V.chars.length).drop read.length := by
    intro h
    rw [List.take_append, List.take_of_length_le h, List.drop_take]
  have hget : ∀ x, read.length ≤ x → (read ++ t.drop read.length)[x]? = t[x]? := by
    intro x hx
    rw [List.getElem?_append_right hx, List.getElem?_drop, Nat.add_sub_of_le hx]
  rw [cstr_eq_some_iff, prefix_snoc_iff, Completes]
  constructor
  · rintro ⟨hV, hnul⟩
    -- the string ends at the NUL at the latest
    have hVi : V.chars.length ≤ i := by
      by_contra hlong
      have hmem : '\x00' ∈ V.chars := by
        rw [← hV]
        refine List.mem_of_getElem? (i := i) ?_
        rw [List.getElem?_take_of_lt (by omega), List.getElem?_set_self (by omega)]
      exact V.nulFree hmem
    rw [List.take_set_of_le hVi] at hV
    rcases Nat.lt_or_eq_of_le hVi with hlt | heq
    · rw [List.getElem?_set_ne (by omega)] at hnul
      have hreadV : read.length ≤ V.chars.length := by
        by_contra hshort
        rw [List.getElem?_append_left (by omega)] at hnul
        exact hread (List.mem_of_getElem? hnul)
      rw [hget _ hreadV] at hnul
      exact ⟨by rw [← htake hreadV, hV], hVi, hi, Or.inr hnul⟩
    · exact ⟨by rw [← htake (by omega), hV], hVi, hi, Or.inl heq⟩
  · rintro ⟨hV, hVi, -, hend⟩
    have hreadV : read.length ≤ V.chars.length := length_le_of_completes ⟨hV, hVi, hi, hend⟩
    rw [List.take_set_of_le hVi, htake hreadV]
    refine ⟨hV.symm, ?_⟩
    rcases hend with heq | hnul
    · rw [heq, List.getElem?_set_self (by omega)]
    · by_cases heq : V.chars.length = i
      · rw [heq, List.getElem?_set_self (by omega)]
      · rw [List.getElem?_set_ne (Ne.symm heq), hget _ hreadV, hnul]

end Target

section Value

-- The array holds exactly the string `V` after the call.
def Leaves (s : CString) (t : Buffer) (jsonk : CString) (n : Nat) (V : CString) : Prop :=
  ∃ t', getjsonv s t jsonk n = some t' ∧ cstr t' = some V

section Copied

variable (r : List Char) (i n : Nat) (t : Buffer) (V : CString) (hr : '\x00' ∉ r) (hn : n ≤ t.length)

include hr hn

-- The copy from the text `r`, which stands at the index `i` of the source, and the NUL at the index where it ends.
theorem copied_fits_iff (hfit : (scanned 1 r).1.length ≤ n) :
    (∃ t', ((getjsonvCopy n r i 0 1 t).bind fun q => write q.2 q.1 '\x00') = some t' ∧ cstr t' = some V) ↔
      Completes (scanned 1 r).1 (i + (scanned 1 r).2) t V.chars := by
  have hcopy := getjsonvCopy_fits n r i 1 [] t (by simpa using hfit) (by simpa using hn)
  have hsize : ((scanned 1 r).1 ++ t.drop (scanned 1 r).1.length).length = t.length := by
    rw [List.length_append, List.length_drop]
    omega
  rw [List.nil_append, List.nil_append, List.length_nil] at hcopy
  rw [hcopy, Option.bind_some, write]
  simp only [hsize]
  by_cases hi : i + (scanned 1 r).2 < t.length
  · simp only [if_pos hi, Option.some.injEq, exists_eq_left']
    exact cstr_set_iff _ _ _ _ (fun hmem => hr (scanned_subset 1 r hmem)) hi
      ((length_scanned_le 1 r).trans (Nat.le_add_left _ _))
  · simp only [if_neg hi, reduceCtorEq, false_and, exists_false, false_iff]
    exact fun h => hi h.2.2.1

-- More than `n` characters read leave no string of fewer.
theorem copied_overflows (hover : n < (scanned 1 r).1.length) (hlt : strlen V < n) :
    ¬∃ t', ((getjsonvCopy n r i 0 1 t).bind fun q => write q.2 q.1 '\x00') = some t' ∧ cstr t' = some V := by
  obtain ⟨j, b, hcopy, hlen, hj, hsub⟩ := getjsonvCopy_overflows n r i 1 [] t (by simpa using hover) (Nat.zero_le n)
    (by simpa using hn)
  rw [List.nil_append, List.nil_append, List.length_nil] at hcopy
  rw [List.length_nil, Nat.zero_add] at hlen
  rintro ⟨t', ht', hV⟩
  rw [hcopy, Option.bind_some, write] at ht'
  split_ifs at ht' with hsize
  cases ht'
  rw [cstr_eq_some_iff, prefix_snoc_iff] at hV
  have hnul := hV.2
  unfold strlen at hlt
  rw [List.getElem?_set_ne (by omega), List.getElem?_append_left (by omega)] at hnul
  exact hr (hsub (List.mem_of_getElem? hnul))

end Copied

-- Wherever the key stands in the text, but at its end.
theorem leaves_iff_completes (s jsonk V : CString) (t : Buffer) (n : Nat) {p : Nat}
    (hp : firstAt jsonk.chars s.chars = some p) (hend : p + strlen jsonk < strlen s) (hlt : strlen V < n)
    (hn : n ≤ t.length) :
    Leaves s t jsonk n V ↔ Completes (jsonRead s jsonk) (jsonStop s jsonk) t V.chars := by
  have hguard : p < strlen s - jsonk.chars.length := by
    unfold strlen at *
    omega
  have hrun : getjsonv s t jsonk n =
      (getjsonvCopy n (s.chars.drop (p + strlen jsonk + 1)) (p + strlen jsonk + 1) 0 1 t).bind
        fun q => write q.2 q.1 '\x00' := by
    rw [getjsonv, getjsonvFind_eq, hp]
    simp only [Nat.zero_add, if_pos hguard]
    rfl
  have hr : '\x00' ∉ s.chars.drop (p + strlen jsonk + 1) := fun hmem => s.nulFree (List.mem_of_mem_drop hmem)
  simp only [jsonRead, jsonStop, hp, if_pos hend]
  unfold Leaves
  rw [hrun]
  by_cases hfit : (scanned 1 (s.chars.drop (p + strlen jsonk + 1))).1.length ≤ n
  · exact copied_fits_iff _ _ n t V hr hn hfit
  · refine iff_of_false (copied_overflows _ _ n t V hr hn (by omega) hlt) fun h => ?_
    have hle := length_le_of_completes h
    unfold strlen at hlt
    omega

theorem completes_white_iff (w v : List Char) (i : Nat) (t : Buffer) (hi : v.length < i) :
    Completes (w ++ v) i t v ↔ w = [] ∧ i < t.length ∧ t[v.length]? = some '\x00' := by
  unfold Completes
  constructor
  · rintro ⟨hv, -, hlt, hend⟩
    have hlen := congrArg List.length hv
    rw [List.length_append, List.length_append] at hlen
    exact ⟨List.eq_nil_of_length_eq_zero (by omega), hlt, hend.resolve_left (by omega)⟩
  · rintro ⟨rfl, hlt, hnul⟩
    refine ⟨?_, hi.le, hlt, Or.inr hnul⟩
    rw [List.nil_append, List.drop_eq_nil_of_le (by rw [List.length_take]; omega), List.append_nil]

section Member

variable (o : FlatObject) {ms ms' : List Member} {m : Member} (hm : o.members = ms ++ m :: ms')
variable {s jsonk V : CString} (hs : s.chars = o.text) (hkey : jsonk.chars = m.key) (hvalue : V.chars = m.value)

include hm hs hkey

-- The characters of a key of the object stand in the text, at the latest where the key does.
theorem firstAt_key : ∃ p, firstAt jsonk.chars s.chars = some p ∧ p ≤ o.keyAt ms m ∧
    p + strlen jsonk < strlen s := by
  obtain ⟨front, rest, htext, hfront⟩ := o.text_split hm
  rw [← hkey] at htext
  obtain ⟨p, hp, hle⟩ := firstAt_le jsonk.chars front (jsonk.chars ++ (m.valueText ++ rest))
    (by simp [Member.valueText]) (by simp)
  rw [← htext, ← hs] at hp
  refine ⟨p, hp, by omega, ?_⟩
  unfold strlen
  rw [hs, htext]
  simp only [List.length_append, Member.valueText, List.length_cons]
  omega

include hvalue

-- Where it stands there first, the value is read, and the white space around the colon with it.
theorem read_own (hp : firstAt jsonk.chars s.chars = some (o.keyAt ms m))
    (hend : o.keyAt ms m + strlen jsonk < strlen s) :
    jsonRead s jsonk = m.behindKey ++ m.behindColon ++ V.chars ∧
      jsonStop s jsonk =
        o.keyAt ms m + strlen jsonk + 3 + (m.behindKey.length + m.behindColon.length + strlen V) := by
  obtain ⟨front, rest, htext, hfront⟩ := o.text_split hm
  have hdrop : s.chars.drop (o.keyAt ms m + strlen jsonk + 1) =
      m.behindKey ++ ':' :: (m.behindColon ++ '"' :: (m.value ++ '"' :: (m.behind ++ rest))) := by
    have hsplit : s.chars = (front ++ (jsonk.chars ++ ['"'])) ++
        (m.behindKey ++ ':' :: (m.behindColon ++ '"' :: (m.value ++ '"' :: (m.behind ++ rest)))) := by
      rw [hs, htext, hkey, Member.valueText]
      simp
    rw [hsplit, List.drop_left']
    simp only [List.length_append, List.length_singleton, hfront, strlen]
    omega
  simp only [jsonRead, jsonStop, hp, if_pos hend, hdrop, scanned_member]
  refine ⟨by rw [hvalue, List.append_assoc], ?_⟩
  unfold strlen
  rw [hvalue]
  omega

-- The value of a key is left in the array exactly in two cases. Either the characters of the key stand first
-- in the key itself, no white space surrounds its colon, the quote that ends the value has an index inside the
-- array, and the array held a NUL where the value ends. Or they stand in the text before, and what is read
-- there happens to make up the value with the help of what the array held.
theorem getjsonv_value_iff (t : Buffer) (n : Nat) (hlt : strlen V < n) (hn : n ≤ t.length) :
    Leaves s t jsonk n V ↔
      (firstAt jsonk.chars s.chars = some (o.keyAt ms m) ∧ m.behindKey = [] ∧ m.behindColon = [] ∧
        o.keyAt ms m + strlen jsonk + 3 + strlen V < t.length ∧ t[strlen V]? = some '\x00') ∨
      (firstAt jsonk.chars s.chars ≠ some (o.keyAt ms m) ∧
        Completes (jsonRead s jsonk) (jsonStop s jsonk) t V.chars) := by
  obtain ⟨p, hp, -, hend⟩ := firstAt_key o hm hs hkey
  rw [leaves_iff_completes s jsonk V t n hp hend hlt hn]
  by_cases hown : p = o.keyAt ms m
  · subst hown
    obtain ⟨hread, hstop⟩ := read_own o hm hs hkey hvalue hp hend
    have hshort : V.chars.length < jsonStop s jsonk := by
      rw [hstop]
      unfold strlen
      omega
    simp only [hp, ne_eq, not_true_eq_false, false_and, or_false, true_and]
    rw [hread, completes_white_iff _ _ _ _ hshort, List.append_eq_nil_iff, and_assoc]
    refine and_congr_right fun hkeyWhite => and_congr_right fun hcolonWhite => ?_
    rw [hstop, hkeyWhite, hcolonWhite, List.length_nil, Nat.zero_add]
    rfl
  · have hne : firstAt jsonk.chars s.chars ≠ some (o.keyAt ms m) := by
      rw [hp]
      exact fun h => hown (Option.some.inj h)
    simp only [hne, false_and, false_or, ne_eq, not_false_eq_true, true_and]

end Member

-- The object {"key":"1"}.
def oneMember : FlatObject where
  members := [{ key := ['k', 'e', 'y'], value := ['1'], before := [], behindKey := [], behindColon := [],
                behind := [], key_quoteFree := by decide, value_quoteFree := by decide,
                before_white := List.forall_mem_nil _, behindKey_white := List.forall_mem_nil _,
                behindColon_white := List.forall_mem_nil _, behind_white := List.forall_mem_nil _ }]
  before := []
  behind := []
  keys_nodup := by decide
  before_white := List.forall_mem_nil _
  behind_white := List.forall_mem_nil _

theorem getjsonv_value_cleared : Leaves (lit "\x7b\"key\":\"1\"\x7d") (zeros 16) (lit "key") 16 (lit "1") :=
  (@getjsonv_value_iff oneMember [] [] _ rfl _ _ _ rfl rfl rfl (zeros 16) 16 (by decide) (by decide)).mpr
    (Or.inl (by decide))

-- An array that held other characters keeps them between the value and the NUL.
theorem getjsonv_value_spoiled :
    ¬∀ (o : FlatObject) (m : Member) (s jsonk V : CString) (t : Buffer) (n : Nat), m ∈ o.members →
      s.chars = o.text → jsonk.chars = m.key → V.chars = m.value → strlen V < n → n ≤ t.length →
        Leaves s t jsonk n V := by
  intro hall
  obtain ⟨t', hrun, hV⟩ := hall oneMember _ (lit "\x7b\"key\":\"1\"\x7d") (lit "key") (lit "1")
    (List.replicate 16 'x') 16 List.mem_cons_self rfl rfl rfl (by decide) (by decide)
  have hspoiled : getjsonv (lit "\x7b\"key\":\"1\"\x7d") (List.replicate 16 'x') (lit "key") 16 =
      some ("1xxxxxxxx\x00xxxxxx".toList) := by decide
  rw [hspoiled] at hrun
  cases hrun
  exact absurd hV (by decide)

end Value

end RichardTest.Http
