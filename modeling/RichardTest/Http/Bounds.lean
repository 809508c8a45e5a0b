import RichardTest.Http.Scan

namespace RichardTest.Http

section Line

-- What stands behind `l` line ends, each CR and each LF counted as one.
def fromLine : Nat → List Char → List Char
  | 0, s => s
  | l + 1, s => fromLine l (s.dropWhile inLine).tail

theorem fromLine_nil (l : Nat) : fromLine l [] = [] := by
  induction l with
  | zero => rfl
  | succ l ih => exact ih

theorem fromLine_suffix (l : Nat) (s : List Char) : fromLine l s <:+ s := by
  induction l generalizing s with
  | zero => exact List.suffix_rfl
  | succ l ih => exact (ih _).trans ((List.tail_suffix _).trans (List.dropWhile_suffix inLine))

-- The line of number `l`; there is none for a negative number.
def lineOf (l : Int) (s : CString) : CString :=
  if l < 0 then lit ""
  else leading inLine ⟨fromLine l.toNat s.chars, fun h => s.nulFree ((fromLine_suffix _ _).subset h)⟩

-- The loop passes the lines before.
theorem getlnLoop_skip (n l : Nat) (s : List Char) (j : Nat) (hj : j ≤ l) (t : Buffer) :
    getlnLoop n l s j 0 t = getlnLoop n l (fromLine (l - j) s) l 0 t := by
  induction s generalizing j with
  | nil => rw [fromLine_nil, getlnLoop, getlnLoop]
  | cons c s ih =>
      rcases Nat.eq_or_lt_of_le hj with rfl | hlt
      · rw [Nat.sub_self, fromLine]
      · obtain ⟨d, hd⟩ : ∃ d, l - j = d + 1 := ⟨l - j - 1, by omega⟩
        rw [getlnLoop, if_neg (by omega), hd, fromLine]
        cases hc : inLine c with
        | false =>
            rw [List.dropWhile_cons_of_neg (by simp [hc]), List.tail_cons]
            rw [inLine, decide_eq_false_iff_not, ← not_or, not_not] at hc
            rw [if_pos hc, ih (j + 1) hlt, show l - (j + 1) = d by omega]
        | true =>
            rw [List.dropWhile_cons_of_pos hc]
            rw [inLine, decide_eq_true_eq, ← not_or] at hc
            rw [if_neg hc, ih j hj, hd, fromLine]

theorem getlnLoop_negative (n : Nat) {l : Int} (hl : l < 0) (s : List Char) (j k : Nat) (t : Buffer) :
    getlnLoop n l s j k t = some (k, t) := by
  induction s generalizing j with
  | nil => rw [getlnLoop]
  | cons c s ih => rw [getlnLoop, if_neg (by omega), ih, ih, ite_self]

theorem getln_isSome_iff (s : CString) {t : Buffer} {n : Nat} (ht : t.length = n) (hn : 0 < n) (l : Int) :
    (getln s t n l).isSome ↔ strlen (lineOf l s) < n := by
  rw [getln, lineOf]
  by_cases hl : l < 0
  · rw [getlnLoop_negative n hl, if_pos hl]
    exact (write_isSome_iff t 0 '\x00').trans (by rw [ht]; rfl)
  · obtain ⟨m, rfl⟩ := Int.eq_ofNat_of_zero_le (Int.not_lt.mp hl)
    rw [getlnLoop_skip n m s.chars 0 (Nat.zero_le m), if_neg hl]
    exact ((getlnLoop_copies n m).isSome_iff _ 0 t ht hn.le).trans (by rw [Nat.zero_add]; rfl)

end Line

section Others

variable (s : CString) {t : Buffer} {n : Nat} (ht : t.length = n)

include ht

theorem getmethod_isSome_iff : (getmethod s t n).isSome ↔ strlen (methodOf s) < n :=
  ((getmethodLoop_copies n).isSome_iff s.chars 0 t ht (Nat.zero_le n)).trans (by rw [Nat.zero_add]; rfl)

theorem geturi_isSome_iff : (geturi s t n).isSome ↔ strlen (uriOf s) < n := by
  rw [geturi, geturiLoop_skip]
  exact ((geturiLoop_copies n).isSome_iff _ 0 t ht (Nat.zero_le n)).trans (by rw [Nat.zero_add]; rfl)

theorem getbody_isSome_iff (hn : 0 < n) : (getbody s t n).isSome ↔ strlen (bodyOf s) < n := by
  obtain ⟨i, hi, hskip⟩ := getbodyLoop_skip n hn s.chars t
  have hcopy := (getbodyLoop_copies s.chars n i hi).isSome_iff (behindBlank s.chars) 0 t ht hn.le
  rw [takeWhile_true, Nat.zero_add] at hcopy
  rw [getbody, hskip]
  exact hcopy

end Others

section Json

-- What getjsonv reads behind the key from the counter `k` on, and how many characters it passes: the colons
-- and quotes that raise the counter to 3 are left out, and the next quote ends the text.
def scanned : Nat → List Char → List Char × Nat
  | _, [] => ([], 0)
  | k, c :: s =>
      if k < 3 ∧ (c = ':' ∨ c = '"') then ((scanned (k + 1) s).1, (scanned (k + 1) s).2 + 1)
      else if c ≠ '"' then (c :: (scanned k s).1, (scanned k s).2 + 1)
      else ([], 0)

theorem length_scanned_le (k : Nat) (s : List Char) : (scanned k s).1.length ≤ (scanned k s).2 := by
  induction s generalizing k with
  | nil => exact Nat.le_refl 0
  | cons c s ih =>
      rw [scanned]
      split_ifs
      · exact (ih (k + 1)).trans (Nat.le_succ _)
      · exact Nat.succ_le_succ (ih k)
      · exact Nat.le_refl 0

theorem write_append_cons (a r : List Char) (x c : Char) :
    write (a ++ x :: r) a.length c = some ((a ++ [c]) ++ r) := by
  rw [write, if_pos (by simp), List.set_append_right _ _ le_rfl, Nat.sub_self, List.set_cons_zero]
  simp

-- `a` is what was copied before, `r` what the array holds behind it.
theorem getjsonvCopy_fits (n : Nat) (s : List Char) (i k : Nat) (a r : List Char)
    (hfit : a.length + (scanned k s).1.length ≤ n) (hn : n ≤ (a ++ r).length) :
    getjsonvCopy n s i a.length k (a ++ r) =
      some (i + (scanned k s).2, a ++ (scanned k s).1 ++ r.drop (scanned k s).1.length) := by
  induction s generalizing i k a r with
  | nil => simp [getjsonvCopy, scanned]
  | cons c s ih =>
      rw [scanned] at hfit ⊢
      rw [getjsonvCopy]
      by_cases hskip : k < 3 ∧ (c = ':' ∨ c = '"')
      · simp only [if_pos hskip] at hfit ⊢
        rw [ih (i + 1) (k + 1) a r hfit hn, Nat.add_assoc, Nat.add_comm 1]
      · by_cases hquote : c ≠ '"'
        · simp only [if_neg hskip, if_pos hquote, List.length_cons] at hfit ⊢
          cases r with
          | nil =>
              rw [List.append_nil] at hn
              omega
          | cons x r =>
              have hlen : (a ++ [c]).length = a.length + 1 := by simp
              have hnext := ih (i + 1) k (a ++ [c]) r (by omega) (by simpa using hn)
              rw [hlen] at hnext
              rw [if_pos ⟨by omega, hquote⟩, write_append_cons, Option.bind_eq_bind, Option.bind_some, hnext,
                Nat.add_assoc i 1, Nat.add_comm 1]
              simp
        · simp [hskip, hquote]

-- The text is longer than `n`: the copying ends after `n` characters, further on in the source.
theorem getjsonvCopy_overflows (n : Nat) (s : List Char) (i k : Nat) (a r : List Char)
    (hover : n < a.length + (scanned k s).1.length) (ha : a.length ≤ n) (hn : n ≤ (a ++ r).length) :
    ∃ i' b, getjsonvCopy n s i a.length k (a ++ r) = some (i', a ++ b ++ r.drop b.length) ∧
      a.length + b.length = n ∧ i + b.length ≤ i' ∧ b ⊆ s := by
  induction s generalizing i k a r with
  | nil =>
      simp only [scanned, List.length_nil] at hover
      omega
  | cons c s ih =>
      rw [scanned] at hover
      rw [getjsonvCopy]
      by_cases hskip : k < 3 ∧ (c = ':' ∨ c = '"')
      · simp only [if_pos hskip] at hover ⊢
        obtain ⟨i', b, hrun, hlen, hi, hsub⟩ := ih (i + 1) (k + 1) a r hover ha hn
        exact ⟨i', b, hrun, hlen, by omega, List.subset_cons_of_subset c hsub⟩
      · by_cases hquote : c ≠ '"'
        · simp only [if_neg hskip, if_pos hquote, List.length_cons] at hover ⊢
          rcases Nat.lt_or_eq_of_le ha with hlt | heq
          · cases r with
            | nil =>
                rw [List.append_nil] at hn
                omega
            | cons x r =>
                have hlen : (a ++ [c]).length = a.length + 1 := by simp
                obtain ⟨i', b, hrun, hlenb, hi, hsub⟩ :=
                  ih (i + 1) k (a ++ [c]) r (by omega) (by omega) (by simpa using hn)
                rw [hlen] at hrun hlenb
                refine ⟨i', c :: b, ?_, by simp only [List.length_cons]; omega,
                  by simp only [List.length_cons]; omega, List.cons_subset_cons c hsub⟩
                rw [if_pos ⟨hlt, hquote⟩, write_append_cons, Option.bind_eq_bind, Option.bind_some, hrun]
                simp
          · rw [if_neg fun h => absurd h.1 (by omega)]
            exact ⟨i, [], by simp, by simpa using heq, Nat.le_refl _, List.nil_subset _⟩
        · simp only [if_neg hskip, if_neg hquote, List.length_nil] at hover
          omega

-- The first place where the characters of the key stand.
def firstAt (jsonk : List Char) : List Char → Option Nat
  | [] => none
  | c :: s => if (c :: s).take jsonk.length = jsonk then some 0 else (firstAt jsonk s).map (· + 1)

theorem getjsonvFind_eq (jsonk : List Char) (n len : Nat) (s : List Char) (i : Nat) (t : Buffer) :
    getjsonvFind jsonk n len s i t =
      match firstAt jsonk s with
      | none => some (i + s.length, t)
      | some p =>
          if i + p < len - jsonk.length then
            getjsonvCopy n (s.drop (p + jsonk.length + 1)) (i + p + jsonk.length + 1) 0 1 t
          else some (i + p, t) := by
  induction s generalizing i with
  | nil => rfl
  | cons c s ih =>
      rw [getjsonvFind, firstAt]
      by_cases hkey : (c :: s).take jsonk.length = jsonk
      · rw [if_neg (not_not.mpr hkey), if_pos hkey]
        simp only [Nat.add_zero, Nat.zero_add]
      · rw [if_pos hkey, if_neg hkey, ih]
        cases firstAt jsonk s with
        | none => simp only [Option.map_none, List.length_cons, Nat.add_assoc, Nat.add_comm 1]
        | some p =>
            have hdrop : (c :: s).drop (p + 1 + jsonk.length + 1) = s.drop (p + jsonk.length + 1) := by
              rw [List.drop_succ_cons, Nat.add_right_comm]
            have hp : i + 1 + p = i + (p + 1) := by rw [Nat.add_assoc, Nat.add_comm 1]
            simp only [Option.map_some, hdrop, hp]

-- The index in the text at which getjsonv ends: the end of the text where the key does not occur, the key
-- where it ends the text, and otherwise the quote behind what is read.
def jsonStop (s jsonk : CString) : Nat :=
  match firstAt jsonk.chars s.chars with
  | none => strlen s
  | some p =>
      if p + strlen jsonk < strlen s then
        p + strlen jsonk + 1 + (scanned 1 (s.chars.drop (p + strlen jsonk + 1))).2
      else p

theorem getjsonv_isSome_iff (s jsonk : CString) {t : Buffer} {n : Nat} (ht : t.length = n) :
    (getjsonv s t jsonk n).isSome ↔ jsonStop s jsonk < n := by
  rw [getjsonv, getjsonvFind_eq, jsonStop]
  cases firstAt jsonk.chars s.chars with
  | none => exact (write_isSome_iff _ _ _).trans (by rw [Nat.zero_add, ht]; rfl)
  | some p =>
      simp only [Nat.zero_add, show p < strlen s - jsonk.chars.length ↔ p + strlen jsonk < strlen s by
        unfold strlen; omega]
      split_ifs with hend
      · have hlong := length_scanned_le 1 (s.chars.drop (p + strlen jsonk + 1))
        by_cases hfit : (scanned 1 (s.chars.drop (p + strlen jsonk + 1))).1.length ≤ n
        · have hrun := getjsonvCopy_fits n (s.chars.drop (p + strlen jsonk + 1)) (p + strlen jsonk + 1) 1 [] t
            (by simpa using hfit) (by simp [ht])
          rw [List.nil_append, List.length_nil] at hrun
          rw [show jsonk.chars.length = strlen jsonk from rfl, hrun]
          refine (write_isSome_iff _ _ _).trans ?_
          rw [List.length_append, List.length_append, List.length_drop, ht, List.length_nil, Nat.zero_add,
            Nat.add_sub_of_le hfit]
        · obtain ⟨i, b, hrun, hlen, hi, -⟩ := getjsonvCopy_overflows n (s.chars.drop (p + strlen jsonk + 1))
            (p + strlen jsonk + 1) 1 [] t (by simpa using hfit) (Nat.zero_le n) (by simp [ht])
          rw [List.nil_append, List.length_nil] at hrun
          rw [show jsonk.chars.length = strlen jsonk from rfl, hrun]
          refine (write_isSome_iff _ _ _).trans ?_
          rw [List.length_nil, Nat.zero_add] at hlen
          simp only [List.nil_append, List.length_append, List.length_drop, ht]
          omega
      · exact (write_isSome_iff _ _ _).trans (by rw [ht])

end Json

-- For an array of `n` cells, whatever it holds: each of the five functions stays in it, the terminator
-- included, exactly if what it copies is shorter than `n`. getjsonv writes its terminator at the index in the
-- source, so there the place of the text counts.
theorem writes_inside_iff (s jsonk : CString) (l : Int) (t : Buffer) (n : Nat) (hn : 1 ≤ n) (ht : t.length = n) :
    ((getmethod s t n).isSome ↔ strlen (methodOf s) < n) ∧
      ((geturi s t n).isSome ↔ strlen (uriOf s) < n) ∧
      ((getln s t n l).isSome ↔ strlen (lineOf l s) < n) ∧
      ((getbody s t n).isSome ↔ strlen (bodyOf s) < n) ∧
      ((getjsonv s t jsonk n).isSome ↔ jsonStop s jsonk < n) :=
  ⟨getmethod_isSome_iff s ht, geturi_isSome_iff s ht, getln_isSome_iff s ht hn l, getbody_isSome_iff s ht hn,
    getjsonv_isSome_iff s jsonk ht⟩

-- The arrays of dispatch, on a request that fits them.
theorem writes_inside_get :
    let s := lit "GET / HTTP/1.1\r\n\r\n"
    (getmethod s (zeros 5) 5).isSome ∧ (getjsonv s (zeros 50) (lit "k") 50).isSome := by
  intro s
  have h5 := writes_inside_iff s (lit "k") 0 (zeros 5) 5 (by decide) (length_zeros 5)
  have h50 := writes_inside_iff s (lit "k") 0 (zeros 50) 50 (by decide) (length_zeros 50)
  exact ⟨h5.1.mpr (by decide), h50.2.2.2.2.mpr (by decide)⟩

-- PATCH fills the five cells of dispatch's array, and the NUL goes behind them.
theorem writes_outside_patch :
    ¬∀ (s jsonk : CString) (l : Int) (t : Buffer) (n : Nat), 1 ≤ n → t.length = n →
      (getmethod s t n).isSome ∧ (geturi s t n).isSome ∧ (getln s t n l).isSome ∧ (getbody s t n).isSome ∧
        (getjsonv s t jsonk n).isSome := by
  intro hall
  have hmethod := (hall (lit "PATCH / HTTP/1.1") (lit "k") 0 (zeros 5) 5 (by decide) (length_zeros 5)).1
  exact absurd hmethod (by decide)

end RichardTest.Http
