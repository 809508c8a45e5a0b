import RichardTest.Http
import Mathlib.Data.List.GetD

namespace RichardTest.Http

section Buffers

variable {a t : List Char}

theorem length_zeros (n : Nat) : (zeros n).length = n := List.length_replicate

theorem write_snoc (c : Char) (h : a <+: t) (hlt : a.length < t.length) :
    ∃ t', write t a.length c = some t' ∧ a ++ [c] <+: t' ∧ t'.length = t.length := by
  obtain ⟨r, rfl⟩ := h
  cases r with
  | nil => simp at hlt
  | cons x r =>
      refine ⟨a ++ c :: r, ?_, ⟨r, by simp⟩, by simp⟩
      rw [write, if_pos hlt, List.set_append_right _ _ le_rfl, Nat.sub_self, List.set_cons_zero]

theorem cstr_of_prefix (s : CString) (h : s.chars ++ ['\x00'] <+: t) : cstr t = some s := by
  obtain ⟨r, rfl⟩ := h
  have hchars : ∀ c ∈ s.chars, decide (c ≠ '\x00') = true := fun c hc =>
    decide_eq_true fun h => s.nulFree (h ▸ hc)
  rw [cstr, if_pos (by simp), Option.some.injEq]
  apply CString.ext
  simp only [upToNul, List.append_assoc, List.takeWhile_append_of_pos hchars]
  simp

theorem write_isSome_iff (t : Buffer) (i : Nat) (c : Char) : (write t i c).isSome ↔ i < t.length := by
  rw [write]
  split_ifs with h
  · exact iff_of_true rfl h
  · exact iff_of_false Bool.false_ne_true h

theorem chars_append (s t : CString) : (s ++ t).chars = s.chars ++ t.chars := rfl

theorem strlen_append (s t : CString) : strlen (s ++ t) = strlen s + strlen t := List.length_append

end Buffers

section Filled

-- An array of `n` cells that was cleared and holds `a` now.
def filled (n : Nat) (a : List Char) : Buffer := a ++ zeros (n - a.length)

variable {n : Nat} {a : List Char}

theorem length_filled (ha : a.length ≤ n) : (filled n a).length = n := by
  rw [filled, zeros, List.length_append, List.length_replicate]
  omega

theorem write_filled (c : Char) (ha : a.length < n) :
    write (filled n a) a.length c = some (filled n (a ++ [c])) := by
  obtain ⟨k, hk⟩ : ∃ k, n - a.length = k + 1 := ⟨n - a.length - 1, by omega⟩
  have hk' : n - (a.length + 1) = k := by omega
  rw [write, if_pos (by rwa [length_filled ha.le]), filled, filled, hk, zeros, List.replicate_succ,
    List.set_append_right _ _ le_rfl, Nat.sub_self, List.set_cons_zero, List.length_append,
    List.length_singleton, hk', List.append_assoc]
  rfl

-- The terminator stands there already, if there is a cell for it.
theorem write_nul (ha : a.length ≤ n) :
    write (filled n a) a.length '\x00' = if a.length < n then some (filled n a) else none := by
  split_ifs with h
  · obtain ⟨k, hk⟩ : ∃ k, n - a.length = k + 1 := ⟨n - a.length - 1, by omega⟩
    rw [write, if_pos (by rwa [length_filled ha]), filled, hk, zeros, List.replicate_succ,
      List.set_append_right _ _ le_rfl, Nat.sub_self, List.set_cons_zero]
  · rw [write, if_neg (by rwa [length_filled ha])]

theorem cstr_filled {s : CString} (hs : strlen s < n) : cstr (filled n s.chars) = some s := by
  obtain ⟨k, hk⟩ : ∃ k, n - s.chars.length = k + 1 := ⟨n - strlen s - 1, by unfold strlen at *; omega⟩
  refine cstr_of_prefix s ⟨zeros k, ?_⟩
  rw [filled, hk, List.append_assoc]
  rfl

end Filled

section Copy

-- A loop that copies characters as long as they satisfy `P` and the array has a cell for them.
structure Copies (f : List Char → Nat → Buffer → Option (Nat × Buffer)) (P : Char → Bool) (n : Nat) : Prop where
  copy : ∀ c s k t, P c = true → k < n → f (c :: s) k t = (write t k c).bind fun t => f s (k + 1) t
  stop : ∀ c s k t, P c = false → f (c :: s) k t = some (k, t)
  done : ∀ k t, f [] k t = some (k, t)
  full : ∀ s t, f s n t = some (n, t)

variable {f : List Char → Nat → Buffer → Option (Nat × Buffer)} {P : Char → Bool} {n : Nat}

-- By induction on the characters to come. `a` is what was copied before them.
theorem Copies.filled (h : Copies f P n) (s a : List Char) (ha : a.length ≤ n) :
    ((f s a.length (filled n a)).bind fun p => write p.2 p.1 '\x00') =
      if a.length + (s.takeWhile P).length < n then some (Http.filled n (a ++ s.takeWhile P)) else none := by
  induction s generalizing a with
  | nil =>
      rw [h.done, Option.bind_some, write_nul ha, List.takeWhile_nil, List.append_nil]
      rfl
  | cons c s ih =>
      cases hc : P c with
      | false =>
          rw [h.stop _ _ _ _ hc, Option.bind_some, write_nul ha, List.takeWhile_cons_of_neg (by simp [hc]),
            List.append_nil]
          rfl
      | true =>
          rw [List.takeWhile_cons_of_pos hc, List.length_cons]
          rcases Nat.lt_or_eq_of_le ha with hlt | heq
          · have hnext := ih (a ++ [c]) (by rw [List.length_append, List.length_singleton]; omega)
            rw [List.length_append, List.length_singleton, List.append_assoc, Nat.add_assoc,
              Nat.add_comm 1] at hnext
            rw [h.copy _ _ _ _ hc hlt, write_filled c hlt, Option.bind_some, hnext]
            rfl
          · subst heq
            rw [h.full, Option.bind_some, if_neg (by omega)]
            exact (write_nul le_rfl).trans (if_neg (lt_irrefl _))

theorem Copies.zeros (h : Copies f P n) (s : List Char) :
    ((f s 0 (zeros n)).bind fun p => write p.2 p.1 '\x00') =
      if (s.takeWhile P).length < n then some (Http.filled n (s.takeWhile P)) else none := by
  have hfilled := h.filled s [] (Nat.zero_le n)
  rwa [List.length_nil, Nat.zero_add, List.nil_append] at hfilled

-- Whatever the array holds, the loop and the terminator behind it stay in its `n` cells exactly if the
-- text is shorter.
theorem Copies.isSome_iff (h : Copies f P n) (s : List Char) (k : Nat) (t : Buffer) (ht : t.length = n)
    (hk : k ≤ n) :
    ((f s k t).bind fun p => write p.2 p.1 '\x00').isSome ↔ k + (s.takeWhile P).length < n := by
  induction s generalizing k t with
  | nil => rw [h.done, Option.bind_some, write_isSome_iff, ht, List.takeWhile_nil, List.length_nil, Nat.add_zero]
  | cons c s ih =>
      cases hc : P c with
      | false =>
          rw [h.stop _ _ _ _ hc, Option.bind_some, write_isSome_iff, ht,
            List.takeWhile_cons_of_neg (by simp [hc]), List.length_nil, Nat.add_zero]
      | true =>
          rw [List.takeWhile_cons_of_pos hc, List.length_cons]
          rcases Nat.lt_or_eq_of_le hk with hlt | heq
          · rw [h.copy _ _ _ _ hc hlt, write, if_pos (by omega), Option.bind_some,
              ih (k + 1) _ (by rw [List.length_set, ht]) hlt]
            omega
          · subst heq
            rw [h.full, Option.bind_some, write_isSome_iff, ht]
            omega

end Copy

section Line

def inLine (c : Char) : Bool := c ≠ '\n' ∧ c ≠ '\r'

def inMethod (c : Char) : Bool := c ≠ '\n' ∧ c ≠ '\r' ∧ c ≠ ' '

def inUri (c : Char) : Bool := c ≠ ' '

-- The leading characters of `s` that satisfy `P`.
def leading (P : Char → Bool) (s : CString) : CString :=
  ⟨s.chars.takeWhile P, fun h => s.nulFree ((List.takeWhile_prefix P).subset h)⟩

-- The characters behind the first space.
def behindSpace (s : CString) : CString :=
  ⟨(s.chars.dropWhile inUri).tail, fun h =>
    s.nulFree ((List.dropWhile_suffix inUri).subset (List.mem_of_mem_tail h))⟩

def firstLine (s : CString) : CString := leading inLine s

def methodOf (line : CString) : CString := leading inMethod line

def uriOf (line : CString) : CString := leading inUri (behindSpace line)

theorem getlnLoop_copies (n j : Nat) : Copies (fun s k t => getlnLoop n j s j k t) inLine n where
  copy c s k t hc hk := by
    rw [inLine, decide_eq_true_eq, ← not_or] at hc
    rw [getlnLoop, if_pos rfl, if_neg hc, if_pos hk]
    rfl
  stop c s k t hc := by
    rw [inLine, decide_eq_false_iff_not, ← not_or, not_not] at hc
    rw [getlnLoop, if_pos rfl, if_pos hc]
  done k t := by rw [getlnLoop]
  full s t := by
    cases s with
    | nil => rw [getlnLoop]
    | cons c s => rw [getlnLoop, if_pos rfl, if_neg (lt_irrefl n), ite_self]

theorem getln_zeros (s : CString) (n : Nat) :
    getln s (zeros n) n 0 =
      if strlen (firstLine s) < n then some (filled n (firstLine s).chars) else none :=
  (getlnLoop_copies n 0).zeros s.chars

theorem getmethodLoop_copies (n : Nat) : Copies (getmethodLoop n) inMethod n where
  copy c s k t hc hk := by
    rw [inMethod, decide_eq_true_eq, ← not_or, ← not_or] at hc
    rw [getmethodLoop, if_neg (by omega), if_neg hc]
    rfl
  stop c s k t hc := by
    rw [inMethod, decide_eq_false_iff_not, ← not_or, ← not_or, not_not] at hc
    rw [getmethodLoop, if_pos hc, ite_self]
  done k t := by rw [getmethodLoop]
  full s t := by
    cases s with
    | nil => rw [getmethodLoop]
    | cons c s => rw [getmethodLoop, if_pos le_rfl]

theorem getmethod_zeros (s : CString) (n : Nat) :
    getmethod s (zeros n) n =
      if strlen (methodOf s) < n then some (filled n (methodOf s).chars) else none :=
  (getmethodLoop_copies n).zeros s.chars

-- The loop passes what stands before the first space.
theorem geturiLoop_skip (n : Nat) (s : List Char) (t : Buffer) :
    geturiLoop n s 0 0 t = geturiLoop n (s.dropWhile inUri).tail 1 0 t := by
  induction s with
  | nil => rfl
  | cons c s ih =>
      rw [geturiLoop, if_neg Nat.zero_ne_one]
      cases hc : inUri c with
      | false =>
          rw [List.dropWhile_cons_of_neg (by simp [hc]), List.tail_cons]
          rw [inUri, decide_eq_false_iff_not, not_not] at hc
          rw [if_pos hc]
      | true =>
          rw [List.dropWhile_cons_of_pos hc, ← ih]
          rw [inUri, decide_eq_true_eq] at hc
          rw [if_neg hc]

theorem geturiLoop_copies (n : Nat) : Copies (fun s k t => geturiLoop n s 1 k t) inUri n where
  copy c s k t hc hk := by
    rw [inUri, decide_eq_true_eq] at hc
    rw [geturiLoop, if_pos rfl, if_neg hc, if_pos hk]
    rfl
  stop c s k t hc := by
    rw [inUri, decide_eq_false_iff_not, not_not] at hc
    rw [geturiLoop, if_pos rfl, if_pos hc]
  done k t := by rw [geturiLoop]
  full s t := by
    cases s with
    | nil => rw [geturiLoop]
    | cons c s => rw [geturiLoop, if_pos rfl, if_neg (lt_irrefl n), ite_self]

theorem geturi_zeros (s : CString) (n : Nat) :
    geturi s (zeros n) n = if strlen (uriOf s) < n then some (filled n (uriOf s).chars) else none := by
  rw [geturi, geturiLoop_skip]
  exact (geturiLoop_copies n).zeros (behindSpace s).chars

end Line

section Body

-- What stands behind the first empty line.
def behindBlank : List Char → List Char
  | [] => []
  | c :: s => if ['\r', '\n', '\r', '\n'] <+: c :: s then s.drop 3 else behindBlank s

theorem behindBlank_suffix (s : List Char) : behindBlank s <:+ s := by
  induction s with
  | nil => exact List.suffix_rfl
  | cons c s ih =>
      rw [behindBlank]
      split_ifs
      · exact (List.drop_suffix 3 s).trans (List.suffix_cons c s)
      · exact ih.trans (List.suffix_cons c s)

theorem behindBlank_of_length_lt (s : List Char) (h : s.length < 4) : behindBlank s = [] := by
  induction s with
  | nil => rfl
  | cons c s ih =>
      rw [List.length_cons] at h
      rw [behindBlank, if_neg, ih (by omega)]
      intro hblank
      have hlen := hblank.length_le
      simp only [List.length_cons, List.length_nil] at hlen
      omega

def bodyOf (s : CString) : CString :=
  ⟨behindBlank s.chars, fun h => s.nulFree ((behindBlank_suffix s.chars).subset h)⟩

-- The loop behind the header copies all the rest.
theorem getbodyLoop_copies (s : List Char) (n i : Nat) (hi : 3 ≤ i) :
    Copies (fun rest k t => getbodyLoop s n rest (i + k) k true t) (fun _ => true) n where
  copy c rest k t _ hk := by
    rw [getbodyLoop, if_neg (by omega), if_neg (by omega), if_pos rfl]
    rfl
  stop c rest k t hc := by contradiction
  done k t := by rw [getbodyLoop]
  full rest t := by
    cases rest with
    | nil => rw [getbodyLoop]
    | cons c rest => rw [getbodyLoop, if_neg (by omega), if_pos le_rfl]

-- By induction on the characters to come, with the three before them at hand.
theorem getbodyLoop_scan (n : Nat) (hn : 0 < n) (t : Buffer) (p rest : List Char) (x y z : Char) :
    ∃ i, 3 ≤ i ∧ getbodyLoop (p ++ x :: y :: z :: rest) n rest (p.length + 3) 0 false t =
      getbodyLoop (p ++ x :: y :: z :: rest) n (behindBlank (x :: y :: z :: rest)) i 0 true t := by
  induction rest generalizing p x y z with
  | nil =>
      rw [behindBlank_of_length_lt _ (by simp)]
      exact ⟨3, le_rfl, by rw [getbodyLoop, getbodyLoop]⟩
  | cons c rest ih =>
      have hget : ∀ k, (p ++ x :: y :: z :: c :: rest).getD (p.length + k) '\x00' =
          (x :: y :: z :: c :: rest).getD k '\x00' := fun k => by
        rw [List.getD_append_right _ _ _ _ (by omega), Nat.add_sub_cancel_left]
      have hblank : (x = '\r' ∧ y = '\n' ∧ z = '\r' ∧ c = '\n') ↔
          ['\r', '\n', '\r', '\n'] <+: x :: y :: z :: c :: rest := by
        simp only [List.cons_prefix_cons, List.nil_prefix, and_true]
        simp only [eq_comm]
      rw [getbodyLoop, if_neg (by omega), if_neg (by omega), if_neg Bool.false_ne_true]
      have hx : (p ++ x :: y :: z :: c :: rest).getD (p.length + 3 - 3) '\x00' = x := hget 0
      have hy : (p ++ x :: y :: z :: c :: rest).getD (p.length + 3 - 2) '\x00' = y := hget 1
      have hz : (p ++ x :: y :: z :: c :: rest).getD (p.length + 3 - 1) '\x00' = z := hget 2
      rw [hx, hy, hz, behindBlank]
      simp only [hblank]
      by_cases h : ['\r', '\n', '\r', '\n'] <+: x :: y :: z :: c :: rest
      · simp only [if_pos h]
        exact ⟨p.length + 3 + 1, by omega, rfl⟩
      · simp only [if_neg h]
        have hnext := ih (p ++ [x]) y z c
        rw [List.append_assoc, List.length_append, List.length_singleton] at hnext
        exact hnext

-- The loop passes the header.
theorem getbodyLoop_skip (n : Nat) (hn : 0 < n) (s : List Char) (t : Buffer) :
    ∃ i, 3 ≤ i ∧ getbodyLoop s n s 0 0 false t = getbodyLoop s n (behindBlank s) i 0 true t := by
  match s with
  | [] => exact ⟨3, le_rfl, rfl⟩
  | [x] =>
      rw [behindBlank_of_length_lt _ (by simp)]
      exact ⟨3, le_rfl, rfl⟩
  | [x, y] =>
      rw [behindBlank_of_length_lt _ (by simp)]
      exact ⟨3, le_rfl, rfl⟩
  | x :: y :: z :: rest => exact getbodyLoop_scan n hn t [] rest x y z

theorem takeWhile_true (s : List Char) : s.takeWhile (fun _ => true) = s :=
  List.takeWhile_eq_self_iff.mpr fun _ _ => rfl

theorem getbody_zeros (s : CString) (n : Nat) (hn : 0 < n) :
    getbody s (zeros n) n = if strlen (bodyOf s) < n then some (filled n (bodyOf s).chars) else none := by
  obtain ⟨i, hi, hskip⟩ := getbodyLoop_skip n hn s.chars (zeros n)
  have hcopy := (getbodyLoop_copies s.chars n i hi).zeros (behindBlank s.chars)
  rw [takeWhile_true] at hcopy
  rw [getbody, hskip]
  exact hcopy

theorem strlen_bodyOf_le (s : CString) : strlen (bodyOf s) ≤ strlen s := (behindBlank_suffix s.chars).length_le

end Body

section Fields

-- What dispatch takes out of a request, and when it faults on the way.
theorem scan_bind {β : Type} (req : CString) (f : Buffer → Buffer → Buffer → Option β) :
    ((getln req (zeros 100) 100 0).bind fun l0 => (getbody req (zeros 1024) 1024).bind fun body =>
      (cstr l0).bind fun line => (getmethod line (zeros 5) 5).bind fun method =>
      (cstr l0).bind fun line => (geturi line (zeros 50) 50).bind fun uri => f method uri body) =
    if strlen (firstLine req) < 100 ∧ strlen (bodyOf req) < 1024 ∧ strlen (methodOf (firstLine req)) < 5 ∧
        strlen (uriOf (firstLine req)) < 50 then
      f (filled 5 (methodOf (firstLine req)).chars) (filled 50 (uriOf (firstLine req)).chars)
        (filled 1024 (bodyOf req).chars)
    else none := by
  rw [getln_zeros, getbody_zeros req 1024 (by omega)]
  by_cases hline : strlen (firstLine req) < 100
  · simp only [if_pos hline, Option.bind_some, cstr_filled hline, getmethod_zeros, geturi_zeros]
    by_cases hbody : strlen (bodyOf req) < 1024
    · by_cases hmethod : strlen (methodOf (firstLine req)) < 5
      · by_cases huri : strlen (uriOf (firstLine req)) < 50
        · simp only [hline, hbody, hmethod, huri, if_true, and_self, Option.bind_some]
        · simp only [hbody, hmethod, huri, if_true, if_false, and_false, Option.bind_some, Option.bind_none]
      · simp only [hbody, hmethod, if_true, if_false, false_and, and_false, Option.bind_some, Option.bind_none]
    · simp only [hbody, if_false, false_and, and_false, Option.bind_none]
  · simp only [hline, if_false, false_and, Option.bind_none]

theorem dispatchFields_scan (req : CString) :
    dispatchFields req =
      if strlen (firstLine req) < 100 ∧ strlen (bodyOf req) < 1024 ∧ strlen (methodOf (firstLine req)) < 5 ∧
          strlen (uriOf (firstLine req)) < 50 then
        some { method := methodOf (firstLine req), uri := uriOf (firstLine req), body := bodyOf req }
      else none := by
  refine (scan_bind req fun method uri body => (cstr method).bind fun method => (cstr uri).bind fun uri =>
    (cstr body).bind fun body => some (Fields.mk method uri body)).trans ?_
  split_ifs with h
  · obtain ⟨-, hbody, hmethod, huri⟩ := h
    rw [cstr_filled hmethod, cstr_filled huri, cstr_filled hbody]
    rfl
  · rfl

end Fields

end RichardTest.Http
