import RichardTest.CodecNCrypto
import Mathlib.Algebra.Ring.Nat
import Mathlib.Data.List.Basic

namespace RichardTest.CodecNCrypto

open RichardTest.TokenJava (JChar JString JInt jstr digit? digitZeros)

section Decode

-- The digits of the escape behind a '%', and what follows them.
def window : JString → Option (JString × JString)
  | [] => none
  | c :: rest =>
      if c = 0x75#16 then if 4 ≤ rest.length then some (rest.take 4, rest.drop 4) else none
      else if 1 ≤ rest.length then some (c :: rest.take 1, rest.drop 1) else none

theorem suffix_window {s digits rest : JString} (h : window s = some (digits, rest)) : rest <:+ s := by
  cases s with
  | nil => cases h
  | cons c s =>
      rw [window] at h
      split_ifs at h
      all_goals
        cases h
        exact (List.drop_suffix _ s).trans (List.suffix_cons c s)

def readChar (digits : JString) : Option JChar := (parseInt16 digits).toOption.map fun ch => ch.setWidth 16

-- What the loop makes of the string from one position on, whichever exception ends it.
def decode : JString → Option JString
  | [] => some []
  | c :: rest =>
      if c = 0x25#16 then
        match _h : window rest with
        | some (digits, after) => (readChar digits).bind fun ch => (decode after).map (ch :: ·)
        | none => none
      else (decode rest).map (c :: ·)
termination_by s => s.length
decreasing_by
  · have := (suffix_window ‹_›).length_le
    rw [List.length_cons]
    omega
  · rw [List.length_cons]
    omega

theorem decode_nil : decode [] = some [] := by rw [decode]

theorem decode_cons {c : JChar} (hc : c ≠ 0x25#16) (rest : JString) :
    decode (c :: rest) = (decode rest).map (c :: ·) := by
  rw [decode, if_neg hc]

-- The character that an escape stands for, and what follows the escape.
def escapeAt (s : JString) : Option (JChar × JString) :=
  (window s).bind fun p => (readChar p.1).map fun ch => (ch, p.2)

theorem suffix_escapeAt {s rest : JString} {ch : JChar} (h : escapeAt s = some (ch, rest)) : rest <:+ s := by
  obtain ⟨⟨digits, after⟩, hwindow, hread⟩ := Option.bind_eq_some_iff.mp h
  obtain ⟨ch', -, hpair⟩ := Option.map_eq_some_iff.mp hread
  cases hpair
  exact suffix_window hwindow

theorem decode_percent (rest : JString) :
    decode (0x25#16 :: rest) = (escapeAt rest).bind fun p => (decode p.2).map (p.1 :: ·) := by
  rw [decode, if_pos rfl, escapeAt]
  split
  · rename_i h
    rw [h, Option.bind_some]
    cases readChar _ <;> rfl
  · rename_i h
    rw [h]
    rfl

theorem decode_append {plain : JString} (hplain : ∀ c ∈ plain, c ≠ 0x25#16) (rest : JString) :
    decode (plain ++ rest) = (decode rest).map (plain ++ ·) := by
  induction plain with
  | nil => simp
  | cons c plain ih =>
      rw [List.forall_mem_cons] at hplain
      rw [List.cons_append, decode_cons hplain.1, ih hplain.2, Option.map_map]
      rfl

end Decode

section Loop

variable {src : JString} {lastPos : Nat}

theorem drop_succ_of_drop {c : JChar} {rest : JString} (h : src.drop lastPos = c :: rest) (k : Nat) :
    src.drop (lastPos + 1 + k) = rest.drop k := by
  rw [← List.drop_drop, ← List.drop_drop, h]
  rfl

theorem length_of_drop {c : JChar} {rest : JString} (h : src.drop lastPos = c :: rest) :
    src.length = lastPos + 1 + rest.length := by
  have := congrArg List.length h
  rw [List.length_drop, List.length_cons] at this
  omega

theorem ok_bind {α β : Type} (a : α) (f : α → Except JException β) : (Except.ok a).bind f = f a := rfl

theorem charAt_drop {c d : JChar} {rest : JString} (h : src.drop lastPos = c :: d :: rest) :
    charAt src (lastPos + 1) = .ok d := by
  have hd : src[lastPos + 1]? = some d := by
    rw [← List.getElem?_drop, h]
    rfl
  rw [charAt, hd]

-- The digits of an escape are cut out of the string and read.
theorem toOption_escape {i j : Nat} :
    ((substring src i j).bind fun digits =>
      (parseInt16 digits).bind fun ch => Except.ok ([ch.setWidth 16], j)).toOption =
    if i ≤ j ∧ j ≤ src.length then (readChar ((src.drop i).take (j - i))).map fun ch => ([ch], j) else none := by
  rw [substring, readChar]
  split_ifs
  · rw [Except.bind]
    cases parseInt16 ((src.drop i).take (j - i)) <;> rfl
  · rfl

-- A round at a '%' reads one escape.
theorem unescapeRound_percent {rest : JString} (h : src.drop lastPos = 0x25#16 :: rest) :
    (unescapeRound src lastPos).toOption =
      (escapeAt rest).map fun p => ([p.1], src.length - p.2.length) := by
  have hindex : indexOf src lastPos = some lastPos := by
    rw [indexOf, h]
    rfl
  have hlen := length_of_drop h
  rw [unescapeRound, hindex]
  simp only [if_true]
  cases rest with
  | nil =>
      have hchar : charAt src (lastPos + 1) = .error .stringIndexOutOfBounds := by
        rw [charAt, List.getElem?_eq_none (by rw [hlen]; exact le_rfl)]
      rw [hchar]
      rfl
  | cons d rest =>
      have hdrop : src.drop (lastPos + 1) = d :: rest := drop_succ_of_drop h 0
      have hdrop' : src.drop (lastPos + 2) = rest := drop_succ_of_drop h 1
      rw [List.length_cons] at hlen
      rw [charAt_drop h, escapeAt, window]
      by_cases hu : d = 0x75#16
      · simp only [bind, pure, Except.pure, ok_bind, if_pos hu]
        rw [toOption_escape, hdrop']
        by_cases h4 : 4 ≤ rest.length
        · have hcount : lastPos + 6 - (lastPos + 2) = 4 := by omega
          have hnext : src.length - (rest.drop 4).length = lastPos + 6 := by
            rw [List.length_drop]
            omega
          rw [if_pos (by omega), if_pos h4, Option.bind_some, Option.map_map, hcount, ← hnext]
          rfl
        · rw [if_neg (by omega), if_neg h4]
          rfl
      · simp only [bind, pure, Except.pure, ok_bind, if_neg hu]
        rw [toOption_escape, hdrop]
        by_cases h1 : 1 ≤ rest.length
        · have hcount : lastPos + 3 - (lastPos + 1) = 2 := by omega
          have hnext : src.length - (rest.drop 1).length = lastPos + 3 := by
            rw [List.length_drop]
            omega
          rw [if_pos (by omega), if_pos h1, Option.bind_some, Option.map_map, hcount, ← hnext]
          rfl
        · rw [if_neg (by omega), if_neg h1]
          rfl

-- A round at any other character takes what stands before the next '%'.
theorem unescapeRound_plain {c : JChar} {rest : JString} (hc : c ≠ 0x25#16) (h : src.drop lastPos = c :: rest) :
    ∃ plain after, src.drop lastPos = plain ++ after ∧ plain ≠ [] ∧ (∀ c ∈ plain, c ≠ 0x25#16) ∧
      unescapeRound src lastPos = .ok (plain, src.length - after.length) := by
  have hlen := length_of_drop h
  have hrest : (src.drop lastPos).length = rest.length + 1 := by rw [h, List.length_cons]
  cases hfind : (src.drop lastPos).findIdx? (· = 0x25#16) with
  | none =>
      have hplain : ∀ c ∈ src.drop lastPos, c ≠ 0x25#16 := fun c hmem => by
        simpa using List.findIdx?_eq_none_iff.mp hfind c hmem
      refine ⟨src.drop lastPos, [], (List.append_nil _).symm, by simp [h], hplain, ?_⟩
      rw [unescapeRound, indexOf, hfind, Option.map_none, substring, if_pos ⟨by omega, le_rfl⟩,
        List.take_of_length_le (by omega)]
      rfl
  | some k =>
      obtain ⟨hk, hhit, hmiss⟩ := List.findIdx?_eq_some_iff_getElem.mp hfind
      have hpos : k ≠ 0 := by
        rintro rfl
        simp [h, hc] at hhit
      have hplain : ∀ c ∈ (src.drop lastPos).take k, c ≠ 0x25#16 := fun c hmem => by
        obtain ⟨j, hj, rfl⟩ := List.getElem_of_mem hmem
        rw [List.length_take] at hj
        simpa using hmiss j (by omega)
      have hcount : lastPos + k - lastPos = k := by omega
      have hnext : src.length - ((src.drop lastPos).drop k).length = lastPos + k := by
        rw [List.length_drop]
        omega
      refine ⟨(src.drop lastPos).take k, (src.drop lastPos).drop k, (List.take_append_drop k _).symm, ?_, hplain, ?_⟩
      · rw [Ne, List.take_eq_nil_iff]
        simp [hpos, h]
      · rw [unescapeRound, indexOf, hfind, Option.map_some]
        dsimp only
        rw [if_neg (by omega), substring, if_pos ⟨by omega, by omega⟩, hcount, hnext]
        rfl

-- The loop ends, and its result is that of the string behind `lastPos`.
theorem unescapeLoop_eq (fuel lastPos : Nat) (hfuel : src.length - lastPos < fuel) (tmp : JString) :
    ∃ r, unescapeLoop src fuel lastPos tmp = some r ∧ r.toOption = (decode (src.drop lastPos)).map (tmp ++ ·) := by
  induction fuel generalizing lastPos tmp with
  | zero => omega
  | succ fuel ih =>
      cases hs : src.drop lastPos with
      | nil =>
          rw [unescapeLoop, if_neg (by rw [List.drop_eq_nil_iff] at hs; omega), decode_nil]
          exact ⟨_, rfl, by simp [Except.toOption]⟩
      | cons c rest =>
          have hlen := length_of_drop hs
          have hlt : lastPos < src.length := by omega
          -- a round that leaves less of the string
          have hnext : ∀ text after, after <:+ src → after.length ≤ rest.length →
              unescapeRound src lastPos = .ok (text, src.length - after.length) →
              ∃ r, unescapeLoop src (fuel + 1) lastPos tmp = some r ∧
                r.toOption = (decode after).map (tmp ++ text ++ ·) := by
            intro text after hsuffix hshort hround
            have h := ih (src.length - after.length) (by omega) (tmp ++ text)
            rw [unescapeLoop, if_pos hlt, hround]
            rwa [← List.suffix_iff_eq_drop.mp hsuffix] at h
          have hsrc : c :: rest <:+ src := hs ▸ List.drop_suffix lastPos src
          by_cases hc : c = 0x25#16
          · subst hc
            have hround := unescapeRound_percent hs
            rw [decode_percent]
            cases hescape : escapeAt rest with
            | none =>
                rw [hescape, Option.map_none] at hround
                cases hresult : unescapeRound src lastPos with
                | error ex => exact ⟨.error ex, by rw [unescapeLoop, if_pos hlt, hresult], rfl⟩
                | ok p =>
                    rw [hresult] at hround
                    cases hround
            | some p =>
                obtain ⟨ch, after⟩ := p
                have hsuffix := suffix_escapeAt hescape
                rw [hescape, Option.map_some] at hround
                cases hresult : unescapeRound src lastPos with
                | error ex =>
                    rw [hresult] at hround
                    cases hround
                | ok p =>
                    rw [hresult] at hround
                    obtain ⟨r, hr, hval⟩ := hnext [ch] after ((hsuffix.trans (List.suffix_cons _ _)).trans hsrc)
                      hsuffix.length_le (by rw [hresult, Option.some.inj hround])
                    refine ⟨r, hr, ?_⟩
                    rw [hval, Option.bind_some, Option.map_map]
                    simp [Function.comp_def]
          · obtain ⟨plain, after, hsplit, hne, hplain, hround⟩ := unescapeRound_plain hc hs
            rw [hs] at hsplit
            have hpos := List.length_pos_of_ne_nil hne
            have htotal := congrArg List.length hsplit
            rw [List.length_cons, List.length_append] at htotal
            have hsuffix : after <:+ src := (hsplit ▸ List.suffix_append plain after).trans hsrc
            obtain ⟨r, hr, hval⟩ := hnext plain after hsuffix (by omega) hround
            refine ⟨r, hr, ?_⟩
            rw [hval, hsplit, decode_append hplain, Option.map_map]
            simp [Function.comp_def]

end Loop

theorem unescape_eq (src : JString) : ∃ r, unescape src = some r ∧ r.toOption = decode src := by
  obtain ⟨r, hr, hval⟩ := unescapeLoop_eq (src.length + 1) 0 (show src.length - 0 < src.length + 1 by omega) []
  exact ⟨r, hr, by simpa using hval⟩

theorem unescape_eq_ok_iff (src t : JString) : unescape src = some (.ok t) ↔ decode src = some t := by
  obtain ⟨r, hr, hval⟩ := unescape_eq src
  rw [hr, ← hval, Option.some_inj]
  cases r with
  | error ex => simp [Except.toOption]
  | ok x => simp [Except.toOption]

section Digits

-- The unit of a hexadecimal digit in `Integer.toString`.
def unit (d : Nat) : JChar := BitVec.ofNat 16 (Nat.digitChar d).toNat

theorem digit16?_unit : ∀ d < 16, digit16? (unit d) = some d := by decide

theorem unit_ne : ∀ d < 16, unit d ≠ 0x2D#16 ∧ unit d ≠ 0x2B#16 ∧ unit d ≠ 0x75#16 := by decide

theorem digit16?_lt {c : JChar} {d : Nat} (h : digit16? c = some d) : d < 16 := by
  rw [digit16?, Option.or_eq_some_iff] at h
  rcases h with h | ⟨-, h⟩
  · obtain ⟨z, hz, rfl⟩ := Option.map_eq_some_iff.mp h
    have hrange := List.find?_some hz
    rw [decide_eq_true_eq] at hrange
    omega
  · split_ifs at h
    all_goals
      have hd := Option.some.inj h
      omega

theorem digitsValue16_lt {s : JString} {v x : Nat} (h : digitsValue16 s v = some x) :
    x < (v + 1) * 16 ^ s.length := by
  induction s generalizing v with
  | nil =>
      rw [digitsValue16] at h
      cases h
      simp
  | cons c s ih =>
      rw [digitsValue16, Option.bind_eq_bind, Option.bind_eq_some_iff] at h
      obtain ⟨d, hd, hrest⟩ := h
      have hlt := digit16?_lt hd
      calc x < (v * 16 + d + 1) * 16 ^ s.length := ih hrest
        _ ≤ ((v + 1) * 16) * 16 ^ s.length := Nat.mul_le_mul_right _ (by omega)
        _ = (v + 1) * 16 ^ (c :: s).length := by
          rw [List.length_cons, Nat.pow_succ, Nat.mul_comm (16 ^ s.length), Nat.mul_assoc]

theorem unsignedValue16_lt {s : JString} {x : Nat} (h : unsignedValue16 s = some x) (hlen : s.length ≤ 4) :
    x < 2 ^ 16 := by
  rw [unsignedValue16] at h
  split_ifs at h
  have hlt := digitsValue16_lt h
  have hpow := Nat.pow_le_pow_right (show 0 < 16 by decide) hlen
  omega

theorem signedValue16_bounds {s : JString} {x : Int} (h : signedValue16 s = some x) (hlen : s.length ≤ 4) :
    -2 ^ 16 < x ∧ x < 2 ^ 16 := by
  have htail : s.tail.length ≤ 4 := by
    rw [List.length_tail]
    omega
  rw [signedValue16] at h
  split_ifs at h
  all_goals
    obtain ⟨v, hv, rfl⟩ := Option.map_eq_some_iff.mp h
    have hlt := unsignedValue16_lt hv (by assumption)
    omega

-- An escape has too few digits for a value that does not fit an int.
theorem readChar_eq {s : JString} (hlen : s.length ≤ 4) :
    readChar s = (signedValue16 s).map fun x => (BitVec.ofInt 32 x).setWidth 16 := by
  rw [readChar, parseInt16]
  cases h : signedValue16 s with
  | none => rfl
  | some x =>
      have hbounds := signedValue16_bounds h hlen
      dsimp only
      rw [if_pos (by omega)]
      rfl

theorem setWidth_ofInt (v : Nat) : (BitVec.ofInt 32 (v : Int)).setWidth 16 = BitVec.ofNat 16 v := by
  apply BitVec.eq_of_toNat_eq
  simp

-- Without a sign in front.
theorem readChar_digits {c : JChar} {s : JString} (hminus : c ≠ 0x2D#16) (hplus : c ≠ 0x2B#16)
    (hlen : s.length ≤ 3) : readChar (c :: s) = (digitsValue16 (c :: s) 0).map fun v => BitVec.ofNat 16 v := by
  have hhead : (c :: s).head? = some c := rfl
  rw [readChar_eq (by rw [List.length_cons]; omega), signedValue16, hhead, if_neg (by simpa using hminus),
    if_neg (by simpa using hplus), unsignedValue16, if_neg (List.cons_ne_nil c s), Option.map_map]
  simp only [Function.comp_def, setWidth_ofInt]

end Digits

section Escapes

-- The texts of a character in base 16, by the number of its digits.
theorem toString16_two {c : JChar} (hc : c.toNat < 256) :
    (if c.toNat < 16 then jstr "0" else []) ++ toString16 c = [unit (c.toNat / 16), unit (c.toNat % 16)] := by
  rw [toString16]
  split_ifs with hsmall
  · rw [Nat.toDigits_of_lt_base hsmall, Nat.div_eq_of_lt hsmall, Nat.mod_eq_of_lt hsmall]
    rfl
  · rw [Nat.toDigits_of_base_le (by decide) (by omega), Nat.toDigits_of_lt_base (by omega)]
    rfl

theorem toString16_three {c : JChar} (hlow : 0x100 ≤ c.toNat) (hhigh : c.toNat < 0x1000) :
    toString16 c = [unit (c.toNat / 256), unit (c.toNat / 16 % 16), unit (c.toNat % 16)] := by
  rw [toString16, Nat.toDigits_of_base_le (by decide) (by omega), Nat.toDigits_of_base_le (by decide) (by omega),
    Nat.toDigits_of_lt_base (by omega), Nat.div_div_eq_div_mul]
  rfl

theorem toString16_four {c : JChar} (hc : 0x1000 ≤ c.toNat) :
    toString16 c =
      [unit (c.toNat / 4096), unit (c.toNat / 256 % 16), unit (c.toNat / 16 % 16), unit (c.toNat % 16)] := by
  have hlt := c.isLt
  rw [toString16, Nat.toDigits_of_base_le (by decide) (by omega), Nat.toDigits_of_base_le (by decide) (by omega),
    Nat.toDigits_of_base_le (by decide) (by omega), Nat.toDigits_of_lt_base (by omega)]
  simp only [Nat.div_div_eq_div_mul]
  rfl

theorem digitsValue16_unit {d : Nat} (hd : d < 16) (s : JString) (v : Nat) :
    digitsValue16 (unit d :: s) v = digitsValue16 s (v * 16 + d) := by
  rw [digitsValue16, digit16?_unit d hd]
  rfl

theorem readChar_unit {d : Nat} (hd : d < 16) {s : JString} (hlen : s.length ≤ 3) :
    readChar (unit d :: s) = (digitsValue16 s d).map fun v => BitVec.ofNat 16 v := by
  obtain ⟨hminus, hplus, -⟩ := unit_ne d hd
  rw [readChar_digits hminus hplus hlen, digitsValue16_unit hd, Nat.zero_mul, Nat.zero_add]

theorem escapeAt_two {c : JChar} (hc : c.toNat < 256) (rest : JString) :
    escapeAt (unit (c.toNat / 16) :: unit (c.toNat % 16) :: rest) = some (c, rest) := by
  have hhigh : c.toNat / 16 < 16 := by omega
  have hlow : c.toNat % 16 < 16 := by omega
  have hval : c.toNat / 16 * 16 + c.toNat % 16 = c.toNat := by omega
  have hwindow : window (unit (c.toNat / 16) :: unit (c.toNat % 16) :: rest) =
      some ([unit (c.toNat / 16), unit (c.toNat % 16)], rest) := by
    rw [window, if_neg (unit_ne _ hhigh).2.2]
    simp
  rw [escapeAt, hwindow, Option.bind_some, readChar_unit hhigh (by simp), digitsValue16_unit hlow, digitsValue16,
    hval, Option.map_some, Option.map_some, BitVec.ofNat_toNat, BitVec.setWidth_eq]

theorem escapeAt_four {c : JChar} (hc : 0x1000 ≤ c.toNat) (rest : JString) :
    escapeAt (0x75#16 :: (toString16 c ++ rest)) = some (c, rest) := by
  have hlt := c.isLt
  have hval : ((c.toNat / 4096 * 16 + c.toNat / 256 % 16) * 16 + c.toNat / 16 % 16) * 16 + c.toNat % 16 =
      c.toNat := by
    omega
  have hwindow : window (0x75#16 :: (toString16 c ++ rest)) = some (toString16 c, rest) := by
    rw [window, if_pos rfl, toString16_four hc]
    simp
  rw [escapeAt, hwindow, Option.bind_some, toString16_four hc, readChar_unit (by omega) (by simp),
    digitsValue16_unit (by omega), digitsValue16_unit (by omega), digitsValue16_unit (by omega), digitsValue16, hval,
    Option.map_some, Option.map_some, BitVec.ofNat_toNat, BitVec.setWidth_eq]

-- With three digits the escape takes the next character as its fourth digit, so that it is another character.
theorem escapeAt_three_ne {c : JChar} (hlow : 0x100 ≤ c.toNat) (hhigh : c.toNat < 0x1000) (rest after : JString) :
    escapeAt (0x75#16 :: (toString16 c ++ rest)) ≠ some (c, after) := by
  intro h
  have hval : (c.toNat / 256 * 16 + c.toNat / 16 % 16) * 16 + c.toNat % 16 = c.toNat := by
    have hdiv : c.toNat / 256 = c.toNat / 16 / 16 := by rw [Nat.div_div_eq_div_mul]
    omega
  rw [toString16_three hlow hhigh, escapeAt, window, if_pos rfl] at h
  cases rest with
  | nil => simp at h
  | cons x rest =>
      rw [if_pos (by simp), Option.bind_some] at h
      dsimp only [List.cons_append, List.nil_append, List.take_succ_cons, List.take_zero] at h
      rw [readChar_unit (by omega) (by simp), digitsValue16_unit (by omega), digitsValue16_unit (by omega),
        digitsValue16] at h
      cases hx : digit16? x with
      | none => simp [hx] at h
      | some d =>
          have hd := digit16?_lt hx
          rw [hx, Option.bind_eq_bind, Option.bind_some, digitsValue16, Option.map_some, Option.map_some,
            Option.some_inj, Prod.mk.injEq, ← BitVec.toNat_inj, BitVec.toNat_ofNat, hval,
            Nat.mod_eq_of_lt (by omega)] at h
          omega

end Escapes

section RoundTrip

variable (letters : Letters)

-- The characters that are written as they are.
def Raw (c : JChar) : Prop := isDigit c = true ∨ letters.isLowerCase c = true ∨ letters.isUpperCase c = true

theorem escapeChar_raw {c : JChar} (hraw : Raw letters c) : escapeChar letters c = [c] ∧ c ≠ 0x25#16 := by
  constructor
  · rw [escapeChar, if_pos (by simpa [Raw, or_assoc] using hraw)]
  · rintro rfl
    rcases hraw with h | h | h
    · exact absurd h (by decide)
    · exact absurd h (by rw [letters.lower_percent]; decide)
    · exact absurd h (by rw [letters.upper_percent]; decide)

theorem escapeChar_not_raw {c : JChar} (hraw : ¬ Raw letters c) :
    escapeChar letters c =
      if c.toNat < 256 then [0x25#16, unit (c.toNat / 16), unit (c.toNat % 16)]
      else 0x25#16 :: 0x75#16 :: toString16 c := by
  rw [escapeChar, if_neg (by simpa [Raw, or_assoc] using hraw)]
  split_ifs with hc hsmall
  · rw [List.append_assoc, ← toString16_two hc, if_pos hsmall]
    rfl
  · rw [List.append_assoc, ← toString16_two hc, if_neg hsmall]
    rfl
  · rfl

-- A character comes back unless it is written with three digits.
theorem decode_escapeChar_iff (c : JChar) (rest t : JString) :
    decode (escapeChar letters c ++ rest) = some (c :: t) ↔
      (0x100 ≤ c.toNat → c.toNat < 0x1000 → Raw letters c) ∧ decode rest = some t := by
  have hcons : ∀ o : Option JString, o.map (c :: ·) = some (c :: t) ↔ o = some t := by
    intro o
    cases o <;> simp
  by_cases hraw : Raw letters c
  · obtain ⟨htext, hc⟩ := escapeChar_raw letters hraw
    rw [htext, List.singleton_append, decode_cons hc, hcons]
    exact ⟨fun h => ⟨fun _ _ => hraw, h⟩, And.right⟩
  · rw [escapeChar_not_raw letters hraw]
    split_ifs with hsmall
    · rw [List.cons_append, List.cons_append, List.singleton_append, decode_percent, escapeAt_two hsmall,
        Option.bind_some, hcons]
      exact ⟨fun h => ⟨fun hlow => by omega, h⟩, And.right⟩
    · rw [List.cons_append, List.cons_append, decode_percent]
      by_cases hwide : 0x1000 ≤ c.toNat
      · rw [escapeAt_four hwide, Option.bind_some, hcons]
        exact ⟨fun h => ⟨fun _ hhigh => by omega, h⟩, And.right⟩
      · constructor
        · intro h
          obtain ⟨⟨ch, after⟩, hescape, hrest⟩ := Option.bind_eq_some_iff.mp h
          obtain ⟨t', -, hch⟩ := Option.map_eq_some_iff.mp hrest
          obtain rfl : ch = c := (List.cons.inj hch).1
          exact absurd hescape (escapeAt_three_ne (by omega) (by omega) rest after)
        · rintro ⟨h, -⟩
          exact absurd (h (by omega) (by omega)) hraw

end RoundTrip

-- The strings that come back are those whose characters between U+0100 and U+0FFF are written as they are.
theorem unescape_escape_iff (letters : Letters) (s : JString) :
    unescape (escape letters s) = some (.ok s) ↔
      ∀ c ∈ s, 0x100 ≤ c.toNat → c.toNat < 0x1000 →
        isDigit c = true ∨ letters.isLowerCase c = true ∨ letters.isUpperCase c = true := by
  rw [unescape_eq_ok_iff, escape]
  induction s with
  | nil => simp [decode_nil]
  | cons c s ih =>
      rw [List.flatMap_cons, decode_escapeChar_iff, ih, List.forall_mem_cons]
      rfl

-- The letters of ASCII, as far as the texts below go.
def asciiLetters : Letters where
  isLowerCase c := decide (0x61 ≤ c.toNat ∧ c.toNat ≤ 0x7A)
  isUpperCase c := decide (0x41 ≤ c.toNat ∧ c.toNat ≤ 0x5A)
  lower_percent := by decide
  upper_percent := by decide

theorem unescape_escape_text :
    unescape (escape asciiLetters [0x61#16, 0x20#16, 0x25#16, 0x05#16, 0x4E2D#16]) =
      some (.ok [0x61#16, 0x20#16, 0x25#16, 0x05#16, 0x4E2D#16]) := by
  refine (unescape_escape_iff asciiLetters _).mpr fun c hc hlow hhigh => ?_
  have hout : ∀ c ∈ [0x61#16, 0x20#16, 0x25#16, 0x05#16, 0x4E2D#16], c.toNat < 0x100 ∨ 0x1000 ≤ c.toNat := by simp
  have := hout c hc
  omega

-- The Arabic letter alef, which has no case, is written as "%u627".
theorem unescape_escape_alef : unescape (escape asciiLetters [0x0627#16]) ≠ some (.ok [0x0627#16]) := by
  decide

section Grammar

-- Every '%' that is met from left to right begins an escape of two digits, or of four behind a 'u'.
inductive Scans (ok : JString → Prop) : JString → Prop where
  | nil : Scans ok []
  | plain {c : JChar} {s : JString} (hc : c ≠ 0x25#16) (hs : Scans ok s) : Scans ok (c :: s)
  | long {digits s : JString} (hlen : digits.length = 4) (hok : ok digits) (hs : Scans ok s) :
      Scans ok (0x25#16 :: 0x75#16 :: (digits ++ s))
  | short {digits s : JString} (hlen : digits.length = 2) (hok : ok digits) (hs : Scans ok s) :
      Scans ok (0x25#16 :: (digits ++ s))

def AsciiHex (c : JChar) : Prop :=
  (0x30 ≤ c.toNat ∧ c.toNat ≤ 0x39) ∨ (0x41 ≤ c.toNat ∧ c.toNat ≤ 0x46) ∨ (0x61 ≤ c.toNat ∧ c.toNat ≤ 0x66)

instance (c : JChar) : Decidable (AsciiHex c) := inferInstanceAs (Decidable (_ ∨ _))

def Plain (digits : JString) : Prop := ∀ c ∈ digits, AsciiHex c

def unsigned (digits : JString) : JString :=
  if digits.head? = some 0x2D#16 ∨ digits.head? = some 0x2B#16 then digits.tail else digits

-- The wider grammar of `Integer.parseInt`: a sign may stand in front, and the digits may be of any script.
def Wide (digits : JString) : Prop := unsigned digits ≠ [] ∧ ∀ c ∈ unsigned digits, (digit16? c).isSome

theorem Scans.mono {ok ok' : JString → Prop} {s : JString} (h : Scans ok s)
    (himp : ∀ digits, digits ≠ [] → ok digits → ok' digits) : Scans ok' s := by
  induction h with
  | nil => exact .nil
  | plain hc _ ih => exact .plain hc ih
  | long hlen hok _ ih => exact .long hlen (himp _ (by rintro rfl; cases hlen) hok) ih
  | short hlen hok _ ih => exact .short hlen (himp _ (by rintro rfl; cases hlen) hok) ih

theorem digit16?_of_asciiHex {c : JChar} (h : AsciiHex c) :
    (digit16? c).isSome ∧ c ≠ 0x2D#16 ∧ c ≠ 0x2B#16 := by
  refine ⟨?_, by rintro rfl; exact absurd h (by decide), by rintro rfl; exact absurd h (by decide)⟩
  rw [digit16?, Option.isSome_or, Bool.or_eq_true]
  rcases h with h | h | h
  · refine .inl ?_
    rw [digit?, Option.isSome_map, digitZeros, List.find?_cons_of_pos (by rw [decide_eq_true_eq]; omega)]
    rfl
  · refine .inr ?_
    rw [if_pos h]
    rfl
  · refine .inr ?_
    rw [if_neg (by omega), if_pos h]
    rfl

theorem wide_of_plain {digits : JString} (hne : digits ≠ []) (h : Plain digits) : Wide digits := by
  obtain ⟨c, rest, rfl⟩ := List.exists_cons_of_ne_nil hne
  obtain ⟨-, hminus, hplus⟩ := digit16?_of_asciiHex (h c List.mem_cons_self)
  have hunsigned : unsigned (c :: rest) = c :: rest := by
    rw [unsigned, if_neg (by simp [hminus, hplus])]
  rw [Wide, hunsigned]
  exact ⟨hne, fun c hc => (digit16?_of_asciiHex (h c hc)).1⟩

theorem digitsValue16_isSome_iff (s : JString) (v : Nat) :
    (digitsValue16 s v).isSome ↔ ∀ c ∈ s, (digit16? c).isSome := by
  induction s generalizing v with
  | nil => simp [digitsValue16]
  | cons c s ih =>
      rw [digitsValue16, List.forall_mem_cons]
      cases h : digit16? c with
      | none => simp
      | some d => simpa using ih _

-- parseInt reads just these digits, as long as there are few of them.
theorem readChar_isSome_iff {digits : JString} (hlen : digits.length ≤ 4) :
    (readChar digits).isSome ↔ Wide digits := by
  have hunsigned : ∀ s, (unsignedValue16 s).isSome ↔ s ≠ [] ∧ ∀ c ∈ s, (digit16? c).isSome := by
    intro s
    rw [unsignedValue16]
    split_ifs with h
    · simp [h]
    · simp [h, digitsValue16_isSome_iff]
  rw [readChar_eq hlen, Option.isSome_map, signedValue16, Wide, ← hunsigned, unsigned]
  by_cases hminus : digits.head? = some 0x2D#16
  · rw [if_pos hminus, if_pos (.inl hminus), Option.isSome_map]
  · by_cases hplus : digits.head? = some 0x2B#16
    · rw [if_neg hminus, if_pos hplus, if_pos (.inr hplus), Option.isSome_map]
    · rw [if_neg hminus, if_neg hplus, if_neg (not_or.mpr ⟨hminus, hplus⟩), Option.isSome_map]

-- The two forms of an escape.
theorem window_eq_some {s digits rest : JString} (h : window s = some (digits, rest)) :
    (digits.length = 4 ∧ s = 0x75#16 :: (digits ++ rest)) ∨ (digits.length = 2 ∧ s = digits ++ rest) := by
  cases s with
  | nil => cases h
  | cons c s =>
      rw [window] at h
      split_ifs at h with hu h4 h1
      · cases h
        exact .inl ⟨by rw [List.length_take]; omega, by rw [hu, List.take_append_drop]⟩
      · cases h
        refine .inr ⟨by rw [List.length_cons, List.length_take]; omega, ?_⟩
        rw [List.cons_append, List.take_append_drop]

theorem window_long {digits : JString} (hlen : digits.length = 4) (rest : JString) :
    window (0x75#16 :: (digits ++ rest)) = some (digits, rest) := by
  rw [window, if_pos rfl, if_pos (by rw [List.length_append]; omega), List.take_left' hlen, List.drop_left' hlen]

theorem window_short {digits : JString} (hlen : digits.length = 2) (hu : digits.head? ≠ some 0x75#16)
    (rest : JString) : window (digits ++ rest) = some (digits, rest) := by
  obtain ⟨c, d, rfl⟩ := List.length_eq_two.mp hlen
  rw [List.cons_append, window, if_neg (by simpa using hu)]
  simp

theorem head_ne_of_wide {digits : JString} (h : Wide digits) : digits.head? ≠ some 0x75#16 := by
  intro hu
  have hunsigned : unsigned digits = digits := by
    rw [unsigned, hu]
    rfl
  rw [Wide, hunsigned] at h
  have := h.2 0x75#16 (List.mem_of_mem_head? hu)
  exact absurd this (by decide)

theorem scans_of_decode {s t : JString} (h : decode s = some t) : Scans Wide s := by
  -- by induction on the length: an escape leaves a string that is several characters shorter
  induction hn : s.length using Nat.strong_induction_on generalizing s t with
  | _ n ih =>
      cases s with
      | nil => exact .nil
      | cons c rest =>
          rw [List.length_cons] at hn
          by_cases hc : c = 0x25#16
          · subst hc
            rw [decode_percent, Option.bind_eq_some_iff] at h
            obtain ⟨⟨ch, after⟩, hescape, hrest⟩ := h
            obtain ⟨t', ht', -⟩ := Option.map_eq_some_iff.mp hrest
            have hscan := ih after.length (by have := (suffix_escapeAt hescape).length_le; omega) ht' rfl
            obtain ⟨⟨digits, after'⟩, hwindow, hread⟩ := Option.bind_eq_some_iff.mp hescape
            obtain ⟨ch', hch, hpair⟩ := Option.map_eq_some_iff.mp hread
            cases hpair
            have hsome : (readChar digits).isSome := by
              rw [hch]
              rfl
            rcases window_eq_some hwindow with ⟨hlen, rfl⟩ | ⟨hlen, rfl⟩
            · exact .long hlen ((readChar_isSome_iff hlen.le).mp hsome) hscan
            · exact .short hlen ((readChar_isSome_iff (by omega)).mp hsome) hscan
          · rw [decode_cons hc] at h
            obtain ⟨t', ht', -⟩ := Option.map_eq_some_iff.mp h
            exact .plain hc (ih rest.length (by omega) ht' rfl)

theorem decode_of_scans {s : JString} (h : Scans Wide s) : ∃ t, decode s = some t := by
  induction h with
  | nil => exact ⟨[], decode_nil⟩
  | plain hc _ ih =>
      obtain ⟨t, ht⟩ := ih
      exact ⟨_, by rw [decode_cons hc, ht]; rfl⟩
  | long hlen hok _ ih =>
      obtain ⟨t, ht⟩ := ih
      obtain ⟨ch, hch⟩ := Option.isSome_iff_exists.mp ((readChar_isSome_iff hlen.le).mpr hok)
      exact ⟨ch :: t, by rw [decode_percent, escapeAt, window_long hlen, Option.bind_some, hch, Option.map_some,
        Option.bind_some, ht, Option.map_some]⟩
  | short hlen hok _ ih =>
      obtain ⟨t, ht⟩ := ih
      obtain ⟨ch, hch⟩ := Option.isSome_iff_exists.mp ((readChar_isSome_iff (by omega)).mpr hok)
      exact ⟨ch :: t, by rw [decode_percent, escapeAt, window_short hlen (head_ne_of_wide hok), Option.bind_some, hch,
        Option.map_some, Option.bind_some, ht, Option.map_some]⟩

theorem returns_iff_scans (src : JString) : (∃ t, unescape src = some (.ok t)) ↔ Scans Wide src := by
  simp only [unescape_eq_ok_iff]
  exact ⟨fun ⟨_, ht⟩ => scans_of_decode ht, decode_of_scans⟩

end Grammar

-- The loop ends for every string, and it returns just for the escapes of four or two ASCII digits.
def Strict (src : JString) : Prop :=
  (∃ r, unescape src = some r) ∧ ((∃ t, unescape src = some (.ok t)) ↔ Scans Plain src)

-- It does so unless the digits are fine for parseInt, while a sign or a digit of another script is among them.
theorem unescape_strict_iff (src : JString) : Strict src ↔ (Scans Wide src → Scans Plain src) := by
  have hwide : Scans Plain src → Scans Wide src := fun h => h.mono fun _ => wide_of_plain
  obtain ⟨r, hr, -⟩ := unescape_eq src
  rw [Strict, returns_iff_scans]
  exact ⟨fun h => h.2.mp, fun h => ⟨⟨r, hr⟩, h, hwide⟩⟩

theorem unescape_not_strict_plus :
    unescape (jstr "%+5") = some (.ok [0x05#16]) ∧ ¬ Strict (jstr "%+5") := by
  have hrun : unescape (jstr "%+5") = some (.ok [0x05#16]) := by decide
  refine ⟨hrun, fun h => ?_⟩
  have hscan := h.2.mp ⟨_, hrun⟩
  generalize hsrc : jstr "%+5" = src at hscan
  cases hscan with
  | nil => cases hsrc
  | plain hc _ => exact hc (List.cons.inj hsrc).1.symm
  | long _ _ _ => exact absurd (List.cons.inj (List.cons.inj hsrc).2).1 (by decide)
  | short hlen hok _ =>
      obtain ⟨c, d, rfl⟩ := List.length_eq_two.mp hlen
      obtain rfl := (List.cons.inj (List.cons.inj hsrc).2).1
      exact absurd (hok _ List.mem_cons_self) (by decide)

end RichardTest.CodecNCrypto
