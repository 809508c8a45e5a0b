import RichardTest.HttpClient.Url
import RichardTest.BigNumC.Lemmas

namespace RichardTest.HttpClient

open Http
open BigNumC (int32)
open RichardTest.DtParser (rest)

section Definitions

-- The loop of Rstrchr with the value `i` of its counter. A read outside of the string and its NUL is a failure,
-- else the result is an index into the string, or none for a null pointer.
def rstrchrLoop (s : CString) (x : Char) : Nat → Option (Option Nat)
  | 0 => none
  | i + 1 => do
      let c ← (s.chars ++ ['\x00'])[i]?
      if c = '\x00' then some none
      else if (strchr (rest s i) x).isSome then some (some i)
      else rstrchrLoop s x i

-- From a counter that is not positive the first test reads below the string.
def rstrchr (s : CString) (x : Char) : Option (Option Nat) :=
  if s = lit "" then some none
  else rstrchrLoop s x (int32 (strlen s)).toNat

end Definitions

section LastOccurrence

-- The last occurrence of `x`, where there is one.
def IsLast (s : CString) (x : Char) : Option Nat → Prop
  | none => x ∉ s.chars
  | some p => s.chars[p]? = some x ∧ x ∉ s.chars.drop (p + 1)

variable {s : CString} {x : Char}

theorem rstrchrLoop_succ (hx : x ≠ '\x00') {i : Nat} (hi : i < strlen s) :
    rstrchrLoop s x (i + 1) = if x ∈ s.chars.drop i then some (some i) else rstrchrLoop s x i := by
  have hread : (s.chars ++ ['\x00'])[i]? = some s.chars[i] := by
    rw [List.getElem?_append_left hi, List.getElem?_eq_getElem hi]
  have hnul : s.chars[i] ≠ '\x00' := ne_of_mem_of_not_mem (List.getElem_mem hi) s.nulFree
  rw [rstrchrLoop, hread, Option.bind_eq_bind, Option.bind_some, if_neg hnul]
  simp only [isSome_strchr hx]
  rfl

-- The scan stops at the last occurrence if it starts behind it.
theorem rstrchrLoop_found (hx : x ≠ '\x00') (hmem : x ∈ s.chars) {i : Nat} (hi : i ≤ strlen s)
    (hbehind : x ∉ s.chars.drop i) : ∃ p, rstrchrLoop s x i = some (some p) ∧ IsLast s x (some p) := by
  induction i with
  | zero => exact absurd hmem hbehind
  | succ i ih =>
      rw [rstrchrLoop_succ hx hi]
      by_cases hdrop : x ∈ s.chars.drop i
      · rw [List.drop_eq_getElem_cons hi, List.mem_cons, or_iff_left hbehind] at hdrop
        refine ⟨i, ?_, ?_, hbehind⟩
        · rw [if_pos (by rw [List.drop_eq_getElem_cons hi, hdrop]; exact List.mem_cons_self)]
        · rw [List.getElem?_eq_getElem hi, hdrop]
      · rw [if_neg hdrop]
        exact ih (Nat.le_of_succ_le hi) hdrop

-- Without an occurrence nothing stops it before the start of the string.
theorem rstrchrLoop_missing (hx : x ≠ '\x00') (hmem : x ∉ s.chars) {i : Nat} (hi : i ≤ strlen s) :
    rstrchrLoop s x i = none := by
  induction i with
  | zero => rfl
  | succ i ih =>
      rw [rstrchrLoop_succ hx hi, if_neg fun h => hmem (List.mem_of_mem_drop h)]
      exact ih (Nat.le_of_succ_le hi)

theorem int32_toNat_le (n : Nat) : (int32 n).toNat ≤ n := by
  unfold int32
  rw [Int.bmod_eq_emod]
  split_ifs <;> omega

-- Rstrchr is right for the empty string, and where `x` occurs and its last occurrence lies before the counter's
-- start, the length of the string as an `int`.
theorem rstrchr_right_iff (s : CString) {x : Char} (hx : x ≠ '\x00') :
    (∃ r, rstrchr s x = some r ∧ IsLast s x r) ↔
      s = lit "" ∨ (x ∈ s.chars ∧ x ∉ s.chars.drop (int32 (strlen s)).toNat) := by
  have hle := int32_toNat_le (strlen s)
  by_cases hempty : s = lit ""
  · subst hempty
    exact iff_of_true ⟨none, rfl, List.not_mem_nil⟩ (Or.inl rfl)
  · rw [rstrchr, if_neg hempty, or_iff_right hempty]
    generalize (int32 (strlen s)).toNat = i at hle ⊢
    constructor
    · rintro ⟨r, hrun, hlast⟩
      have hmem : x ∈ s.chars := by
        by_contra hmem
        rw [rstrchrLoop_missing hx hmem hle] at hrun
        exact Option.some_ne_none r hrun.symm
      refine ⟨hmem, fun hdrop => ?_⟩
      cases i with
      | zero => exact Option.some_ne_none r hrun.symm
      | succ i =>
          have hdrop' : x ∈ s.chars.drop i := by
            rw [List.drop_eq_getElem_cons hle]
            exact List.mem_cons_of_mem _ hdrop
          rw [rstrchrLoop_succ hx hle, if_pos hdrop'] at hrun
          rw [← Option.some.inj hrun] at hlast
          exact hlast.2 hdrop
    · rintro ⟨hmem, hbehind⟩
      obtain ⟨p, hrun, hlast⟩ := rstrchrLoop_found hx hmem hle hbehind
      exact ⟨some p, hrun, hlast⟩

-- A slash in front of a file name.
theorem rstrchr_right_slash :
    ∃ r, rstrchr (lit "d/f") '/' = some r ∧ IsLast (lit "d/f") '/' r :=
  (rstrchr_right_iff (lit "d/f") (by decide)).mpr (.inr ⟨by decide, by decide⟩)

-- A file name without a slash is read below its start.
theorem rstrchr_leaves_string :
    ¬∀ (s : CString) (x : Char), x ≠ '\x00' → ∃ r, rstrchr s x = some r ∧ IsLast s x r := by
  intro hall
  obtain ⟨r, hrun, -⟩ := hall (lit "index.html") '/' (by decide)
  have hnone : rstrchr (lit "index.html") '/' = none := by decide
  rw [hnone] at hrun
  exact Option.some_ne_none r hrun.symm

end LastOccurrence

end RichardTest.HttpClient
