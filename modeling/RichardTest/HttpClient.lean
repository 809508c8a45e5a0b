import RichardTest.BigNumC.Lemmas
import Mathlib.Data.List.DropRight
import Mathlib.Data.List.Infix

namespace RichardTest.HttpClient

open BigNumC (int32 int32_eq)

abbrev Byte := BitVec 8

def cr : Byte := 13

def lf : Byte := 10

-- A stream open for appending: what it has stored, and what it still buffers.
structure File where
  stored : List Byte
  buffered : List Byte
deriving DecidableEq

namespace File

def fopen (old : List Byte) : File := { stored := old, buffered := [] }

def fwrite (fp : File) (c : Byte) : File := { fp with buffered := fp.buffered ++ [c] }

def fflush (fp : File) : File := { stored := fp.stored ++ fp.buffered, buffered := [] }

def fclose (fp : File) : List Byte := fp.fflush.stored

end File

-- The variables of the receive loop, and what it has printed.
structure Client where
  i : Int
  fp : File
  printed : List Byte
deriving DecidableEq

-- The round of the loop that has read `c` into `buffer[0]`.
def round (s : Client) (c : Byte) : Client :=
  if s.i < 4 then
    { s with
      i := if c = cr ∨ c = lf then int32 (s.i + 1) else 0
      printed := s.printed ++ [c] }
  else
    let fp := s.fp.fwrite c
    let i := int32 (s.i + 1)
    { s with
      i := i
      fp := if i.tmod 1024 = 0 then fp.fflush else fp }

-- The loop over what `read` returns before it returns no byte.
def receive (s : Client) (response : List Byte) : Client := response.foldl round s

-- The local file after a response, from its content `old`.
def localFile (old response : List Byte) : List Byte :=
  (receive { i := 0, fp := .fopen old, printed := [] } response).fp.fclose

section File

-- What the file holds once the stream is closed.
def File.content (fp : File) : List Byte := fp.stored ++ fp.buffered

theorem File.fclose_eq (fp : File) : fp.fclose = fp.content := rfl

@[simp] theorem File.content_fopen (old : List Byte) : (File.fopen old).content = old := List.append_nil old

@[simp] theorem File.content_fwrite (fp : File) (c : Byte) : (fp.fwrite c).content = fp.content ++ [c] :=
  (List.append_assoc ..).symm

@[simp] theorem File.content_fflush (fp : File) : fp.fflush.content = fp.content := List.append_nil _

end File

section Round

variable (s : Client) (c : Byte)

theorem receive_append_singleton (t : List Byte) : receive s (t ++ [c]) = round (receive s t) c := by
  rw [receive, List.foldl_append]
  rfl

theorem receive_append (t u : List Byte) : receive s (t ++ u) = receive (receive s t) u :=
  List.foldl_append

theorem round_header (h : s.i < 4) :
    round s c = { s with
      i := if c = cr ∨ c = lf then int32 (s.i + 1) else 0
      printed := s.printed ++ [c] } :=
  if_pos h

theorem round_body (h : 4 ≤ s.i) :
    (round s c).i = int32 (s.i + 1) ∧ (round s c).fp.content = s.fp.content ++ [c] ∧
      (round s c).printed = s.printed := by
  rw [round, if_neg (by omega)]
  refine ⟨rfl, ?_, rfl⟩
  simp only
  split_ifs
  · rw [File.content_fflush, File.content_fwrite]
  · rw [File.content_fwrite]

-- A byte goes to the screen or to the file.
theorem round_length :
    (round s c).fp.content.length + (round s c).printed.length =
      s.fp.content.length + s.printed.length + 1 := by
  by_cases h : s.i < 4
  · rw [round_header s c h, List.length_append, List.length_singleton, Nat.add_assoc]
  · obtain ⟨-, hfile, hprinted⟩ := round_body s c (by omega)
    rw [hfile, hprinted, List.length_append, List.length_singleton]
    omega

theorem round_printed : s.printed.length ≤ (round s c).printed.length := by
  by_cases h : s.i < 4
  · rw [round_header s c h, List.length_append]
    exact Nat.le_add_right _ _
  · rw [(round_body s c (by omega)).2.2]

end Round

section Run

variable (s : Client)

theorem receive_length (t : List Byte) :
    (receive s t).fp.content.length + (receive s t).printed.length =
      s.fp.content.length + s.printed.length + t.length := by
  induction t using List.reverseRecOn with
  | nil => rfl
  | append_singleton t c ih =>
      rw [receive_append_singleton, round_length, ih, List.length_append, List.length_singleton, Nat.add_assoc]

theorem receive_printed (t : List Byte) : s.printed.length ≤ (receive s t).printed.length := by
  induction t using List.reverseRecOn with
  | nil => exact Nat.le_refl _
  | append_singleton t c ih =>
      rw [receive_append_singleton]
      exact ih.trans (round_printed _ c)

-- The counter stays above the header states until it wraps.
theorem receive_body {t : List Byte} (hlo : 4 ≤ s.i) (hhi : s.i < 2 ^ 31) (ht : s.i + t.length ≤ 2 ^ 31) :
    (receive s t).i = int32 (s.i + t.length) ∧ (receive s t).fp.content = s.fp.content ++ t ∧
      (receive s t).printed = s.printed := by
  induction t using List.reverseRecOn with
  | nil =>
      refine ⟨?_, (List.append_nil _).symm, rfl⟩
      rw [List.length_nil, Nat.cast_zero, add_zero, int32_eq (by omega) hhi]
      rfl
  | append_singleton t c ih =>
      rw [List.length_append, List.length_singleton] at ht
      push_cast at ht
      obtain ⟨hi, hfile, hprinted⟩ := ih (by omega)
      rw [int32_eq (by omega) (by omega)] at hi
      obtain ⟨hi', hfile', hprinted'⟩ := round_body (receive s t) c (by omega)
      rw [receive_append_singleton]
      refine ⟨?_, ?_, hprinted'.trans hprinted⟩
      · rw [hi', hi, List.length_append, List.length_singleton]
        push_cast
        rw [add_assoc]
      · rw [hfile', hfile, List.append_assoc]

-- The byte read after the counter has wrapped is printed.
theorem receive_body_of_long {t : List Byte} (hi : s.i = 4) (ht : 2 ^ 31 - 4 < t.length) :
    (receive s t).fp.content.length < s.fp.content.length + t.length := by
  obtain ⟨p, r, hp, rfl⟩ : ∃ p r, p.length = 2 ^ 31 - 4 ∧ t = p ++ r :=
    ⟨t.take (2 ^ 31 - 4), t.drop (2 ^ 31 - 4), List.length_take_of_le ht.le, (List.take_append_drop ..).symm⟩
  rw [List.length_append] at ht
  obtain ⟨c, r, rfl⟩ := List.exists_cons_of_length_pos (l := r) (by omega)
  obtain ⟨hwrap, -, hprinted⟩ := receive_body s (t := p) (by omega) (by omega) (by omega)
  have hheader : (receive s p).i < 4 := by
    rw [hwrap, hi, hp]
    decide
  have hlost : (receive s (p ++ [c])).printed.length = s.printed.length + 1 := by
    rw [receive_append_singleton, round_header _ _ hheader, hprinted, List.length_append, List.length_singleton]
  have hmore := receive_printed (receive s (p ++ [c])) r
  rw [← receive_append, List.append_assoc, List.singleton_append] at hmore
  have hcount := receive_length s (p ++ c :: r)
  omega

end Run

section Header

-- Four line-break characters in a row.
def IsBreakRun (run : List Byte) : Prop := run.length = 4 ∧ ∀ c ∈ run, c = cr ∨ c = lf

def NoBreakRun (t : List Byte) : Prop := ∀ run, run <:+: t → ¬IsBreakRun run

-- The line-break characters at the end of `t`.
def breaks (t : List Byte) : List Byte := t.rtakeWhile fun c => decide (c = cr ∨ c = lf)

theorem breaks_append_singleton (t : List Byte) (c : Byte) :
    breaks (t ++ [c]) = if c = cr ∨ c = lf then breaks t ++ [c] else [] := by
  rw [breaks, List.rtakeWhile_concat]
  by_cases hc : c = cr ∨ c = lf
  · rw [if_pos hc, if_pos (decide_eq_true hc), breaks]
  · rw [if_neg hc, if_neg (by simpa using hc)]

theorem NoBreakRun.of_append {t u : List Byte} (h : NoBreakRun (t ++ u)) : NoBreakRun t :=
  fun run hrun => h run (hrun.trans (List.prefix_append t u).isInfix)

theorem NoBreakRun.breaks_length {t : List Byte} (h : NoBreakRun t) : (breaks t).length < 4 := by
  by_contra hlong
  have hsuffix : (breaks t).drop ((breaks t).length - 4) <:+ t :=
    (List.drop_suffix _ _).trans (List.rtakeWhile_suffix _ _)
  refine h _ hsuffix.isInfix ⟨?_, fun c hc => ?_⟩
  · rw [List.length_drop]
    omega
  · have := List.mem_rtakeWhile_imp (List.mem_of_mem_drop hc)
    exact of_decide_eq_true this

-- In the header the counter is the number of line-break characters just read.
theorem receive_header (fp : File) {t : List Byte} (h : NoBreakRun t) :
    receive { i := 0, fp := fp, printed := [] } t = { i := (breaks t).length, fp := fp, printed := t } := by
  induction t using List.reverseRecOn with
  | nil => rfl
  | append_singleton t c ih =>
      have hlt := h.of_append.breaks_length
      rw [receive_append_singleton, ih h.of_append, round_header _ _ (by simp only; omega),
        breaks_append_singleton]
      by_cases hc : c = cr ∨ c = lf
      · rw [if_pos hc, if_pos hc, List.length_append, List.length_singleton]
        simp only
        rw [int32_eq (by omega) (by omega)]
        push_cast
        rfl
      · rw [if_neg hc, if_neg hc]
        rfl

-- The end of the header, before its last character.
theorem breaks_length_eq_three {header : List Byte} (h : NoBreakRun (header ++ [cr, lf, cr])) :
    (breaks (header ++ [cr, lf, cr])).length = 3 := by
  have hlt := h.breaks_length
  have hsplit : header ++ [cr, lf, cr] = header ++ [cr] ++ [lf] ++ [cr] := by simp
  rw [hsplit, breaks_append_singleton, if_pos (Or.inl rfl), breaks_append_singleton, if_pos (Or.inr rfl),
    breaks_append_singleton, if_pos (Or.inl rfl)] at hlt ⊢
  simp only [List.length_append, List.length_singleton] at hlt ⊢
  omega

theorem receive_end_of_header (fp : File) {header : List Byte} (h : NoBreakRun (header ++ [cr, lf, cr])) :
    receive { i := 0, fp := fp, printed := [] } (header ++ [cr, lf, cr, lf]) =
      { i := 4, fp := fp, printed := header ++ [cr, lf, cr, lf] } := by
  have hsplit : header ++ [cr, lf, cr, lf] = header ++ [cr, lf, cr] ++ [lf] := by simp
  rw [hsplit, receive_append_singleton, receive_header fp h, breaks_length_eq_three h,
    round_header _ _ (by simp only; decide), if_pos (Or.inr rfl)]
  rfl

end Header

section Response

variable (old : List Byte) {header body : List Byte}

theorem localFile_eq (h : NoBreakRun (header ++ [cr, lf, cr])) :
    localFile old (header ++ [cr, lf, cr, lf] ++ body) =
      (receive { i := 4, fp := .fopen old, printed := header ++ [cr, lf, cr, lf] } body).fp.content := by
  rw [localFile, receive_append, receive_end_of_header _ h, File.fclose_eq]

theorem localFile_of_short (h : NoBreakRun (header ++ [cr, lf, cr])) (hbody : body.length ≤ 2 ^ 31 - 4) :
    localFile old (header ++ [cr, lf, cr, lf] ++ body) = old ++ body := by
  have hbytes := receive_body { i := 4, fp := .fopen old, printed := header ++ [cr, lf, cr, lf] } (t := body)
    (by simp only; omega) (by simp only; omega) (by simp only; omega)
  rw [localFile_eq old h, hbytes.2.1, File.content_fopen]

theorem localFile_of_long (h : NoBreakRun (header ++ [cr, lf, cr])) (hbody : 2 ^ 31 - 4 < body.length) :
    localFile old (header ++ [cr, lf, cr, lf] ++ body) ≠ old ++ body := by
  intro heq
  have hshort := receive_body_of_long
    { i := 4, fp := .fopen old, printed := header ++ [cr, lf, cr, lf] } rfl hbody
  rw [← localFile_eq old h, heq, File.content_fopen, List.length_append] at hshort
  exact Nat.lt_irrefl _ hshort

-- The counter of the body bytes wraps into the states of the header.
theorem localFile_right_iff (h : NoBreakRun (header ++ [cr, lf, cr])) :
    localFile old (header ++ [cr, lf, cr, lf] ++ body) = old ++ body ↔ body.length ≤ 2 ^ 31 - 4 := by
  constructor
  · intro heq
    by_contra hlong
    exact localFile_of_long old h (not_le.mp hlong) heq
  · exact localFile_of_short old h

theorem NoBreakRun.of_length_le {t : List Byte} (hlen : t.length ≤ 4) (hmem : ∃ c ∈ t, ¬(c = cr ∨ c = lf)) :
    NoBreakRun t := by
  intro run hrun hbreak
  obtain ⟨c, hc, hnot⟩ := hmem
  have hall : run = t := hrun.eq_of_length_le (by rw [hbreak.1]; exact hlen)
  exact hnot (hbreak.2 c (hall ▸ hc))

-- The header "A" and the body "ok".
theorem localFile_right_ok : localFile [] ([0x41] ++ [cr, lf, cr, lf] ++ [0x6f, 0x6b]) = [] ++ [0x6f, 0x6b] :=
  (localFile_right_iff [] (.of_length_le (by decide) (by decide))).mpr (by decide)

-- A body of 2 GiB less three bytes.
theorem localFile_long_body :
    ¬∀ old header body : List Byte, NoBreakRun (header ++ [cr, lf, cr]) →
      localFile old (header ++ [cr, lf, cr, lf] ++ body) = old ++ body := by
  intro hall
  have hheader : NoBreakRun ([0x41] ++ [cr, lf, cr]) := .of_length_le (by decide) (by decide)
  have hbody : 2 ^ 31 - 4 < (List.replicate (2 ^ 31 - 3) (0x78 : Byte)).length := by
    rw [List.length_replicate]
    decide
  exact localFile_of_long [] hheader hbody (hall [] [0x41] _ hheader)

end Response

end RichardTest.HttpClient
