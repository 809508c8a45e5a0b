import RichardTest.InvertedIndex
import Mathlib.Data.List.Dedup
import Mathlib.Data.List.Induction

namespace RichardTest.InvertedIndex

section References

variable {κ : Type} {refs : κ → Option Nat} {n : Nat}

-- Every reference is to one of `n` objects, and no two keys share one.
structure Owned (refs : κ → Option Nat) (n : Nat) : Prop where
  lt : ∀ {k list}, refs k = some list → list < n
  inj : ∀ {k k' list}, refs k = some list → refs k' = some list → k = k'

theorem owned_none (n : Nat) : Owned (fun _ : κ => none) n where
  lt h := by cases h
  inj h := by cases h

-- A new object for one key.
theorem Owned.add [DecidableEq κ] (h : Owned refs n) (k : κ) :
    Owned (Function.update refs k (some n)) (n + 1) where
  lt := by
    intro v list hv
    by_cases hvk : v = k
    · rw [hvk, Function.update_self, Option.some.injEq] at hv
      omega
    · rw [Function.update_of_ne hvk] at hv
      exact (h.lt hv).trans (Nat.lt_succ_self n)
  inj := by
    intro v v' list hv hv'
    by_cases hvk : v = k
    · by_cases hvk' : v' = k
      · rw [hvk, hvk']
      · rw [hvk, Function.update_self, Option.some.injEq] at hv
        rw [Function.update_of_ne hvk'] at hv'
        exact absurd (h.lt hv') (by omega)
    · rw [Function.update_of_ne hvk] at hv
      by_cases hvk' : v' = k
      · rw [hvk', Function.update_self, Option.some.injEq] at hv'
        exact absurd (h.lt hv) (by omega)
      · rw [Function.update_of_ne hvk'] at hv'
        exact h.inj hv hv'

end References

section Entries

structure Index.WellFormed (idx : Index) : Prop where
  owned : Owned idx.iIdx idx.heap.length
  keys : ∀ w, (idx.wordFreq w).isSome ↔ (idx.iIdx w).isSome

-- What the index says of a word: its paths and its count.
def Index.entry (idx : Index) (w : JString) : Option (List JString × JInt) := do
  let paths ← idx.paths w
  let count ← idx.wordFreq w
  some (paths, count)

variable {idx : Index} {w v filePath : JString}

theorem wellFormed_new : Index.new.WellFormed where
  owned := owned_none 0
  keys _ := Iff.rfl

theorem entry_of_absent (h : idx.iIdx w = none) : idx.entry w = none := by
  rw [Index.entry, Index.paths, h]
  rfl

theorem entry_of_present {list : Nat} {paths : List JString} {count : JInt} (hkey : idx.iIdx w = some list)
    (hpaths : idx.heap[list]? = some paths) (hcount : idx.wordFreq w = some count) :
    idx.entry w = some (paths, count) := by
  have hread : idx.paths w = some paths := by
    rw [Index.paths, hkey]
    exact hpaths
  rw [Index.entry, hread, hcount]
  rfl

theorem entry_eq_some {paths : List JString} {count : JInt} (h : idx.entry w = some (paths, count)) :
    idx.paths w = some paths ∧ idx.wordFreq w = some count := by
  obtain ⟨paths', hpaths, hrest⟩ := Option.bind_eq_some_iff.mp h
  obtain ⟨count', hcount, heq⟩ := Option.bind_eq_some_iff.mp hrest
  cases heq
  exact ⟨hpaths, hcount⟩

theorem Index.WellFormed.present (h : idx.WellFormed) {list : Nat} (hkey : idx.iIdx w = some list) :
    ∃ paths count, idx.heap[list]? = some paths ∧ idx.wordFreq w = some count := by
  have hcount : (idx.wordFreq w).isSome := (h.keys w).mpr (by rw [hkey]; rfl)
  exact ⟨_, _, List.getElem?_eq_getElem (h.owned.lt hkey), Option.some_get hcount |>.symm⟩

-- The entry of another word is read at another object and another key.
theorem entry_congr {idx' : Index} (hkey : idx'.iIdx v = idx.iIdx v) (hfreq : idx'.wordFreq v = idx.wordFreq v)
    (hheap : ∀ list, idx.iIdx v = some list → idx'.heap[list]? = idx.heap[list]?) :
    idx'.entry v = idx.entry v := by
  have hread : idx'.paths v = idx.paths v := by
    rw [Index.paths, Index.paths, hkey]
    cases hv : idx.iIdx v with
    | none => rfl
    | some list => exact hheap list hv
  rw [Index.entry, Index.entry, hread, hfreq]

-- A new word gets an object of its own.
theorem indexWord_absent (h : idx.WellFormed) (habsent : idx.iIdx w = none) :
    ∃ idx', indexWord filePath idx w = some idx' ∧ idx'.WellFormed ∧
      ∀ v, idx'.entry v = if v = w then some (bump filePath (idx.entry w)) else idx.entry v := by
  refine ⟨_, by simp only [indexWord, habsent]; rfl, ⟨?_, fun v => ?_⟩, fun v => ?_⟩
  · rw [List.length_append, List.length_singleton]
    exact h.owned.add w
  · by_cases hvw : v = w
    · simp only [hvw, Function.update_self, Option.isSome_some]
    · simp only [Function.update_of_ne hvw, h.keys v]
  · by_cases hvw : v = w
    · rw [if_pos hvw, hvw, entry_of_absent habsent, bump]
      exact entry_of_present (Function.update_self ..) List.getElem?_concat_length (Function.update_self ..)
    · rw [if_neg hvw]
      apply entry_congr (Function.update_of_ne hvw ..) (Function.update_of_ne hvw ..)
      intro list hv
      exact List.getElem?_append_left (h.owned.lt hv)

-- A known word keeps its object, and no other word leads to it.
theorem indexWord_present (h : idx.WellFormed) {list : Nat} (hkey : idx.iIdx w = some list) :
    ∃ idx', indexWord filePath idx w = some idx' ∧ idx'.WellFormed ∧
      ∀ v, idx'.entry v = if v = w then some (bump filePath (idx.entry w)) else idx.entry v := by
  obtain ⟨paths, count, hpaths, hcount⟩ := h.present hkey
  have hlen : (if filePath ∈ paths then idx.heap else idx.heap.set list (paths ++ [filePath])).length =
      idx.heap.length := by
    split_ifs
    · rfl
    · exact List.length_set
  refine ⟨_, by simp only [indexWord, hkey, hpaths, hcount, Option.bind_eq_bind, Option.bind_some]; rfl,
    ⟨?_, fun v => ?_⟩, fun v => ?_⟩
  · rw [hlen]
    exact h.owned
  · by_cases hvw : v = w
    · simp only [hvw, Function.update_self, hkey, Option.isSome_some]
    · simp only [Function.update_of_ne hvw, h.keys v]
  · by_cases hvw : v = w
    · rw [if_pos hvw, hvw, entry_of_present hkey hpaths hcount, bump]
      refine entry_of_present hkey ?_ (Function.update_self ..)
      simp only
      split_ifs
      · exact hpaths
      · exact List.getElem?_set_self (h.owned.lt hkey)
    · rw [if_neg hvw]
      refine @entry_congr idx v _ rfl (Function.update_of_ne hvw ..) fun list' hv => ?_
      simp only
      split_ifs
      · rfl
      · exact List.getElem?_set_ne fun heq : list = list' => hvw (h.owned.inj hv (heq ▸ hkey))

theorem indexWord_spec (h : idx.WellFormed) (filePath w : JString) :
    ∃ idx', indexWord filePath idx w = some idx' ∧ idx'.WellFormed ∧
      ∀ v, idx'.entry v = if v = w then some (bump filePath (idx.entry w)) else idx.entry v := by
  cases hkey : idx.iIdx w with
  | none => exact indexWord_absent h hkey
  | some list => exact indexWord_present h hkey

-- In whatever order the words come, each of them gets the file once.
theorem forEach_spec (filePath : JString) (words : List JString) (hnodup : words.Nodup) {idx : Index}
    (h : idx.WellFormed) :
    ∃ idx', words.foldlM (indexWord filePath) idx = some idx' ∧ idx'.WellFormed ∧
      ∀ v, idx'.entry v = if v ∈ words then some (bump filePath (idx.entry v)) else idx.entry v := by
  induction words generalizing idx with
  | nil => exact ⟨idx, rfl, h, fun v => by simp⟩
  | cons w words ih =>
      obtain ⟨hw, hnodup⟩ := List.nodup_cons.mp hnodup
      obtain ⟨idx₁, hrun, h₁, hentry⟩ := indexWord_spec h filePath w
      obtain ⟨idx₂, hrest, h₂, hentry₂⟩ := ih hnodup h₁
      refine ⟨idx₂, by rw [List.foldlM_cons, hrun]; exact hrest, h₂, fun v => ?_⟩
      rw [hentry₂, hentry]
      by_cases hvw : v = w
      · rw [hvw, if_neg hw, if_pos rfl, if_pos List.mem_cons_self]
      · rw [if_neg hvw]
        simp only [List.mem_cons, hvw, false_or]

end Entries

section Calls

theorem readLoop_eq (fails : Bool) (lines words : List JString) :
    readLoop fails lines words = if fails then none else some (words ++ lines.flatMap split) := by
  induction lines generalizing words with
  | nil => rw [readLoop, List.flatMap_nil, List.append_nil]
  | cons s lines ih => rw [readLoop, ih, List.flatMap_cons, List.append_assoc]

variable (order : HashSetOrder)

theorem createIndex_of_fails (idx : Index) {call : Call} (h : call.file.fails = true) :
    createIndex order idx call.filePath call.file = some idx := by
  rw [createIndex, readLoop_eq, h]
  rfl

theorem createIndex_spec {idx : Index} (h : idx.WellFormed) (call : Call) :
    ∃ idx', createIndex order idx call.filePath call.file = some idx' ∧ idx'.WellFormed ∧
      ∀ v, idx'.entry v =
        if call.Contains v then some (bump call.filePath (idx.entry v)) else idx.entry v := by
  cases hfails : call.file.fails with
  | true =>
      refine ⟨idx, createIndex_of_fails order idx hfails, h, fun v => (if_neg ?_).symm⟩
      rw [Call.Contains, hfails]
      exact fun hv => Bool.noConfusion hv.1
  | false =>
      obtain ⟨idx', hrun, h', hentry⟩ :=
        forEach_spec call.filePath (order.iterate (tokens call.file)) (order.nodup _) h
      refine ⟨idx', ?_, h', fun v => ?_⟩
      · rw [createIndex, readLoop_eq, hfails]
        exact hrun
      · rw [hentry]
        simp only [order.mem_iff, Call.Contains, hfails, true_and]

theorem eraseDups_concat {α : Type} [BEq α] [LawfulBEq α] (l : List α) (a : α) :
    (l ++ [a]).eraseDups = if a ∈ l.eraseDups then l.eraseDups else l.eraseDups ++ [a] := by
  rw [List.eraseDups_append, List.removeAll]
  split_ifs with ha
  · rw [List.mem_eraseDups] at ha
    simp [ha]
  · rw [List.mem_eraseDups] at ha
    simp [ha, List.eraseDups_cons]

-- The entry of a word after the calls.
def entryAfter (calls : List Call) (w : JString) : Option (List JString × JInt) :=
  if containing calls w = [] then none
  else some (postings calls w, BitVec.ofNat 32 (containing calls w).length)

theorem entryAfter_concat (calls : List Call) (call : Call) (w : JString) :
    entryAfter (calls ++ [call]) w =
      if call.Contains w then some (bump call.filePath (entryAfter calls w)) else entryAfter calls w := by
  have hsplit : containing (calls ++ [call]) w =
      if call.Contains w then containing calls w ++ [call] else containing calls w := by
    rw [containing, List.filter_append]
    split_ifs with hc
    · simp [containing, hc]
    · simp [containing, hc]
  rw [entryAfter, postings, hsplit]
  split_ifs with hc hnil hnil
  · exact absurd hnil (by simp)
  · rw [List.map_append, List.map_singleton, eraseDups_concat, ← postings, List.length_append,
      List.length_singleton, entryAfter]
    by_cases hempty : containing calls w = []
    · rw [if_pos hempty, postings, hempty]
      rfl
    · rw [if_neg hempty, bump, BitVec.ofNat_add]
  · rw [entryAfter, if_pos hnil]
  · rw [entryAfter, if_neg hnil, postings]

theorem createIndexes_spec (calls : List Call) :
    ∃ idx, createIndexes order calls = some idx ∧ idx.WellFormed ∧ ∀ w, idx.entry w = entryAfter calls w := by
  induction calls using List.reverseRecOn with
  | nil => exact ⟨Index.new, rfl, wellFormed_new, fun w => rfl⟩
  | append_singleton calls call ih =>
      obtain ⟨idx, hrun, h, hentry⟩ := ih
      obtain ⟨idx', hrun', h', hentry'⟩ := createIndex_spec order h call
      refine ⟨idx', ?_, h', fun w => ?_⟩
      · rw [createIndexes] at hrun ⊢
        rw [List.foldlM_append, hrun]
        simpa using hrun'
      · rw [hentry', hentry, entryAfter_concat]

theorem WellFormed.isSome_iff {idx : Index} (h : idx.WellFormed) (w : JString) :
    (idx.iIdx w).isSome ↔ (idx.entry w).isSome := by
  cases hkey : idx.iIdx w with
  | none =>
      rw [entry_of_absent hkey]
      exact Iff.rfl
  | some list =>
      obtain ⟨paths, count, hpaths, hcount⟩ := h.present hkey
      rw [entry_of_present hkey hpaths hcount]
      exact Iff.rfl

theorem entryAfter_isSome (calls : List Call) (w : JString) :
    (entryAfter calls w).isSome ↔ ∃ call ∈ calls, call.Contains w := by
  rw [entryAfter]
  split_ifs with hnil
  · refine iff_of_false Bool.false_ne_true ?_
    rintro ⟨call, hmem, hc⟩
    have hin : call ∈ containing calls w := List.mem_filter.mpr ⟨hmem, decide_eq_true hc⟩
    rw [hnil] at hin
    cases hin
  · refine iff_of_true rfl ?_
    obtain ⟨call, hin⟩ := List.exists_mem_of_ne_nil _ hnil
    obtain ⟨hmem, hc⟩ := List.mem_filter.mp hin
    exact ⟨call, hmem, of_decide_eq_true hc⟩

-- Whatever files are read in whatever order, the index is the right one, and a call that fails leaves it as it is.
theorem createIndexes_indexes (calls : List Call) :
    ∃ idx, createIndexes order calls = some idx ∧ Indexes calls idx ∧
      ∀ call : Call, call.file.fails = true → createIndex order idx call.filePath call.file = some idx := by
  obtain ⟨idx, hrun, h, hentry⟩ := createIndexes_spec order calls
  refine ⟨idx, hrun, ⟨fun w => ?_, fun w hw => ?_, h.keys⟩, fun call hfails => ?_⟩
  · rw [WellFormed.isSome_iff h, hentry, entryAfter_isSome]
  · have hafter := hentry w
    rw [entryAfter] at hafter
    split_ifs at hafter with hnil
    · rw [WellFormed.isSome_iff h, hafter] at hw
      cases hw
    · exact (entry_eq_some hafter).1
  · exact createIndex_of_fails order idx hfails

-- An order to evaluate the model with.
def addedOrder : HashSetOrder where
  iterate := List.dedup
  nodup := List.nodup_dedup
  mem_iff _ _ := List.mem_dedup

-- `a b` under the path `1`, `b` under `2`, and a file that fails after its first line under `3`.
def oneFile : Call := { filePath := [0x31#16], file := { lines := [[0x61#16, 0x20#16, 0x62#16]], fails := false } }
def twoFile : Call := { filePath := [0x32#16], file := { lines := [[0x62#16]], fails := false } }
def badFile : Call := { filePath := [0x33#16], file := { lines := [[0x63#16]], fails := true } }

theorem createIndexes_indexes_two :
    ∃ idx, createIndexes addedOrder [oneFile, twoFile, oneFile] = some idx ∧
      Indexes [oneFile, twoFile, oneFile] idx ∧ idx.paths [0x62#16] = some [[0x31#16], [0x32#16]] ∧
      createIndex addedOrder idx badFile.filePath badFile.file = some idx := by
  obtain ⟨idx, hrun, hidx, hbad⟩ := createIndexes_indexes addedOrder [oneFile, twoFile, oneFile]
  refine ⟨idx, hrun, hidx, ?_, hbad badFile rfl⟩
  rw [hidx.paths _ ((hidx.key_iff _).mpr ⟨oneFile, List.mem_cons_self, by decide⟩)]
  decide

-- The count of a word is the number of files it is in.
theorem wordFreq_eq {calls : List Call} {idx : Index} (h : idx.WellFormed)
    (hentry : ∀ w, idx.entry w = entryAfter calls w) (w : JString) :
    (idx.wordFreq w).elim 0 BitVec.toInt = (BitVec.ofNat 32 (containing calls w).length).toInt := by
  have hafter := hentry w
  rw [entryAfter] at hafter
  split_ifs at hafter with hnil
  · have habsent : idx.wordFreq w = none := by
      rw [← Option.not_isSome_iff_eq_none, h.keys, WellFormed.isSome_iff h, hafter]
      exact Bool.false_ne_true
    rw [habsent, hnil]
    rfl
  · rw [(entry_eq_some hafter).2, Option.elim_some]

theorem occurrences_cons (call : Call) (calls : List Call) (w : JString) :
    occurrences (call :: calls) w = (tokens call.file).count w + occurrences calls w := by
  rw [occurrences, List.map_cons, List.sum_cons, occurrences]

-- There are at least as many occurrences as files, and as many just if no file has two.
theorem occurrences_spec (calls : List Call) (hread : ∀ call ∈ calls, call.file.fails = false) (w : JString) :
    (containing calls w).length ≤ occurrences calls w ∧
      (occurrences calls w = (containing calls w).length ↔ ∀ call ∈ calls, (tokens call.file).count w ≤ 1) := by
  induction calls with
  | nil => simp [containing, occurrences]
  | cons call calls ih =>
      obtain ⟨hle, hiff⟩ := ih fun c hc => hread c (List.mem_cons_of_mem _ hc)
      have hfails := hread call List.mem_cons_self
      rw [occurrences_cons, List.forall_mem_cons, ← hiff]
      by_cases hin : w ∈ tokens call.file
      · have hc : call.Contains w := ⟨hfails, hin⟩
        have hone : (containing (call :: calls) w).length = (containing calls w).length + 1 := by
          simp only [containing, List.filter_cons, hc, decide_true, if_true, List.length_cons]
        have hpos := List.count_pos_iff.mpr hin
        rw [hone]
        omega
      · have hsame : containing (call :: calls) w = containing calls w :=
          List.filter_cons_of_neg (by simpa [Call.Contains, hfails] using hin)
        rw [hsame, List.count_eq_zero_of_not_mem hin]
        omega

-- A file counts once however often the word stands in it, and the count is an `int`.
theorem wordFreq_right_iff (calls : List Call) (hread : ∀ call ∈ calls, call.file.fails = false) :
    ∃ idx, createIndexes order calls = some idx ∧
      ∀ w, (idx.wordFreq w).elim 0 BitVec.toInt = occurrences calls w ↔
        (∀ call ∈ calls, (tokens call.file).count w ≤ 1) ∧ (containing calls w).length < 2 ^ 31 := by
  obtain ⟨idx, hrun, h, hentry⟩ := createIndexes_spec order calls
  refine ⟨idx, hrun, fun w => ?_⟩
  obtain ⟨hle, hiff⟩ := occurrences_spec calls hread w
  rw [wordFreq_eq h hentry, ← hiff]
  have hmax := (BitVec.ofNat 32 (containing calls w).length).toInt_lt
  have hint : (containing calls w).length < 2 ^ 31 →
      (BitVec.ofNat 32 (containing calls w).length).toInt = (containing calls w).length := by
    intro hlt
    rw [BitVec.toInt_ofNat']
    apply Int.bmod_eq_of_le <;> omega
  by_cases hlt : (containing calls w).length < 2 ^ 31
  · rw [hint hlt]
    omega
  · omega

theorem wordFreq_right_two :
    ∃ idx, createIndexes addedOrder [oneFile, twoFile] = some idx ∧
      ((idx.wordFreq [0x62#16]).elim 0 BitVec.toInt = occurrences [oneFile, twoFile] [0x62#16] ↔
        (∀ call ∈ [oneFile, twoFile], (tokens call.file).count [0x62#16] ≤ 1) ∧
          (containing [oneFile, twoFile] [0x62#16]).length < 2 ^ 31) := by
  obtain ⟨idx, hrun, hiff⟩ := wordFreq_right_iff addedOrder [oneFile, twoFile] (by decide)
  exact ⟨idx, hrun, hiff [0x62#16]⟩

-- The line `a a` counts as one occurrence of `a`.
theorem wordFreq_counts_files :
    ∃ idx, createIndexes addedOrder
        [{ filePath := [0x31#16], file := { lines := [[0x61#16, 0x20#16, 0x61#16]], fails := false } }] = some idx ∧
      idx.wordFreq [0x61#16] = some 1#32 ∧
      occurrences
        [{ filePath := [0x31#16], file := { lines := [[0x61#16, 0x20#16, 0x61#16]], fails := false } }] [0x61#16] = 2 :=
  ⟨_, rfl, by decide, by decide⟩

end Calls

end RichardTest.InvertedIndex
