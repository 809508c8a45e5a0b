import Mathlib.Algebra.Ring.Nat
import Mathlib.Data.List.DropRight
import Mathlib.Logic.Function.Basic

namespace RichardTest.InvertedIndex

abbrev JString := List (BitVec 16)
abbrev JInt := BitVec 32

-- `s.split(" ")`: a string without a blank is its only token, and empty tokens at the end are left out.
def split (s : JString) : List JString :=
  if 0x20#16 ∈ s then (s.splitOn 0x20#16).rdropWhile (·.isEmpty) else [s]

-- The lines that `readLine` returns one after the other, and whether an IOException comes after them. A file
-- that cannot be opened fails before the first line.
structure File where
  lines : List JString
  fails : Bool
deriving DecidableEq

-- The order in which a `HashSet` goes through its elements, by what has been added to it.
structure HashSetOrder where
  iterate : List JString → List JString
  nodup : ∀ added, (iterate added).Nodup
  mem_iff : ∀ added w, w ∈ iterate added ↔ w ∈ added

-- The maps hold references: `heap` is the list objects made so far, and a reference the number of one.
structure Index where
  heap : List (List JString)
  iIdx : JString → Option Nat
  list : Option Nat
  wordFreq : JString → Option JInt

def Index.new : Index := { heap := [], iIdx := fun _ => none, list := none, wordFreq := fun _ => none }

-- The list that a key of `iIdx` leads to.
def Index.paths (idx : Index) (word : JString) : Option (List JString) := do
  let list ← idx.iIdx word
  idx.heap[list]?

-- The body of `words.forEach`. `none` is a NullPointerException.
def indexWord (filePath : JString) (idx : Index) (word : JString) : Option Index :=
  match idx.iIdx word with
  | none =>
      let list := idx.heap.length
      some
        { heap := idx.heap ++ [[filePath]]
          list := some list
          iIdx := Function.update idx.iIdx word (some list)
          wordFreq := Function.update idx.wordFreq word (some 1#32) }
  | some list => do
      let paths ← idx.heap[list]?
      let heap := if filePath ∈ paths then idx.heap else idx.heap.set list (paths ++ [filePath])
      let count ← idx.wordFreq word
      some
        { heap
          list := some list
          iIdx := idx.iIdx
          wordFreq := Function.update idx.wordFreq word (some (count + 1#32)) }

-- `while ((s = reader.readLine()) != null)`: what is added to `words`, or `none` for an IOException.
def readLoop (fails : Bool) : List JString → List JString → Option (List JString)
  | [], words => if fails then none else some words
  | s :: lines, words => readLoop fails lines (words ++ split s)

section Calls

variable (order : HashSetOrder)

-- The exception is caught and printed. Closing the reader, which comes last, changes nothing here.
def createIndex (idx : Index) (filePath : JString) (file : File) : Option Index :=
  match readLoop file.fails file.lines [] with
  | none => some idx
  | some words => (order.iterate words).foldlM (indexWord filePath) idx

structure Call where
  filePath : JString
  file : File
deriving DecidableEq

def createIndexes (calls : List Call) : Option Index :=
  calls.foldlM (fun idx call => createIndex order idx call.filePath call.file) Index.new

end Calls

section Spec

def tokens (file : File) : List JString := file.lines.flatMap split

-- The call reads its file to the end, and the word is in it.
def Call.Contains (call : Call) (w : JString) : Prop := call.file.fails = false ∧ w ∈ tokens call.file

instance (call : Call) (w : JString) : Decidable (call.Contains w) := inferInstanceAs (Decidable (_ ∧ _))

-- The calls whose file contains the word, in their order.
def containing (calls : List Call) (w : JString) : List Call := calls.filter (·.Contains w)

-- The paths of the files that contain the word, each where it comes first.
def postings (calls : List Call) (w : JString) : List JString := ((containing calls w).map (·.filePath)).eraseDups

-- How often the word stands in the files.
def occurrences (calls : List Call) (w : JString) : Nat := (calls.map fun call => (tokens call.file).count w).sum

-- What one more file does to the entry of a word.
def bump (filePath : JString) : Option (List JString × JInt) → List JString × JInt
  | none => ([filePath], 1#32)
  | some (paths, count) => (if filePath ∈ paths then paths else paths ++ [filePath], count + 1#32)

-- What the two maps are to hold after the calls.
structure Indexes (calls : List Call) (idx : Index) : Prop where
  key_iff : ∀ w, (idx.iIdx w).isSome ↔ ∃ call ∈ calls, call.Contains w
  paths : ∀ w, (idx.iIdx w).isSome → idx.paths w = some (postings calls w)
  freq_iff : ∀ w, (idx.wordFreq w).isSome ↔ (idx.iIdx w).isSome

end Spec

end RichardTest.InvertedIndex
