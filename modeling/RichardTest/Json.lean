import Mathlib.Data.List.Basic

namespace RichardTest.Json

-- JSON values without numbers and literals. The strings hold no escapes.

inductive Value where
  | str (s : List Char)
  | arr (vs : List Value)
  | obj (ms : List (List Char × Value))

-- The characters that stand for themselves in a string.
def plain (c : Char) : Bool := c ≠ '"' ∧ c ≠ '\\' ∧ 32 ≤ c.toNat

def blank (c : Char) : Bool := c = ' ' ∨ c = '\n' ∨ c = '\r' ∨ c = '\t'

section Parse

-- A container that has been read in part. In an object the value of `key` is due.
inductive Frame where
  | arr (vs : List Value)
  | obj (ms : List (List Char × Value)) (key : List Char)

-- What the parser waits for, inside of the containers `fs`.
inductive State where
  | value (fs : List Frame)
  | valueOrClose (fs : List Frame)
  | keyOrClose (fs : List Frame)
  | key (ms : List (List Char × Value)) (fs : List Frame)
  | inKey (s : List Char) (ms : List (List Char × Value)) (fs : List Frame)
  | colon (ms : List (List Char × Value)) (key : List Char) (fs : List Frame)
  | inStr (s : List Char) (fs : List Frame)
  | nextElem (vs : List Value) (fs : List Frame)
  | nextMember (ms : List (List Char × Value)) (fs : List Frame)
  | done (v : Value)

-- A value is complete.
def deliver : List Frame → Value → State
  | [], v => .done v
  | .arr vs :: fs, v => .nextElem (vs ++ [v]) fs
  | .obj ms key :: fs, v => .nextMember (ms ++ [(key, v)]) fs

def start (fs : List Frame) (c : Char) : Option State :=
  if c = '"' then some (.inStr [] fs)
  else if c = '[' then some (.valueOrClose fs)
  else if c = '\x7b' then some (.keyOrClose fs)
  else none

-- A character outside of strings that is not blank.
def token : State → Char → Option State
  | .value fs, c => start fs c
  | .valueOrClose fs, c => if c = ']' then some (deliver fs (.arr [])) else start (.arr [] :: fs) c
  | .keyOrClose fs, c =>
      if c = '\x7d' then some (deliver fs (.obj []))
      else if c = '"' then some (.inKey [] [] fs)
      else none
  | .key ms fs, c => if c = '"' then some (.inKey [] ms fs) else none
  | .colon ms key fs, c => if c = ':' then some (.value (.obj ms key :: fs)) else none
  | .nextElem vs fs, c =>
      if c = ',' then some (.value (.arr vs :: fs))
      else if c = ']' then some (deliver fs (.arr vs))
      else none
  | .nextMember ms fs, c =>
      if c = ',' then some (.key ms fs)
      else if c = '\x7d' then some (deliver fs (.obj ms))
      else none
  | _, _ => none

def step : State → Char → Option State
  | .inKey s ms fs, c =>
      if c = '"' then some (.colon ms s fs) else if plain c then some (.inKey (s ++ [c]) ms fs) else none
  | .inStr s fs, c =>
      if c = '"' then some (deliver fs (.str s)) else if plain c then some (.inStr (s ++ [c]) fs) else none
  | st, c => if blank c then some st else token st c

def run (st : State) (text : List Char) : Option State := text.foldlM step st

def parse (text : List Char) : Option Value :=
  match run (.value []) text with
  | some (.done v) => some v
  | _ => none

end Parse

section Render

def quote (s : List Char) : List Char := '"' :: (s ++ ['"'])

mutual

-- The text of a value, with `pad` behind each comma and colon.
def render (pad : List Char) : Value → List Char
  | .str s => quote s
  | .arr [] => ['[', ']']
  | .arr (v :: vs) => '[' :: (render pad v ++ renderElems pad vs ++ [']'])
  | .obj [] => ['\x7b', '\x7d']
  | .obj ((key, v) :: ms) =>
      '\x7b' :: (quote key ++ ':' :: (pad ++ render pad v) ++ renderMembers pad ms ++ ['\x7d'])

def renderElems (pad : List Char) : List Value → List Char
  | [] => []
  | v :: vs => ',' :: (pad ++ render pad v ++ renderElems pad vs)

def renderMembers (pad : List Char) : List (List Char × Value) → List Char
  | [] => []
  | (key, v) :: ms => ',' :: (pad ++ quote key ++ ':' :: (pad ++ render pad v) ++ renderMembers pad ms)

end

theorem renderMembers_append (pad : List Char) (ms ms' : List (List Char × Value)) :
    renderMembers pad (ms ++ ms') = renderMembers pad ms ++ renderMembers pad ms' := by
  induction ms with
  | nil => simp [renderMembers]
  | cons m ms ih =>
      obtain ⟨key, v⟩ := m
      simp only [List.cons_append, renderMembers, ih, List.append_assoc]

inductive Plain : Value → Prop where
  | str (s : List Char) (hs : s.all plain = true) : Plain (.str s)
  | arr (vs : List Value) (hvs : ∀ v ∈ vs, Plain v) : Plain (.arr vs)
  | obj (ms : List (List Char × Value)) (hkeys : ∀ m ∈ ms, m.1.all plain = true) (hms : ∀ m ∈ ms, Plain m.2) :
      Plain (.obj ms)

end Render

section RoundTrip

theorem run_append (st : State) (a b : List Char) : run st (a ++ b) = (run st a).bind fun st => run st b :=
  List.foldlM_append ..

theorem run_cons (st : State) (c : Char) (a : List Char) :
    run st (c :: a) = (step st c).bind fun st => run st a :=
  List.foldlM_cons ..

theorem run_nil (st : State) : run st [] = some st := rfl

theorem plain_ne_quote {c : Char} (hc : plain c = true) : ¬ c = '"' := by
  rw [plain, decide_eq_true_eq] at hc
  exact hc.1

theorem run_inStr (s t : List Char) (fs : List Frame) (ht : t.all plain = true) :
    run (.inStr s fs) (t ++ ['"']) = some (deliver fs (.str (s ++ t))) := by
  induction t generalizing s with
  | nil =>
      rw [List.append_nil]
      rfl
  | cons c t ih =>
      rw [List.all_cons, Bool.and_eq_true] at ht
      rw [List.cons_append, run_cons, step, if_neg (plain_ne_quote ht.1), if_pos ht.1, Option.bind_some,
        ih _ ht.2, List.append_assoc]
      rfl

theorem run_inKey (s t : List Char) (ms : List (List Char × Value)) (fs : List Frame)
    (ht : t.all plain = true) : run (.inKey s ms fs) (t ++ ['"']) = some (.colon ms (s ++ t) fs) := by
  induction t generalizing s with
  | nil =>
      rw [List.append_nil]
      rfl
  | cons c t ih =>
      rw [List.all_cons, Bool.and_eq_true] at ht
      rw [List.cons_append, run_cons, step, if_neg (plain_ne_quote ht.1), if_pos ht.1, Option.bind_some,
        ih _ ht.2, List.append_assoc]
      rfl

-- States outside of strings pass over blanks.
theorem run_pad (st : State) (hst : ∀ c, blank c = true → step st c = some st) (pad : List Char)
    (hpad : pad.all blank = true) : run st pad = some st := by
  induction pad with
  | nil => rfl
  | cons c pad ih =>
      rw [List.all_cons, Bool.and_eq_true] at hpad
      rw [run_cons, hst c hpad.1, Option.bind_some, ih hpad.2]

-- The first character of a value opens it, and it can close nothing.
theorem render_start (pad : List Char) (v : Value) :
    ∃ c text, render pad v = c :: text ∧ blank c = false ∧ ¬ c = ']' := by
  match v with
  | .str s => exact ⟨_, _, by rw [render, quote], by decide, by decide⟩
  | .arr [] => exact ⟨_, _, by rw [render], by decide, by decide⟩
  | .arr (v :: vs) => exact ⟨_, _, by rw [render], by decide, by decide⟩
  | .obj [] => exact ⟨_, _, by rw [render], by decide, by decide⟩
  | .obj ((key, v) :: ms) => exact ⟨_, _, by rw [render], by decide, by decide⟩

variable {pad : List Char} (hpad : pad.all blank = true)

include hpad

-- One member, behind the brace or the comma and its padding.
theorem run_member (key : List Char) (hkey : key.all plain = true) (ms : List (List Char × Value))
    (fs : List Frame) (text : List Char) :
    run (.key ms fs) (quote key ++ ':' :: (pad ++ text)) = run (.value (.obj ms key :: fs)) text := by
  have hvalue : run (.value (.obj ms key :: fs)) pad = some (.value (.obj ms key :: fs)) :=
    run_pad (.value (.obj ms key :: fs)) (fun _ hc => if_pos hc) pad hpad
  have hquote : step (.key ms fs) '"' = some (.inKey [] ms fs) := rfl
  have hcolon : step (.colon ms key fs) ':' = some (.value (.obj ms key :: fs)) := rfl
  rw [quote, List.cons_append, run_cons, hquote, Option.bind_some, run_append, run_inKey [] key ms fs hkey,
    Option.bind_some, List.nil_append, run_cons, hcolon, Option.bind_some, run_append, hvalue, Option.bind_some]

theorem run_renderMembers (ms ms' : List (List Char × Value)) (fs : List Frame)
    (hkeys : ∀ m ∈ ms', m.1.all plain = true)
    (hms : ∀ m ∈ ms', ∀ fs, run (.value fs) (render pad m.2) = some (deliver fs m.2)) :
    run (.nextMember ms fs) (renderMembers pad ms') = some (.nextMember (ms ++ ms') fs) := by
  induction ms' generalizing ms with
  | nil =>
      rw [renderMembers, List.append_nil]
      rfl
  | cons m ms' ih =>
      obtain ⟨key, v⟩ := m
      have hcomma : step (.nextMember ms fs) ',' = some (.key ms fs) := rfl
      have hkey : run (.key ms fs) pad = some (.key ms fs) :=
        run_pad (.key ms fs) (fun _ hc => if_pos hc) pad hpad
      have hv := hms (key, v) List.mem_cons_self
      rw [renderMembers, run_cons, hcomma, Option.bind_some, List.append_assoc, List.append_assoc, run_append,
        hkey, Option.bind_some, ← List.append_assoc, run_append,
        run_member hpad key (hkeys (key, v) List.mem_cons_self), hv, Option.bind_some, deliver,
        ih _ (fun m hm => hkeys m (List.mem_cons_of_mem _ hm)) (fun m hm => hms m (List.mem_cons_of_mem _ hm)),
        List.append_assoc]
      rfl

theorem run_renderElems (vs vs' : List Value) (fs : List Frame)
    (hvs : ∀ v ∈ vs', ∀ fs, run (.value fs) (render pad v) = some (deliver fs v)) :
    run (.nextElem vs fs) (renderElems pad vs') = some (.nextElem (vs ++ vs') fs) := by
  induction vs' generalizing vs with
  | nil =>
      rw [renderElems, List.append_nil]
      rfl
  | cons v vs' ih =>
      have hcomma : step (.nextElem vs fs) ',' = some (.value (.arr vs :: fs)) := rfl
      have hvalue : run (.value (.arr vs :: fs)) pad = some (.value (.arr vs :: fs)) :=
        run_pad (.value (.arr vs :: fs)) (fun _ hc => if_pos hc) pad hpad
      rw [renderElems, run_cons, hcomma, Option.bind_some, List.append_assoc, run_append, hvalue,
        Option.bind_some, run_append, hvs v List.mem_cons_self, Option.bind_some, deliver,
        ih _ (fun v hv => hvs v (List.mem_cons_of_mem _ hv)), List.append_assoc]
      rfl

-- An object up to the end of its last member.
theorem run_openObj (key : List Char) (v : Value) (ms : List (List Char × Value)) (fs : List Frame)
    (hkeys : ∀ m ∈ (key, v) :: ms, m.1.all plain = true)
    (hms : ∀ m ∈ (key, v) :: ms, ∀ fs, run (.value fs) (render pad m.2) = some (deliver fs m.2)) :
    run (.value fs) ('\x7b' :: (quote key ++ ':' :: (pad ++ render pad v) ++ renderMembers pad ms)) =
      some (.nextMember ((key, v) :: ms) fs) := by
  have hopen : step (.value fs) '\x7b' = some (.keyOrClose fs) := rfl
  have hfirst : run (.keyOrClose fs) (quote key ++ ':' :: (pad ++ render pad v)) =
      some (.nextMember [(key, v)] fs) := by
    have hmember := run_member hpad key (hkeys (key, v) List.mem_cons_self) [] fs (render pad v)
    rw [hms (key, v) List.mem_cons_self (.obj [] key :: fs)] at hmember
    exact hmember
  rw [run_cons, hopen, Option.bind_some, run_append, hfirst, Option.bind_some,
    run_renderMembers hpad [(key, v)] ms fs (fun m hm => hkeys m (List.mem_cons_of_mem _ hm))
      (fun m hm => hms m (List.mem_cons_of_mem _ hm))]
  rfl

theorem run_render (v : Value) (hv : Plain v) (fs : List Frame) :
    run (.value fs) (render pad v) = some (deliver fs v) := by
  induction hv generalizing fs with
  | str s hs =>
      have hquote : step (.value fs) '"' = some (.inStr [] fs) := rfl
      rw [render, quote, run_cons, hquote, Option.bind_some, run_inStr [] s fs hs, List.nil_append]
  | arr vs hvs ih =>
      have hopen : step (.value fs) '[' = some (.valueOrClose fs) := rfl
      cases vs with
      | nil =>
          rw [render]
          rfl
      | cons v vs =>
          have hfirst : run (.valueOrClose fs) (render pad v) = some (.nextElem [v] fs) := by
            obtain ⟨c, text, htext, hblank, hclose⟩ := render_start pad v
            have hrun := ih v List.mem_cons_self (.arr [] :: fs)
            have hstep : step (.valueOrClose fs) c = step (.value (.arr [] :: fs)) c := by
              simp only [step, token, hblank, hclose, Bool.false_eq_true, if_false]
            rw [htext, run_cons] at hrun ⊢
            rw [hstep, hrun]
            rfl
          have hclose : step (.nextElem ([v] ++ vs) fs) ']' = some (deliver fs (.arr (v :: vs))) := rfl
          rw [render, run_cons, hopen, Option.bind_some, List.append_assoc, run_append, hfirst,
            Option.bind_some, run_append, run_renderElems hpad [v] vs fs (fun v hv => ih v (List.mem_cons_of_mem _ hv)),
            Option.bind_some, run_cons, hclose, Option.bind_some, run_nil]
  | obj ms hkeys hms ih =>
      match ms with
      | [] =>
          rw [render]
          rfl
      | (key, v) :: ms =>
          have hclose : step (.nextMember ((key, v) :: ms) fs) '\x7d' =
            some (deliver fs (.obj ((key, v) :: ms))) := rfl
          rw [render, ← List.cons_append, run_append, run_openObj hpad key v ms fs hkeys ih, Option.bind_some,
            run_cons, hclose, Option.bind_some, run_nil]

-- The text of a value, and blanks behind it, are read as that value.
theorem parse_render (v : Value) (hv : Plain v) (tail : List Char) (htail : tail.all blank = true) :
    parse (render pad v ++ tail) = some v := by
  have hdone : run (.done v) tail = some (.done v) := run_pad (.done v) (fun _ hc => if_pos hc) tail htail
  rw [parse, run_append, run_render hpad v hv, Option.bind_some, deliver, hdone]

end RoundTrip

section Same

-- The way from a value to one of its parts.
inductive Step where
  | key (key : List Char)
  | index (i : Nat)

-- Of two members of one name the last counts.
def Value.get : Value → Step → Option Value
  | .obj ms, .key key => ms.reverse.lookup key
  | .arr vs, .index i => vs[i]?
  | _, _ => none

inductive Node where
  | str (s : List Char)
  | arr
  | obj

def Value.node : Value → Node
  | .str s => .str s
  | .arr _ => .arr
  | .obj _ => .obj

def nodeAt : Value → List Step → Option Node
  | v, [] => some v.node
  | v, st :: path => (v.get st).bind fun v => nodeAt v path

-- Two values denote the same fields, in whatever order they list them.
def Same (v w : Value) : Prop := ∀ path, nodeAt v path = nodeAt w path

theorem Same.refl (v : Value) : Same v v := fun _ => rfl

variable {v w : Value}

theorem Same.node_eq (h : Same v w) : v.node = w.node := Option.some.inj (h [])

theorem Same.get (h : Same v w) (st : Step) (v' : Value) (hv : v.get st = some v') :
    ∃ w', w.get st = some w' ∧ Same v' w' := by
  have hpath : ∀ path, nodeAt v' path = (w.get st).bind fun w => nodeAt w path := fun path => by
    have := h (st :: path)
    rwa [nodeAt, hv, Option.bind_some] at this
  cases hw : w.get st with
  | none =>
      have := hpath []
      rw [hw] at this
      contradiction
  | some w' => exact ⟨w', rfl, fun path => by rw [hpath path, hw, Option.bind_some]⟩

theorem get_eq_some (ms : List (List Char × Value)) (hms : (ms.map Prod.fst).Nodup) {key : List Char}
    (hv : (key, v) ∈ ms) : (Value.obj ms).get (.key key) = some v := by
  obtain ⟨a, b, rfl⟩ := List.append_of_mem hv
  rw [Value.get, List.lookup_eq_some_iff]
  refine ⟨b.reverse, a.reverse, by simp, fun m hm => ?_⟩
  rw [List.map_append, List.map_cons, List.nodup_append] at hms
  have hnotMem := (List.nodup_cons.mp hms.2.1).1
  rw [bne_iff_ne]
  intro hkey
  exact hnotMem (List.mem_map.mpr ⟨m, List.mem_reverse.mp hm, hkey.symm⟩)

end Same

section Leaves

mutual

-- The strings in a value, in the order of its text.
def leaves : Value → List Char
  | .str s => s
  | .arr vs => leavesElems vs
  | .obj ms => leavesMembers ms

def leavesElems : List Value → List Char
  | [] => []
  | v :: vs => leaves v ++ leavesElems vs

def leavesMembers : List (List Char × Value) → List Char
  | [] => []
  | (_, v) :: ms => leaves v ++ leavesMembers ms

end

theorem leavesMembers_append (ms ms' : List (List Char × Value)) :
    leavesMembers (ms ++ ms') = leavesMembers ms ++ leavesMembers ms' := by
  induction ms with
  | nil => rfl
  | cons m ms ih =>
      obtain ⟨key, v⟩ := m
      rw [List.cons_append, leavesMembers, leavesMembers, ih, List.append_assoc]

end Leaves

section Distinct

-- No object names a member twice.
inductive Distinct : Value → Prop where
  | str (s : List Char) : Distinct (.str s)
  | arr (vs : List Value) (hvs : ∀ v ∈ vs, Distinct v) : Distinct (.arr vs)
  | obj (ms : List (List Char × Value)) (hkeys : (ms.map Prod.fst).Nodup) (hms : ∀ m ∈ ms, Distinct m.2) :
      Distinct (.obj ms)

end Distinct

end RichardTest.Json
