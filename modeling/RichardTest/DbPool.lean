import Mathlib.Data.List.Basic

namespace RichardTest.DbPool

-- `cpp/mysql/dbpool.c`. A `MYSQL *` that is not NULL is a value of the type `MYSQL`; where the code
-- may pass or return NULL the type is `Option MYSQL`.
structure ConPool (MYSQL : Type) where
  size : Nat
  busy : Int
  flag : List Int
  cons : List MYSQL
  flag_length : flag.length = size
  cons_length : cons.length = size

variable {MYSQL : Type}

namespace ConPool

-- `ppool->flag[i] = value; ppool->busy = busy`
def mark (ppool : ConPool MYSQL) (i : Nat) (value busy : Int) : ConPool MYSQL :=
  { ppool with
    busy := busy
    flag := ppool.flag.set i value
    flag_length := by rw [List.length_set, ppool.flag_length] }

end ConPool

-- The pointer array between `createConPool` and the end of the loop of `init_pool`, filled by one call
-- of `init_con` for each entry. The `i`-th call returns `initCon i`; without a connection it exits.
def initCons (initCon : Nat → Option MYSQL) : (size : Nat) → Option { cons : List MYSQL // cons.length = size }
  | 0 => some ⟨[], rfl⟩
  | size + 1 => do
      let ⟨cons, hcons⟩ ← initCons initCon size
      let my ← initCon size
      return ⟨cons ++ [my], by rw [List.length_append, hcons]; rfl⟩

-- `MAX_CONNECTIONS` is a parameter: `createConPool` takes it for `size` and for the length of `flag`.
def initPool (maxConnections : Nat) (initCon : Nat → Option MYSQL) : Option (ConPool MYSQL) := do
  let cons ← initCons initCon maxConnections
  return {
    size := maxConnections
    busy := 0
    flag := List.replicate maxConnections 0
    cons := cons.val
    flag_length := List.length_replicate
    cons_length := cons.property }

-- The loop stops at the first entry that is idle.
def getCon (ppool : ConPool MYSQL) : Option MYSQL × ConPool MYSQL :=
  match ppool.flag.findIdx? (· == 0) with
  | some i => (ppool.cons[i]?, ppool.mark i 1 (ppool.busy + 1))
  | none => (none, ppool)

variable [DecidableEq MYSQL]

-- The first entry of the pool that holds the pointer.
def position (ppool : ConPool MYSQL) (pcon : Option MYSQL) : Option Nat :=
  ppool.cons.findIdx? fun con => pcon == some con

-- The flag is not looked at.
def releaseCon (ppool : ConPool MYSQL) (pcon : Option MYSQL) : ConPool MYSQL :=
  match position ppool pcon with
  | some i => ppool.mark i 0 (ppool.busy - 1)
  | none => ppool

-- A call of one of the two functions on the pool.
inductive Call (MYSQL : Type) where
  | getCon
  | releaseCon (pcon : Option MYSQL)
deriving DecidableEq, Repr

def step (ppool : ConPool MYSQL) : Call MYSQL → ConPool MYSQL
  | .getCon => (getCon ppool).2
  | .releaseCon pcon => releaseCon ppool pcon

-- The pool together with who holds what.
structure System (Client MYSQL : Type) where
  pool : ConPool MYSQL
  held : List (Client × MYSQL)

variable {Client : Type} [DecidableEq Client]

-- One call, made by one of the clients.
inductive Action (Client MYSQL : Type) where
  | get (client : Client)
  | release (client : Client) (con : MYSQL)
deriving DecidableEq, Repr

-- A client keeps what `get_con` returns until it releases it. It releases only what it holds: any other
-- release is no action of such a client.
def act (system : System Client MYSQL) : Action Client MYSQL → Option (System Client MYSQL)
  | .get client =>
      match getCon system.pool with
      | (some con, pool) => some ⟨pool, (client, con) :: system.held⟩
      | (none, pool) => some ⟨pool, system.held⟩
  | .release client con =>
      if (client, con) ∈ system.held then
        some ⟨releaseCon system.pool (some con), system.held.erase (client, con)⟩
      else none

def run (system : System Client MYSQL) (actions : List (Action Client MYSQL)) : Option (System Client MYSQL) :=
  actions.foldlM act system

end RichardTest.DbPool
