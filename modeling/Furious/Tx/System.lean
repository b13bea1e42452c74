import Furious.Tx.Txpool

/-!
The transactional memory as a state machine.

A state holds the manager, one transactional pool, the references and the thread
contexts of the callers. A step is one call of the interface; an access is
`fdb_txpool_alloc_ptr` together with the use of the pointer it returns. A step
that faults, or that would wait for a running writer, has no result.

* `State`, `Step`: the states and the calls;
* `step`, `run`: the machine.
-/

namespace Furious

variable {α : Type}

namespace Tx

/-- The state of the machine. `refs` holds `p_main` of each reference. -/
structure State (α : Type) where
  manager : Manager
  pool : Txpool α
  refs : ℕ → Option ℕ
  ctxs : ℕ → Ctx

/-- The state after initialisation. -/
def State.init : State α where
  manager := Manager.init
  pool := Txpool.init
  refs := fun _ => none
  ctxs := fun _ => Ctx.init

/-- The calls. A transaction is named by its handle, a reference and a thread
context by a number; `alloc` is told what the memory it gets holds. An access
either looks at the contents, `read`, with the flag of a read or a write access,
or changes them, `write`. -/
inductive Step (α : Type) where
  | begin (tx : ℕ) (txtype : TxType)
  | commit (tx : ℕ)
  | alloc (tx r : ℕ) (x : α)
  | read (tx ctx r : ℕ) (write : Bool)
  | write (tx ctx r : ℕ) (f : α → α)
  | free (tx ctx r : ℕ)
  | gc (ctx : ℕ) (force : Bool)

/-- What a call reports: the contents an access finds, `none` for a null pointer,
or the result of a collection. -/
inductive Output (α : Type) where
  | unit
  | contents (x : Option α)
  | collected (all : Bool)
deriving DecidableEq, Repr

/-- What is found behind a data pointer. -/
def State.load (s : State α) (data : Option ℕ) : Option (Option α) :=
  match data with
  | none => some none
  | some d => (s.pool.dataPalloc.get d).map some

/-- The assignment of a new pool and context. -/
def State.setPool (s : State α) (pool : Txpool α) (ctx : ℕ) (c : Ctx) : State α :=
  { s with pool := pool, ctxs := Function.update s.ctxs ctx c }

/-- One call. -/
def step (s : State α) : Step α → Option (State α × Output α)
  | .begin tx txtype => do
      let m ← s.manager.begin tx txtype
      some ({ s with manager := m }, .unit)
  | .commit tx => do
      let m ← s.manager.commit tx
      some ({ s with manager := m }, .unit)
  | .alloc tx r x => do
      let t ← s.manager.txs tx
      let (pool, main) ← s.pool.alloc t x
      some ({ s with pool := pool, refs := Function.update s.refs r (some main) }, .unit)
  | .read tx ctx r write => do
      let t ← s.manager.txs tx
      let main ← s.refs r
      let (pool, c, data) ← s.pool.ptr t (s.ctxs ctx) main write
      let s := s.setPool pool ctx c
      let x ← s.load data
      some (s, .contents x)
  | .write tx ctx r f => do
      let t ← s.manager.txs tx
      let main ← s.refs r
      let (pool, c, data) ← s.pool.ptr t (s.ctxs ctx) main true
      let d ← data
      let x ← pool.dataPalloc.get d
      let dataPalloc ← pool.dataPalloc.put d (f x)
      some (s.setPool { pool with dataPalloc := dataPalloc } ctx c, .contents (some x))
  | .free tx ctx r => do
      let t ← s.manager.txs tx
      let main ← s.refs r
      let (pool, c) ← s.pool.free t (s.ctxs ctx) main
      some (s.setPool pool ctx c, .unit)
  | .gc ctx force => do
      let orv ← s.manager.oldestRunningVersion
      let (pool, c, all) ← (s.ctxs ctx).gc s.pool orv force
      some (s.setPool pool ctx c, .collected all)

/-- A sequence of calls, with what they report. -/
def run (s : State α) : List (Step α) → Option (State α × List (Output α))
  | [] => some (s, [])
  | st :: sts => do
      let (s, o) ← step s st
      let (s, os) ← run s sts
      some (s, o :: os)

end Tx

end Furious
