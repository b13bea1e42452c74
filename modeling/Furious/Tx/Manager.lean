import Furious.Library.DList

/-!
The transaction manager.

Transactions are objects of their callers, known by a handle; the running ones
are linked in the order in which they began. A transaction reads at its version:
a reader at the last committed writer, a writer at its own identifier. Each also
keeps the version of the oldest transaction that ran when it began, below which
a writer may discard old versions.

* `Tx`, `Manager`: the records;
* `Manager.begin`, `Manager.commit`: `fdb_tx_begin` and `fdb_tx_commit`;
* `Manager.oldestRunningVersion`: the cut-off of `fdb_txthread_ctx_gc`.

Identifiers are drawn from a 64 bit counter. The model takes it as unbounded, as it is for fewer than
`2 ^ 64` transactions.
-/

namespace Furious

/-- The kinds of transactions (`fdb_txtype_t`). -/
inductive TxType where
  | readOnly
  | readWrite
deriving DecidableEq, Repr

/-- A transaction (`fdb_tx_t`). -/
structure Tx where
  id : ℕ
  txversion : ℕ
  ortxversion : ℕ
  txType : TxType
  next : Option ℕ
  prev : Option ℕ
deriving DecidableEq, Repr

/-- The state of the manager and the transaction objects it links. The mutex that
a running writer holds is `writeRunning`. -/
structure Manager where
  txs : ℕ → Option Tx
  first : Option ℕ
  last : Option ℕ
  nextId : ℕ
  lastWriteCommittedId : ℕ
  writeRunning : Bool

namespace Manager

/-- The state after `fdb_tx_init`. -/
def init : Manager where
  txs := fun _ => none
  first := none
  last := none
  nextId := 1
  lastWriteCommittedId := 0
  writeRunning := false

/-- The links of the transaction objects. -/
def links (m : Manager) (tx : ℕ) : Option (Option ℕ × Option ℕ) :=
  (m.txs tx).map fun t => (t.next, t.prev)

/-- Assigns `p_next` of the transaction object, if there is one. -/
def setNext (m : Manager) (tx next : Option ℕ) : Option Manager :=
  match tx with
  | none => some m
  | some h => do
      let t ← m.txs h
      some { m with txs := Function.update m.txs h (some { t with next := next }) }

/-- Assigns `p_prev` of the transaction object, if there is one. -/
def setPrev (m : Manager) (tx prev : Option ℕ) : Option Manager :=
  match tx with
  | none => some m
  | some h => do
      let t ← m.txs h
      some { m with txs := Function.update m.txs h (some { t with prev := prev }) }

/-- `fdb_tx_begin`. A writer waits while another one runs: there is no step. -/
def begin (m : Manager) (tx : ℕ) (txtype : TxType) : Option Manager :=
  if txtype = .readWrite ∧ m.writeRunning = true then none
  else
    let version := if txtype = .readWrite then m.nextId else m.lastWriteCommittedId
    let m' : Manager := { m with
      nextId := m.nextId + 1
      writeRunning := m.writeRunning || decide (txtype = .readWrite) }
    match m.first with
    | none =>
        some { m' with
          txs := Function.update m.txs tx
            (some ⟨m.nextId, version, m.lastWriteCommittedId, txtype, none, none⟩)
          first := some tx
          last := some tx }
    | some first => do
        let oldest ← m.txs first
        let last ← m.last
        let m' := { m' with
          txs := Function.update m.txs tx
            (some ⟨m.nextId, version, oldest.txversion, txtype, none, some last⟩) }
        let m' ← m'.setNext (some last) (some tx)
        some { m' with last := some tx }

/-- `fdb_tx_commit`. -/
def commit (m : Manager) (tx : ℕ) : Option Manager := do
  let t ← m.txs tx
  let m ← m.setNext t.prev t.next
  let m ← m.setPrev t.next t.prev
  let committed :=
    if t.txType = .readWrite ∧ t.id > m.lastWriteCommittedId then t.id
    else m.lastWriteCommittedId
  some {
    txs := Function.update m.txs tx (some { t with next := none, prev := none })
    first := if m.first = some tx then t.next else m.first
    last := if m.last = some tx then t.prev else m.last
    nextId := m.nextId
    lastWriteCommittedId := committed
    writeRunning := m.writeRunning && decide (t.txType = .readOnly) }

/-- The version below which nothing is visible any more: that of the first
transaction of the list, or the last committed one. -/
def oldestRunningVersion (m : Manager) : Option ℕ :=
  match m.first with
  | some first => (m.txs first).map (·.txversion)
  | none => some m.lastWriteCommittedId

end Manager

end Furious
