import Furious.Tx.Manager
import Furious.Library.Pool

/-!
The transactional pool.

A reference points to a root block; newer versions hang off the root, the newest
first. A block carries the version of the transaction that made it and a data
block, or none if that transaction freed the reference. Versions nobody can read
are discarded, and a lone old version is folded into the root, by a collector
that writers run on every reference they touch and that a thread context runs on
its list of garbage entries.

* `Block`, `Txpool`, `Garbage`, `Ctx`: the records;
* `Txpool.gc`: `fdb_txpool_alloc_gc`, in the three parts of its body;
* `Txpool.alloc`, `Txpool.ptr`, `Txpool.free`: the operations on references;
* `Ctx.gc`: the loop of `fdb_txthread_ctx_gc`.

A null pointer or a vacant block that the code would read, write or release is a
fault: the operation has no result. The contents of a data block are a value of
an arbitrary type.
-/

namespace Furious

variable {α : Type}

/-! ### The data -/

/-- A version of a reference (`fdb_txpool_alloc_block_t`). -/
structure Block where
  ts : ℕ
  data : Option ℕ
  nextVersion : Option ℕ
deriving DecidableEq, Repr

/-- The pools of data blocks and of version blocks (`fdb_txpool_alloc_t`). -/
structure Txpool (α : Type) where
  dataPalloc : Pool α
  blockPalloc : Pool Block

/-- An entry of a garbage list (`fdb_txgarbage_t`). -/
structure Garbage where
  block : ℕ
  next : Option ℕ
  prev : Option ℕ
deriving DecidableEq, Repr

/-- A thread context (`fdb_txthread_ctx_t`). -/
structure Ctx where
  palloc : Pool Garbage
  first : Option ℕ

/-- A context without garbage. -/
def Ctx.init : Ctx := ⟨Pool.empty, none⟩

/-- A pool without blocks. -/
def Txpool.init : Txpool α := ⟨Pool.empty, Pool.empty⟩

/-- Assigns `p_next` of the entry, if there is one. -/
def setNext (palloc : Pool Garbage) (entry next : Option ℕ) : Option (Pool Garbage) :=
  match entry with
  | none => some palloc
  | some e => do
      let g ← palloc.get e
      palloc.put e { g with next := next }

/-- Assigns `p_prev` of the entry, if there is one. -/
def setPrev (palloc : Pool Garbage) (entry prev : Option ℕ) : Option (Pool Garbage) :=
  match entry with
  | none => some palloc
  | some e => do
      let g ← palloc.get e
      palloc.put e { g with prev := prev }

/-- `fdb_txthread_ctx_add_entry`: the block enters the list in front. -/
def Ctx.addEntry (ctx : Ctx) (block : ℕ) : Option Ctx := do
  let (entry, palloc) := ctx.palloc.alloc ⟨block, ctx.first, none⟩
  let palloc ← setPrev palloc ctx.first (some entry)
  some ⟨palloc, some entry⟩

namespace Txpool

/-! ### Walks along the versions -/

/-- A walk visits every block at most once. -/
def fuel (p : Txpool α) : ℕ := p.blockPalloc.cells.length + 1

/-- The loop that skips the versions newer than `version`. -/
def findVersion (p : Txpool α) (version : ℕ) : ℕ → Option ℕ → Option (Option ℕ)
  | _, none => some none
  | 0, some _ => none
  | fuel + 1, some candidate => do
      let b ← p.blockPalloc.get candidate
      if b.ts > version then p.findVersion version fuel b.nextVersion
      else some (some candidate)

/-- The loop that releases the data blocks and headers of a chain. -/
def freeVersions : ℕ → Option ℕ → Txpool α → Option (Txpool α)
  | _, none, p => some p
  | 0, some _, _ => none
  | fuel + 1, some next, p => do
      let b ← p.blockPalloc.get next
      let dataPalloc ← match b.data with
        | some data => p.dataPalloc.release data
        | none => some p.dataPalloc
      let blockPalloc ← p.blockPalloc.release next
      freeVersions fuel b.nextVersion ⟨dataPalloc, blockPalloc⟩

/-! ### Collection -/

/-- First part of the collector: the versions behind the youngest one with a
timestamp up to `orv` are released. -/
def cutVersions (p : Txpool α) (orv root : ℕ) : Option (Txpool α) := do
  let r ← p.blockPalloc.get root
  let candidate ← p.findVersion orv p.fuel r.nextVersion
  match candidate with
  | none => some p
  | some c => do
      let b ← p.blockPalloc.get c
      let blockPalloc ← p.blockPalloc.put c { b with nextVersion := none }
      freeVersions p.fuel b.nextVersion { p with blockPalloc := blockPalloc }

/-- The data of a root into which a version is folded: a copy of the version's
data, in the block the root has or in a new one, or none if the version has
none. -/
def foldData (p : Txpool α) (rootData youngestData : Option ℕ) : Option (Option ℕ × Pool α) :=
  match youngestData with
  | some yd => do
      let x ← p.dataPalloc.get yd
      match rootData with
      | some rd => do
          let dataPalloc ← p.dataPalloc.put rd x
          some (some rd, dataPalloc)
      | none => do
          let (rd, dataPalloc) := p.dataPalloc.alloc x
          let dataPalloc ← dataPalloc.put rd x
          some (some rd, dataPalloc)
  | none => do
      let rd ← rootData
      let dataPalloc ← p.dataPalloc.release rd
      some (none, dataPalloc)

/-- Second part: a single version up to `orv` is folded into the root, and its
block becomes garbage. -/
def foldYoungest (p : Txpool α) (ctx : Ctx) (orv root : ℕ) : Option (Txpool α × Ctx) := do
  let r ← p.blockPalloc.get root
  match r.nextVersion with
  | none => some (p, ctx)
  | some youngest => do
      let y ← p.blockPalloc.get youngest
      if y.nextVersion = none ∧ y.ts ≤ orv then do
        let (data, dataPalloc) ← p.foldData r.data y.data
        let blockPalloc ← p.blockPalloc.put root ⟨y.ts, data, none⟩
        let ctx ← ctx.addEntry youngest
        some (⟨dataPalloc, blockPalloc⟩, ctx)
      else some (p, ctx)

/-- Third part: a root that holds nothing and is older than `orv` is released. -/
def collectRoot (p : Txpool α) (orv root : ℕ) : Option (Txpool α × Bool) := do
  let r ← p.blockPalloc.get root
  if r.data = none ∧ r.nextVersion = none ∧ r.ts < orv then do
    let blockPalloc ← p.blockPalloc.release root
    some ({ p with blockPalloc := blockPalloc }, true)
  else some (p, false)

/-- `fdb_txpool_alloc_gc`. -/
def gc (p : Txpool α) (ctx : Ctx) (orv root : ℕ) (force : Bool) :
    Option (Txpool α × Ctx × Bool) :=
  if force then do
    let p ← freeVersions p.fuel (some root) p
    some (p, ctx, true)
  else do
    let p ← p.cutVersions orv root
    let (p, ctx) ← p.foldYoungest ctx orv root
    let (p, gced) ← p.collectRoot orv root
    some (p, ctx, gced)

/-! ### Operations on references -/

/-- `fdb_txpool_alloc_alloc` on a null reference: a root without data and a first
version. The new data block holds whatever `x` its memory held. -/
def alloc (p : Txpool α) (tx : Tx) (x : α) : Option (Txpool α × ℕ) := do
  let (main, blockPalloc) := p.blockPalloc.alloc ⟨0, none, none⟩
  let (data, dataPalloc) := p.dataPalloc.alloc x
  let (newBlock, blockPalloc) := blockPalloc.alloc ⟨tx.txversion, some data, none⟩
  let blockPalloc ← blockPalloc.put main ⟨0, none, some newBlock⟩
  some (⟨dataPalloc, blockPalloc⟩, main)

/-- `fdb_txpool_alloc_free` on the reference with root `main`. -/
def free (p : Txpool α) (tx : Tx) (ctx : Ctx) (main : ℕ) : Option (Txpool α × Ctx) := do
  let (p, ctx, _) ← p.gc ctx tx.ortxversion main false
  let r ← p.blockPalloc.get main
  let candidate := r.nextVersion.getD main
  let b ← p.blockPalloc.get candidate
  let p ←
    if b.ts ≤ tx.ortxversion then do
      let (newBlock, blockPalloc) := p.blockPalloc.alloc
        ⟨tx.txversion, none, if candidate ≠ main then b.nextVersion else none⟩
      let r ← blockPalloc.get main
      let blockPalloc ← blockPalloc.put main { r with nextVersion := some newBlock }
      some { p with blockPalloc := blockPalloc }
    else do
      let data ← b.data
      let dataPalloc ← p.dataPalloc.release data
      let blockPalloc ← p.blockPalloc.put candidate { b with data := none }
      some ⟨dataPalloc, blockPalloc⟩
  let ctx ← ctx.addEntry main
  some (p, ctx)

/-- `fdb_txpool_alloc_ptr` on the reference with root `main`: the address of the
data the transaction sees, a fresh copy if it writes an older version. -/
def ptr (p : Txpool α) (tx : Tx) (ctx : Ctx) (main : ℕ) (write : Bool) :
    Option (Txpool α × Ctx × Option ℕ) := do
  let (p, ctx, _) ←
    if tx.txType = .readWrite then p.gc ctx tx.ortxversion main false
    else some (p, ctx, false)
  let r ← p.blockPalloc.get main
  let found ← p.findVersion tx.txversion p.fuel r.nextVersion
  let candidate := found.getD main
  let b ← p.blockPalloc.get candidate
  if tx.txType = .readWrite ∧ write = true ∧ b.ts < tx.txversion then do
    let data ← b.data
    let x ← p.dataPalloc.get data
    let (newData, dataPalloc) := p.dataPalloc.alloc x
    let (newBlock, blockPalloc) := p.blockPalloc.alloc
      ⟨tx.txversion, some newData, if candidate ≠ main then some candidate else none⟩
    let r ← blockPalloc.get main
    let blockPalloc ← blockPalloc.put main { r with nextVersion := some newBlock }
    some (⟨dataPalloc, blockPalloc⟩, ctx, some newData)
  else some (p, ctx, b.data)

end Txpool

/-! ### Collection of a context -/

namespace Ctx

/-- Takes an entry out of the list and releases it. -/
def removeEntry (ctx : Ctx) (garbage : ℕ) : Option Ctx := do
  let g ← ctx.palloc.get garbage
  let first := if ctx.first = some garbage then g.next else ctx.first
  let palloc ← setNext ctx.palloc g.prev g.next
  let palloc ← setPrev palloc g.next g.prev
  let palloc ← palloc.release garbage
  some ⟨palloc, first⟩

/-- The loop of `fdb_txthread_ctx_gc`; the flag is `all_freed`. -/
def gcLoop (orv : ℕ) (force : Bool) : ℕ → Option ℕ → Txpool α → Ctx → Bool →
    Option (Txpool α × Ctx × Bool)
  | _, none, p, ctx, allFreed => some (p, ctx, allFreed)
  | 0, some _, _, _, _ => none
  | fuel + 1, some garbage, p, ctx, allFreed => do
      let g ← ctx.palloc.get garbage
      let (p, ctx, gced) ← p.gc ctx orv g.block force
      let g ← ctx.palloc.get garbage
      if gced then do
        let ctx ← ctx.removeEntry garbage
        gcLoop orv force fuel g.next p ctx allFreed
      else gcLoop orv force fuel g.next p ctx false

/-- `fdb_txthread_ctx_gc` with the cut-off `orv`. -/
def gc (ctx : Ctx) (p : Txpool α) (orv : ℕ) (force : Bool) : Option (Txpool α × Ctx × Bool) :=
  gcLoop orv force (ctx.palloc.cells.length + 1) ctx.first p ctx true

end Ctx

end Furious
