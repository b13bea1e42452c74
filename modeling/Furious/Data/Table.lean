import Furious.BTree.Dictionary
import Furious.Data.Bitmap
import Furious.Data.PoolAllocator

/-!
Tables.

A table holds components by the ids of entities. Ids are cut into blocks of 256; a
block has the data of its components one after the other and says in two bitmaps
which of them exist and which are enabled. Blocks are created on demand and found
through a B-tree.

* `TableBlock`, `Table`: the records;
* `Table.getComponent`, `Table.createComponent`, `Table.destroyComponent`,
  `Table.enableComponent`, `Table.disableComponent`, `Table.clear`, `Table.release`:
  the operations;
* `TableBlock.components`: what `fdb_tblock_iter` goes through;
* `TableIter`: the iterator over the blocks, which takes every `stride`-th chunk.

A failing `assert` is a fault, as is the use of a block that is not there. The calls
of the destructor are recorded; memory is the contents of the data pool. Counters
have 64 bits, ids and block ids 32.
-/

namespace Furious

/-- `FDB_INVALID_ID`. -/
abbrev invalidId : ℕ := 0xffffffff

/-- `FDB_TABLE_BLOCK_SIZE`. -/
abbrev tableBlockSize : ℕ := 256

/-- `FDB_INVALID_BLOCK_START`. -/
abbrev invalidBlockStart : ℕ := 0xffffffff

/-- `FDB_TABLE_BLOCK_DATA_ALIGNMENT`. -/
abbrev tableBlockDataAlignment : ℕ := 64

/-- `FDB_TABLE_BLOCK_DATA_PAGE_SIZE`. -/
abbrev tableBlockDataPageSize : ℕ := 64 * 1024

/-- `++` on a 64 bit counter. -/
def increment (n : ℕ) : ℕ := (n + 1) % 2 ^ 64

/-- `--` on a 64 bit counter. -/
def decrement (n : ℕ) : ℕ := (n + (2 ^ 64 - 1)) % 2 ^ 64

/-- `decode_id`: the block and the place in it. -/
def decodeId (id : ℕ) : Option (ℕ × ℕ) :=
  if id ≠ invalidId then some (id / tableBlockSize, id % tableBlockSize) else none

/-! ### Blocks -/

/-- `fdb_table_block_t`. -/
structure TableBlock where
  data : Address
  start : ℕ
  numComponents : ℕ
  numEnabledComponents : ℕ
  esize : ℕ
  existing : Bitmap
  enabled : Bitmap

namespace TableBlock

/-- `fdb_table_block_init`, with the memory for the data. -/
def init (data : Address) (start esize : ℕ) : TableBlock where
  data := data
  start := start
  numComponents := 0
  numEnabledComponents := 0
  esize := esize
  existing := Bitmap.init tableBlockSize
  enabled := Bitmap.init tableBlockSize

/-- What `fdb_table_create_component` does to a block. -/
def create (block : TableBlock) (offset : ℕ) : Option TableBlock := do
  let isSet ← block.existing.isSet offset
  let existing ← block.existing.set offset
  let enabled ← block.enabled.set offset
  some { block with
    numComponents := if isSet then block.numComponents else increment block.numComponents
    numEnabledComponents :=
      if isSet then block.numEnabledComponents else increment block.numEnabledComponents
    existing := existing
    enabled := enabled }

/-- What `fdb_table_destroy_component` does to a block. -/
def destroy (block : TableBlock) (offset : ℕ) : Option TableBlock := do
  let isSet ← block.existing.isSet offset
  let existing ← block.existing.unset offset
  let enabled ← block.enabled.unset offset
  some { block with
    numComponents := if isSet then decrement block.numComponents else block.numComponents
    numEnabledComponents :=
      if isSet then decrement block.numEnabledComponents else block.numEnabledComponents
    existing := existing
    enabled := enabled }

/-- What `fdb_table_enable_component` does to a block. -/
def enable (block : TableBlock) (offset : ℕ) : Option TableBlock := do
  let enabled ← block.enabled.set offset
  some { block with
    numEnabledComponents := increment block.numEnabledComponents
    enabled := enabled }

/-- What `fdb_table_disable_component` does to a block. -/
def disable (block : TableBlock) (offset : ℕ) : Option TableBlock := do
  let enabled ← block.enabled.unset offset
  some { block with
    numEnabledComponents := decrement block.numEnabledComponents
    enabled := enabled }

/-- `fdb_table_block_get_component`: the pointer of the row, null if the component is not
enabled. -/
def getComponent (block : TableBlock) (id : ℕ) : Option (Option Address) := do
  let (_, offset) ← decodeId id
  if block.start = id / tableBlockSize * tableBlockSize then do
    let isSet ← block.enabled.isSet offset
    some (if isSet then some (block.data.add (offset * block.esize)) else none)
  else none

/-- `fdb_table_block_has_component`. -/
def hasComponent (block : TableBlock) (id : ℕ) : Option Bool := (block.getComponent id).map Option.isSome

/-- The loop of `fdb_tblock_iter_init` and `fdb_tblock_iter_next`: the next position of a
component, of which `remaining` are left. -/
def skip (block : TableBlock) : ℕ → ℕ → Option ℕ
  | 0, position => some position
  | remaining + 1, position => do
      let found ← block.hasComponent (block.start + position)
      if found = true then some position else skip block remaining (position + 1)

/-- The pointers that `fdb_tblock_iter_next` gives from a position on, while
`fdb_tblock_iter_has_next` says that there is a next one. -/
def componentsFrom (block : TableBlock) : ℕ → ℕ → Option (List Address)
  | 0, _ => none
  | fuel + 1, position =>
      if position < tableBlockSize then do
        let ptr ← (block.getComponent (block.start + position)).join
        let next ← block.skip (tableBlockSize - (position + 1)) (position + 1)
        let rest ← componentsFrom block fuel next
        some (ptr :: rest)
      else some []

/-- A whole iteration over a block. -/
def components (block : TableBlock) : Option (List Address) := do
  let first ← block.skip tableBlockSize 0
  block.componentsFrom (tableBlockSize + 1) first

end TableBlock

/-! ### The table -/

/-- `fdb_table_t`, with the contents of its memory and the calls of the destructor. -/
structure Table where
  esize : ℕ
  blocks : BTree ℕ
  numComponents : ℕ
  destructor : Bool
  tblockAllocator : Pool TableBlock
  dataAllocator : PoolAlloc
  memory : Address → UInt8
  destroyed : List Address

/-- `is_selected`, in 32 bit arithmetic. -/
def isSelected (chunkId chunkSize offset stride : ℕ) : Bool :=
  (chunkId / chunkSize + (stride + 2 ^ 32 - offset) % 2 ^ 32) % 2 ^ 32 % stride == 0

/-- `block_get_offset`. -/
def blockGetOffset (blockId chunkSize stride : ℕ) : ℕ := blockId / chunkSize % stride

/-- `fdb_table_iter_t`. -/
structure TableIter where
  it : Iter
  chunkSize : ℕ
  offset : ℕ
  stride : ℕ
  next : Option ℕ
deriving DecidableEq, Repr

namespace TableIter

/-- `fdb_table_iter_init`. -/
def init (t : Table) (chunkSize offset stride : ℕ) : Option TableIter := do
  let it ← t.blocks.iterInit
  some ⟨it, chunkSize, offset, stride, none⟩

/-- `fdb_table_iter_has_next`: looks for the next selected block, in at most `fuel` steps. -/
def hasNext (t : Table) : ℕ → TableIter → Option (Bool × TableIter)
  | 0, _ => none
  | fuel + 1, iter => do
      let more ← iter.it.hasNext t.blocks.nodes
      if more = true ∧ iter.next = none then do
        let ((key, value), it) ← iter.it.next t.blocks.nodes
        if isSelected key iter.chunkSize iter.offset iter.stride = true then
          some (value.isSome, { iter with it := it, next := value })
        else hasNext t fuel { iter with it := it, next := none }
      else some (iter.next.isSome, iter)

/-- The loop of `fdb_table_iter_next`. -/
def scan (t : Table) : ℕ → TableIter → Option (Option ℕ × TableIter)
  | 0, _ => none
  | fuel + 1, iter => do
      let ((_, value), it) ← iter.it.next t.blocks.nodes
      match value with
      | none => some (none, { iter with it := it })
      | some p => do
          let block ← t.tblockAllocator.get p
          if isSelected (block.start / tableBlockSize) iter.chunkSize iter.offset iter.stride = true then
            some (some p, { iter with it := it })
          else scan t fuel { iter with it := it }

/-- `fdb_table_iter_next`. -/
def nextBlock (t : Table) (fuel : ℕ) (iter : TableIter) : Option (Option ℕ × TableIter) :=
  match iter.next with
  | some p => some (some p, { iter with next := none })
  | none => iter.scan t fuel

end TableIter

namespace Table

/-- `fdb_table_init`. -/
def init (esize : ℕ) (destructor : Bool) (memory : Address → UInt8) : Table where
  esize := esize
  blocks := BTree.init
  numComponents := 0
  destructor := destructor
  tblockAllocator := Pool.empty
  dataAllocator :=
    PoolAlloc.init tableBlockDataAlignment (esize * tableBlockSize % 2 ^ 32) tableBlockDataPageSize
  memory := memory
  destroyed := []

/-- `memset` of a component to zero. -/
def memset (memory : Address → UInt8) (ptr : Address) (n : ℕ) : Address → UInt8 := fun a =>
  if a.page = ptr.page ∧ ptr.offset ≤ a.offset ∧ a.offset < ptr.offset + n then 0 else memory a

/-- `fdb_table_get_block`: the pointer to a block. -/
def getBlock (t : Table) (blockId : ℕ) : Option (Option ℕ) := t.blocks.get blockId

/-- `fdb_table_get_component`. -/
def getComponent (t : Table) (id : ℕ) : Option (Option Address) := do
  let (blockId, offset) ← decodeId id
  match ← t.blocks.get blockId with
  | none => some none
  | some p => do
      let block ← t.tblockAllocator.get p
      let isSet ← block.existing.isSet offset
      some (if isSet then some (block.data.add (offset * t.esize)) else none)

/-- `fdb_table_is_enabled`. -/
def isEnabled (t : Table) (id : ℕ) : Option Bool := do
  let (blockId, offset) ← decodeId id
  match ← t.blocks.get blockId with
  | none => some false
  | some p => do
      let block ← t.tblockAllocator.get p
      block.enabled.isSet offset

/-- The first part of `fdb_table_create_component`: a missing block is created. -/
def createBlock (t : Table) (blockId : ℕ) : Option (Table × ℕ) := do
  match ← t.blocks.get blockId with
  | some p => some (t, p)
  | none => do
      let (data, dataAllocator) := t.dataAllocator.alloc
      let (p, tblockAllocator) :=
        t.tblockAllocator.alloc (TableBlock.init data (blockId * tableBlockSize) t.esize)
      let (blocks, _) ← t.blocks.insert blockId p
      some ({ t with
        blocks := blocks
        tblockAllocator := tblockAllocator
        dataAllocator := dataAllocator }, p)

/-- `fdb_table_create_component`. -/
def createComponent (t : Table) (id : ℕ) : Option (Table × Address) := do
  let (blockId, offset) ← decodeId id
  let (t, p) ← t.createBlock blockId
  let block ← t.tblockAllocator.get p
  let isSet ← block.existing.isSet offset
  let block ← block.create offset
  let tblockAllocator ← t.tblockAllocator.put p block
  some ({ t with
    numComponents := if isSet then t.numComponents else increment t.numComponents
    tblockAllocator := tblockAllocator }, block.data.add (offset * t.esize))

/-- `fdb_table_destroy_component`. -/
def destroyComponent (t : Table) (id : ℕ) : Option Table := do
  let (blockId, offset) ← decodeId id
  match ← t.blocks.get blockId with
  | none => some t
  | some p => do
      let block ← t.tblockAllocator.get p
      let isSet ← block.existing.isSet offset
      let block ← block.destroy offset
      let tblockAllocator ← t.tblockAllocator.put p block
      let ptr := block.data.add (offset * t.esize)
      some { t with
        numComponents := if isSet then decrement t.numComponents else t.numComponents
        tblockAllocator := tblockAllocator
        memory := memset t.memory ptr t.esize
        destroyed := if t.destructor then t.destroyed ++ [ptr] else t.destroyed }

/-- What `fdb_table_enable_component` and `fdb_table_disable_component` have in common: the
block of the id is changed, if there is one. -/
def changeBlock (t : Table) (id : ℕ) (change : TableBlock → ℕ → Option TableBlock) : Option Table := do
  let (blockId, offset) ← decodeId id
  match ← t.blocks.get blockId with
  | none => some t
  | some p => do
      let block ← t.tblockAllocator.get p
      let block ← change block offset
      let tblockAllocator ← t.tblockAllocator.put p block
      some { t with tblockAllocator := tblockAllocator }

/-- `fdb_table_enable_component`. -/
def enableComponent (t : Table) (id : ℕ) : Option Table := t.changeBlock id TableBlock.enable

/-- `fdb_table_disable_component`. -/
def disableComponent (t : Table) (id : ℕ) : Option Table := t.changeBlock id TableBlock.disable

/-- The body of the loop of `fdb_table_clear`: the destructor is called on the components
that the iterator of the block finds, and the block is released. -/
def releaseBlock (t : Table) (p : ℕ) : Option Table := do
  let block ← t.tblockAllocator.get p
  let calls ← if t.destructor then block.components else some []
  let tblockAllocator ← t.tblockAllocator.release p
  some { t with
    tblockAllocator := tblockAllocator
    dataAllocator := t.dataAllocator.free block.data
    destroyed := t.destroyed ++ calls }

/-- The loop of `fdb_table_clear`. -/
def clearBlocks : ℕ → Table → TableIter → Option Table
  | 0, _, _ => none
  | fuel + 1, t, iter => do
      let (more, iter) ← iter.hasNext t (t.blocks.size + 1)
      if more = true then do
        let (p, iter) ← iter.nextBlock t (t.blocks.size + 1)
        let p ← p
        let t ← t.releaseBlock p
        clearBlocks fuel t iter
      else some t

/-- `fdb_table_clear`. -/
def clear (t : Table) : Option Table := do
  let iter ← TableIter.init t 1 0 1
  let t ← clearBlocks (t.blocks.size + 1) t iter
  let blocks ← t.blocks.clear
  some { t with blocks := blocks, numComponents := 0 }

/-- `fdb_table_release`: the calls of the destructor at the end. -/
def release (t : Table) : Option (List Address) := do
  let t ← t.clear
  let _ ← t.blocks.release
  some t.destroyed

end Table

end Furious
