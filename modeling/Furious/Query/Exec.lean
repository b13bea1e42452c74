import Furious.Compiler.OperatorTree
import Furious.Data.Gather
import Furious.Data.Reftable

/-!
The code that is generated for a subplan, when it runs.

The code of a leaf goes through a table, or fetches a global, and in the middle of it stands the code by
which the operators above consume a cluster. The joins keep clusters in hash tables, that are variables of
the task; a task goes through the part of the tables that its thread is given.

* `QueryDb`: the variables of the generated code that belong to the database;
* `Data`, `Arg`: what the code reads of a column, and the parameters of a function;
* `filterBittable`, `tagFilter`, `predicateFilter`, `foreachCalls`: the bodies of `consume_tag_filter` and its
  like;
* `TaskState`: the hash tables and the calls of the system;
* `Exec.consume`, `Exec.produce`: what the code that `consume` and `produce` print does; `runTask`: a task.

The code of the two gathers is for all threads together and is not in here. The clusters are freed with
the allocator of the task, which is left out.
-/

namespace Furious

/-! ### The database -/

/-- A parameter of a filter function or of a system. -/
inductive Arg where
  | component (ptr : Address)
  | global (ptr : ℕ)
deriving DecidableEq, Repr

/-- The tables, bittables and globals of the generated code, by what they are named after, and what the filter
functions return. -/
structure QueryDb where
  tables : FccType → Table
  refs : String → Reftable
  tags : String → Bittable
  globals : FccType → Option ℕ
  predicates : FccDecl → List Arg → Bool

namespace QueryDb

/-- The table of a scan. -/
def tableOf (db : QueryDb) (col : FccColumn) : Table :=
  if col.type = .component then db.tables col.componentType else (db.refs col.refName).table

end QueryDb

/-- What is read of a column before a loop over its rows: `data_0` and its like. -/
inductive Data where
  | block (data : Address) (esize : ℕ)
  | global (ptr : ℕ)

/-- `&data_0[i]` for a component, `data_0` for a global. -/
def Data.arg (i : ℕ) : Data → Arg
  | block data esize => .component (data.add (i * esize))
  | global ptr => .global ptr

namespace QueryDb

variable (db : QueryDb)

/-- The data of a column of a cluster. -/
def columnData (source : BCluster) (col : FccColumn) (index : ℕ) : Option Data :=
  match col.type with
  | .component => do
      let p ← (← source.getTblock index)
      let block ← (db.tables col.componentType).tblockAllocator.get p
      some (.block block.data (db.tables col.componentType).esize)
  | .global => do
      let p ← (← source.getGlobal index)
      some (.global p)
  -- only what is gathered consists of references, and ids are not read here
  | .id | .reference => none

/-- The data of all columns of a cluster. -/
def columnsData (source : BCluster) (cols : List FccColumn) : Option (List Data) :=
  cols.zipIdx.mapM fun col => db.columnData source col.1 col.2

/-! ### Filters -/

/-- What `filter_bittable_exists` and `filter_bittable_not_exists` have in common: a row stays enabled if
`expected` says whether the id in its column is in the bittable. -/
def filterBittable (expected : Bool) (refs : Table) (bittable : Bittable) (source : BCluster) (column : ℕ) :
    Option BCluster :=
  (List.range tableBlockSize).foldlM (fun source i => do
    let isSet ← source.enabled.isSet i
    if isSet = true then do
      let p ← (← source.getTblock column)
      let block ← refs.tblockAllocator.get p
      let id := refs.load Reftable.entityIdSize (block.data.add (i * Reftable.entityIdSize))
      let exists_ ← bittable.existsId id
      if exists_ = expected then some source else do
        let enabled ← source.enabled.unset i
        some { source with enabled := enabled }
    else some source) source

/-- `filter_bittable_exists`. -/
def filterBittableExists : Table → Bittable → BCluster → ℕ → Option BCluster := filterBittable true

/-- `filter_bittable_not_exists`. -/
def filterBittableNotExists : Table → Bittable → BCluster → ℕ → Option BCluster := filterBittable false

/-- The code of a tag filter on entities: `fdb_bitmap_set_and` with the bitmap of the block, or with its
complement. -/
def filterBitmap (opType : FilterOpType) (bittable : Bittable) (source : BCluster) : Option BCluster := do
  let filter ← bittable.getBitmap source.start
  match opType with
  | .has => do
      let enabled ← match filter with
        | some filter => source.enabled.setAnd filter
        | none => some source.enabled.nullify
      some { source with enabled := enabled }
  | .hasNot => do
      let negate ← match filter with
        | some filter => (Bitmap.init tableBlockSize).setBitmap filter
        | none => some (Bitmap.init tableBlockSize)
      let enabled ← source.enabled.setAnd negate.negate
      some { source with enabled := enabled }

/-- The code of a tag filter. -/
def tagFilter (tag : String) (opType : FilterOpType) (onColumn : Bool) (cols : List FccColumn) (source : BCluster) :
    Option BCluster :=
  if onColumn = true then do
    let col ← cols.head?
    match opType with
    | .has => filterBittableExists (db.refs col.refName).table (db.tags tag) source 0
    | .hasNot => filterBittableNotExists (db.refs col.refName).table (db.tags tag) source 0
  else filterBitmap opType (db.tags tag) source

/-- The code of a predicate filter; its loop ends when no row is enabled. -/
def predicateFilter (funcDecl : FccDecl) (cols : List FccColumn) (source : BCluster) : Option BCluster := do
  let data ← db.columnsData source cols
  (List.range tableBlockSize).foldlM (fun source i =>
    if source.enabled.numSet ≠ 0 then do
      let isSet ← source.enabled.isSet i
      let enabled ← source.enabled.setBit i (isSet && db.predicates funcDecl (data.map (Data.arg i)))
      some { source with enabled := enabled }
    else some source) source

end QueryDb

/-! ### The system -/

/-- A call of the `run` of a system. -/
structure SystemCall where
  entity : ℕ
  args : List Arg
deriving DecidableEq, Repr

/-- The columns of a foreach are globals. -/
def allGlobals (cols : List FccColumn) : Bool := cols.all fun col => col.type = .global

/-- The calls that the code of a foreach makes for a cluster. -/
def QueryDb.foreachCalls (db : QueryDb) (cols : List FccColumn) (source : BCluster) : Option (List SystemCall) := do
  let data ← db.columnsData source cols
  let call := fun i => (⟨source.start + i, data.map (Data.arg i)⟩ : SystemCall)
  if allGlobals cols then some [⟨0, data.map (Data.arg 0)⟩]
  else if source.enabled.numSet = tableBlockSize then some ((List.range tableBlockSize).map call)
  else
    (List.range tableBlockSize).foldlM (fun calls i => do
      let isSet ← source.enabled.isSet i
      if isSet = true then some (calls ++ [call i]) else some calls) []

/-! ### A task -/

/-- The hash tables of the operators, of which a cross join has two, and the calls of the system. -/
structure TaskState where
  hashTables : ℕ → Bool → BTree BCluster
  calls : List SystemCall

/-- The side of the hash table of a join, and of the first one of a cross join. -/
abbrev leftSide : Bool := false

/-- The side of the second hash table of a cross join. -/
abbrev rightSide : Bool := true

namespace TaskState

def init : TaskState := ⟨fun _ _ => BTree.init, []⟩

/-- A hash table changes. -/
def setHashTable (st : TaskState) (id : ℕ) (side : Bool) (hashTable : BTree BCluster) : TaskState :=
  { st with hashTables := Function.update st.hashTables id (Function.update (st.hashTables id) side hashTable) }

/-- A copy of a cluster is inserted in a hash table. -/
def insert (st : TaskState) (id : ℕ) (side : Bool) (source : BCluster) : Option TaskState := do
  let cluster ← BCluster.init.appendCluster source
  let (hashTable, _) ← (st.hashTables id side).insert (source.start / tableBlockSize) cluster
  some (st.setHashTable id side hashTable)

/-- The clusters of a hash table, as its iterator gives them. -/
def clusters (st : TaskState) (id : ℕ) (side : Bool) : Option (List BCluster) := do
  let entries ← (st.hashTables id side).entries ((st.hashTables id side).size + 1)
  entries.mapM Prod.snd

/-- The clusters of a hash table are freed, and the hash table is released. -/
def release (st : TaskState) (id : ℕ) (side : Bool) : Option TaskState := do
  let _ ← st.clusters id side
  let _ ← (st.hashTables id side).release
  some st

end TaskState

/-- The part of the tables that a thread is given. -/
structure Thread where
  chunkSize : ℕ
  offset : ℕ
  stride : ℕ

/-- A thread that is alone. -/
def Thread.single : Thread := ⟨1, 0, 1⟩

namespace Exec

variable (db : QueryDb) (nodes : List Operator)

/-- What the code that `consume` prints does with a cluster. -/
def consume : ℕ → ℕ → BCluster → ℕ → TaskState → Option TaskState
  | 0, _, _, _, _ => none
  | depth + 1, id, source, caller, st => do
      let op ← nodes[id]?
      match op.body with
      -- `consume_scan`, `consume_fetch`
      | .leaf _ => some st
      | .unary (.foreach _) _ => do
          let calls ← db.foreachCalls op.value source
          let st := { st with calls := st.calls ++ calls }
          if op.parent ≠ fccInvalidId then consume depth op.parent source id st else some st
      | .unary (.tagFilter tag opType onColumn) _ => do
          let source ← db.tagFilter tag opType onColumn op.value source
          if source.enabled.numSet ≠ 0 then consume depth op.parent source id st else some st
      | .unary (.predicateFilter funcDecl) _ => do
          let source ← db.predicateFilter funcDecl op.value source
          if source.enabled.numSet ≠ 0 then consume depth op.parent source id st else some st
      -- there is no code for a component filter
      | .unary (.componentFilter _ _ _) _ => none
      | .binary .join left _ =>
          if caller = left then st.insert id leftSide source
          else do
            match ← (st.hashTables id leftSide).get (source.start / tableBlockSize) with
            | none => some st
            | some build => do
                let cluster ← BCluster.init.appendCluster build
                let cluster ← cluster.appendCluster source
                if cluster.enabled.numSet ≠ 0 then consume depth op.parent cluster id st else some st
      | .binary .leftFilterJoin left _ =>
          if caller = left then st.insert id leftSide source
          else do
            match ← (st.hashTables id leftSide).get (source.start / tableBlockSize) with
            | none => some st
            | some build => do
                let cluster ← BCluster.init.appendCluster build
                let cluster ← cluster.filter source
                if cluster.enabled.numSet ≠ 0 then consume depth op.parent cluster id st else some st
      | .binary .crossJoin left _ =>
          if caller = left then st.insert id leftSide source else st.insert id rightSide source
      | .binary .gather _ _ | .binary .cascadingGather _ _ => none

/-- What the code that `produce` prints does. -/
def produce (thread : Thread) : ℕ → ℕ → Bool → TaskState → Option TaskState
  | 0, _, _, _ => none
  | depth + 1, id, parallelStream, st => do
      let op ← nodes[id]?
      match op.body with
      | .leaf .scan => do
          let col ← op.value.head?
          let t := db.tableOf col
          let iter ← if parallelStream = true then
              TableIter.init t thread.chunkSize thread.offset thread.stride
            else TableIter.init t 1 0 1
          iter.forEach t (t.blocks.size + 1) (fun st p => do
            let block ← t.tblockAllocator.get p
            let cluster ← BCluster.init.appendBlock p block
            consume db nodes depth op.parent cluster id st) (t.blocks.size + 1) st
      | .leaf .fetch => do
          let col ← op.value.head?
          match db.globals col.componentType with
          | none => some st
          | some global => do
              let cluster ← BCluster.init.appendGlobal global
              consume db nodes depth op.parent cluster id st
      | .unary (.foreach _) child =>
          -- the thread id is the offset
          if allGlobals op.value = true ∧ thread.offset ≠ 0 then some st
          else produce thread depth child true st
      | .unary _ child => produce thread depth child parallelStream st
      | .binary .join left right | .binary .leftFilterJoin left right => do
          let st := st.setHashTable id leftSide BTree.init
          let st ← produce thread depth left parallelStream st
          let st ← produce thread depth right parallelStream st
          st.release id leftSide
      | .binary .crossJoin left right => do
          let st := st.setHashTable id leftSide BTree.init
          let st ← produce thread depth left parallelStream st
          let st := st.setHashTable id rightSide BTree.init
          let st ← produce thread depth right parallelStream st
          let lefts ← st.clusters id leftSide
          let st ← lefts.foldlM (fun st left => do
            let rights ← st.clusters id rightSide
            rights.foldlM (fun st right => do
              let cluster ← BCluster.init.appendCluster left
              let cluster ← cluster.appendCluster right
              consume db nodes depth op.parent cluster id st) st) st
          let st ← st.release id leftSide
          st.release id rightSide
      | .binary .gather _ _ | .binary .cascadingGather _ _ => none

end Exec

/-- A task, with the code of its root. -/
def runTask (db : QueryDb) (plan : Subplan) (thread : Thread) (depth : ℕ) : Option (List SystemCall) :=
  (Exec.produce db plan.nodes thread depth plan.root true TaskState.init).map TaskState.calls

end Furious
