import Furious.BTree.Indexed
import Furious.Data.Database
import Furious.Data.Reftable
import Furious.Data.Bittable

/-!
The tables, tags and references of a database.

A database has three registries, by the hashes of names: of component tables, of reference tables, and of the bittables
of tags. The tables of both kinds are in one pool.

* `Iter.forEach`, `BTree.forEach`: a loop over the values of a registry;
* `World`: the database, `World.getTaggedEntities`, `World.findOrCreateReftable`, `World.clearEntity`, `World.clear`
  and their like: its functions;
* `WorldOp`: a call, with the use of what it finds;
* `Facts`: what is in a database, `WorldOp.act`: what a call does to that.
-/

namespace Furious

/-! ### Loops over a registry -/

/-- A loop over the values of a B-tree, whose body changes something else. -/
def Iter.forEach {σ : Type} (nodes : Pool (Node ℕ)) (body : σ → ℕ → Option σ) : ℕ → Iter → σ → Option σ
  | 0, _, _ => none
  | fuel + 1, iter, s => do
      let more ← iter.hasNext nodes
      if more = true then do
        let ((_, value), iter) ← iter.next nodes
        let s ← body s (← value)
        forEach nodes body fuel iter s
      else some s

/-- The keys of a registry have 32 bits. -/
def maxEntries : ℕ := 2 ^ 32

/-- The loop from the first value on. -/
def BTree.forEach {σ : Type} (t : BTree ℕ) (body : σ → ℕ → Option σ) (s : σ) : Option σ := do
  let iter ← t.iterInit
  iter.forEach t.nodes body (maxEntries + 1) s

/-- `fdb_bittable_release`. -/
def Bittable.release (bt : Bittable) : Option Unit := do
  let _ ← bt.bitmaps.forEach Pool.release bt.bitmapAllocator
  let _ ← bt.bitmaps.release
  some ()

/-! ### The database -/

/-- `fdb_database_t`, of which the tables, the references and the tags. -/
structure World extends Database where
  references : BTree ℕ
  tags : BTree ℕ
  bittableAllocator : Pool Bittable

namespace World

/-- `fdb_database_init`. -/
def init : World := { Database.init with references := BTree.init, tags := BTree.init, bittableAllocator := Pool.empty }

/-- `fdb_database_get_tagged_entities`. -/
def getTaggedEntities (db : World) (tag : CString) : Option (World × ℕ) := do
  let hashValue := hash tag
  match ← db.tags.get hashValue with
  | some p => some (db, p)
  | none => do
      let (p, bittableAllocator) := db.bittableAllocator.alloc Bittable.init
      let (tags, _) ← db.tags.insert hashValue p
      some ({ db with tags := tags, bittableAllocator := bittableAllocator }, p)

/-- `fdb_database_tag_entity`, which begins as `fdb_database_get_tagged_entities` does. -/
def tagEntity (db : World) (id : ℕ) (tag : CString) : Option World := do
  let (db, p) ← db.getTaggedEntities tag
  let bittable ← db.bittableAllocator.get p
  let bittable ← bittable.add id
  let bittableAllocator ← db.bittableAllocator.put p bittable
  some { db with bittableAllocator := bittableAllocator }

/-- `fdb_database_untag_entity`. -/
def untagEntity (db : World) (id : ℕ) (tag : CString) : Option World := do
  match ← db.tags.get (hash tag) with
  | none => some db
  | some p => do
      let bittable ← db.bittableAllocator.get p
      let bittable ← bittable.remove id
      let bittableAllocator ← db.bittableAllocator.put p bittable
      some { db with bittableAllocator := bittableAllocator }

/-- `fdb_database_find_or_create_reftable`, with `fdb_reftable_init`. -/
def findOrCreateReftable (db : World) (refName : CString) (memory : Address → UInt8) : Option (World × ℕ) := do
  let hashValue := hash refName
  match ← db.references.get hashValue with
  | some p => some (db, p)
  | none => do
      let table ← NamedTable.init refName hashValue Reftable.entityIdSize false memory
      let (p, tableAllocator) := db.tableAllocator.alloc table
      let (references, _) ← db.references.insert hashValue p
      some ({ db with references := references, tableAllocator := tableAllocator }, p)

/-- `fdb_database_create_reftable` does the same. -/
def createReftable (db : World) (refName : CString) (memory : Address → UInt8) : Option (World × ℕ) :=
  db.findOrCreateReftable refName memory

/-- `fdb_database_find_reftable`, whose assertion wants a table. -/
def findReftable (db : World) (refName : CString) : Option ℕ := do
  let p ← db.references.get (hash refName)
  p

/-- The body of the loop of `fdb_database_clear_entity`. -/
def clearEntry (id : ℕ) (tableAllocator : Pool NamedTable) (p : ℕ) : Option (Pool NamedTable) := do
  let table ← tableAllocator.get p
  let cleared ← table.table.destroyComponent id
  tableAllocator.put p { table with table := cleared }

/-- `fdb_database_clear_entity`. -/
def clearEntity (db : World) (id : ℕ) : Option World := do
  let tableAllocator ← db.tables.forEach (clearEntry id) db.tableAllocator
  some { db with tableAllocator := tableAllocator }

/-- The body of the loops of `fdb_database_clear` over tables. -/
def releaseTable (tableAllocator : Pool NamedTable) (p : ℕ) : Option (Pool NamedTable) := do
  let table ← tableAllocator.get p
  let _ ← table.table.release
  tableAllocator.release p

/-- The body of the loop of `fdb_database_clear` over bittables. -/
def releaseBittable (bittableAllocator : Pool Bittable) (p : ℕ) : Option (Pool Bittable) := do
  let bittable ← bittableAllocator.get p
  let _ ← bittable.release
  bittableAllocator.release p

/-- `fdb_database_clear`, which goes through the tables twice. -/
def clear (db : World) : Option World := do
  let tableAllocator ← db.tables.forEach releaseTable db.tableAllocator
  let tables ← db.tables.clear
  let bittableAllocator ← db.tags.forEach releaseBittable db.bittableAllocator
  let tags ← db.tags.clear
  let tableAllocator ← db.references.forEach releaseTable tableAllocator
  let references ← db.references.clear
  let tableAllocator ← tables.forEach releaseTable tableAllocator
  let tables ← tables.clear
  some ⟨⟨tables, tableAllocator⟩, references, tags, bittableAllocator⟩

/-! ### The use of what is found -/

/-- A table is used through its pointer. -/
def useTable (db : World) (p : ℕ) (use : Table → Option Table) : Option World := do
  let named ← db.tableAllocator.get p
  let table ← use named.table
  let tableAllocator ← db.tableAllocator.put p { named with table := table }
  some { db with tableAllocator := tableAllocator }

/-- `FDB_FIND_TABLE`, whose assertion wants a table. -/
def findTable (db : World) (name : CString) : Option ℕ := do
  let p ← db.toDatabase.findTable name
  p

/-- A component is created, and gets a value. -/
def addValue (id value : ℕ) (table : Table) : Option Table := do
  let (table, ptr) ← table.createComponent id
  some (table.store table.esize ptr value)

/-- `FDB_ADD_COMPONENT`, and the component gets a value. -/
def addComponent (db : World) (name : CString) (id value : ℕ) : Option World := do
  let p ← db.findTable name
  db.useTable p (addValue id value)

/-- `FDB_REMOVE_COMPONENT`. -/
def removeComponent (db : World) (name : CString) (id : ℕ) : Option World := do
  let p ← db.findTable name
  db.useTable p fun table => table.destroyComponent id

/-- `FDB_ADD_REFERENCE`. -/
def addReference (db : World) (refName : CString) (tail head : ℕ) : Option World := do
  let p ← db.findReftable refName
  db.useTable p fun table => do
    let rt ← Reftable.add ⟨table⟩ tail head
    some rt.table

/-- `fdb_reftable_remove`. -/
def removeReference (db : World) (refName : CString) (tail head : ℕ) : Option World := do
  let p ← db.findReftable refName
  db.useTable p fun table => do
    let rt ← Reftable.remove ⟨table⟩ tail head
    some rt.table

/-- `FDB_GET_COMPONENT`, and the value is read. -/
def component (db : World) (name : CString) (id : ℕ) : Option (Option ℕ) := do
  let p ← db.findTable name
  let named ← db.tableAllocator.get p
  let ptr ← named.table.getComponent id
  some (ptr.map (named.table.load named.table.esize))

/-- `fdb_bittable_exists` for a tag. -/
def hasTag (db : World) (id : ℕ) (tag : CString) : Option Bool := do
  let (db, p) ← db.getTaggedEntities tag
  let bittable ← db.bittableAllocator.get p
  bittable.existsId id

/-- `fdb_reftable_exists`. -/
def existsReference (db : World) (refName : CString) (tail head : ℕ) : Option Bool := do
  let p ← db.findReftable refName
  let named ← db.tableAllocator.get p
  Reftable.existsRef ⟨named.table⟩ tail head

end World

/-- A call. What is in the memory of a new table is not known. -/
inductive WorldOp where
  | createTable (name : CString) (csize : ℕ) (dstr : Bool) (memory : Address → UInt8)
  | findOrCreateTable (name : CString) (csize : ℕ) (dstr : Bool) (memory : Address → UInt8)
  | removeTable (name : CString)
  | addComponent (name : CString) (id value : ℕ)
  | removeComponent (name : CString) (id : ℕ)
  | tagEntity (id : ℕ) (tag : CString)
  | untagEntity (id : ℕ) (tag : CString)
  | getTaggedEntities (tag : CString)
  | findOrCreateReftable (refName : CString) (memory : Address → UInt8)
  | createReftable (refName : CString) (memory : Address → UInt8)
  | addReference (refName : CString) (tail head : ℕ)
  | removeReference (refName : CString) (tail head : ℕ)
  | clearEntity (id : ℕ)
  | clear

/-- The effect on the database. -/
def WorldOp.call (db : World) : WorldOp → Option World
  | createTable name csize dstr memory =>
      (db.toDatabase.createTable name csize dstr memory).map fun r => { db with toDatabase := r.1 }
  | findOrCreateTable name csize dstr memory =>
      (db.toDatabase.findOrCreateTable name csize dstr memory).map fun r => { db with toDatabase := r.1 }
  | removeTable name => (db.toDatabase.removeTable name).map fun r => { db with toDatabase := r }
  | addComponent name id value => db.addComponent name id value
  | removeComponent name id => db.removeComponent name id
  | tagEntity id tag => db.tagEntity id tag
  | untagEntity id tag => db.untagEntity id tag
  | getTaggedEntities tag => (db.getTaggedEntities tag).map Prod.fst
  | findOrCreateReftable refName memory => (db.findOrCreateReftable refName memory).map Prod.fst
  | createReftable refName memory => (db.createReftable refName memory).map Prod.fst
  | addReference refName tail head => db.addReference refName tail head
  | removeReference refName tail head => db.removeReference refName tail head
  | clearEntity id => db.clearEntity id
  | clear => db.clear

/-! ### What is in a database -/

/-- What is in a table: the size of a component, whether there is a destructor, and the values by entities. -/
structure TableFacts where
  csize : ℕ
  dstr : Bool
  values : ℕ → Option ℕ

/-- What is in a database, by the hashes of names. -/
structure Facts where
  tables : ℕ → Option TableFacts
  references : ℕ → Option (ℕ → Option ℕ)
  tags : ℕ → Option (Finset ℕ)

/-- The value of an entity. -/
def TableFacts.set (f : TableFacts) (id : ℕ) (value : Option ℕ) : TableFacts :=
  { f with values := Function.update f.values id value }

namespace Facts

/-- Nothing. -/
def empty : Facts := ⟨fun _ => none, fun _ => none, fun _ => none⟩

/-- A table that was not there. -/
def addTable (A : Facts) (key csize : ℕ) (dstr : Bool) : Facts :=
  { A with tables := Function.update A.tables key (some ((A.tables key).getD ⟨csize, dstr, fun _ => none⟩)) }

/-- A reference table that was not there. -/
def addReferences (A : Facts) (key : ℕ) : Facts :=
  { A with references := Function.update A.references key (some ((A.references key).getD fun _ => none)) }

/-- The set of a tag, which is empty if it was not there. -/
def setTag (A : Facts) (key : ℕ) (f : Finset ℕ → Finset ℕ) : Facts :=
  { A with tags := Function.update A.tags key (some (f ((A.tags key).getD ∅))) }

/-- The set of a tag, if it is there. -/
def mapTag (A : Facts) (key : ℕ) (f : Finset ℕ → Finset ℕ) : Facts :=
  { A with tags := Function.update A.tags key ((A.tags key).map f) }

/-- The value of an entity in a table. -/
def setComponent (A : Facts) (key id : ℕ) (value : Option ℕ) : Facts :=
  { A with tables := Function.update A.tables key ((A.tables key).map fun f => f.set id value) }

/-- No component of an entity. -/
def clearEntity (A : Facts) (id : ℕ) : Facts :=
  { A with tables := fun key => (A.tables key).map fun f => f.set id none }

/-- The head of an entity in a reference table. -/
def setReference (A : Facts) (key tail : ℕ) (head : Option ℕ) : Facts :=
  { A with references := Function.update A.references key ((A.references key).map (Function.update · tail head)) }

end Facts

/-- **What a call does** to what is in the database. -/
def WorldOp.act (A : Facts) : WorldOp → Facts
  | createTable name csize dstr _ | findOrCreateTable name csize dstr _ => A.addTable (hash name) csize dstr
  | removeTable name => { A with tables := Function.update A.tables (hash name) none }
  | addComponent name id value => A.setComponent (hash name) id (some value)
  | removeComponent name id => A.setComponent (hash name) id none
  | tagEntity id tag => A.setTag (hash tag) (insert id)
  | untagEntity id tag => A.mapTag (hash tag) fun S => S.erase id
  | getTaggedEntities tag => A.setTag (hash tag) fun S => S
  | findOrCreateReftable refName _ | createReftable refName _ => A.addReferences (hash refName)
  | addReference refName tail head => A.setReference (hash refName) tail (some head)
  | removeReference refName tail _ => A.setReference (hash refName) tail none
  -- the tags of the entity and its references stay
  | clearEntity id => A.clearEntity id
  | clear => Facts.empty

end Furious
