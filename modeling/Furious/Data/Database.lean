import Furious.BTree.Keyed
import Furious.Data.Table

/-!
The catalog of a database.

A database finds its tables by name. Names are hashed to 32 bits, and a B-tree leads
from the hashes to the tables, which come from a pool. A registry finds pointers by
name in the same way.

* `CString`, `hash`: names, and their hashes;
* `Database.createTable`, `Database.findTable`, `Database.findOrCreateTable`,
  `Database.removeTable`: the operations;
* `HtRegistry`: the registry.

The locks are left out, as are the parts of a database for tags, references and globals.
Pointers are never null.
-/

namespace Furious

/-- The characters of a string in front of the zero that ends it. -/
structure CString where
  bytes : List UInt8
  terminated : 0 ∉ bytes
deriving DecidableEq

/-- `strlen`. -/
def CString.strlen (str : CString) : ℕ := str.bytes.length

/-! ### The hash -/

/-- The mixing constant `m` of `hash`. -/
abbrev hashM : UInt32 := 0x5bd1e995

/-- Four bytes read as a number, the lowest one first. -/
def readWord (a b c d : UInt8) : UInt32 :=
  a.toUInt32 ||| b.toUInt32 <<< 8 ||| c.toUInt32 <<< 16 ||| d.toUInt32 <<< 24

/-- The body of the loop of `hash`. -/
def hashWord (h k : UInt32) : UInt32 :=
  let k := k * hashM
  let k := k ^^^ k >>> 24
  let k := k * hashM
  h * hashM ^^^ k

/-- The loop of `hash`, and the switch behind it, each case of which falls through. -/
def hashBytes : List UInt8 → UInt32 → UInt32
  | a :: b :: c :: d :: data, h => hashBytes data (hashWord h (readWord a b c d))
  | [a, b, c], h => (h ^^^ c.toUInt32 <<< 16 ^^^ b.toUInt32 <<< 8 ^^^ a.toUInt32) * hashM
  | [a, b], h => (h ^^^ b.toUInt32 <<< 8 ^^^ a.toUInt32) * hashM
  | [a], h => (h ^^^ a.toUInt32) * hashM
  | [], h => h

/-- The last mixes of `hash`. -/
def hashEnd (h : UInt32) : UInt32 :=
  let h := h ^^^ h >>> 13
  let h := h * hashM
  h ^^^ h >>> 15

/-- `hash`: the length has 32 bits. -/
def hash (str : CString) : ℕ :=
  let len := UInt32.ofNat str.strlen
  (hashEnd (hashBytes (str.bytes.take len.toNat) (123456 ^^^ len))).toNat

/-- `get_table_id`. -/
def getTableId (tableName : CString) : ℕ := hash tableName

/-! ### The tables of a database -/

/-- `FDB_MAX_TABLE_NAME`. -/
abbrev maxTableName : ℕ := 256

/-- `fdb_table_t` with the name and the id that `fdb_table_init` gives it. -/
structure NamedTable where
  name : CString
  id : ℕ
  table : Table

/-- `fdb_table_init`: a name that is too long ends the program. What is in the memory of the
table is not known. -/
def NamedTable.init (name : CString) (id esize : ℕ) (destructor : Bool) (memory : Address → UInt8) :
    Option NamedTable :=
  if name.strlen < maxTableName then some ⟨name, id, Table.init esize destructor memory⟩ else none

/-- `fdb_database_t`, of which the tables. -/
structure Database where
  tables : BTree ℕ
  tableAllocator : Pool NamedTable

namespace Database

/-- `fdb_database_init`. -/
def init : Database where
  tables := BTree.init
  tableAllocator := Pool.empty

/-- What `fdb_database_create_table` and `fdb_database_find_or_create_table` do if they find
no table. -/
def newTable (db : Database) (name : CString) (csize : ℕ) (dstr : Bool) (memory : Address → UInt8) :
    Option (Database × ℕ) := do
  let hashValue := getTableId name
  let table ← NamedTable.init name hashValue csize dstr memory
  let (p, tableAllocator) := db.tableAllocator.alloc table
  let (tables, _) ← db.tables.insert hashValue p
  some ({ db with tables := tables, tableAllocator := tableAllocator }, p)

/-- `fdb_database_create_table`: a null pointer if there is a table. -/
def createTable (db : Database) (name : CString) (csize : ℕ) (dstr : Bool) (memory : Address → UInt8) :
    Option (Database × Option ℕ) := do
  match ← db.tables.get (getTableId name) with
  | some _ => some (db, none)
  | none => do
      let (db, p) ← db.newTable name csize dstr memory
      some (db, some p)

/-- `fdb_database_find_table`. -/
def findTable (db : Database) (name : CString) : Option (Option ℕ) := db.tables.get (getTableId name)

/-- `fdb_database_find_or_create_table`. -/
def findOrCreateTable (db : Database) (name : CString) (csize : ℕ) (dstr : Bool)
    (memory : Address → UInt8) : Option (Database × Option ℕ) := do
  match ← db.tables.get (getTableId name) with
  | some p => some (db, some p)
  | none => do
      let (db, p) ← db.newTable name csize dstr memory
      some (db, some p)

/-- `fdb_database_remove_table`. -/
def removeTable (db : Database) (name : CString) : Option Database := do
  let hashValue := getTableId name
  match ← db.tables.get hashValue with
  | none => some db
  | some p => do
      let table ← db.tableAllocator.get p
      let _ ← table.table.release
      let tableAllocator ← db.tableAllocator.release p
      let (tables, _) ← db.tables.remove hashValue
      some { db with tables := tables, tableAllocator := tableAllocator }

/-- The components of a table change. -/
def useTable (db : Database) (p : ℕ) (table : Table) : Option Database := do
  let named ← db.tableAllocator.get p
  let tableAllocator ← db.tableAllocator.put p { named with table := table }
  some { db with tableAllocator := tableAllocator }

end Database

/-! ### Registries -/

/-- `fdb_htregistry_t`. -/
structure HtRegistry (V : Type) where
  registry : BTree V

namespace HtRegistry

variable {V : Type}

/-- `fdb_htregistry_init`. -/
def init : HtRegistry V := ⟨BTree.init⟩

/-- `fdb_htregistry_insert`. -/
def insert (reg : HtRegistry V) (key : CString) (value : V) : Option (HtRegistry V) := do
  let (registry, ins) ← reg.registry.insert (hash key) value
  if ins.inserted = false then do
    let registry ← ins.assign registry value
    some ⟨registry⟩
  else some ⟨registry⟩

/-- `fdb_htregistry_get`. -/
def get (reg : HtRegistry V) (key : CString) : Option (Option V) := reg.registry.get (hash key)

/-- `fdb_htregistry_remove`. -/
def remove (reg : HtRegistry V) (key : CString) : Option (HtRegistry V) := do
  let (registry, _) ← reg.registry.remove (hash key)
  some ⟨registry⟩

end HtRegistry

end Furious
