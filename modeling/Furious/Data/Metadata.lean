import Furious.Data.Counters
import Furious.Data.Names

/-!
The metadata of a database.

The names and the sizes of the tables are written to an array of the caller, in the order of the keys of the
registry and up to the capacity of the array. The name goes to the first entry of the array each time.

* `TableInfo`, `Database.metadata`: the entries, and the function;
* `metadataLoop_eq`: what the loop writes, `getElem?_written`: **the entries afterwards**;
* `Database.Registered`: the tables stand under their hashes, `DbOp.Proper`: the operations that keep it so;
* `Database.Tables`: the tables of a database in the order of their keys;
* `metadata_iff`: **the array describes the tables exactly if at most one entry is written**.

The locks are left out. The capacity has 32 bits, so the count does not wrap around.
-/

namespace Furious

/-! ### The function -/

/-- `fdb_table_info_t`. -/
structure TableInfo where
  name : List UInt8
  size : ℕ
deriving DecidableEq, Repr

/-- `m_name`, as `strncpy` fills it: zeros behind the name. -/
def NamedTable.nameBuffer (table : NamedTable) : List UInt8 :=
  table.name.bytes ++ List.replicate (maxTableName - table.name.strlen) 0

/-- `fdb_table_size`, in 32 bits. -/
def NamedTable.size (table : NamedTable) : ℕ := table.table.numComponents % 2 ^ 32

/-- The name that is in an entry. -/
def TableInfo.text (info : TableInfo) : List UInt8 := info.name.takeWhile (· ≠ 0)

/-- The name is copied to `data[0]`, the size is that of `data[count]`. -/
def putInfo (count : ℕ) (table : NamedTable) (data : List TableInfo) : List TableInfo :=
  (data.modify 0 fun info => { info with name := table.nameBuffer }).modify count
    fun info => { info with size := table.size }

/-- The writes of the loop of `fdb_database_metadata`. -/
def writeInfo (data : List TableInfo) (count : ℕ) (table : NamedTable) : Option (List TableInfo) :=
  if 0 < data.length ∧ count < data.length then some (putInfo count table data) else none

namespace Database

/-- The loop of `fdb_database_metadata`, in which `count` is still `remaining` below the capacity. -/
def metadataLoop (db : Database) : ℕ → Iter → ℕ → List TableInfo → Option (ℕ × List TableInfo)
  | 0, iter, count, data => do
      let _ ← iter.hasNext db.tables.nodes
      some (count, data)
  | remaining + 1, iter, count, data => do
      let more ← iter.hasNext db.tables.nodes
      if more = true then do
        let ((_, value), iter) ← iter.next db.tables.nodes
        let p ← value
        let table ← db.tableAllocator.get p
        let data ← writeInfo data count table
        metadataLoop db remaining iter (count + 1) data
      else some (count, data)

/-- `fdb_database_metadata`. -/
def metadata (db : Database) (data : List TableInfo) (capacity : ℕ) : Option (ℕ × List TableInfo) := do
  let iter ← db.tables.iterInit
  db.metadataLoop capacity iter 0 data

end Database

/-! ### What the loop writes -/

/-- The tables that the entries `l` of the registry lead to. -/
def Database.tablesAt (db : Database) (l : List (ℕ × ℕ)) : List NamedTable :=
  l.filterMap fun e => db.tableAllocator.get e.2

/-- What has been written for some tables, from `count` on. -/
def written (count : ℕ) : List NamedTable → List TableInfo → List TableInfo
  | [], data => data
  | table :: tables, data => written (count + 1) tables (putInfo count table data)

lemma length_putInfo (count : ℕ) (table : NamedTable) (data : List TableInfo) :
    (putInfo count table data).length = data.length := by
  rw [putInfo, List.length_modify, List.length_modify]

/-- **The loop** writes for the next tables, as many as there is room for. -/
theorem metadataLoop_eq {db : Database} {remaining count : ℕ} {iter : Iter} {l : List (ℕ × ℕ)}
    {data : List TableInfo} (hiter : iter.Remains db.tables.nodes l)
    (htables : ∀ e ∈ l, ∃ table, db.tableAllocator.get e.2 = some table)
    (hroom : count + remaining ≤ data.length) :
    db.metadataLoop remaining iter count data
      = some (count + min (db.tablesAt l).length remaining,
        written count ((db.tablesAt l).take remaining) data) := by
  induction remaining generalizing iter l count data with
  | zero =>
      have hhas : ∃ more, iter.hasNext db.tables.nodes = some more := by
        cases l with
        | nil => exact ⟨false, hiter.1⟩
        | cons e l => exact ⟨true, hiter.1⟩
      obtain ⟨more, hmore⟩ := hhas
      rw [Database.metadataLoop, hmore, Nat.min_zero, List.take_zero]
      rfl
  | succ remaining ih =>
      cases l with
      | nil =>
          rw [Database.metadataLoop, hiter.1]
          rfl
      | cons e l =>
          obtain ⟨hhas, iter', hnext, hrest⟩ := hiter
          obtain ⟨table, hget⟩ := htables e List.mem_cons_self
          have hwrite : writeInfo data count table = some (putInfo count table data) := if_pos (by omega)
          have hlen : count + 1 + remaining ≤ (putInfo count table data).length := by
            rw [length_putInfo]
            omega
          have hloop := ih hrest (fun f hf => htables f (List.mem_cons_of_mem e hf)) hlen
          rw [Database.metadataLoop, hhas]
          simp only [Option.bind_eq_bind, Option.bind_some, if_true, hnext, hget, hwrite, hloop]
          have hcons : db.tablesAt (e :: l) = table :: db.tablesAt l := List.filterMap_cons_some hget
          rw [hcons, List.length_cons, Nat.succ_min_succ, List.take_succ_cons, written, Nat.add_assoc,
            Nat.add_comm 1]

lemma getElem?_putInfo (count : ℕ) (table : NamedTable) (data : List TableInfo) (i : ℕ) :
    (putInfo count table data)[i]? = data[i]?.map fun info =>
      ⟨if 0 = i then table.nameBuffer else info.name, if count = i then table.size else info.size⟩ := by
  rw [putInfo, List.getElem?_modify, List.getElem?_modify]
  cases data[i]? with
  | none => rfl
  | some info =>
      simp only [Option.map_eq_map, Option.map_some]
      by_cases h0 : 0 = i <;> by_cases hc : count = i <;> simp [h0, hc]

/-- **The entries afterwards**: the first one has the name of the last table, and the sizes are
those of the tables. -/
theorem getElem?_written (count : ℕ) (tables : List NamedTable) (data : List TableInfo) (i : ℕ) :
    (written count tables data)[i]? = data[i]?.map fun info =>
      ⟨if 0 = i then tables.getLast?.elim info.name NamedTable.nameBuffer else info.name,
        if count ≤ i then tables[i - count]?.elim info.size NamedTable.size else info.size⟩ := by
  induction tables generalizing count data with
  | nil => simp [written]
  | cons table tables ih =>
      rw [written, ih, getElem?_putInfo, Option.map_map]
      refine Option.map_congr fun info _ => ?_
      rw [Function.comp_apply, TableInfo.mk.injEq]
      constructor
      · by_cases h0 : 0 = i
        · rw [if_pos h0, if_pos h0, if_pos h0, List.getLast?_cons, Option.elim_some]
          cases tables.getLast? <;> rfl
        · rw [if_neg h0, if_neg h0, if_neg h0]
      · rcases lt_trichotomy i count with hlt | rfl | hgt
        · have hle : ¬ count ≤ i := by omega
          rw [if_neg (show ¬ count + 1 ≤ i by omega), if_neg hle, if_neg hlt.ne']
        · rw [if_neg (show ¬ i + 1 ≤ i by omega), if_pos rfl, if_pos le_rfl, Nat.sub_self]
          rfl
        · have hsub : i - count = i - (count + 1) + 1 := by omega
          rw [if_pos (show count + 1 ≤ i from hgt), if_pos hgt.le, if_neg hgt.ne, hsub,
            List.getElem?_cons_succ]

/-! ### Databases whose tables stand under their hashes -/

/-- The table has the hash of its name, and has come about by operations on tables. -/
structure NamedTable.Proper (table : NamedTable) : Prop where
  id : table.id = hash table.name
  run : ∃ hist, TableRun (fun _ _ => True) table.table hist

/-- The size of a table has no more than 32 bits. -/
lemma NamedTable.Proper.size_eq {table : NamedTable} (h : table.Proper) :
    table.size = table.table.numComponents := by
  obtain ⟨hist, hrun⟩ := h.run
  have hle : hist.live.keys.card ≤ 0xffffffff := hrun.keeps.2.card_le
  rw [NamedTable.size, hrun.numComponents_eq]
  exact Nat.mod_eq_of_lt (by omega)

/-- The registry shows `M`, which leads to every table from its hash. -/
structure Database.Registered (db : Database) (M : KeyMap ℕ) : Prop where
  shows : Shows db.tables M
  table : ∀ key p, M.lookup key = some p →
    ∃ table, db.tableAllocator.get p = some table ∧ table.id = key ∧ table.Proper

/-- A removal keeps the registry in order, and a table is used by an operation on it. -/
def DbOp.Proper (db : Database) : DbOp → Prop
  | create _ _ _ _ => True
  | findOrCreate _ _ _ _ => True
  | remove name => ∀ p, db.findTable name = some (some p) → Orderly db.tables (.remove (hash name))
  | use p table => ∃ named op ptr, db.tableAllocator.get p = some named ∧ TableOp.Valid op
      ∧ op.call named.table = some (table, ptr)

namespace Database.Registered

variable {db db' : Database} {M : KeyMap ℕ} {name : CString} {p : ℕ}

lemma init : Registered Database.init ∅ where
  shows := Shows.init
  table key p h := by
    rw [Finmap.lookup_empty] at h
    cases h

/-- **A new table.** -/
theorem newTable (h : Registered db M) (hnew : M.lookup (hash name) = none) {csize : ℕ} {dstr : Bool}
    {memory : Address → UInt8} (hcall : db.newTable name csize dstr memory = some (db', p)) :
    Registered db' (M.insert (hash name) p) := by
  obtain ⟨-, hvacant, ⟨ins, hins⟩, hget⟩ := newTable_cases hcall
  obtain ⟨tables, ins', hins', -, -, hshows⟩ := h.shows.insert (Finmap.lookup_eq_none.mp hnew) p
  obtain ⟨rfl, -⟩ := Prod.mk.inj (Option.some.inj (hins'.symm.trans hins))
  refine ⟨hshows, fun key r hr => ?_⟩
  rw [hget]
  by_cases hkey : key = hash name
  · rw [hkey, Finmap.lookup_insert] at hr
    rw [← Option.some.inj hr, Function.update_self]
    exact ⟨_, rfl, hkey.symm, rfl, _, .init csize dstr memory⟩
  · rw [Finmap.lookup_insert_of_ne _ hkey] at hr
    obtain ⟨table, htable, hproper⟩ := h.table key r hr
    have hne : r ≠ p := by
      rintro rfl
      rw [hvacant] at htable
      cases htable
    rw [Function.update_of_ne hne]
    exact ⟨table, htable, hproper⟩

/-- What the two creations have in common: a name whose hash is there gets no new table. -/
lemma register (h : Registered db M) (name : CString) (csize : ℕ) (dstr : Bool) (memory : Address → UInt8)
    (found : Option ℕ) {result : Option ℕ}
    (hcall : (match M.lookup (hash name) with
      | some _ => some (db, found)
      | none => (db.newTable name csize dstr memory).bind fun r => some (r.1, some r.2))
        = some (db', result)) : ∃ M', Registered db' M' := by
  cases hp : M.lookup (hash name) with
  | some p =>
      rw [hp] at hcall
      obtain ⟨rfl, -⟩ := Prod.mk.inj (Option.some.inj hcall)
      exact ⟨M, h⟩
  | none =>
      rw [hp] at hcall
      obtain ⟨⟨db₁, p⟩, hnew, hcall⟩ := Option.bind_eq_some_iff.mp hcall
      obtain ⟨rfl, -⟩ := Prod.mk.inj (Option.some.inj hcall)
      exact ⟨_, h.newTable hp hnew⟩

/-- **A removal** of a table that is there. -/
theorem remove (h : Registered db M) (hp : M.lookup (hash name) = some p)
    (hok : Orderly db.tables (.remove (hash name))) (hcall : db.removeTable name = some db') :
    Registered db' (M.erase (hash name)) := by
  obtain ⟨table, value, -, hremove, hget⟩ := removeTable_cases (by rw [h.shows.get, hp]) hcall
  obtain ⟨tables, hremove', hshows⟩ := h.shows.remove hp hok
  obtain ⟨rfl, -⟩ := Prod.mk.inj (Option.some.inj (hremove'.symm.trans hremove))
  refine ⟨hshows, fun key r hr => ?_⟩
  have hkey : key ≠ hash name := by
    rintro rfl
    rw [Finmap.lookup_erase] at hr
    cases hr
  rw [Finmap.lookup_erase_ne hkey] at hr
  obtain ⟨other, hother, hid, hproper⟩ := h.table key r hr
  have hne : r ≠ p := by
    rintro rfl
    obtain ⟨table', htable', hid', -⟩ := h.table _ r hp
    obtain rfl := Option.some.inj (hother.symm.trans htable')
    exact hkey (hid.symm.trans hid')
  rw [hget, Function.update_of_ne hne]
  exact ⟨other, hother, hid, hproper⟩

/-- **The use of a table.** -/
theorem use (h : Registered db M) {table : Table} (hok : (DbOp.use p table).Proper db)
    (hcall : db.useTable p table = some db') : Registered db' M := by
  obtain ⟨named, op, ptr, hnamed, valid, hop⟩ := hok
  obtain ⟨named', hnamed', htables, hget⟩ := useTable_cases hcall
  obtain rfl := Option.some.inj (hnamed.symm.trans hnamed')
  refine ⟨htables ▸ h.shows, fun key r hr => ?_⟩
  obtain ⟨old, hold, hid, hproper⟩ := h.table key r hr
  rw [hget]
  by_cases hrp : r = p
  · rw [hrp, hnamed] at hold
    obtain rfl := Option.some.inj hold
    obtain ⟨hist, hrun⟩ := hproper.run
    rw [hrp, Function.update_self]
    exact ⟨_, rfl, hid, hproper.id, _, hrun.step op valid trivial hop⟩
  · rw [Function.update_of_ne hrp]
    exact ⟨old, hold, hid, hproper⟩

/-- **Every operation** keeps the invariant. -/
theorem step (h : Registered db M) {op : DbOp} (hok : op.Proper db) {result : Option ℕ}
    (hcall : op.call db = some (db', result)) : ∃ M', Registered db' M' := by
  cases op with
  | create name csize dstr memory =>
      rw [DbOp.call, Database.createTable, getTableId, h.shows.get] at hcall
      exact h.register name csize dstr memory none (by
        cases hp : M.lookup (hash name) <;> rw [hp] at hcall <;> exact hcall)
  | findOrCreate name csize dstr memory =>
      rw [DbOp.call, Database.findOrCreateTable, getTableId, h.shows.get] at hcall
      exact h.register name csize dstr memory (M.lookup (hash name)) (by
        cases hp : M.lookup (hash name) <;> rw [hp] at hcall <;> exact hcall)
  | remove name =>
      obtain ⟨db₁, hremove, hr⟩ := Option.map_eq_some_iff.mp hcall
      obtain rfl := (Prod.mk.inj hr).1
      have hfind : db.findTable name = some (M.lookup (hash name)) := h.shows.get _
      cases hp : M.lookup (hash name) with
      | some p => exact ⟨_, h.remove hp (hok p (by rw [hfind, hp])) hremove⟩
      | none =>
          rw [Database.removeTable_missing (by rw [h.shows.get, hp]) hremove]
          exact ⟨M, h⟩
  | use p table =>
      obtain ⟨db₁, huse, hr⟩ := Option.map_eq_some_iff.mp hcall
      obtain rfl := (Prod.mk.inj hr).1
      exact ⟨M, h.use hok huse⟩

end Database.Registered

lemma DbRun.registered {db : Database} {live : NameMap ℕ}
    (h : DbRun (fun db _ op => op.Proper db) db live) : ∃ M, db.Registered M := by
  induction h with
  | init => exact ⟨∅, Database.Registered.init⟩
  | step _ op hok hcall ih =>
      obtain ⟨M, hM⟩ := ih
      exact hM.step hok hcall

/-! ### The tables of a database -/

/-- The tables of a database, in the order of their keys. -/
structure Database.Tables (db : Database) (tables : List NamedTable) : Prop where
  sorted : tables.Pairwise fun a b => a.id < b.id
  mem : ∀ table, table ∈ tables
    ↔ ∃ p, db.tables.get table.id = some (some p) ∧ db.tableAllocator.get p = some table

namespace Database.Registered

variable {db : Database} {M : KeyMap ℕ}

/-- The entries of the registry lead to the tables. -/
lemma tablesAt (h : Registered db M) {l : List (ℕ × ℕ)} (hl : Lists l M) :
    db.Tables (db.tablesAt l) ∧ ∀ e ∈ l, ∃ table, db.tableAllocator.get e.2 = some table := by
  have hentry : ∀ e ∈ l, ∃ table, db.tableAllocator.get e.2 = some table ∧ table.id = e.1 := by
    intro e he
    obtain ⟨table, hget, hid, -⟩ := h.table e.1 e.2 ((hl.mem _ _).mp he)
    exact ⟨table, hget, hid⟩
  refine ⟨⟨?_, fun table => ?_⟩, fun e he => (hentry e he).imp fun _ => And.left⟩
  · refine List.pairwise_filterMap.mpr (hl.sorted.imp_of_mem fun {e f} he hf hlt a ha b hb => ?_)
    obtain ⟨a', ha', hida⟩ := hentry e he
    obtain ⟨b', hb', hidb⟩ := hentry f hf
    rw [← Option.some.inj (ha'.symm.trans ha), ← Option.some.inj (hb'.symm.trans hb), hida, hidb]
    exact hlt
  · simp only [Database.tablesAt, List.mem_filterMap, h.shows.get, Option.some.injEq]
    constructor
    · rintro ⟨e, he, hget⟩
      obtain ⟨table', hget', hid⟩ := hentry e he
      obtain rfl := Option.some.inj (hget'.symm.trans hget)
      exact ⟨e.2, hid ▸ (hl.mem _ _).mp he, hget⟩
    · rintro ⟨p, hp, hget⟩
      exact ⟨(table.id, p), (hl.mem _ _).mpr hp, hget⟩

lemma proper (h : Registered db M) {tables : List NamedTable} (ht : db.Tables tables) :
    ∀ table ∈ tables, table.Proper := by
  intro table hmem
  obtain ⟨p, hp, hget⟩ := (ht.mem table).mp hmem
  rw [h.shows.get] at hp
  obtain ⟨table', hget', -, hproper⟩ := h.table _ p (Option.some.inj hp)
  rwa [Option.some.inj (hget.symm.trans hget')]

/-- **`fdb_database_metadata`** counts the tables that there is room for, and writes for them. -/
theorem metadata_eq (h : Registered db M) : ∃ tables, db.Tables tables
    ∧ ∀ (data : List TableInfo) (capacity : ℕ), capacity ≤ data.length →
      db.metadata data capacity
        = some (min tables.length capacity, written 0 (tables.take capacity) data) := by
  obtain ⟨l, iter, hl, hinit, hiter⟩ := h.shows.iterInit
  obtain ⟨htables, hget⟩ := h.tablesAt hl
  refine ⟨_, htables, fun data capacity hcap => ?_⟩
  have hroom : 0 + capacity ≤ data.length := by omega
  rw [Database.metadata, hinit, Option.bind_eq_bind, Option.bind_some, metadataLoop_eq hiter hget hroom,
    Nat.zero_add]

end Database.Registered

/-! ### The metadata -/

/-- The array that is returned describes the tables: for as many as there is room for, in their
order, it has the name and the number of components; the other entries are what they were. -/
structure Describes (tables : List NamedTable) (data : List TableInfo) (capacity count : ℕ)
    (data' : List TableInfo) : Prop where
  number : count = min tables.length capacity
  entry : ∀ (i : ℕ) (table : NamedTable), i < count → tables[i]? = some table → ∃ info : TableInfo,
    data'[i]? = some info ∧ info.text = table.name.bytes ∧ info.size = table.table.numComponents
  rest : ∀ i, count ≤ i → data'[i]? = data[i]?

lemma NamedTable.takeWhile_nameBuffer (table : NamedTable) :
    table.nameBuffer.takeWhile (· ≠ 0) = table.name.bytes := by
  have hbytes : ∀ c ∈ table.name.bytes, decide (c ≠ 0) = true := by
    intro c hc
    rw [decide_eq_true_eq]
    rintro rfl
    exact table.name.terminated hc
  rw [NamedTable.nameBuffer, List.takeWhile_append_of_pos hbytes]
  cases maxTableName - table.name.strlen with
  | zero => simp
  | succ n => simp [List.replicate_succ]

lemma CString.ext_bytes {a b : CString} (h : a.bytes = b.bytes) : a = b := by
  cases a
  cases b
  rw [CString.mk.injEq]
  exact h

section Described

variable {tables : List NamedTable} {data : List TableInfo} {capacity : ℕ}

/-- The entries behind the last one that is written are what they were. -/
lemma getElem?_written_rest {i : ℕ} (hi : min tables.length capacity ≤ i) :
    (written 0 (tables.take capacity) data)[i]? = data[i]? := by
  have hnone : (tables.take capacity)[i]? = none := by
    rw [List.getElem?_eq_none_iff, List.length_take]
    omega
  rw [getElem?_written]
  simp only [Nat.zero_le, if_true, Nat.sub_zero, hnone, Option.elim_none]
  by_cases h0 : 0 = i
  · have hlen : (tables.take capacity).length = 0 := by
      rw [List.length_take]
      omega
    simp [List.length_eq_zero_iff.mp hlen]
  · simp [h0]

/-- The first entry has the name of the last table. -/
lemma getElem?_written_zero {info : TableInfo} {table last : NamedTable} (hinfo : data[0]? = some info)
    (hfirst : (tables.take capacity)[0]? = some table) (hlast : (tables.take capacity).getLast? = some last) :
    (written 0 (tables.take capacity) data)[0]? = some ⟨last.nameBuffer, table.size⟩ := by
  rw [getElem?_written, hinfo, Nat.sub_zero, hfirst, hlast]
  rfl

/-- **At most one entry** is written: it describes its table. -/
lemma describes_of_le_one (hproper : ∀ table ∈ tables, table.Proper) (hcap : capacity ≤ data.length)
    (hone : min tables.length capacity ≤ 1) :
    Describes tables data capacity (min tables.length capacity)
      (written 0 (tables.take capacity) data) where
  number := rfl
  entry i table hi htable := by
    obtain rfl : i = 0 := by omega
    obtain ⟨info, hinfo⟩ : ∃ info, data[0]? = some info :=
      ⟨_, List.getElem?_eq_getElem (show 0 < data.length by omega)⟩
    have hfirst : (tables.take capacity)[0]? = some table := by
      rw [List.getElem?_take_of_lt (by omega), htable]
    have hlast : (tables.take capacity).getLast? = some table := by
      have hlen : (tables.take capacity).length - 1 = 0 := by
        rw [List.length_take]
        omega
      rw [List.getLast?_eq_getElem?, hlen, hfirst]
    refine ⟨_, getElem?_written_zero hinfo hfirst hlast, table.takeWhile_nameBuffer, ?_⟩
    exact (hproper table (List.mem_of_getElem? htable)).size_eq
  rest _ hi := getElem?_written_rest hi

/-- **Two entries or more**: the first one has a name that is not its own. -/
lemma not_describes_of_two_le (hsorted : tables.Pairwise fun a b => a.id < b.id)
    (hproper : ∀ table ∈ tables, table.Proper) (hcap : capacity ≤ data.length)
    (htwo : 2 ≤ min tables.length capacity) :
    ¬ Describes tables data capacity (min tables.length capacity)
      (written 0 (tables.take capacity) data) := by
  intro hdesc
  have hlt : min tables.length capacity - 1 < tables.length := by omega
  have hpos : 0 < tables.length := by omega
  have hdata : 0 < data.length := by omega
  have hfirst : (tables.take capacity)[0]? = some tables[0] := by
    rw [List.getElem?_take_of_lt (by omega), List.getElem?_eq_getElem hpos]
  have hlast : (tables.take capacity).getLast? = some tables[min tables.length capacity - 1] := by
    rw [List.getLast?_eq_getElem?, List.length_take, Nat.min_comm, List.getElem?_take_of_lt (by omega),
      List.getElem?_eq_getElem hlt]
  obtain ⟨info, hinfo, htext, -⟩ :=
    hdesc.entry 0 tables[0] (by omega) (List.getElem?_eq_getElem hpos)
  rw [getElem?_written_zero (List.getElem?_eq_getElem hdata) hfirst hlast] at hinfo
  rw [← Option.some.inj hinfo] at htext
  -- the names are the same, so the ids are
  have hname := CString.ext_bytes ((NamedTable.takeWhile_nameBuffer _).symm.trans htext)
  have hid : tables[0].id < tables[min tables.length capacity - 1].id :=
    List.pairwise_iff_getElem.mp hsorted 0 _ hpos hlt (by omega)
  rw [(hproper _ (List.getElem_mem hlt)).id, hname, ← (hproper _ (List.getElem_mem hpos)).id] at hid
  exact lt_irrefl _ hid

end Described

/-- **In every run of a database the array describes its tables exactly if at most one entry is
written**: the name goes to the first entry each time. -/
theorem metadata_iff {db : Database} {live : NameMap ℕ} (h : DbRun (fun db _ op => op.Proper db) db live) :
    ∃ tables, db.Tables tables ∧ ∀ (data : List TableInfo) (capacity : ℕ), capacity ≤ data.length →
      ((∃ count data', db.metadata data capacity = some (count, data')
        ∧ Describes tables data capacity count data') ↔ min tables.length capacity ≤ 1) := by
  obtain ⟨M, hM⟩ := h.registered
  obtain ⟨tables, htables, hmetadata⟩ := hM.metadata_eq
  have hproper := hM.proper htables
  refine ⟨tables, htables, fun data capacity hcap => ?_⟩
  rw [hmetadata data capacity hcap]
  constructor
  · rintro ⟨count, data', heq, hdesc⟩
    obtain ⟨rfl, rfl⟩ := Prod.mk.inj (Option.some.inj heq)
    by_contra hone
    exact not_describes_of_two_le htables.sorted hproper hcap (by omega) hdesc
  · intro hone
    exact ⟨_, _, rfl, describes_of_le_one hproper hcap hone⟩

/-- The operations on a database but for the use of its tables. -/
def DbOp.Plain (db : Database) : DbOp → Prop
  | create _ _ _ _ => True
  | findOrCreate _ _ _ _ => True
  | remove name => Orderly db.tables (.remove (hash name))
  | use _ _ => False

instance (db : Database) : (op : DbOp) → Decidable (op.Plain db)
  | .create _ _ _ _ => isTrue trivial
  | .findOrCreate _ _ _ _ => isTrue trivial
  | .remove name => inferInstanceAs (Decidable (Orderly db.tables (.remove (hash name))))
  | .use _ _ => isFalse id

lemma DbOp.Plain.proper {db : Database} {op : DbOp} (h : op.Plain db) : op.Proper db := by
  cases op with
  | create => trivial
  | findOrCreate => trivial
  | remove name => exact fun _ _ => h
  | use => exact h.elim

/-- The name "A". -/
def nameA : CString := ⟨[65], by decide⟩

/-- A table that is found is one of the tables. -/
lemma Database.Registered.mem_tables {db : Database} {M : KeyMap ℕ} (h : db.Registered M) {tables : List NamedTable}
    (ht : db.Tables tables) {name : CString} {p : ℕ} (hfind : db.findTable name = some (some p)) :
    ∃ table ∈ tables, table.id = hash name := by
  have hget : db.tables.get (hash name) = some (some p) := hfind
  have hp : M.lookup (hash name) = some p := by
    rw [h.shows.get] at hget
    exact Option.some.inj hget
  obtain ⟨table, hat, hid, -⟩ := h.table _ _ hp
  exact ⟨table, (ht.mem table).mpr ⟨p, hid ▸ hget, hat⟩, hid⟩

/-- An array for the metadata of two tables. -/
def blankInfos : List TableInfo := List.replicate 2 ⟨List.replicate maxTableName 0, 0⟩

/-- Three tables of which one is removed: one entry describes its table, two entries do not. -/
theorem metadata_iff_removed : ∃ (db : Database) (live : NameMap ℕ) (tables : List NamedTable),
    DbRun (fun db _ op => op.Proper db) db live ∧ db.Tables tables ∧ 2 ≤ tables.length
    ∧ (∃ count data', db.metadata blankInfos 1 = some (count, data') ∧ Describes tables blankInfos 1 count data')
    ∧ ¬ ∃ count data', db.metadata blankInfos 2 = some (count, data')
      ∧ Describes tables blankInfos 2 count data' := by
  obtain ⟨db, live, h, hM⟩ := DbRun.exists_of_map (fun db _ op => op.Plain db)
    [.create ⟨[67], by decide⟩ 16 false fun _ => 0, .create beltStaff 8 false fun _ => 0,
      .findOrCreate nameA 4 true fun _ => 0, .remove ⟨[67], by decide⟩]
    (f := fun r => (r.1.findTable beltStaff, r.1.findTable nameA, r.1.findTable ⟨[67], by decide⟩))
    (x := (some (some 1), some (some 2), some none)) (by decide +kernel)
  have hrun : DbRun (fun db _ op => op.Proper db) db live := h.mono fun _ _ _ => DbOp.Plain.proper
  obtain ⟨tables, htables, hiff⟩ := metadata_iff hrun
  obtain ⟨M, hM'⟩ := hrun.registered
  obtain ⟨hbelt, hrest⟩ := Prod.mk.inj hM
  obtain ⟨b, hb, hbid⟩ := hM'.mem_tables htables hbelt
  obtain ⟨a, ha, haid⟩ := hM'.mem_tables htables (Prod.mk.inj hrest).1
  have htwo : 2 ≤ tables.length := by
    by_contra hlt
    obtain ⟨c, hc⟩ := List.length_eq_one_iff.mp (show tables.length = 1 by
      have := List.length_pos_of_mem hb
      omega)
    rw [hc, List.mem_singleton] at ha hb
    rw [ha] at haid
    rw [hb] at hbid
    exact absurd (haid.symm.trans hbid) (by decide)
  refine ⟨db, live, tables, hrun, htables, htwo, (hiff blankInfos 1 (by decide)).mpr (Nat.min_le_right _ _),
    fun htwice => ?_⟩
  have hone := (hiff blankInfos 2 (by decide)).mp htwice
  omega

/-- Two tables: the second entry has no name, and the first one that of the second table. -/
theorem names_overwritten : ¬ ∀ (db : Database) (live : NameMap ℕ),
    DbRun (fun db _ op => op.Proper db) db live → ∀ tables, db.Tables tables →
    ∀ (data : List TableInfo) (capacity : ℕ), capacity ≤ data.length →
      ∃ count data', db.metadata data capacity = some (count, data')
        ∧ Describes tables data capacity count data' := by
  intro hall
  obtain ⟨db, live, h, hM⟩ := DbRun.exists_of_map (fun db _ op => op.Plain db)
    [.create beltStaff 8 false fun _ => 0, .create nameA 4 true fun _ => 0]
    (f := fun r => ((r.1.metadata blankInfos 2).map fun q => (q.1, q.2[1]?.map TableInfo.text),
      r.1.findTable ⟨[], by decide⟩))
    (x := (some (2, some []), some none)) (by decide +kernel)
  have hrun := h.mono fun _ _ _ => DbOp.Plain.proper
  obtain ⟨M, hreg⟩ := hrun.registered
  obtain ⟨tables, htables, -⟩ := hreg.metadata_eq
  obtain ⟨count, data', heq, hdesc⟩ := hall db live hrun tables htables blankInfos 2 (by decide)
  obtain ⟨hmeta, hfind⟩ := Prod.mk.inj hM
  rw [heq, Option.map_some, Option.some.injEq, Prod.mk.injEq] at hmeta
  have hnumber := hdesc.number
  have hlt : 1 < tables.length := by omega
  obtain ⟨info, hinfo, htext, -⟩ :=
    hdesc.entry 1 tables[1] (by omega) (List.getElem?_eq_getElem hlt)
  rw [hinfo, Option.map_some, Option.some.injEq] at hmeta
  -- a table without a name would be found under it
  have hmem := List.getElem_mem hlt
  have hname : tables[1].name = ⟨[], by decide⟩ := CString.ext_bytes (htext.symm.trans hmeta.2)
  obtain ⟨p, hp, -⟩ := (htables.mem _).mp hmem
  rw [(hreg.proper htables _ hmem).id, hname] at hp
  rw [Database.findTable, getTableId, hp] at hfind
  cases Option.some.inj hfind

end Furious
