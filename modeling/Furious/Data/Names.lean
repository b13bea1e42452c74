import Furious.Data.Database
import Furious.Library.Hashing

/-!
Stores keyed by name.

A database and a registry know only the hashes of names. As long as no name is used
while another one with its hash is there, and no removal forgets a key of the B-tree,
they are keyed by the names themselves; a name that has the hash of another one gives
what belongs to that one.

* `DbOp`, `DbRun`: the operations on a database next to the names that it has, and runs;
* `Database.newTable_cases` and its like: what the operations change;
* `Database.newTable_spec`: a new table;
* `Database.Named`: the invariant, `Named.newTable` and `Named.remove`: its steps;
* `RegOp`, `RegRun`: the same for a registry;
* `DbOp.Distinct`, `RegOp.Distinct`: the condition on the steps, `DbOp.Possible`: what else the operations
  need, and `DbOp.Does`: what they then do;
* `keyed_by_name`: **in these runs exactly the names that do not clash are looked up
  rightly, and every next operation does what is asked under its name**.

The assertions that `FDB_ENABLE_ASSERTS` adds are left out.
-/

namespace Furious

/-- What is known under some names. -/
abbrev NameMap (V : Type) : Type := Finmap fun _ : CString => V

/-! ### Databases -/

/-- An operation on a database; the components of a table may change in any way. `fdb_database_clear` and the
operations on tags and references are operations on a `World`. -/
inductive DbOp where
  | create (name : CString) (csize : ℕ) (dstr : Bool) (memory : Address → UInt8)
  | findOrCreate (name : CString) (csize : ℕ) (dstr : Bool) (memory : Address → UInt8)
  | remove (name : CString)
  | use (p : ℕ) (table : Table)

namespace DbOp

/-- The effect on the database, and the table that is returned. -/
def call (db : Database) : DbOp → Option (Database × Option ℕ)
  | create name csize dstr memory => db.createTable name csize dstr memory
  | findOrCreate name csize dstr memory => db.findOrCreateTable name csize dstr memory
  | remove name => (db.removeTable name).map fun db => (db, none)
  | use p table => (db.useTable p table).map fun db => (db, none)

/-- A table that is returned for a name that has none is the one of that name. -/
def register (live : NameMap ℕ) (name : CString) (result : Option ℕ) : NameMap ℕ :=
  if name ∈ live then live else
    match result with
    | some p => live.insert name p
    | none => live

/-- The effect on the names, where `result` is returned. -/
def act (live : NameMap ℕ) (result : Option ℕ) : DbOp → NameMap ℕ
  | create name _ _ _ => register live name result
  | findOrCreate name _ _ _ => register live name result
  | remove name => live.erase name
  | use _ _ => live

/-- No other name with the hash is there, and no removal forgets a key. -/
def Distinct (db : Database) (live : NameMap ℕ) : DbOp → Prop
  | create name _ _ _ => Unclashed hash live name
  | findOrCreate name _ _ _ => Unclashed hash live name
  | remove name => Unclashed hash live name ∧ (name ∈ live → db.tables.thins (hash name) = false)
  | use _ _ => True

/-- What the operation needs besides: a name that fits into its table, a table whose release comes to an end,
a table that is there. -/
def Possible (db : Database) (live : NameMap ℕ) : DbOp → Prop
  | create name _ _ _ => name.strlen < maxTableName
  | findOrCreate name _ _ _ => name.strlen < maxTableName
  | remove name => ∀ p, live.lookup name = some p →
      ∀ named, db.tableAllocator.get p = some named → named.table.release.isSome = true
  | use p _ => (db.tableAllocator.get p).isSome = true

/-- A name that has a table gives `found`, and one without a table a new one, of this name and for these
components. -/
def Registers (db db' : Database) (live : NameMap ℕ) (name : CString) (csize : ℕ) (dstr : Bool)
    (memory : Address → UInt8) (found result : Option ℕ) : Prop :=
  (name ∈ live → result = found ∧ db' = db)
  ∧ (name ∉ live → ∃ p, result = some p ∧ db.tableAllocator.get p = none
      ∧ db'.tableAllocator.get = Function.update db.tableAllocator.get p
        (some ⟨name, hash name, Table.init csize dstr memory⟩))

/-- What is asked for under a name. -/
def Does (db db' : Database) (live : NameMap ℕ) (result : Option ℕ) : DbOp → Prop
  | create name csize dstr memory => Registers db db' live name csize dstr memory none result
  | findOrCreate name csize dstr memory => Registers db db' live name csize dstr memory (live.lookup name) result
  | remove name => (name ∉ live → db' = db)
      ∧ ∀ p, live.lookup name = some p →
        db'.tableAllocator.get = Function.update db.tableAllocator.get p none
  | use p table => ∃ named, db.tableAllocator.get p = some named
      ∧ db'.tableAllocator.get = Function.update db.tableAllocator.get p (some { named with table := table })

instance (db : Database) (live : NameMap ℕ) : (op : DbOp) → Decidable (op.Distinct db live)
  | create name _ _ _ => inferInstanceAs (Decidable (Unclashed hash live name))
  | findOrCreate name _ _ _ => inferInstanceAs (Decidable (Unclashed hash live name))
  | remove name => inferInstanceAs
      (Decidable (Unclashed hash live name ∧ (name ∈ live → db.tables.thins (hash name) = false)))
  | use _ _ => isTrue trivial

end DbOp

/-- The runs whose operations meet the condition `ok` in the state before them. -/
inductive DbRun (ok : Database → NameMap ℕ → DbOp → Prop) : Database → NameMap ℕ → Prop
  | init : DbRun ok Database.init ∅
  | step {db db' : Database} {live : NameMap ℕ} {result : Option ℕ} (h : DbRun ok db live) (op : DbOp)
      (hok : ok db live op) (hcall : op.call db = some (db', result)) : DbRun ok db' (op.act live result)

lemma DbRun.mono {ok ok' : Database → NameMap ℕ → DbOp → Prop}
    (hok : ∀ db live op, ok db live op → ok' db live op) {db : Database} {live : NameMap ℕ}
    (h : DbRun ok db live) : DbRun ok' db live := by
  induction h with
  | init => exact .init
  | step _ op hop hcall ih => exact ih.step op (hok _ _ op hop) hcall

/-- The operations one after the other, as long as they meet the condition. -/
def dbRunList (ok : Database → NameMap ℕ → DbOp → Prop) [∀ db live op, Decidable (ok db live op)] :
    List DbOp → Database → NameMap ℕ → Option (Database × NameMap ℕ)
  | [], db, live => some (db, live)
  | op :: ops, db, live =>
      if ok db live op then do
        let (db', result) ← op.call db
        dbRunList ok ops db' (op.act live result)
      else none

lemma DbRun.list {ok : Database → NameMap ℕ → DbOp → Prop} [∀ db live op, Decidable (ok db live op)]
    {ops : List DbOp} {db : Database} {live : NameMap ℕ} {r : Database × NameMap ℕ}
    (h : DbRun ok db live) (hr : dbRunList ok ops db live = some r) : DbRun ok r.1 r.2 := by
  induction ops generalizing db live with
  | nil =>
      rw [← Option.some.inj hr]
      exact h
  | cons op ops ih =>
      by_cases hop : ok db live op
      · rw [dbRunList, if_pos hop] at hr
        obtain ⟨⟨db', result⟩, hcall, hr⟩ := Option.bind_eq_some_iff.mp hr
        exact ih (h.step op hop hcall) hr
      · rw [dbRunList, if_neg hop] at hr
        cases hr

/-- A run is there if something can be read off its end. -/
lemma DbRun.exists_of_map (ok : Database → NameMap ℕ → DbOp → Prop)
    [∀ db live op, Decidable (ok db live op)] (ops : List DbOp) {T : Type} {f : Database × NameMap ℕ → T}
    {x : T} (h : (dbRunList ok ops Database.init ∅).map f = some x) :
    ∃ db live, DbRun ok db live ∧ f (db, live) = x := by
  obtain ⟨⟨db, live⟩, hr, hx⟩ := Option.map_eq_some_iff.mp h
  exact ⟨db, live, DbRun.init.list hr, hx⟩

namespace Database

/-- What a new table changes. -/
lemma newTable_cases {db db' : Database} {name : CString} {csize : ℕ} {dstr : Bool}
    {memory : Address → UInt8} {p : ℕ} (h : db.newTable name csize dstr memory = some (db', p)) :
    name.strlen < maxTableName ∧ db.tableAllocator.get p = none
      ∧ (∃ ins, db.tables.insert (hash name) p = some (db'.tables, ins))
      ∧ db'.tableAllocator.get = Function.update db.tableAllocator.get p
        (some ⟨name, hash name, Table.init csize dstr memory⟩) := by
  obtain ⟨table, htable, h⟩ := Option.bind_eq_some_iff.mp h
  by_cases hlen : name.strlen < maxTableName
  · rw [NamedTable.init, if_pos hlen] at htable
    obtain rfl := Option.some.inj htable
    obtain ⟨q, tableAllocator, halloc, hvacant, hget⟩ :=
      db.tableAllocator.get_alloc ⟨name, hash name, Table.init csize dstr memory⟩
    simp only [getTableId, halloc] at h
    obtain ⟨⟨tables, ins⟩, hins, h⟩ := Option.bind_eq_some_iff.mp h
    obtain ⟨rfl, rfl⟩ := Prod.mk.inj (Option.some.inj h)
    exact ⟨hlen, hvacant, ⟨ins, hins⟩, hget⟩
  · rw [NamedTable.init, if_neg hlen] at htable
    cases htable

/-- What the removal of a table that is there changes. -/
lemma removeTable_cases {db db' : Database} {name : CString} {p : ℕ}
    (hp : db.tables.get (hash name) = some (some p)) (h : db.removeTable name = some db') :
    ∃ table value, db.tableAllocator.get p = some table
      ∧ db.tables.remove (hash name) = some (db'.tables, value)
      ∧ db'.tableAllocator.get = Function.update db.tableAllocator.get p none := by
  rw [Database.removeTable, getTableId, hp, Option.bind_eq_bind, Option.bind_some] at h
  obtain ⟨table, htable, h⟩ := Option.bind_eq_some_iff.mp h
  obtain ⟨calls, -, h⟩ := Option.bind_eq_some_iff.mp h
  obtain ⟨tableAllocator, hrelease, h⟩ := Option.bind_eq_some_iff.mp h
  obtain ⟨⟨tables, value⟩, hremove, h⟩ := Option.bind_eq_some_iff.mp h
  obtain rfl := Option.some.inj h
  obtain ⟨tableAllocator', hrelease', hget⟩ := Pool.get_release htable
  obtain rfl := Option.some.inj (hrelease'.symm.trans hrelease)
  exact ⟨table, value, htable, hremove, hget⟩

/-- A removal where nothing is changes nothing. -/
lemma removeTable_missing {db db' : Database} {name : CString}
    (hp : db.tables.get (hash name) = some none) (h : db.removeTable name = some db') : db' = db := by
  rw [Database.removeTable, getTableId, hp] at h
  exact (Option.some.inj h).symm

/-- What the use of a table changes. -/
lemma useTable_cases {db db' : Database} {p : ℕ} {table : Table} (h : db.useTable p table = some db') :
    ∃ named, db.tableAllocator.get p = some named ∧ db'.tables = db.tables
      ∧ db'.tableAllocator.get
        = Function.update db.tableAllocator.get p (some { named with table := table }) := by
  obtain ⟨named, hnamed, h⟩ := Option.bind_eq_some_iff.mp h
  obtain ⟨tableAllocator, hput, h⟩ := Option.bind_eq_some_iff.mp h
  obtain rfl := Option.some.inj h
  obtain ⟨tableAllocator', hput', hget⟩ := Pool.get_put hnamed { named with table := table }
  obtain rfl := Option.some.inj (hput'.symm.trans hput)
  exact ⟨named, hnamed, rfl, hget⟩

lemma useTable_spec {db : Database} {p : ℕ} {named : NamedTable} (hp : db.tableAllocator.get p = some named)
    (table : Table) : ∃ db', db.useTable p table = some db' ∧ db'.tables = db.tables
      ∧ db'.tableAllocator.get = Function.update db.tableAllocator.get p (some { named with table := table }) := by
  obtain ⟨tableAllocator, hput, hget⟩ := Pool.get_put hp { named with table := table }
  refine ⟨⟨db.tables, tableAllocator⟩, ?_, rfl, hget⟩
  simp only [Database.useTable, hp, Option.bind_eq_bind, Option.bind_some, hput]

/-- **A new table**, under a hash that is not there. -/
theorem newTable_spec {db : Database} {M : KeyMap ℕ} {name : CString} (h : Keyed db.tables M)
    (hnew : hash name ∉ M) (hlen : name.strlen < maxTableName) (csize : ℕ) (dstr : Bool)
    (memory : Address → UInt8) :
    ∃ db' p, db.newTable name csize dstr memory = some (db', p) ∧ db.tableAllocator.get p = none
      ∧ db'.tableAllocator.get = Function.update db.tableAllocator.get p
        (some ⟨name, hash name, Table.init csize dstr memory⟩)
      ∧ Keyed db'.tables (M.insert (hash name) p) := by
  obtain ⟨p, tableAllocator, halloc, hvacant, hget⟩ :=
    db.tableAllocator.get_alloc ⟨name, hash name, Table.init csize dstr memory⟩
  obtain ⟨tables, ins, hins, -, hkeyed⟩ := h.insert hnew p
  refine ⟨⟨tables, tableAllocator⟩, p, ?_, hvacant, hget, hkeyed⟩
  simp only [Database.newTable, NamedTable.init, if_pos hlen, getTableId, Option.bind_eq_bind,
    Option.bind_some, halloc, hins]

/-- The invariant: the tables are stored under the hashes of their names. -/
structure Named (db : Database) (live : NameMap ℕ) : Prop where
  stored : ∃ M, Keyed db.tables M ∧ Stores hash live M
  named : ∀ name p, live.lookup name = some p →
    ∃ table, db.tableAllocator.get p = some table ∧ table.name = name

namespace Named

variable {db db' : Database} {live : NameMap ℕ} {name : CString} {p : ℕ}

lemma init : Named Database.init ∅ where
  stored := ⟨∅, Keyed.init, Stores.empty⟩
  named name p hp := by
    rw [Finmap.lookup_empty] at hp
    cases hp

/-- Different names have different tables. -/
lemma apart (h : Named db live) {other : CString} (hp : live.lookup name = some p)
    (hq : live.lookup other = some p) : name = other := by
  obtain ⟨table, hget, hname⟩ := h.named name p hp
  obtain ⟨table', hget', hname'⟩ := h.named other p hq
  obtain rfl := Option.some.inj (hget.symm.trans hget')
  rw [← hname, hname']

/-- The lookup of a name that does not clash. -/
lemma find (h : Named db live) (hun : Unclashed hash live name) :
    db.tables.get (hash name) = some (live.lookup name) := by
  obtain ⟨M, hkeyed, hstores⟩ := h.stored
  rw [hkeyed.get, hstores.lookup_iff.mpr hun]

/-- **A new table** for a name that does not clash. -/
theorem newTable (h : Named db live) (hun : Unclashed hash live name) (hnew : name ∉ live)
    (hlen : name.strlen < maxTableName) (csize : ℕ) (dstr : Bool) (memory : Address → UInt8) :
    ∃ db' p, db.newTable name csize dstr memory = some (db', p) ∧ db.tableAllocator.get p = none
      ∧ db'.tableAllocator.get = Function.update db.tableAllocator.get p
        (some ⟨name, hash name, Table.init csize dstr memory⟩)
      ∧ Named db' (live.insert name p) := by
  obtain ⟨M, hkeyed, hstores⟩ := h.stored
  have hmissing : hash name ∉ M := by
    rw [← Finmap.lookup_eq_none, hstores.lookup_iff.mpr hun]
    exact Finmap.lookup_eq_none.mpr hnew
  obtain ⟨db', p, heq, hvacant, hget, hkeyed'⟩ := newTable_spec hkeyed hmissing hlen csize dstr memory
  refine ⟨db', p, heq, hvacant, hget, ⟨_, hkeyed', hstores.insert hun p⟩, fun other q hq => ?_⟩
  rw [hget]
  by_cases hother : other = name
  · rw [hother, Finmap.lookup_insert] at hq
    rw [← Option.some.inj hq, Function.update_self]
    exact ⟨_, rfl, hother.symm⟩
  · rw [Finmap.lookup_insert_of_ne _ hother] at hq
    obtain ⟨table, htable, hname⟩ := h.named other q hq
    have hne : q ≠ p := by
      rintro rfl
      rw [hvacant] at htable
      cases htable
    rw [Function.update_of_ne hne]
    exact ⟨table, htable, hname⟩

/-- What `fdb_database_create_table` and `fdb_database_find_or_create_table` have in common:
a name without a table gets a new one. -/
lemma register (h : Named db live) (hun : Unclashed hash live name) (csize : ℕ) (dstr : Bool)
    (memory : Address → UInt8) (found : Option ℕ) {result : Option ℕ}
    (hcall : (match live.lookup name with
      | some _ => some (db, found)
      | none => (db.newTable name csize dstr memory).bind fun r => some (r.1, some r.2))
        = some (db', result)) : Named db' (DbOp.register live name result) := by
  cases hlive : live.lookup name with
  | some p =>
      rw [hlive] at hcall
      obtain ⟨rfl, rfl⟩ := Prod.mk.inj (Option.some.inj hcall)
      simp only [DbOp.register, if_pos (Finmap.mem_of_lookup_eq_some hlive)]
      exact h
  | none =>
      rw [hlive] at hcall
      obtain ⟨⟨db₁, p⟩, hnew, hcall⟩ := Option.bind_eq_some_iff.mp hcall
      obtain ⟨rfl, rfl⟩ := Prod.mk.inj (Option.some.inj hcall)
      have hmem : name ∉ live := Finmap.lookup_eq_none.mp hlive
      obtain ⟨db₂, q, hnew', -, -, hnamed⟩ := h.newTable hun hmem (newTable_cases hnew).1 csize dstr memory
      obtain ⟨rfl, rfl⟩ := Prod.mk.inj (Option.some.inj (hnew'.symm.trans hnew))
      simp only [DbOp.register, if_neg hmem]
      exact hnamed

/-- **A removal.** -/
theorem remove (h : Named db live) (hun : Unclashed hash live name)
    (hthins : name ∈ live → db.tables.thins (hash name) = false)
    (hcall : db.removeTable name = some db') : Named db' (live.erase name) := by
  obtain ⟨M, hkeyed, hstores⟩ := h.stored
  have hfind := h.find hun
  cases hlive : live.lookup name with
  | none =>
      rw [hlive] at hfind
      rw [removeTable_missing hfind hcall]
      rwa [show live.erase name = live from Finmap.ext_lookup fun k => by
        by_cases hk : k = name
        · rw [hk, Finmap.lookup_erase, hlive]
        · rw [Finmap.lookup_erase_ne hk]]
  | some p =>
      rw [hlive] at hfind
      obtain ⟨table, value, htable, hremove, hget⟩ := removeTable_cases hfind hcall
      have hmem := Finmap.mem_of_lookup_eq_some hlive
      obtain ⟨tables', hremove', hkeyed'⟩ := hkeyed.remove (hstores.kept name p hlive) (hthins hmem)
      obtain ⟨rfl, -⟩ := Prod.mk.inj (Option.some.inj (hremove'.symm.trans hremove))
      refine ⟨⟨_, hkeyed', hstores.erase hun⟩, fun other q hq => ?_⟩
      have hother : other ≠ name := by
        rintro rfl
        rw [Finmap.lookup_erase] at hq
        cases hq
      rw [Finmap.lookup_erase_ne hother] at hq
      obtain ⟨table', htable', hname⟩ := h.named other q hq
      have hne : q ≠ p := by
        rintro rfl
        exact hother (h.apart hq hlive)
      exact ⟨table', by rw [hget, Function.update_of_ne hne, htable'], hname⟩

/-- The use of a table. -/
lemma use (h : Named db live) {table : Table} (hcall : db.useTable p table = some db') :
    Named db' live := by
  obtain ⟨named, hnamed, htables, hget⟩ := useTable_cases hcall
  refine ⟨htables ▸ h.stored, fun other q hq => ?_⟩
  obtain ⟨old, hold, hname⟩ := h.named other q hq
  rw [hget]
  by_cases hqp : q = p
  · rw [hqp, hnamed] at hold
    obtain rfl := Option.some.inj hold
    rw [hqp, Function.update_self]
    exact ⟨_, rfl, hname⟩
  · rw [Function.update_of_ne hqp]
    exact ⟨old, hold, hname⟩

/-- **Every operation** keeps the invariant. -/
theorem step (h : Named db live) {op : DbOp} {result : Option ℕ} (hok : op.Distinct db live)
    (hcall : op.call db = some (db', result)) : Named db' (op.act live result) := by
  cases op with
  | create name csize dstr memory =>
      rw [DbOp.call, Database.createTable, getTableId, h.find hok] at hcall
      exact h.register hok csize dstr memory none (by
        cases hlive : live.lookup name <;> rw [hlive] at hcall <;> exact hcall)
  | findOrCreate name csize dstr memory =>
      rw [DbOp.call, Database.findOrCreateTable, getTableId, h.find hok] at hcall
      exact h.register hok csize dstr memory (live.lookup name) (by
        cases hlive : live.lookup name <;> rw [hlive] at hcall <;> exact hcall)
  | remove name =>
      obtain ⟨db₁, hremove, hr⟩ := Option.map_eq_some_iff.mp hcall
      obtain rfl := (Prod.mk.inj hr).1
      exact h.remove hok.1 hok.2 hremove
  | use p table =>
      obtain ⟨db₁, huse, hr⟩ := Option.map_eq_some_iff.mp hcall
      obtain rfl := (Prod.mk.inj hr).1
      exact h.use huse

/-- What `fdb_database_create_table` and `fdb_database_find_or_create_table` do. -/
lemma registers (h : Named db live) (hun : Unclashed hash live name) (hlen : name.strlen < maxTableName)
    (csize : ℕ) (dstr : Bool) (memory : Address → UInt8) (found : Option ℕ) :
    ∃ db' result, (match live.lookup name with
      | some _ => some (db, found)
      | none => (db.newTable name csize dstr memory).bind fun r => some (r.1, some r.2)) = some (db', result)
      ∧ DbOp.Registers db db' live name csize dstr memory found result := by
  cases hlive : live.lookup name with
  | some p =>
      have hmem := Finmap.mem_of_lookup_eq_some hlive
      exact ⟨db, found, rfl, fun _ => ⟨rfl, rfl⟩, fun hnew => (hnew hmem).elim⟩
  | none =>
      have hmem : name ∉ live := Finmap.lookup_eq_none.mp hlive
      obtain ⟨db', p, hnew, hvacant, hget, -⟩ := h.newTable hun hmem hlen csize dstr memory
      refine ⟨db', some p, by rw [hnew, Option.bind_some], fun hold => (hmem hold).elim, fun _ => ?_⟩
      exact ⟨p, rfl, hvacant, hget⟩

/-- What `fdb_database_remove_table` does. -/
lemma removes (h : Named db live) (hok : (DbOp.remove name).Distinct db live)
    (hpossible : (DbOp.remove name).Possible db live) :
    ∃ db', db.removeTable name = some db' ∧ (DbOp.remove name).Does db db' live none := by
  obtain ⟨M, hkeyed, hstores⟩ := h.stored
  have hfind := h.find hok.1
  cases hlive : live.lookup name with
  | none =>
      rw [hlive] at hfind
      refine ⟨db, ?_, fun _ => rfl, fun p hp => by cases hlive.symm.trans hp⟩
      rw [Database.removeTable, getTableId, hfind]
      rfl
  | some p =>
      rw [hlive] at hfind
      have hmem := Finmap.mem_of_lookup_eq_some hlive
      obtain ⟨table, htable, -⟩ := h.named name p hlive
      obtain ⟨calls, hcalls⟩ := Option.isSome_iff_exists.mp (hpossible p hlive table htable)
      obtain ⟨tableAllocator, hrelease, hget⟩ := Pool.get_release htable
      obtain ⟨tables, hremove, -⟩ := hkeyed.remove (hstores.kept name p hlive) (hok.2 hmem)
      refine ⟨⟨tables, tableAllocator⟩, ?_, fun hnew => (hnew hmem).elim, fun q hq => ?_⟩
      · simp only [Database.removeTable, getTableId, hfind, Option.bind_eq_bind, Option.bind_some, htable, hcalls,
          hrelease, hremove]
      · obtain rfl := Option.some.inj (hlive.symm.trans hq)
        exact hget

/-- **Every operation** that is possible does what is asked under its name. -/
theorem does (h : Named db live) {op : DbOp} (hok : op.Distinct db live) (hpossible : op.Possible db live) :
    ∃ db' result, op.call db = some (db', result) ∧ op.Does db db' live result := by
  cases op with
  | create name csize dstr memory =>
      obtain ⟨db', result, hcall, hdoes⟩ := h.registers hok hpossible csize dstr memory none
      refine ⟨db', result, ?_, hdoes⟩
      rw [DbOp.call, Database.createTable, getTableId, h.find hok]
      cases hlive : live.lookup name <;> rw [hlive] at hcall <;> exact hcall
  | findOrCreate name csize dstr memory =>
      obtain ⟨db', result, hcall, hdoes⟩ := h.registers hok hpossible csize dstr memory (live.lookup name)
      refine ⟨db', result, ?_, hdoes⟩
      rw [DbOp.call, Database.findOrCreateTable, getTableId, h.find hok]
      cases hlive : live.lookup name <;> rw [hlive] at hcall <;> exact hcall
  | remove name =>
      obtain ⟨db', hremove, hdoes⟩ := h.removes hok hpossible
      exact ⟨db', none, by rw [DbOp.call, hremove, Option.map_some], hdoes⟩
  | use p table =>
      obtain ⟨named, hnamed⟩ := Option.isSome_iff_exists.mp hpossible
      obtain ⟨db', huse, -, hget⟩ := useTable_spec hnamed table
      exact ⟨db', none, by rw [DbOp.call, huse, Option.map_some], named, hnamed, hget⟩

end Named

end Database

lemma DbRun.named {db : Database} {live : NameMap ℕ}
    (h : DbRun (fun db live op => op.Distinct db live) db live) : db.Named live := by
  induction h with
  | init => exact Database.Named.init
  | step h op hok hcall ih => exact ih.step hok hcall

/-- What a lookup by name shows of the tables. -/
structure ByName (db : Database) (live : NameMap ℕ) : Prop where
  find_iff : ∀ name, db.findTable name = some (live.lookup name) ↔ Unclashed hash live name
  named : ∀ name p, live.lookup name = some p →
    ∃ table, db.tableAllocator.get p = some table ∧ table.name = name
  apart : ∀ name other p, live.lookup name = some p → live.lookup other = some p → name = other

lemma Database.Named.byName {db : Database} {live : NameMap ℕ} (h : db.Named live) : ByName db live where
  find_iff name := by
    obtain ⟨M, hkeyed, hstores⟩ := h.stored
    rw [Database.findTable, getTableId, hkeyed.get, Option.some.injEq]
    exact hstores.lookup_iff
  named := h.named
  apart _ _ _ hp hq := h.apart hp hq

/-! ### Registries -/

variable {V : Type}

/-- An operation on a registry. -/
inductive RegOp (V : Type) where
  | insert (key : CString) (value : V)
  | remove (key : CString)

namespace RegOp

/-- The effect on the registry. -/
def call (reg : HtRegistry V) : RegOp V → Option (HtRegistry V)
  | insert key value => reg.insert key value
  | remove key => reg.remove key

/-- The effect on the names: the value last inserted counts. -/
def act (live : NameMap V) : RegOp V → NameMap V
  | insert key value => live.insert key value
  | remove key => live.erase key

/-- No other key with the hash is there, and a removal forgets no key; one that finds
nothing ends in a slot of a leaf. -/
def Distinct (reg : HtRegistry V) (live : NameMap V) : RegOp V → Prop
  | insert key _ => Unclashed hash live key
  | remove key => Unclashed hash live key ∧ (key ∈ live → reg.registry.thins (hash key) = false)
      ∧ (key ∉ live → reg.registry.tolerates (hash key) = true)

instance (reg : HtRegistry V) (live : NameMap V) : (op : RegOp V) → Decidable (op.Distinct reg live)
  | insert key _ => inferInstanceAs (Decidable (Unclashed hash live key))
  | remove key => inferInstanceAs (Decidable (Unclashed hash live key
      ∧ (key ∈ live → reg.registry.thins (hash key) = false)
      ∧ (key ∉ live → reg.registry.tolerates (hash key) = true)))

end RegOp

/-- The runs whose operations meet the condition `ok` in the state before them. -/
inductive RegRun (ok : HtRegistry V → NameMap V → RegOp V → Prop) : HtRegistry V → NameMap V → Prop
  | init : RegRun ok HtRegistry.init ∅
  | step {reg reg' : HtRegistry V} {live : NameMap V} (h : RegRun ok reg live) (op : RegOp V)
      (hok : ok reg live op) (hcall : op.call reg = some reg') : RegRun ok reg' (op.act live)

/-- The operations one after the other, as long as they meet the condition. -/
def regRunList (ok : HtRegistry V → NameMap V → RegOp V → Prop)
    [∀ reg live op, Decidable (ok reg live op)] :
    List (RegOp V) → HtRegistry V → NameMap V → Option (HtRegistry V × NameMap V)
  | [], reg, live => some (reg, live)
  | op :: ops, reg, live =>
      if ok reg live op then do
        let reg' ← op.call reg
        regRunList ok ops reg' (op.act live)
      else none

lemma RegRun.list {ok : HtRegistry V → NameMap V → RegOp V → Prop}
    [∀ reg live op, Decidable (ok reg live op)] {ops : List (RegOp V)} {reg : HtRegistry V}
    {live : NameMap V} {r : HtRegistry V × NameMap V} (h : RegRun ok reg live)
    (hr : regRunList ok ops reg live = some r) : RegRun ok r.1 r.2 := by
  induction ops generalizing reg live with
  | nil =>
      rw [← Option.some.inj hr]
      exact h
  | cons op ops ih =>
      by_cases hop : ok reg live op
      · rw [regRunList, if_pos hop] at hr
        obtain ⟨reg', hcall, hr⟩ := Option.bind_eq_some_iff.mp hr
        exact ih (h.step op hop hcall) hr
      · rw [regRunList, if_neg hop] at hr
        cases hr

/-- A run is there if something can be read off its end. -/
lemma RegRun.exists_of_map (ok : HtRegistry V → NameMap V → RegOp V → Prop)
    [∀ reg live op, Decidable (ok reg live op)] (ops : List (RegOp V)) {T : Type}
    {f : HtRegistry V × NameMap V → T} {x : T}
    (h : (regRunList ok ops HtRegistry.init ∅).map f = some x) :
    ∃ reg live, RegRun ok reg live ∧ f (reg, live) = x := by
  obtain ⟨⟨reg, live⟩, hr, hx⟩ := Option.map_eq_some_iff.mp h
  exact ⟨reg, live, RegRun.init.list hr, hx⟩

namespace HtRegistry

/-- The invariant: the values are stored under the hashes of their keys. -/
def Named (reg : HtRegistry V) (live : NameMap V) : Prop :=
  ∃ M, Keyed reg.registry M ∧ Stores hash live M

variable {reg reg' : HtRegistry V} {live : NameMap V} {key : CString}

/-- An insertion under a hash: it takes the place of a value that is there. -/
lemma insert_keyed {M : KeyMap V} (h : Keyed reg.registry M) (key : CString) (value : V) :
    ∃ reg', reg.insert key value = some reg' ∧ Keyed reg'.registry (M.insert (hash key) value) := by
  by_cases hmem : hash key ∈ M
  · obtain ⟨t₁, t', ins, heq, hfound, hassign, hkeyed⟩ := h.put hmem value
    refine ⟨⟨t'⟩, ?_, hkeyed⟩
    simp only [HtRegistry.insert, Option.bind_eq_bind, heq, Option.bind_some, if_pos hfound, hassign]
  · obtain ⟨t', ins, heq, hnew, hkeyed⟩ := h.insert hmem value
    refine ⟨⟨t'⟩, ?_, hkeyed⟩
    simp only [HtRegistry.insert, Option.bind_eq_bind, heq, Option.bind_some, hnew, Bool.true_eq_false,
      if_false]

/-- **An insertion**. -/
theorem Named.insert (h : reg.Named live) (hun : Unclashed hash live key) (value : V) :
    ∃ reg', reg.insert key value = some reg' ∧ reg'.Named (live.insert key value) := by
  obtain ⟨M, hkeyed, hstores⟩ := h
  obtain ⟨reg', heq, hkeyed'⟩ := insert_keyed hkeyed key value
  exact ⟨reg', heq, _, hkeyed', hstores.insert hun value⟩

/-- **A removal**, of a key that is there or not. -/
theorem Named.remove (h : reg.Named live) (hok : (RegOp.remove key).Distinct reg live) :
    ∃ reg', reg.remove key = some reg' ∧ reg'.Named (live.erase key) := by
  obtain ⟨M, hkeyed, hstores⟩ := h
  obtain ⟨hun, hthins, htol⟩ := hok
  have hlookup := hstores.lookup_iff.mpr hun
  cases hlive : live.lookup key with
  | some v =>
      rw [hlive] at hlookup
      obtain ⟨t', heq, hkeyed'⟩ := hkeyed.remove hlookup (hthins (Finmap.mem_of_lookup_eq_some hlive))
      refine ⟨⟨t'⟩, ?_, _, hkeyed', hstores.erase hun⟩
      simp only [HtRegistry.remove, Option.bind_eq_bind, heq, Option.bind_some]
  | none =>
      rw [hlive] at hlookup
      obtain ⟨t', heq, hkeyed'⟩ := hkeyed.remove_missing hlookup (htol (Finmap.lookup_eq_none.mp hlive))
      have hstores' := hstores.erase hun
      have hM : M.erase (hash key) = M := Finmap.ext_lookup fun i => by
        by_cases hi : i = hash key
        · rw [hi, Finmap.lookup_erase, hlookup]
        · rw [Finmap.lookup_erase_ne hi]
      rw [hM] at hstores'
      refine ⟨⟨t'⟩, ?_, _, hkeyed', hstores'⟩
      simp only [HtRegistry.remove, Option.bind_eq_bind, heq, Option.bind_some]

end HtRegistry

lemma RegRun.named {reg : HtRegistry V} {live : NameMap V}
    (h : RegRun (fun reg live op => op.Distinct reg live) reg live) : reg.Named live := by
  induction h with
  | init => exact ⟨∅, Keyed.init, Stores.empty⟩
  | step h op hok hcall ih =>
      cases op with
      | insert key value =>
          obtain ⟨reg', heq, hnamed⟩ := ih.insert hok value
          obtain rfl := Option.some.inj (heq.symm.trans hcall)
          exact hnamed
      | remove key =>
          obtain ⟨reg', heq, hnamed⟩ := ih.remove hok
          obtain rfl := Option.some.inj (heq.symm.trans hcall)
          exact hnamed

/-- Every operation on a registry comes to an end. -/
lemma HtRegistry.Named.answers {reg : HtRegistry V} {live : NameMap V} (h : reg.Named live) {op : RegOp V}
    (hok : op.Distinct reg live) : ∃ reg', op.call reg = some reg' := by
  cases op with
  | insert key value =>
      obtain ⟨reg', heq, -⟩ := h.insert hok value
      exact ⟨reg', heq⟩
  | remove key =>
      obtain ⟨reg', heq, -⟩ := h.remove hok
      exact ⟨reg', heq⟩

/-- **Where no two names with one hash meet**, a database finds under a name the table that
was created under it, which has this name, and a registry finds the value last inserted. A
name finds what is its own exactly if no other name with its hash is there. Every further operation
on the database does what is asked for under its name, and none on the registry fails. -/
theorem keyed_by_name {V : Type} (db : Database) (live : NameMap ℕ) (reg : HtRegistry V)
    (values : NameMap V) :
    (DbRun (fun db live op => op.Distinct db live) db live → ByName db live
      ∧ ∀ op : DbOp, op.Distinct db live → op.Possible db live →
        ∃ db' result, op.call db = some (db', result) ∧ op.Does db db' live result)
    ∧ (RegRun (fun reg values op => op.Distinct reg values) reg values →
      (∀ key, reg.get key = some (values.lookup key) ↔ Unclashed hash values key)
      ∧ ∀ op : RegOp V, op.Distinct reg values → ∃ reg', op.call reg = some reg') := by
  refine ⟨fun h => ⟨h.named.byName, fun op => h.named.does⟩, fun h => ⟨fun key => ?_, fun op => h.named.answers⟩⟩
  obtain ⟨M, hkeyed, hstores⟩ := h.named
  rw [HtRegistry.get, hkeyed.get, Option.some.injEq]
  exact hstores.lookup_iff

/-- "BeltStaff" and "BurnGun", which have the same hash. -/
def beltStaff : CString := ⟨[66, 101, 108, 116, 83, 116, 97, 102, 102], by decide⟩

@[inherit_doc beltStaff]
def burnGun : CString := ⟨[66, 117, 114, 110, 71, 117, 110], by decide⟩

theorem keyed_by_name_removed :
    (∃ db live, (live.lookup beltStaff = some 0 ∧ live.lookup burnGun = none) ∧ ByName db live
      ∧ ∀ op : DbOp, op.Distinct db live → op.Possible db live →
        ∃ db' result, op.call db = some (db', result) ∧ op.Does db db' live result)
    ∧ ∃ (reg : HtRegistry ℕ) (live : NameMap ℕ), (live.lookup burnGun = some 8 ∧ live.lookup beltStaff = none)
      ∧ (∀ key, reg.get key = some (live.lookup key) ↔ Unclashed hash live key)
      ∧ ∀ op : RegOp ℕ, op.Distinct reg live → ∃ reg', op.call reg = some reg' := by
  obtain ⟨db, live, h, hM⟩ := DbRun.exists_of_map (fun db live op => op.Distinct db live)
    [.create burnGun 16 true fun _ => 0, .remove burnGun, .findOrCreate beltStaff 8 false fun _ => 0,
      .create beltStaff 8 false fun _ => 0]
    (f := fun r => (r.2.lookup beltStaff, r.2.lookup burnGun)) (x := (some 0, none)) (by decide +kernel)
  obtain ⟨reg, live', h', hM'⟩ := RegRun.exists_of_map (V := ℕ) (fun reg live op => op.Distinct reg live)
    [.insert beltStaff 3, .remove beltStaff, .insert burnGun 7, .insert burnGun 8]
    (f := fun r => (r.2.lookup burnGun, r.2.lookup beltStaff)) (x := (some 8, none)) (by decide +kernel)
  have hkeyed := keyed_by_name db live reg live'
  exact ⟨⟨db, live, Prod.mk.inj hM, hkeyed.1 h⟩, reg, live', Prod.mk.inj hM', hkeyed.2 h'⟩

/-- The second of two component types gets the table of the first one. -/
theorem not_keyed_by_name : ¬ ∀ (db : Database) (live : NameMap ℕ), DbRun (fun _ _ _ => True) db live →
    ∀ name, db.findTable name = some (live.lookup name) := by
  intro hall
  obtain ⟨db, live, h, hM⟩ := DbRun.exists_of_map (fun _ _ _ => True)
    [.create beltStaff 8 false fun _ => 0] (f := fun r => (r.1.findTable burnGun, r.2.lookup burnGun))
    (x := (some (some 0), none)) (by decide +kernel)
  obtain ⟨hfind, hlookup⟩ := Prod.mk.inj hM
  have hclaim := hall db live h burnGun
  rw [hlookup, show db.findTable burnGun = some (some 0) from hfind] at hclaim
  cases Option.some.inj hclaim

end Furious
