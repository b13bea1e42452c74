import Furious.Data.Runs
import Furious.Data.Names

/-!
Temporary tables.

The code of a statement with an expand gathers components in temporary tables. In each
frame it creates them, under names that are made of the component types and the numbers
of its operator and its thread, and clears them; it never removes them. So they can be
created once.

* `tempTableName`: the names, `ExpandCall`: the code of a statement with its arguments;
* `Creates`, `CallRun`, `FramesRun`: what the calls of some frames do to the database;
* `Ready`, `Starts`: a creation gives an empty table, and so do all of a frame;
* `Fresh`: the names of a frame are not taken;
* `starts_iff`: **in the first frame the tables are there if their names are not taken,
  in later frames never**.
-/

namespace Furious

/-! ### The names -/

/-- `sanitize_name`, for one character. -/
def sanitize (c : UInt8) : UInt8 :=
  let c := if 65 ≤ c ∧ c ≤ 90 then c + 32 else c
  -- the characters ":<>,. "
  if c ∈ [58, 60, 62, 44, 46, 32] then 95 else c

/-- The digits of a number. -/
def digits (n : ℕ) : List UInt8 := (Nat.toDigits 10 n).map fun c => UInt8.ofNat c.toNat

/-- The format `%d` of a 32 bit number. -/
def printInt (n : ℕ) : List UInt8 := if n < 2 ^ 31 then digits n else 45 :: digits (2 ^ 32 - n)

/-- What `snprintf` writes for a temporary table, before it is cut off: "temp_table_", the
type, and the numbers. -/
def tempTableText (ctype : CString) (gatherId subplanId chunkSize offset stride : ℕ) : List UInt8 :=
  [116, 101, 109, 112, 95, 116, 97, 98, 108, 101, 95] ++ ctype.bytes.map sanitize
    ++ 95 :: digits gatherId ++ 95 :: printInt subplanId ++ 95 :: printInt gatherId
    ++ 95 :: printInt chunkSize ++ 95 :: printInt offset ++ 95 :: printInt stride

lemma sanitize_ne {c : UInt8} (h : c ≠ 0) : sanitize c ≠ 0 := by
  have hall : ∀ c : Fin 256, UInt8.ofNat c ≠ 0 → sanitize (UInt8.ofNat c) ≠ 0 := by decide +kernel
  have hc := hall ⟨c.toNat, c.toNat_lt⟩
  rw [UInt8.ofNat_toNat] at hc
  exact hc h

lemma zero_notMem_digits (n : ℕ) : 0 ∉ digits n := by
  intro hmem
  obtain ⟨c, hc, hzero⟩ := List.mem_map.mp hmem
  have hdigit := Nat.isDigit_of_mem_toDigits (by decide) (by decide) hc
  rw [Char.isDigit, Bool.and_eq_true, decide_eq_true_eq, decide_eq_true_eq] at hdigit
  have hlo : 48 ≤ c.toNat := hdigit.1
  have hhi : c.toNat ≤ 57 := hdigit.2
  have hval := congrArg UInt8.toNat hzero
  rw [UInt8.toNat_ofNat_of_lt' (by rw [UInt8.size]; omega)] at hval
  have hzero' : (0 : UInt8).toNat = 0 := rfl
  omega

lemma zero_notMem_printInt (n : ℕ) : 0 ∉ printInt n := by
  rw [printInt]
  split
  · exact zero_notMem_digits n
  · exact fun hmem => zero_notMem_digits _ ((List.mem_cons.mp hmem).resolve_left (by decide))

lemma zero_notMem_tempTableText (ctype : CString) (gatherId subplanId chunkSize offset stride : ℕ) :
    0 ∉ tempTableText ctype gatherId subplanId chunkSize offset stride := by
  have hname : 0 ∉ ctype.bytes.map sanitize := by
    intro hmem
    obtain ⟨c, hc, hzero⟩ := List.mem_map.mp hmem
    exact sanitize_ne (fun h => ctype.terminated (h ▸ hc)) hzero
  simp only [tempTableText, List.mem_append, List.mem_cons, not_or, List.not_mem_nil]
  refine ⟨⟨⟨⟨⟨⟨⟨by decide, hname⟩, ?_⟩, ?_⟩, ?_⟩, ?_⟩, ?_⟩, ?_⟩
  · exact ⟨by decide, zero_notMem_digits _⟩
  all_goals exact ⟨by decide, zero_notMem_printInt _⟩

/-- The name of a temporary table: `snprintf` may write 255 characters, the last one zero. -/
def tempTableName (ctype : CString) (gatherId subplanId chunkSize offset stride : ℕ) : CString where
  bytes := (tempTableText ctype gatherId subplanId chunkSize offset stride).take (256 - 1 - 1)
  terminated hmem := zero_notMem_tempTableText ctype gatherId subplanId chunkSize offset stride
    (List.mem_of_mem_take hmem)

lemma strlen_tempTableName (ctype : CString) (gatherId subplanId chunkSize offset stride : ℕ) :
    (tempTableName ctype gatherId subplanId chunkSize offset stride).strlen < maxTableName := by
  have hle := List.length_take_le (256 - 1 - 1)
    (tempTableText ctype gatherId subplanId chunkSize offset stride)
  change (List.take _ _).length < 256
  omega

/-! ### The code of a frame -/

/-- A call of the code of a statement with an expand over components: the operator and its
columns, which are component types, and the arguments of the call. -/
structure ExpandCall where
  gatherId : ℕ
  subplanId : ℕ
  columns : List CString
  cascading : Bool
  chunkSize : ℕ
  offset : ℕ
  stride : ℕ

/-- The names of its temporary tables. -/
def ExpandCall.names (call : ExpandCall) : List CString :=
  call.columns.map fun ctype =>
    tempTableName ctype call.gatherId call.subplanId call.chunkSize call.offset call.stride

/-- The size of the components of a temporary table, which are pointers. -/
abbrev tempSize : ℕ := 8

/-- `fdb_table_clear` of a table of the database. -/
def Database.clearTable (db : Database) (p : ℕ) : Option Database := do
  let named ← db.tableAllocator.get p
  let table ← named.table.clear
  db.useTable p table

/-- A temporary table is created and cleared. -/
def createTemp (db : Database) (name : CString) (memory : Address → UInt8) : Option (Database × ℕ) := do
  let (db, table) ← db.createTable name tempSize false memory
  let p ← table
  let db ← db.clearTable p
  some (db, p)

/-- Temporary tables are created one after the other. -/
inductive Creates : List CString → Database → List ℕ → Database → Prop
  | nil (db : Database) : Creates [] db [] db
  | cons {db db₁ db' : Database} {name : CString} {names : List CString} {memory : Address → UInt8} {p : ℕ}
      {ps : List ℕ} (h : createTemp db name memory = some (db₁, p)) (rest : Creates names db₁ ps db') :
      Creates (name :: names) db (p :: ps) db'

/-- The components of tables change. -/
def Uses : Database → Database → Prop :=
  Relation.ReflTransGen fun db db' => ∃ p table, db.useTable p table = some db'

/-- The end of the code: only that of a cascading gather clears the tables. -/
def ExpandCall.finish (call : ExpandCall) (ps : List ℕ) (db : Database) : Option Database :=
  if call.cascading then ps.foldlM Database.clearTable db else some db

/-- What a call does to the database. -/
def CallRun (call : ExpandCall) (db db' : Database) : Prop :=
  ∃ ps db₁ db₂, Creates call.names db ps db₁ ∧ Uses db₁ db₂ ∧ call.finish ps db₂ = some db'

/-- The calls of a frame one after the other. -/
inductive FrameRun : List ExpandCall → Database → Database → Prop
  | nil (db : Database) : FrameRun [] db db
  | cons {db db₁ db' : Database} {call : ExpandCall} {calls : List ExpandCall} (h : CallRun call db db₁)
      (rest : FrameRun calls db₁ db') : FrameRun (call :: calls) db db'

/-- Some frames one after the other, and what happens to components in between. -/
inductive FramesRun (frame : List ExpandCall) : ℕ → Database → Database → Prop
  | zero (db : Database) : FramesRun frame 0 db db
  | succ {n : ℕ} {db db₁ db₂ db' : Database} (h : FramesRun frame n db db₁)
      (next : FrameRun frame db₁ db₂) (between : Uses db₂ db') : FramesRun frame (n + 1) db db'

/-! ### What is expected of the creations -/

/-- The creation of a temporary table gives an empty table of the right size. -/
def Ready (db : Database) (name : CString) : Prop :=
  ∀ memory, ∃ db' p named, db.createTable name tempSize false memory = some (db', some p)
    ∧ db'.tableAllocator.get p = some named ∧ named.table.esize = tempSize
    ∧ named.table.numComponents = 0 ∧ ∀ id < invalidId, named.table.getComponent id = some none

/-- So do the creations of a call. -/
def CallStarts : List CString → Database → Prop
  | [], _ => True
  | name :: names, db =>
      Ready db name ∧ ∀ memory db' p, createTemp db name memory = some (db', p) → CallStarts names db'

/-- So do all creations of a frame. -/
def Starts : List ExpandCall → Database → Prop
  | [], _ => True
  | call :: calls, db => CallStarts call.names db ∧ ∀ db', CallRun call db db' → Starts calls db'

/-- The names have different hashes, none of which is in `taken`. -/
def Fresh (names : List CString) (taken : Set ℕ) : Prop :=
  (names.map hash).Nodup ∧ ∀ name ∈ names, hash name ∉ taken

lemma fresh_nil (taken : Set ℕ) : Fresh [] taken := ⟨List.nodup_nil, fun _ h => by cases h⟩

lemma fresh_append {names names' : List CString} {taken : Set ℕ} : Fresh (names ++ names') taken
    ↔ Fresh names taken ∧ Fresh names' (taken ∪ {i | i ∈ names.map hash}) := by
  simp only [Fresh, List.map_append, List.nodup_append, List.mem_append, Set.mem_union, Set.mem_ofPred_eq,
    not_or, or_imp, forall_and]
  constructor
  · rintro ⟨⟨hn, hn', hne⟩, ht, ht'⟩
    exact ⟨⟨hn, ht⟩, hn', ht', fun name hname hmem =>
      hne _ hmem _ (List.mem_map_of_mem hname) rfl⟩
  · rintro ⟨⟨hn, ht⟩, hn', ht', hne⟩
    refine ⟨⟨hn, hn', fun i hi j hj hij => ?_⟩, ht, ht'⟩
    obtain ⟨name, hname, rfl⟩ := List.mem_map.mp hj
    exact hne name hname (hij ▸ hi)

lemma fresh_cons {name : CString} {names : List CString} {taken : Set ℕ} : Fresh (name :: names) taken
    ↔ hash name ∉ taken ∧ Fresh names (insert (hash name) taken) := by
  have happend : Fresh ([name] ++ names) taken ↔ _ := fresh_append
  have hset : taken ∪ {i | i ∈ [name].map hash} = insert (hash name) taken := by
    ext i
    simp [or_comm]
  rw [hset] at happend
  simpa [Fresh] using happend

/-! ### The catalog -/

/-- The database has tables under the hashes of `taken`, and no others. -/
def Occupied (db : Database) (taken : Set ℕ) : Prop := ∃ M, Keyed db.tables M ∧ {i | i ∈ M} = taken

lemma Database.Named.occupied {db : Database} {live : NameMap ℕ} (h : db.Named live) :
    Occupied db {i | ∃ name ∈ live, hash name = i} := by
  obtain ⟨M, hkeyed, hstores⟩ := h.stored
  refine ⟨M, hkeyed, Set.ext fun i => ⟨fun hi => ?_, ?_⟩⟩
  · obtain ⟨p, hp⟩ := Finmap.mem_iff.mp hi
    obtain ⟨name, hname, hlive⟩ := hstores.exact i p hp
    exact ⟨name, Finmap.mem_of_lookup_eq_some hlive, hname⟩
  · rintro ⟨name, hname, rfl⟩
    obtain ⟨p, hp⟩ := Finmap.mem_iff.mp hname
    exact Finmap.mem_of_lookup_eq_some (hstores.kept name p hp)

/-- A table that can be cleared. -/
def Clearable (db : Database) (p : ℕ) : Prop :=
  ∃ named M, db.tableAllocator.get p = some named ∧ named.table.Sound M ∧ named.table.destructor = false

lemma useTable_tables {db db' : Database} {p : ℕ} {table : Table} (h : db.useTable p table = some db') :
    db'.tables = db.tables := by
  obtain ⟨named, -, htables, -⟩ := Database.useTable_cases h
  exact htables

lemma clearTable_tables {db db' : Database} {p : ℕ} (h : db.clearTable p = some db') :
    db'.tables = db.tables := by
  obtain ⟨named, hnamed, h⟩ := Option.bind_eq_some_iff.mp h
  obtain ⟨table, htable, h⟩ := Option.bind_eq_some_iff.mp h
  exact useTable_tables h

/-- `fdb_table_clear` leaves the tables as they can be cleared. -/
lemma Clearable.clearTable {db : Database} {p : ℕ} (h : Clearable db p) :
    ∃ db', db.clearTable p = some db' ∧ ∀ q, Clearable db q → Clearable db' q := by
  obtain ⟨named, M, hp, hsound, hdestructor⟩ := h
  obtain ⟨l, table, -, hclear, hsound', -, hdestructor', -⟩ := hsound.clear fun hd => by
    rw [hdestructor] at hd
    cases hd
  obtain ⟨db', huse, -, hget⟩ := Database.useTable_spec hp table
  refine ⟨db', ?_, fun q hq => ?_⟩
  · simp only [Database.clearTable, hp, Option.bind_eq_bind, Option.bind_some, hclear, huse]
  · by_cases hqp : q = p
    · rw [hqp]
      refine ⟨_, ∅, by rw [hget, Function.update_self], hsound', ?_⟩
      rw [hdestructor', hdestructor]
    · obtain ⟨old, M', hold, hrest⟩ := hq
      exact ⟨old, M', by rw [hget, Function.update_of_ne hqp, hold], hrest⟩

namespace Occupied

variable {db db' : Database} {taken : Set ℕ} {name : CString} {names : List CString} {p : ℕ} {ps : List ℕ}

lemma congr (h : Occupied db taken) (ht : db'.tables = db.tables) : Occupied db' taken := by
  obtain ⟨M, hkeyed, hM⟩ := h
  exact ⟨M, ht ▸ hkeyed, hM⟩

lemma uses (h : Occupied db taken) (hu : Uses db db') : Occupied db' taken := by
  induction hu with
  | refl => exact h
  | tail _ hstep ih =>
      obtain ⟨p, table, huse⟩ := hstep
      exact ih.congr (useTable_tables huse)

/-- A name whose hash is taken gives a null pointer. -/
lemma createTable_taken (h : Occupied db taken) (hname : hash name ∈ taken) (csize : ℕ) (dstr : Bool)
    (memory : Address → UInt8) : db.createTable name csize dstr memory = some (db, none) := by
  obtain ⟨M, hkeyed, rfl⟩ := h
  obtain ⟨p, hp⟩ := Finmap.mem_iff.mp (show hash name ∈ M from hname)
  rw [Database.createTable, getTableId, hkeyed.get, hp]
  rfl

/-- Another name gives a new table. -/
lemma createTable_fresh (h : Occupied db taken) (hname : hash name ∉ taken)
    (hlen : name.strlen < maxTableName) (csize : ℕ) (dstr : Bool) (memory : Address → UInt8) :
    ∃ db' p, db.createTable name csize dstr memory = some (db', some p)
      ∧ db.tableAllocator.get p = none
      ∧ db'.tableAllocator.get = Function.update db.tableAllocator.get p
        (some ⟨name, hash name, Table.init csize dstr memory⟩)
      ∧ Occupied db' (insert (hash name) taken) := by
  obtain ⟨M, hkeyed, rfl⟩ := h
  have hmem : hash name ∉ M := hname
  obtain ⟨db', p, heq, hvacant, hget, hkeyed'⟩ :=
    Database.newTable_spec hkeyed hmem hlen csize dstr memory
  refine ⟨db', p, ?_, hvacant, hget, _, hkeyed', ?_⟩
  · rw [Database.createTable, getTableId, hkeyed.get, Finmap.lookup_eq_none.mpr hmem]
    simp only [Option.bind_eq_bind, Option.bind_some, heq]
  · ext i
    rw [Set.mem_ofPred_eq, Finmap.mem_insert]
    rfl

/-- A name that is too long is refused. -/
lemma strlen_lt_of_fresh (h : Occupied db taken) (hname : hash name ∉ taken) {csize : ℕ} {dstr : Bool}
    {memory : Address → UInt8} {table : Option ℕ} (hcreate : db.createTable name csize dstr memory = some (db', table)) :
    name.strlen < maxTableName := by
  obtain ⟨M, hkeyed, rfl⟩ := h
  rw [Database.createTable, getTableId, hkeyed.get, Finmap.lookup_eq_none.mpr hname, Option.bind_eq_bind,
    Option.bind_some] at hcreate
  obtain ⟨⟨db₁, p⟩, hnew, -⟩ := Option.bind_eq_some_iff.mp hcreate
  exact (Database.newTable_cases hnew).1

/-- **A creation is as expected** exactly if the hash is not taken. -/
theorem ready_iff (h : Occupied db taken) (hlen : name.strlen < maxTableName) :
    Ready db name ↔ hash name ∉ taken := by
  constructor
  · intro hready hname
    obtain ⟨db', p, named, heq, -⟩ := hready fun _ => 0
    rw [h.createTable_taken hname] at heq
    cases (Prod.mk.inj (Option.some.inj heq)).2
  · intro hname memory
    obtain ⟨db', p, heq, -, hget, -⟩ := h.createTable_fresh hname hlen tempSize false memory
    refine ⟨db', p, _, heq, by rw [hget, Function.update_self], rfl, rfl, fun id hid => ?_⟩
    have hsound := Table.Sound.init tempSize false memory
    have hnone : (Table.init tempSize false memory).blockAt (id / tableBlockSize) = none := by
      rw [hsound.blockAt_eq, Finmap.lookup_empty]
      rfl
    rw [hsound.getComponent hid, Table.slot, Table.existsAt, hnone]
    rfl

/-- The hash of a created temporary table was not taken. -/
lemma created (h : Occupied db taken) {memory : Address → UInt8}
    (heq : createTemp db name memory = some (db', p)) :
    hash name ∉ taken ∧ Occupied db' (insert (hash name) taken) := by
  obtain ⟨⟨db₁, table⟩, hcreate, heq⟩ := Option.bind_eq_some_iff.mp heq
  obtain ⟨q, hq, heq⟩ := Option.bind_eq_some_iff.mp heq
  obtain ⟨db₂, hclear, heq⟩ := Option.bind_eq_some_iff.mp heq
  obtain ⟨rfl, rfl⟩ := Prod.mk.inj (Option.some.inj heq)
  by_cases hname : hash name ∈ taken
  · rw [h.createTable_taken hname] at hcreate
    obtain ⟨-, rfl⟩ := Prod.mk.inj (Option.some.inj hcreate)
    cases hq
  · have hlen := h.strlen_lt_of_fresh hname hcreate
    obtain ⟨db₃, p, heq, -, -, hocc⟩ := h.createTable_fresh hname hlen tempSize false memory
    obtain ⟨rfl, -⟩ := Prod.mk.inj (Option.some.inj (heq.symm.trans hcreate))
    exact ⟨hname, hocc.congr (clearTable_tables hclear)⟩

/-- A temporary table is created if the hash is not taken. -/
lemma exists_created (h : Occupied db taken) (hlen : name.strlen < maxTableName)
    (hname : hash name ∉ taken) (memory : Address → UInt8) :
    ∃ db' p, createTemp db name memory = some (db', p) ∧ Clearable db' p
      ∧ ∀ q, Clearable db q → Clearable db' q := by
  obtain ⟨db₁, p, heq, hvacant, hget, -⟩ := h.createTable_fresh hname hlen tempSize false memory
  have hp : Clearable db₁ p :=
    ⟨_, ∅, by rw [hget, Function.update_self], Table.Sound.init tempSize false memory, rfl⟩
  have hold : ∀ q, Clearable db q → Clearable db₁ q := by
    rintro q ⟨named, M, hq, hrest⟩
    have hne : q ≠ p := by
      rintro rfl
      rw [hvacant] at hq
      cases hq
    exact ⟨named, M, by rw [hget, Function.update_of_ne hne, hq], hrest⟩
  obtain ⟨db', hclear, hkeep⟩ := hp.clearTable
  refine ⟨db', p, ?_, hkeep p hp, fun q hq => hkeep q (hold q hq)⟩
  simp only [createTemp, heq, Option.bind_eq_bind, Option.bind_some, hclear]

/-- The creations of a call. -/
lemma creates (h : Occupied db taken) (hc : Creates names db ps db') : Occupied db' (taken ∪ {i | i ∈ names.map hash}) := by
  induction hc generalizing taken with
  | nil db => simpa using h
  | @cons db db₁ db' name names memory p ps heq rest ih =>
      obtain ⟨-, hocc⟩ := h.created heq
      have := ih hocc
      have hset : insert (hash name) taken ∪ {i | i ∈ names.map hash}
          = taken ∪ {i | i ∈ (name :: names).map hash} := by
        ext i
        simp only [Set.mem_union, Set.mem_insert_iff, Set.mem_ofPred_eq, List.map_cons, List.mem_cons]
        tauto
      rwa [hset] at this

lemma exists_creates (h : Occupied db taken) (hlen : ∀ name ∈ names, name.strlen < maxTableName)
    (hfresh : Fresh names taken) : ∃ ps db', Creates names db ps db' ∧ (∀ p ∈ ps, Clearable db' p)
      ∧ ∀ q, Clearable db q → Clearable db' q := by
  induction names generalizing db taken with
  | nil => exact ⟨[], db, Creates.nil db, fun p hp => (by cases hp), fun q hq => hq⟩
  | cons name names ih =>
      obtain ⟨hname, hrest⟩ := fresh_cons.mp hfresh
      have hlen' := hlen name List.mem_cons_self
      obtain ⟨db₁, p, heq, hp, hkeep⟩ := h.exists_created hlen' hname fun _ => 0
      obtain ⟨ps, db', hcreates, hps, hkeep'⟩ := ih (h.created heq).2
        (fun other hother => hlen other (List.mem_cons_of_mem _ hother)) hrest
      refine ⟨p :: ps, db', Creates.cons heq hcreates, fun q hq => ?_, fun q hq => hkeep' q (hkeep q hq)⟩
      rcases List.mem_cons.mp hq with rfl | hq
      · exact hkeep' q hp
      · exact hps q hq

/-- **The creations of a call** are as expected exactly if their names are fresh. -/
theorem callStarts_iff (h : Occupied db taken) (hlen : ∀ name ∈ names, name.strlen < maxTableName) :
    CallStarts names db ↔ Fresh names taken := by
  induction names generalizing db taken with
  | nil => exact iff_of_true trivial (fresh_nil taken)
  | cons name names ih =>
      have hlen' := hlen name List.mem_cons_self
      have hrest : ∀ other ∈ names, other.strlen < maxTableName := fun other hother =>
        hlen other (List.mem_cons_of_mem _ hother)
      rw [CallStarts, h.ready_iff hlen', fresh_cons]
      refine and_congr_right fun hname => ⟨fun hall => ?_, fun hfresh memory db' p heq => ?_⟩
      · obtain ⟨db₁, p, heq, -⟩ := h.exists_created hlen' hname fun _ => 0
        exact (ih (h.created heq).2 hrest).mp (hall _ db₁ p heq)
      · exact (ih (h.created heq).2 hrest).mpr hfresh

end Occupied

/-! ### Frames -/

lemma ExpandCall.strlen_lt (call : ExpandCall) : ∀ name ∈ call.names, name.strlen < maxTableName := by
  intro name hname
  obtain ⟨ctype, -, rfl⟩ := List.mem_map.mp hname
  exact strlen_tempTableName ctype _ _ _ _ _

/-- The names of the temporary tables of a frame. -/
def tempNames (frame : List ExpandCall) : List CString := frame.flatMap ExpandCall.names

lemma foldlM_clearTable_tables {ps : List ℕ} {db db' : Database}
    (h : ps.foldlM Database.clearTable db = some db') : db'.tables = db.tables := by
  induction ps generalizing db with
  | nil => rw [← Option.some.inj h]
  | cons p ps ih =>
      obtain ⟨db₁, hclear, h⟩ := Option.bind_eq_some_iff.mp h
      rw [ih h, clearTable_tables hclear]

lemma exists_foldlM_clearTable {ps : List ℕ} {db : Database} (h : ∀ p ∈ ps, Clearable db p) :
    ∃ db', ps.foldlM Database.clearTable db = some db' := by
  induction ps generalizing db with
  | nil => exact ⟨db, rfl⟩
  | cons p ps ih =>
      obtain ⟨db₁, hclear, hkeep⟩ := (h p List.mem_cons_self).clearTable
      obtain ⟨db', h'⟩ := ih fun q hq => hkeep q (h q (List.mem_cons_of_mem _ hq))
      exact ⟨db', by rw [List.foldlM_cons, hclear]; exact h'⟩

namespace Occupied

variable {db db' : Database} {taken : Set ℕ} {call : ExpandCall} {frame : List ExpandCall} {n : ℕ}

/-- After a call the hashes of its names are taken. -/
lemma callRun (h : Occupied db taken) (hrun : CallRun call db db') :
    Occupied db' (taken ∪ {i | i ∈ call.names.map hash}) := by
  obtain ⟨ps, db₁, db₂, hcreates, huses, hfinish⟩ := hrun
  have h₂ := (h.creates hcreates).uses huses
  rw [ExpandCall.finish] at hfinish
  split at hfinish
  · exact h₂.congr (foldlM_clearTable_tables hfinish)
  · rwa [← Option.some.inj hfinish]

lemma exists_callRun (h : Occupied db taken) (hfresh : Fresh call.names taken) :
    ∃ db', CallRun call db db' := by
  obtain ⟨ps, db₁, hcreates, hps, -⟩ := h.exists_creates call.strlen_lt hfresh
  cases hcasc : call.cascading with
  | false => exact ⟨db₁, ps, db₁, db₁, hcreates, .refl, by simp [ExpandCall.finish, hcasc]⟩
  | true =>
      obtain ⟨db', hclear⟩ := exists_foldlM_clearTable hps
      exact ⟨db', ps, db₁, db₁, hcreates, .refl, by simp [ExpandCall.finish, hcasc, hclear]⟩

/-- **The creations of a frame** are as expected exactly if their names are fresh. -/
theorem starts_iff_fresh (h : Occupied db taken) : Starts frame db ↔ Fresh (tempNames frame) taken := by
  induction frame generalizing db taken with
  | nil => exact iff_of_true trivial (fresh_nil taken)
  | cons call calls ih =>
      rw [Starts, h.callStarts_iff call.strlen_lt, tempNames, List.flatMap_cons, fresh_append]
      refine and_congr_right fun hcall => ⟨fun hall => ?_, fun hfresh db' hrun => ?_⟩
      · obtain ⟨db₁, hrun⟩ := h.exists_callRun hcall
        exact (ih (h.callRun hrun)).mp (hall db₁ hrun)
      · exact (ih (h.callRun hrun)).mpr hfresh

/-- After a frame the hashes of its names are taken. -/
lemma frameRun (h : Occupied db taken) (hrun : FrameRun frame db db') :
    Occupied db' (taken ∪ {i | i ∈ (tempNames frame).map hash}) := by
  induction hrun generalizing taken with
  | nil db => simpa [tempNames] using h
  | @cons db db₁ db' call calls hcall rest ih =>
      have := ih (h.callRun hcall)
      have hset : taken ∪ {i | i ∈ call.names.map hash} ∪ {i | i ∈ (tempNames calls).map hash}
          = taken ∪ {i | i ∈ (tempNames (call :: calls)).map hash} := by
        ext i
        simp only [tempNames, List.flatMap_cons, List.map_append, Set.mem_union, Set.mem_ofPred_eq,
          List.mem_append]
        tauto
      rwa [hset] at this

/-- A frame whose names are fresh can be executed. -/
lemma exists_frameRun (h : Occupied db taken) (hfresh : Fresh (tempNames frame) taken) :
    ∃ db', FrameRun frame db db' := by
  induction frame generalizing db taken with
  | nil => exact ⟨db, .nil db⟩
  | cons call calls ih =>
      rw [tempNames, List.flatMap_cons, fresh_append] at hfresh
      obtain ⟨db₁, hcall⟩ := h.exists_callRun hfresh.1
      obtain ⟨db', hrest⟩ := ih (h.callRun hcall) hfresh.2
      exact ⟨db', .cons hcall hrest⟩

/-- After any number of frames. -/
lemma framesRun (h : Occupied db taken) (hrun : FramesRun frame n db db') :
    Occupied db' (if n = 0 then taken else taken ∪ {i | i ∈ (tempNames frame).map hash}) := by
  induction hrun with
  | zero db => simpa using h
  | @succ n db db₁ db₂ db' hrun next between ih =>
      have hframe := ((ih h).frameRun next).uses between
      rw [if_neg (Nat.succ_ne_zero n)]
      by_cases hn : n = 0
      · rwa [if_pos hn] at hframe
      · rw [if_neg hn, Set.union_assoc, Set.union_self] at hframe
        exact hframe

end Occupied

/-- **The temporary tables of a frame** are there and empty if it creates none, or if it is
the first one and the hashes of their names are different and none is that of a table in the
database. In every later frame the first creation gives a null pointer. -/
theorem starts_iff {db db' : Database} {live : NameMap ℕ} {frame : List ExpandCall} {n : ℕ}
    (h : DbRun (fun db live op => op.Distinct db live) db live) (hrun : FramesRun frame n db db') :
    Starts frame db' ↔ tempNames frame = []
      ∨ n = 0 ∧ Fresh (tempNames frame) {i | ∃ name ∈ live, hash name = i} := by
  have hocc := h.named.occupied.framesRun hrun
  rw [hocc.starts_iff_fresh]
  by_cases hn : n = 0
  · rw [if_pos hn]
    refine ⟨fun hfresh => Or.inr ⟨hn, hfresh⟩, ?_⟩
    rintro (hnil | ⟨-, hfresh⟩)
    · rw [hnil]
      exact fresh_nil _
    · exact hfresh
  · rw [if_neg hn]
    refine ⟨fun hfresh => Or.inl (List.eq_nil_iff_forall_not_mem.mpr fun name hname => ?_), ?_⟩
    · exact hfresh.2 name hname (Or.inr (List.mem_map_of_mem hname))
    · rintro (hnil | ⟨hzero, -⟩)
      · rw [hnil]
        exact fresh_nil _
      · exact absurd hzero hn

/-- A gather over one component type. -/
def gatherCall : ExpandCall := ⟨3, 0, [beltStaff], false, 1, 0, 1⟩

lemma hash_notMem_init (name : CString) : hash name ∉ {i | ∃ name ∈ (∅ : NameMap ℕ), hash name = i} := by
  rintro ⟨other, hother, -⟩
  exact Finmap.notMem_empty hother

lemma gatherCall_fresh : Fresh (tempNames [gatherCall]) {i | ∃ name ∈ (∅ : NameMap ℕ), hash name = i} :=
  ⟨List.nodup_singleton _, fun name _ => hash_notMem_init name⟩

lemma exists_gatherCall_run : ∃ db, FramesRun [gatherCall] 1 Database.init db := by
  obtain ⟨db, hrun⟩ := Database.Named.init.occupied.exists_frameRun gatherCall_fresh
  exact ⟨db, .succ (.zero _) hrun .refl⟩

theorem starts_iff_two : ∃ db, FramesRun [gatherCall] 1 Database.init db
    ∧ Starts [gatherCall] Database.init ∧ ¬ Starts [gatherCall] db := by
  obtain ⟨db, hrun⟩ := exists_gatherCall_run
  refine ⟨db, hrun, (starts_iff .init (.zero _)).mpr (Or.inr ⟨rfl, gatherCall_fresh⟩), fun hstarts => ?_⟩
  rcases (starts_iff .init hrun).mp hstarts with hnil | ⟨hone, -⟩
  · cases hnil
  · cases hone

/-- In the second frame the table of the first one is in the way. -/
theorem not_starts : ¬ ∀ (frame : List ExpandCall) (n : ℕ) (db : Database),
    FramesRun frame n Database.init db → Starts frame db := by
  intro hall
  obtain ⟨db, hrun⟩ := exists_gatherCall_run
  have hocc := Database.Named.init.occupied.framesRun hrun
  have hfresh := hocc.starts_iff_fresh.mp (hall _ 1 db hrun)
  exact hfresh.2 _ List.mem_cons_self (Or.inr List.mem_cons_self)

end Furious
