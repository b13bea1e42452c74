import Furious.Data.TempTables
import Furious.Data.Interleaving

/-!
The task of a cascading gather.

The threads of the task find each other through the names of a registry, in which each of them puts pointers to its
hash table, its black list and its next frontier, and they create their temporary tables in one database. Names are
known by their hashes. What a thread does depends on the registry and on the database, which all threads change.

* `registryKey`: the names, `CascOp`: the operator;
* `CascTask.next`: what a thread does next, `CascTask.effect`: what this changes in the store;
* `TaskStep`: a step of one of the threads;
* `CascOp.Apart`: no two names have the same hash, and the tables do not exist yet;
* `Supplied`: the invariant of the store, `Supplied.next_eq`: a thread finds what it looks for, `Supplied.effect`: its
  steps;
* `Supplied.advances`, `Supplied.taskStep`: **the threads run as if each of them had the others at hand**.
-/

namespace Furious

/-! ### The names in the registry -/

/-- What a thread shows to the others. -/
inductive Shown where
  | hashTable
  | blacklist
  | nextFrontier
deriving DecidableEq

/-- A pointer in the registry: what it leads to, and the thread to which this belongs. -/
abbrev Pointer : Type := Shown × ℕ

/-- The beginnings "hashtable_", with the number of the operator, "blacklist" and "next_frontier". -/
def Shown.text (gatherId : ℕ) : Shown → List UInt8
  | hashTable => [104, 97, 115, 104, 116, 97, 98, 108, 101, 95] ++ digits gatherId
  | blacklist => [98, 108, 97, 99, 107, 108, 105, 115, 116]
  | nextFrontier => [110, 101, 120, 116, 95, 102, 114, 111, 110, 116, 105, 101, 114]

/-- What `snprintf` writes for a name, before it is cut off. -/
def registryText (kind : Shown) (gatherId subplanId chunkSize offset stride : ℕ) : List UInt8 :=
  kind.text gatherId ++ 95 :: printInt subplanId ++ 95 :: printInt gatherId ++ 95 :: printInt chunkSize
    ++ 95 :: printInt offset ++ 95 :: printInt stride

lemma zero_notMem_registryText (kind : Shown) (gatherId subplanId chunkSize offset stride : ℕ) :
    0 ∉ registryText kind gatherId subplanId chunkSize offset stride := by
  have hkind : 0 ∉ kind.text gatherId := by
    cases kind with
    | hashTable =>
        rw [Shown.text, List.mem_append]
        exact not_or.mpr ⟨by decide, zero_notMem_digits gatherId⟩
    | blacklist =>
        rw [Shown.text]
        decide
    | nextFrontier =>
        rw [Shown.text]
        decide
  simp only [registryText, List.mem_append, List.mem_cons, not_or]
  refine ⟨⟨⟨⟨⟨hkind, ?_⟩, ?_⟩, ?_⟩, ?_⟩, ?_⟩
  all_goals exact ⟨by decide, zero_notMem_printInt _⟩

/-- A name in the registry: `snprintf` may write 255 characters, the last one zero. -/
def registryKey (kind : Shown) (gatherId subplanId chunkSize offset stride : ℕ) : CString where
  bytes := (registryText kind gatherId subplanId chunkSize offset stride).take (256 - 1 - 1)
  terminated hmem := zero_notMem_registryText kind gatherId subplanId chunkSize offset stride
    (List.mem_of_mem_take hmem)

/-! ### The operator -/

/-- A cascading gather: its numbers, the types of the columns of its child and the tables of their components, the
clusters that the child produces, and the blocks of the reference table. -/
structure CascOp where
  gatherId : ℕ
  subplanId : ℕ
  columns : List CString
  expanded : List Expanded
  clusters : List BCluster
  blocks : List RefBlock

/-- What a run of the task is given besides the number of threads: the chunk size, and what is in the memory of
new tables. -/
structure CascArgs where
  chunkSize : ℕ
  memory : ℕ → CString → Address → UInt8

/-- The call of the thread `offset`. -/
def CascOp.call (op : CascOp) (args : CascArgs) (stride offset : ℕ) : ExpandCall :=
  ⟨op.gatherId, op.subplanId, op.columns, true, args.chunkSize, offset, stride⟩

/-- The name under which the thread `offset` shows something. -/
def CascOp.key (op : CascOp) (args : CascArgs) (stride : ℕ) (kind : Shown) (offset : ℕ) : CString :=
  registryKey kind op.gatherId op.subplanId args.chunkSize offset stride

/-! ### The code of a thread -/

/-- A block of the reference table is consumed, with the hash tables of all threads. -/
def CascThread.consumeRefs (op : CascOp) (hashTables : List (BTree BCluster)) (chunkSize stride : ℕ) (t : CascThread)
    (block : RefBlock) : Option CascThread := do
  let (next, blacklist) ← findRootsAndBlacklist (t.next, t.blacklist) block
  let tables ← Gather.gather op.expanded hashTables chunkSize stride t.tables block
  some { t with refs := t.refs ++ [block], tables := tables, blacklist := blacklist, next := next }

/-- Where a thread is in the code, with what is left of its loops. -/
inductive TaskPc where
  -- the hash table is registered, and filled with what the child produces
  | register
  | child (rest : List BCluster)
  | create (rest : List CString)
  -- behind the first barrier
  | findTables (i : ℕ)
  | consume (rest : List RefBlock)
  | registerBlacklist
  | registerFrontier
  -- behind the second barrier
  | findLists (i : ℕ)
  -- behind the third barrier: from `frontiers_union` on
  | loop (pc : CascPc)

/-- A thread: where it is, its number, its variables, and the clusters of the rounds that it has been through. -/
structure CascTask where
  pc : TaskPc
  offset : ℕ
  hashTable : BTree BCluster
  hashTables : List (Option Pointer)
  blacklists : List (Option Pointer)
  nextFrontiers : List (Option Pointer)
  thread : CascThread
  rounds : List (List Cluster)

/-- What the database and the registry reply: the table that a creation gives, and the pointer of a name. -/
structure Replies where
  create : CString → (Address → UInt8) → Option Table
  get : Shown → ℕ → Option (Option Pointer)

namespace CascTask

variable {n : ℕ}

/-- A thread at the beginning of the task. -/
def init (offset : ℕ) : CascTask := ⟨.register, offset, BTree.init, [], [], [], CascThread.init [], []⟩

/-- A thread that has come so far in the loop. -/
def inLoop (s : CascTask) (t : CascState) : CascTask :=
  { s with pc := .loop t.pc, thread := t.thread, rounds := t.rounds }

/-- What a pointer leads to; it is of no use if this is something else. -/
def deref (threads : Fin n → CascTask) (kind : Shown) (ptr : Option Pointer) : Option CascTask := do
  let (k, offset) ← ptr
  if h : offset < n then if k = kind then some (threads ⟨offset, h⟩) else none else none

/-- The next frontiers and the black lists of all threads, by the pointers to them. -/
def lists (threads : Fin n → CascTask) (s : CascTask) : Option (Fin n → CascState) := do
  let frontiers ← s.nextFrontiers.mapM (deref threads .nextFrontier)
  let blacklists ← s.blacklists.mapM (deref threads .blacklist)
  let lists := List.zipWith (fun f b => { f.thread with blacklist := b.thread.blacklist }) frontiers blacklists
  if h : lists.length = n then some fun i => ⟨.test, lists.get (i.cast h.symm), []⟩ else none

/-- **What a thread does next**, in between those of `threads`. -/
def next (op : CascOp) (args : CascArgs) (replies : Replies) (threads : Fin n → CascTask) (s : CascTask) :
    Option (Move CascTask) :=
  match s.pc with
  | .register =>
      some (.work { s with pc := .child (Gather.scan BCluster.start args.chunkSize n op.clusters s.offset) })
  | .child (cluster :: rest) => do
      let hashTable ← Gather.consumeGather s.hashTable cluster
      some (.work { s with pc := .child rest, hashTable := hashTable })
  | .child [] => some (.work { s with pc := .create (op.call args n s.offset).names })
  | .create (name :: rest) => do
      let table ← replies.create name (args.memory s.offset name)
      some (.work { s with pc := .create rest, thread := { s.thread with tables := s.thread.tables ++ [table] } })
  | .create [] => some (.wait { s with pc := .findTables 0 })
  | .findTables i =>
      if i < n then do
        let ht ← replies.get .hashTable i
        some (.work { s with pc := .findTables (i + 1), hashTables := s.hashTables ++ [ht] })
      else some (.work { s with
        pc := .consume (Gather.scan RefBlock.start args.chunkSize n op.blocks s.offset) })
  | .consume (block :: rest) => do
      let shown ← s.hashTables.mapM (deref threads .hashTable)
      let thread ← s.thread.consumeRefs op (shown.map hashTable) args.chunkSize n block
      some (.work { s with pc := .consume rest, thread := thread })
  | .consume [] => some (.work { s with pc := .registerBlacklist })
  | .registerBlacklist => some (.work { s with pc := .registerFrontier })
  | .registerFrontier => some (.wait { s with pc := .findLists 0 })
  | .findLists i =>
      if i < n then do
        let otherBlacklist ← replies.get .blacklist i
        let otherFrontier ← replies.get .nextFrontier i
        some (.work { s with
          pc := .findLists (i + 1)
          blacklists := s.blacklists ++ [otherBlacklist]
          nextFrontiers := s.nextFrontiers ++ [otherFrontier] })
      else some (.wait { s with pc := .loop (.first 0) })
  | .loop pc => do
      let others ← s.lists threads
      let m ← CascState.next (fun _ => false) others ⟨pc, s.thread, s.rounds⟩
      some (m.map s.inLoop)

/-- The references that a thread has processed in a round, as pairs of a source and its target. -/
def processed (s : CascTask) (m : ℕ) : List (ℕ × ℕ) :=
  (List.zipWith (fun block cluster => block.edges.filter fun e => decide (e.1 ∈ Cluster.ids cluster)) s.thread.refs
    (s.rounds.getD m [])).flatten

end CascTask

/-! ### All threads -/

/-- What all threads share. -/
structure Store where
  db : Database
  registry : HtRegistry Pointer

/-- The replies of the store. -/
def Store.replies (op : CascOp) (args : CascArgs) (stride : ℕ) (store : Store) : Replies where
  create name memory := do
    let (db, p) ← createTemp store.db name memory
    let named ← db.tableAllocator.get p
    some named.table
  get kind offset := store.registry.get (op.key args stride kind offset)

/-- What the next step of a thread changes in the store. -/
def CascTask.effect (op : CascOp) (args : CascArgs) (stride : ℕ) (store : Store) (s : CascTask) : Option Store :=
  let insert (kind : Shown) : Option Store := do
    let registry ← store.registry.insert (op.key args stride kind s.offset) (kind, s.offset)
    some { store with registry := registry }
  match s.pc with
  | .register => insert .hashTable
  | .create (name :: _) => do
      let (db, _) ← createTemp store.db name (args.memory s.offset name)
      some { store with db := db }
  | .registerBlacklist => insert .blacklist
  | .registerFrontier => insert .nextFrontier
  | _ => some store

/-- The store, and the threads. -/
structure TaskConfig (n : ℕ) where
  store : Store
  procs : Fin n → Proc CascTask

/-- All threads at the beginning of the task. -/
def TaskConfig.init (n : ℕ) (store : Store) : TaskConfig n := ⟨store, together 0 fun i => CascTask.init i⟩

/-- **A step of one of the threads**: it leaves a barrier, or it goes on and changes the store. -/
def TaskStep {n : ℕ} (op : CascOp) (args : CascArgs) (c c' : TaskConfig n) : Prop :=
  ∃ i p, Moves (CascTask.next op args (c.store.replies op args n)) c.procs i p
    ∧ c'.procs = Function.update c.procs i p
    ∧ some c'.store = if (c.procs i).waiting = true then some c.store
      else (c.procs i).state.effect op args n c.store

/-! ### Threads that have each other at hand -/

/-- What a thread looks for: a new table, and the pointers to what the others show. -/
def Replies.own : Replies where
  create _ memory := some (Table.init tempSize false memory)
  get kind offset := some (some (kind, offset))

/-- The pointers to what the first `m` threads show. -/
def pointers (kind : Shown) (m : ℕ) : List (Option Pointer) := (List.range m).map fun i => some (kind, i)

lemma pointers_succ (kind : Shown) (m : ℕ) : pointers kind (m + 1) = pointers kind m ++ [some (kind, m)] := by
  rw [pointers, List.range_succ, List.map_append]
  rfl

namespace CascTask

/-- The pointers that a thread has. -/
structure Has (s : CascTask) (h l : ℕ) : Prop where
  hashTables : s.hashTables = pointers .hashTable h
  blacklists : s.blacklists = pointers .blacklist l
  nextFrontiers : s.nextFrontiers = pointers .nextFrontier l

/-- The number of barriers before a place in the code, and the pointers that the thread has there. -/
def In (n : ℕ) (s : CascTask) (k : ℕ) : Prop :=
  match s.pc with
  | .register | .child _ | .create _ => k = 0 ∧ s.Has 0 0
  | .findTables i => k = 1 ∧ i ≤ n ∧ s.Has i 0
  | .consume _ | .registerBlacklist | .registerFrontier => k = 1 ∧ s.Has n 0
  | .findLists i => k = 2 ∧ i ≤ n ∧ s.Has n i
  | .loop pc => 3 ≤ k ∧ pc.In (k - 1) ∧ s.Has n n

/-- What is read of other threads: their hash tables, and in the loop their next frontiers and black lists. -/
def shown (k : ℕ) (s : CascTask) : Option (BTree BCluster) × Option (Bittable × Bittable) :=
  (if k = 1 then some s.hashTable else none, (⟨.test, s.thread, []⟩ : CascState).shown (k - 1))

variable {n k : ℕ} {op : CascOp} {args : CascArgs} {threads threads' : Fin n → CascTask} {s : CascTask}
  {m : Move CascTask}

/-- The pointers lead to the threads. -/
lemma mapM_deref (threads : Fin n → CascTask) (kind : Shown) :
    (pointers kind n).mapM (deref threads kind) = some (List.ofFn threads) := by
  have hderef : ∀ i : Fin n, deref threads kind (some (kind, i.val)) = some (threads i) := fun i => by
    simp only [deref, Option.bind_eq_bind, Option.bind_some, i.isLt, dif_pos, if_true]
  have hpointers : pointers kind n = (List.finRange n).map fun i : Fin n => some (kind, i.val) := by
    rw [pointers, ← List.map_coe_finRange_eq_range, List.map_map]
    rfl
  rw [hpointers, List.mapM_map, List.ofFn_eq_map]
  exact (congrArg (fun f => List.mapM f (List.finRange n)) (funext hderef)).trans List.mapM_pure

lemma lists_eq (h : s.Has n n) (threads : Fin n → CascTask) :
    s.lists threads = some fun i => ⟨.test, (threads i).thread, []⟩ := by
  have hlen : (List.zipWith (fun f b : CascTask => { f.thread with blacklist := b.thread.blacklist })
      (List.ofFn threads) (List.ofFn threads)).length = n := by
    rw [List.length_zipWith, List.length_ofFn, Nat.min_self]
  simp only [lists, h.nextFrontiers, h.blacklists, mapM_deref, Option.bind_eq_bind, Option.bind_some, hlen, dif_pos]
  refine congrArg some (funext fun i => ?_)
  rw [List.get_eq_getElem, List.getElem_zipWith, List.getElem_ofFn]
  rfl

/-- A step in the loop. -/
lemma next_loop {replies : Replies} (h : s.Has n n) {pc : CascPc} (hpc : s.pc = .loop pc) :
    next op args replies threads s = (CascState.next (fun _ => false)
      (fun i => ⟨.test, (threads i).thread, []⟩) ⟨pc, s.thread, s.rounds⟩).map (Move.map s.inLoop) := by
  rw [next, hpc]
  simp only [lists_eq h, Option.bind_eq_bind, Option.bind_some]
  cases CascState.next (fun _ => false) (fun i => ⟨.test, (threads i).thread, []⟩) ⟨pc, s.thread, s.rounds⟩ <;> rfl

/-- **A move**: where it leads, and which variables it leaves alone. -/
lemma next_spec (hs : s.In n k) (h : next op args .own threads s = some m) :
    m.In (fun k s => s.In n k) k ∧ m.state.shown k = s.shown k := by
  obtain ⟨pc, offset, hashTable, hashTables, blacklists, nextFrontiers, thread, rounds⟩ := s
  cases pc with
  | register =>
      obtain ⟨rfl, hhas⟩ : k = 0 ∧ _ := hs
      obtain rfl := Option.some.inj h
      exact ⟨⟨rfl, hhas.1, hhas.2, hhas.3⟩, rfl⟩
  | child rest =>
      obtain ⟨rfl, hhas⟩ : k = 0 ∧ _ := hs
      cases rest with
      | nil =>
          obtain rfl := Option.some.inj h
          exact ⟨⟨rfl, hhas.1, hhas.2, hhas.3⟩, rfl⟩
      | cons cluster rest =>
          obtain ⟨hashTable', -, h⟩ := Option.bind_eq_some_iff.mp h
          obtain rfl := Option.some.inj h
          exact ⟨⟨rfl, hhas.1, hhas.2, hhas.3⟩, rfl⟩
  | create rest =>
      obtain ⟨rfl, hhas⟩ : k = 0 ∧ _ := hs
      cases rest with
      | nil =>
          obtain rfl := Option.some.inj h
          exact ⟨⟨rfl, Nat.zero_le n, hhas.1, hhas.2, hhas.3⟩, rfl⟩
      | cons name rest =>
          obtain rfl := Option.some.inj h
          exact ⟨⟨rfl, hhas.1, hhas.2, hhas.3⟩, rfl⟩
  | findTables i =>
      obtain ⟨rfl, hle, hhas⟩ : k = 1 ∧ i ≤ n ∧ _ := hs
      simp only [next] at h
      split_ifs at h with hi
      · obtain rfl := Option.some.inj h
        exact ⟨⟨rfl, hi, by rw [pointers_succ, ← hhas.1], hhas.2, hhas.3⟩, rfl⟩
      · obtain rfl := Option.some.inj h
        obtain rfl : i = n := le_antisymm hle (not_lt.mp hi)
        exact ⟨⟨rfl, hhas.1, hhas.2, hhas.3⟩, rfl⟩
  | consume rest =>
      obtain ⟨rfl, hhas⟩ : k = 1 ∧ _ := hs
      cases rest with
      | nil =>
          obtain rfl := Option.some.inj h
          exact ⟨⟨rfl, hhas.1, hhas.2, hhas.3⟩, rfl⟩
      | cons block rest =>
          obtain ⟨shown, -, h⟩ := Option.bind_eq_some_iff.mp h
          obtain ⟨thread', -, h⟩ := Option.bind_eq_some_iff.mp h
          obtain rfl := Option.some.inj h
          exact ⟨⟨rfl, hhas.1, hhas.2, hhas.3⟩, rfl⟩
  | registerBlacklist =>
      obtain ⟨rfl, hhas⟩ : k = 1 ∧ _ := hs
      obtain rfl := Option.some.inj h
      exact ⟨⟨rfl, hhas.1, hhas.2, hhas.3⟩, rfl⟩
  | registerFrontier =>
      obtain ⟨rfl, hhas⟩ : k = 1 ∧ _ := hs
      obtain rfl := Option.some.inj h
      exact ⟨⟨rfl, Nat.zero_le n, hhas.1, hhas.2, hhas.3⟩, rfl⟩
  | findLists i =>
      obtain ⟨rfl, hle, hhas⟩ : k = 2 ∧ i ≤ n ∧ _ := hs
      simp only [next] at h
      split_ifs at h with hi
      · obtain rfl := Option.some.inj h
        exact ⟨⟨rfl, hi, hhas.1, by rw [pointers_succ, ← hhas.2], by rw [pointers_succ, ← hhas.3]⟩, rfl⟩
      · obtain rfl := Option.some.inj h
        obtain rfl : i = n := le_antisymm hle (not_lt.mp hi)
        exact ⟨⟨le_rfl, rfl, hhas.1, hhas.2, hhas.3⟩, rfl⟩
  | loop pc =>
      obtain ⟨hk, hpc, hhas⟩ : 3 ≤ k ∧ pc.In (k - 1) ∧ _ := hs
      obtain ⟨j, rfl⟩ : ∃ j, k = j + 1 := ⟨k - 1, by omega⟩
      rw [next_loop hhas rfl] at h
      obtain ⟨m', hm', rfl⟩ := Option.map_eq_some_iff.mp h
      obtain ⟨hin, hshown⟩ := CascState.next_spec (k := j) hpc hm'
      have hne : j + 1 ≠ 1 := by omega
      cases m' with
      | work t => exact ⟨⟨hk, hin, hhas.1, hhas.2, hhas.3⟩, by
          rw [shown, shown, if_neg hne, if_neg hne]
          exact congrArg _ hshown⟩
      | wait t => exact ⟨⟨hk.trans (Nat.le_succ _), hin, hhas.1, hhas.2, hhas.3⟩, by
          rw [shown, shown, if_neg hne, if_neg hne]
          exact congrArg _ hshown⟩

/-- What a move depends on. -/
lemma next_congr {replies : Replies} (hs : s.In n k) (h : ∀ j, (threads j).shown k = (threads' j).shown k) :
    next op args replies threads s = next op args replies threads' s := by
  obtain ⟨pc, offset, hashTable, hashTables, blacklists, nextFrontiers, thread, rounds⟩ := s
  cases pc with
  | register => rfl
  | child rest => cases rest <;> rfl
  | create rest => cases rest <;> rfl
  | findTables i => rfl
  | consume rest =>
      obtain ⟨rfl, hhas⟩ : k = 1 ∧ _ := hs
      have htables : (List.ofFn threads).map CascTask.hashTable = (List.ofFn threads').map CascTask.hashTable := by
        rw [List.map_ofFn, List.map_ofFn]
        exact congrArg List.ofFn (funext fun j => Option.some.inj (Prod.mk.inj (h j)).1)
      cases rest with
      | nil => rfl
      | cons block rest =>
          have hptrs : hashTables = pointers .hashTable n := hhas.1
          simp only [next, hptrs, mapM_deref, Option.bind_eq_bind, Option.bind_some, htables]
  | registerBlacklist => rfl
  | registerFrontier => rfl
  | findLists i => rfl
  | loop pc =>
      obtain ⟨hk, hpc, hhas⟩ : 3 ≤ k ∧ pc.In (k - 1) ∧ _ := hs
      rw [next_loop hhas rfl, next_loop hhas rfl]
      exact congrArg (Option.map _) (CascState.next_congr hpc fun j => (Prod.mk.inj (h j)).2)

/-- **No thread reads what another one changes** between the same barriers. -/
theorem phased (op : CascOp) (args : CascArgs) :
    Phased (next (n := n) op args .own) (fun k s => s.In n k) shown where
  leads hs h := (next_spec hs h).1
  reads hs h := next_congr hs h
  keeps hs h := (next_spec hs h).2

end CascTask

/-! ### The names of all threads -/

/-- **No name is in the way**: the temporary tables of all threads have different hashes, none of which is taken in the
database, and what they show in the registry has different hashes. -/
structure CascOp.Apart (op : CascOp) (args : CascArgs) (n : ℕ) (taken : Set ℕ) : Prop where
  tables : Fresh (tempNames (List.ofFn fun i : Fin n => op.call args n i)) taken
  keys : ∀ (kind kind' : Shown) (i i' : Fin n),
    hash (op.key args n kind i) = hash (op.key args n kind' i') → kind = kind' ∧ i = i'

namespace CascOp.Apart

variable {op : CascOp} {args : CascArgs} {n : ℕ} {taken : Set ℕ} (h : op.Apart args n taken)

include h

/-- The tables of a thread. -/
lemma nodup (i : Fin n) : ((op.call args n i).names.map hash).Nodup := by
  have hnd := h.tables.1
  rw [tempNames, List.map_flatMap, List.nodup_flatMap] at hnd
  exact hnd.1 _ (List.mem_ofFn.mpr ⟨i, rfl⟩)

/-- The tables of two threads. -/
lemma eq_of_hash {i j : Fin n} {name name' : CString} (hi : name ∈ (op.call args n i).names)
    (hj : name' ∈ (op.call args n j).names) (heq : hash name = hash name') : i = j := by
  have hnd := h.tables.1
  rw [tempNames, List.map_flatMap, List.nodup_flatMap, List.pairwise_ofFn] at hnd
  have hdisjoint {i j : Fin n} {name name' : CString} (hlt : i < j) (hi : name ∈ (op.call args n i).names)
      (hj : name' ∈ (op.call args n j).names) : hash name ≠ hash name' := by
    intro heq
    have hmem : hash name ∈ (op.call args n j).names.map hash := by
      rw [heq]
      exact List.mem_map_of_mem hj
    exact hnd.2 hlt (List.mem_map_of_mem hi) hmem
  rcases lt_trichotomy i j with hlt | rfl | hlt
  · exact absurd heq (hdisjoint hlt hi hj)
  · rfl
  · exact absurd heq.symm (hdisjoint hlt hj hi)

lemma notMem (i : Fin n) {name : CString} (hi : name ∈ (op.call args n i).names) : hash name ∉ taken :=
  h.tables.2 name (List.mem_flatMap.mpr ⟨_, List.mem_ofFn.mpr ⟨i, rfl⟩, hi⟩)

end CascOp.Apart

/-! ### The store -/

/-- What a thread has shown before a place in the code. -/
def TaskPc.Shows (kind : Shown) : TaskPc → Prop
  | .register => False
  | .child _ | .create _ | .findTables _ | .consume _ | .registerBlacklist => kind = .hashTable
  | .registerFrontier => kind ≠ .nextFrontier
  | .findLists _ | .loop _ => True

/-- The tables that a thread has yet to create, of those of its `names`. -/
def TaskPc.pending (names : List CString) : TaskPc → List CString
  | .register | .child _ => names
  | .create rest => rest
  | _ => []

section Stores

variable {n : ℕ} {op : CascOp} {args : CascArgs} {store : Store} {procs : Fin n → Proc CascTask} {i : Fin n}
  {p : Proc CascTask} {taken : Set ℕ}

variable (op args) in
/-- **The invariant**: what the threads have shown is in the registry, and the tables that they have yet to create are
not in the database. -/
structure Supplied (store : Store) (procs : Fin n → Proc CascTask) : Prop where
  inPhase : InPhase (fun k s => s.In n k) procs
  offset : ∀ i, (procs i).state.offset = i
  registry : ∃ M, Keyed store.registry.registry M ∧ ∀ (i : Fin n) kind, (procs i).state.pc.Shows kind →
    M.lookup (hash (op.key args n kind i)) = some (kind, i.val)
  tables : ∃ taken, Occupied store.db taken ∧ ∀ i : Fin n,
    (procs i).state.pc.pending (op.call args n i).names <:+ (op.call args n i).names
    ∧ ∀ name ∈ (procs i).state.pc.pending (op.call args n i).names, hash name ∉ taken

/-- At the beginning. -/
lemma Supplied.init {M : KeyMap Pointer} (hreg : Keyed store.registry.registry M) (hdb : Occupied store.db taken)
    (h : op.Apart args n taken) : Supplied op args store (TaskConfig.init n store).procs where
  inPhase := InPhase.together fun _ => ⟨rfl, rfl, rfl, rfl⟩
  offset _ := rfl
  registry := ⟨M, hreg, fun _ _ hshows => hshows.elim⟩
  tables := ⟨taken, hdb, fun i => ⟨List.suffix_rfl, fun _ hname => h.notMem i hname⟩⟩

/-- The creation of a temporary table whose hash is not taken. -/
lemma Occupied.createTemp {db : Database} (h : Occupied db taken) {name : CString} (hname : hash name ∉ taken)
    (hlen : name.strlen < maxTableName) (memory : Address → UInt8) :
    ∃ db' q named, Furious.createTemp db name memory = some (db', q) ∧ db'.tableAllocator.get q = some named
      ∧ named.table = Table.init tempSize false memory ∧ Occupied db' (insert (hash name) taken) := by
  obtain ⟨db₁, q, hcreate, -, hget, hocc⟩ := h.createTable_fresh hname hlen tempSize false memory
  have hq : db₁.tableAllocator.get q = some ⟨name, hash name, Table.init tempSize false memory⟩ := by
    rw [hget, Function.update_self]
  have hclear : (Table.init tempSize false memory).clear = some (Table.init tempSize false memory) := rfl
  obtain ⟨db', huse, htables, hget'⟩ := Database.useTable_spec hq (Table.init tempSize false memory)
  refine ⟨db', q, _, ?_, by rw [hget', Function.update_self], rfl, hocc.congr htables⟩
  simp only [Furious.createTemp, hcreate, Database.clearTable, hq, hclear, huse, Option.bind_eq_bind, Option.bind_some]

namespace Supplied

variable (h : Supplied op args store procs)

include h

/-- The numbers of the threads stay. -/
lemma offset_update (hoffset : p.state.offset = i) (j : Fin n) :
    (Function.update procs i p j).state.offset = j :=
  (Function.forall_update_iff procs fun j q => q.state.offset = j).mpr ⟨hoffset, fun j _ => h.offset j⟩ j

/-- A thread shows nothing new. -/
lemma registry_update (hshows : ∀ kind, p.state.pc.Shows kind → (procs i).state.pc.Shows kind) :
    ∃ M, Keyed store.registry.registry M ∧ ∀ (j : Fin n) kind, (Function.update procs i p j).state.pc.Shows kind →
      M.lookup (hash (op.key args n kind j)) = some (kind, j.val) := by
  obtain ⟨M, hM, hall⟩ := h.registry
  exact ⟨M, hM, (Function.forall_update_iff procs fun j q => ∀ kind, q.state.pc.Shows kind →
    M.lookup (hash (op.key args n kind j)) = some (kind, j.val)).mpr
      ⟨fun kind hkind => hall i kind (hshows kind hkind), fun j _ => hall j⟩⟩

/-- A thread creates no table. -/
lemma tables_update
    (hpending : p.state.pc.pending (op.call args n i).names = (procs i).state.pc.pending (op.call args n i).names) :
    ∃ taken, Occupied store.db taken ∧ ∀ j : Fin n,
      (Function.update procs i p j).state.pc.pending (op.call args n j).names <:+ (op.call args n j).names
      ∧ ∀ name ∈ (Function.update procs i p j).state.pc.pending (op.call args n j).names, hash name ∉ taken := by
  obtain ⟨taken, hocc, hall⟩ := h.tables
  exact ⟨taken, hocc, (Function.forall_update_iff procs fun j q =>
    q.state.pc.pending (op.call args n j).names <:+ (op.call args n j).names
    ∧ ∀ name ∈ q.state.pc.pending (op.call args n j).names, hash name ∉ taken).mpr
      ⟨by rw [hpending]; exact hall i, fun j _ => hall j⟩⟩

/-- The store stays as it is. -/
lemma quiet (hphase : InPhase (fun k s => s.In n k) (Function.update procs i p)) (hoffset : p.state.offset = i)
    (hshows : ∀ kind, p.state.pc.Shows kind → (procs i).state.pc.Shows kind)
    (hpending : p.state.pc.pending (op.call args n i).names = (procs i).state.pc.pending (op.call args n i).names) :
    Supplied op args store (Function.update procs i p) :=
  ⟨hphase, h.offset_update hoffset, h.registry_update hshows, h.tables_update hpending⟩

/-- A thread shows something in the registry. -/
lemma insert (hapart : op.Apart args n taken) (kind : Shown)
    (hphase : InPhase (fun k s => s.In n k) (Function.update procs i p)) (hoffset : p.state.offset = i)
    (hshows : ∀ k, p.state.pc.Shows k → (procs i).state.pc.Shows k ∨ k = kind)
    (hpending : p.state.pc.pending (op.call args n i).names = (procs i).state.pc.pending (op.call args n i).names) :
    ∃ registry, store.registry.insert (op.key args n kind i) (kind, i.val) = some registry
      ∧ Supplied op args { store with registry := registry } (Function.update procs i p) := by
  obtain ⟨M, hM, hall⟩ := h.registry
  obtain ⟨registry, hinsert, hkeyed⟩ := HtRegistry.insert_keyed hM (op.key args n kind i) (kind, i.val)
  -- only the pointer that is put in has its hash
  have hlookup : ∀ (j : Fin n) k, (k = kind ∧ j = i) ∨ M.lookup (hash (op.key args n k j)) = some (k, j.val) →
      (M.insert (hash (op.key args n kind i)) (kind, i.val)).lookup (hash (op.key args n k j)) = some (k, j.val) := by
    intro j k hold
    by_cases hhash : hash (op.key args n k j) = hash (op.key args n kind i)
    · obtain ⟨rfl, rfl⟩ := hapart.keys k kind j i hhash
      exact Finmap.lookup_insert _
    · rw [Finmap.lookup_insert_of_ne _ hhash]
      refine hold.resolve_left fun hsame => hhash ?_
      rw [hsame.1, hsame.2]
  refine ⟨registry, hinsert, hphase, h.offset_update hoffset, ⟨_, hkeyed, ?_⟩, h.tables_update hpending⟩
  refine (Function.forall_update_iff procs fun j q => ∀ k, q.state.pc.Shows k →
    (M.insert (hash (op.key args n kind i)) (kind, i.val)).lookup (hash (op.key args n k j)) = some (k, j.val)).mpr
      ⟨fun k hk => hlookup i k ?_, fun j _ k hk => hlookup j k (Or.inr (hall j k hk))⟩
  exact (hshows k hk).elim (fun hold => Or.inr (hall i k hold)) fun hnew => Or.inl ⟨hnew, rfl⟩

/-- A thread creates a table. -/
lemma create (hapart : op.Apart args n taken) {name : CString} {rest : List CString}
    (hpc : (procs i).state.pc = .create (name :: rest)) (hp : p.state.pc = .create rest)
    (hphase : InPhase (fun k s => s.In n k) (Function.update procs i p)) (hoffset : p.state.offset = i)
    (memory : Address → UInt8) :
    ∃ db q named, createTemp store.db name memory = some (db, q) ∧ db.tableAllocator.get q = some named
      ∧ named.table = Table.init tempSize false memory
      ∧ Supplied op args { store with db := db } (Function.update procs i p) := by
  obtain ⟨taken', hocc, hall⟩ := h.tables
  obtain ⟨hsuffix, hnew⟩ := hall i
  rw [hpc] at hsuffix hnew
  have hname : name ∈ (op.call args n i).names := hsuffix.subset List.mem_cons_self
  obtain ⟨db, q, named, hcreate, hget, htable, hocc'⟩ := hocc.createTemp (hnew name List.mem_cons_self)
    ((op.call args n i).strlen_lt name hname) memory
  have hregistry := h.registry_update (i := i) (p := p) fun kind hkind => by
    rw [hp] at hkind
    rw [hpc]
    exact hkind
  refine ⟨db, q, named, hcreate, hget, htable, hphase, h.offset_update hoffset, hregistry, _, hocc', ?_⟩
  refine (Function.forall_update_iff procs fun j q =>
    q.state.pc.pending (op.call args n j).names <:+ (op.call args n j).names
    ∧ ∀ other ∈ q.state.pc.pending (op.call args n j).names, hash other ∉ Insert.insert (hash name) taken').mpr
      ⟨?_, fun j hj => ⟨(hall j).1, fun other hother => ?_⟩⟩
  · -- the tables of a thread have different hashes
    rw [hp]
    refine ⟨(List.suffix_cons name rest).trans hsuffix, fun other hother => ?_⟩
    rintro (heq | hold)
    · have hnd := (hsuffix.sublist.map hash).nodup (hapart.nodup i)
      exact (List.nodup_cons.mp hnd).1 (heq ▸ List.mem_map_of_mem hother)
    · exact hnew other (List.mem_cons_of_mem name hother) hold
  · rintro (heq | hold)
    · exact hj (hapart.eq_of_hash ((hall j).1.subset hother) hname heq)
    · exact (hall j).2 other hother hold

/-- A thread finds what another one has shown. -/
lemma get_eq {kind : Shown} {j : Fin n} (hshows : (procs j).state.pc.Shows kind) :
    (store.replies op args n).get kind j = some (some (kind, j.val)) := by
  obtain ⟨M, hM, hall⟩ := h.registry
  change store.registry.registry.get (hash (op.key args n kind j)) = _
  rw [hM.get, hall j kind hshows]

/-- The others are not behind a thread that goes on. -/
lemma shows_of_le (hrun : (procs i).waiting = false) (j : Fin n) :
    (1 ≤ (procs i).reached → (procs j).state.pc.Shows .hashTable)
    ∧ (2 ≤ (procs i).reached → ∀ kind, (procs j).state.pc.Shows kind) := by
  have hle := h.inPhase.behind i hrun j
  have hin := h.inPhase.phase j
  simp only [CascTask.In] at hin
  cases hpc : (procs j).state.pc <;> rw [hpc] at hin
  case loop => exact ⟨fun _ => trivial, fun _ _ => trivial⟩
  case findLists => exact ⟨fun _ => trivial, fun _ _ => trivial⟩
  case registerFrontier => exact ⟨fun _ => Shown.noConfusion, fun hk => absurd hin.1 (by omega)⟩
  case register => exact ⟨fun hk => absurd hin.1 (by omega), fun hk => absurd hin.1 (by omega)⟩
  case child => exact ⟨fun _ => rfl, fun hk => absurd hin.1 (by omega)⟩
  case create => exact ⟨fun _ => rfl, fun hk => absurd hin.1 (by omega)⟩
  case findTables => exact ⟨fun _ => rfl, fun hk => absurd hin.1 (by omega)⟩
  case consume => exact ⟨fun _ => rfl, fun hk => absurd hin.1 (by omega)⟩
  case registerBlacklist => exact ⟨fun _ => rfl, fun hk => absurd hin.1 (by omega)⟩

/-- **A thread finds what it looks for.** -/
theorem next_eq (hrun : (procs i).waiting = false) :
    CascTask.next op args (store.replies op args n) (fun j => (procs j).state) (procs i).state
      = CascTask.next op args .own (fun j => (procs j).state) (procs i).state := by
  have hin := h.inPhase.phase i
  simp only [CascTask.In] at hin
  cases hpc : (procs i).state.pc <;> rw [hpc] at hin
  case create rest =>
    cases rest with
    | nil => simp only [CascTask.next, hpc]
    | cons name rest =>
        obtain ⟨taken', hocc, hall⟩ := h.tables
        obtain ⟨hsuffix, hnew⟩ := hall i
        rw [hpc] at hsuffix hnew
        obtain ⟨db, q, named, hcreate, hget, htable, -⟩ := hocc.createTemp (hnew name List.mem_cons_self)
          ((op.call args n i).strlen_lt name (hsuffix.subset List.mem_cons_self))
          (args.memory (procs i).state.offset name)
        simp only [CascTask.next, hpc, Store.replies, Replies.own, hcreate, hget, htable, Option.bind_eq_bind,
          Option.bind_some]
  case findTables j =>
    simp only [CascTask.next, hpc]
    split_ifs with hj
    · rw [h.get_eq (j := ⟨j, hj⟩) ((h.shows_of_le hrun _).1 hin.1.ge)]
      rfl
    · rfl
  case findLists j =>
    simp only [CascTask.next, hpc]
    split_ifs with hj
    · have hshows := (h.shows_of_le hrun ⟨j, hj⟩).2 hin.1.ge
      rw [h.get_eq (j := ⟨j, hj⟩) (hshows .blacklist), h.get_eq (j := ⟨j, hj⟩) (hshows .nextFrontier)]
      rfl
    · rfl
  case child rest => cases rest <;> simp only [CascTask.next, hpc]
  case consume rest => cases rest <;> simp only [CascTask.next, hpc]
  all_goals simp only [CascTask.next, hpc]

/-- **A step** of a thread that goes on. -/
theorem effect (hapart : op.Apart args n taken) (hrun : (procs i).waiting = false) {m : Move CascTask}
    (hnext : CascTask.next op args .own (fun j => (procs j).state) (procs i).state = some m) :
    ∃ store', (procs i).state.effect op args n store = some store'
      ∧ Supplied op args store' (Function.update procs i (m.proc (procs i).reached)) := by
  have hphase := (CascTask.phased op args).inPhase h.inPhase (.move hrun hnext)
  have hoffset := h.offset i
  cases hpc : (procs i).state.pc with
  | register =>
      simp only [CascTask.next, hpc] at hnext
      obtain rfl := Option.some.inj hnext
      obtain ⟨registry, hinsert, hsupplied⟩ := h.insert hapart .hashTable hphase hoffset (fun _ hk => Or.inr hk)
        (by rw [hpc]; rfl)
      refine ⟨_, ?_, hsupplied⟩
      simp only [CascTask.effect, hpc, hoffset, hinsert, Option.bind_eq_bind, Option.bind_some]
  | child rest =>
      refine ⟨store, by simp only [CascTask.effect, hpc], ?_⟩
      cases rest with
      | nil =>
          simp only [CascTask.next, hpc] at hnext
          obtain rfl := Option.some.inj hnext
          refine h.quiet hphase hoffset (fun _ hk => by rw [hpc]; exact hk) ?_
          rw [hpc, hoffset]
          rfl
      | cons cluster rest =>
          simp only [CascTask.next, hpc] at hnext
          obtain ⟨hashTable, -, hnext⟩ := Option.bind_eq_some_iff.mp hnext
          obtain rfl := Option.some.inj hnext
          exact h.quiet hphase hoffset (fun _ hk => by rw [hpc]; exact hk) (by rw [hpc]; rfl)
  | create rest =>
      cases rest with
      | nil =>
          simp only [CascTask.next, hpc] at hnext
          obtain rfl := Option.some.inj hnext
          exact ⟨store, by simp only [CascTask.effect, hpc],
            h.quiet hphase hoffset (fun _ hk => by rw [hpc]; exact hk) (by rw [hpc]; rfl)⟩
      | cons name rest =>
          simp only [CascTask.next, hpc] at hnext
          obtain rfl := Option.some.inj hnext
          obtain ⟨db, q, named, hcreate, -, -, hsupplied⟩ := h.create hapart hpc rfl hphase hoffset
            (args.memory (procs i).state.offset name)
          refine ⟨_, ?_, hsupplied⟩
          simp only [CascTask.effect, hpc, hcreate, Option.bind_eq_bind, Option.bind_some]
  | findTables j =>
      refine ⟨store, by simp only [CascTask.effect, hpc], ?_⟩
      simp only [CascTask.next, hpc] at hnext
      split_ifs at hnext
      all_goals
        obtain rfl := Option.some.inj hnext
        exact h.quiet hphase hoffset (fun _ hk => by rw [hpc]; exact hk) (by rw [hpc]; rfl)
  | consume rest =>
      refine ⟨store, by simp only [CascTask.effect, hpc], ?_⟩
      cases rest with
      | nil =>
          simp only [CascTask.next, hpc] at hnext
          obtain rfl := Option.some.inj hnext
          exact h.quiet hphase hoffset (fun _ hk => by rw [hpc]; exact hk) (by rw [hpc]; rfl)
      | cons block rest =>
          simp only [CascTask.next, hpc] at hnext
          obtain ⟨shown, -, hnext⟩ := Option.bind_eq_some_iff.mp hnext
          obtain ⟨thread, -, hnext⟩ := Option.bind_eq_some_iff.mp hnext
          obtain rfl := Option.some.inj hnext
          exact h.quiet hphase hoffset (fun _ hk => by rw [hpc]; exact hk) (by rw [hpc]; rfl)
  | registerBlacklist =>
      simp only [CascTask.next, hpc] at hnext
      obtain rfl := Option.some.inj hnext
      obtain ⟨registry, hinsert, hsupplied⟩ := h.insert hapart .blacklist hphase hoffset (fun k hk => by
        rw [hpc]
        cases k with
        | hashTable => exact Or.inl rfl
        | blacklist => exact Or.inr rfl
        | nextFrontier => exact (hk rfl).elim) (by rw [hpc]; rfl)
      refine ⟨_, ?_, hsupplied⟩
      simp only [CascTask.effect, hpc, hoffset, hinsert, Option.bind_eq_bind, Option.bind_some]
  | registerFrontier =>
      simp only [CascTask.next, hpc] at hnext
      obtain rfl := Option.some.inj hnext
      obtain ⟨registry, hinsert, hsupplied⟩ := h.insert hapart .nextFrontier hphase hoffset (fun k _ => by
        rw [hpc]
        exact ne_or_eq k .nextFrontier) (by rw [hpc]; rfl)
      refine ⟨_, ?_, hsupplied⟩
      simp only [CascTask.effect, hpc, hoffset, hinsert, Option.bind_eq_bind, Option.bind_some]
  | findLists j =>
      refine ⟨store, by simp only [CascTask.effect, hpc], ?_⟩
      simp only [CascTask.next, hpc] at hnext
      split_ifs at hnext
      all_goals
        obtain rfl := Option.some.inj hnext
        exact h.quiet hphase hoffset (fun _ _ => by rw [hpc]; trivial) (by rw [hpc]; rfl)
  | loop pc =>
      refine ⟨store, by simp only [CascTask.effect, hpc], ?_⟩
      have hin := h.inPhase.phase i
      simp only [CascTask.In, hpc] at hin
      rw [CascTask.next_loop hin.2.2 hpc] at hnext
      obtain ⟨m', -, rfl⟩ := Option.map_eq_some_iff.mp hnext
      cases m' with
      | work t => exact h.quiet hphase hoffset (fun _ _ => by rw [hpc]; trivial) (by rw [hpc]; rfl)
      | wait t => exact h.quiet hphase hoffset (fun _ _ => by rw [hpc]; trivial) (by rw [hpc]; rfl)

/-- A thread can do the same if it has the others at hand. -/
lemma moves_iff : Moves (CascTask.next op args (store.replies op args n)) procs i p
    ↔ Moves (CascTask.next op args .own) procs i p := by
  constructor
  · intro hmove
    cases hmove with
    | move hrun hnext => exact .move hrun (h.next_eq hrun ▸ hnext)
    | leave hwait hall => exact .leave hwait hall
  · intro hmove
    cases hmove with
    | move hrun hnext => exact .move hrun (h.next_eq hrun ▸ hnext)
    | leave hwait hall => exact .leave hwait hall

/-- What a step makes of the store. -/
lemma moves_store (hapart : op.Apart args n taken) (hmove : Moves (CascTask.next op args .own) procs i p) :
    ∃ store', (some store' = if (procs i).waiting = true then some store else (procs i).state.effect op args n store)
      ∧ Supplied op args store' (Function.update procs i p) := by
  cases hmove with
  | move hrun hnext =>
      obtain ⟨store', heffect, hsupplied⟩ := h.effect hapart hrun hnext
      exact ⟨store', by rw [if_neg (by rw [hrun]; exact Bool.false_ne_true), heffect], hsupplied⟩
  | leave hwait hall =>
      refine ⟨store, (if_pos hwait).symm, h.quiet ?_ (h.offset i) (fun _ hk => hk) rfl⟩
      exact (CascTask.phased op args).inPhase h.inPhase (.leave hwait hall)

end Supplied

variable {c c' : TaskConfig n} {procs' : Fin n → Proc CascTask} {steps : ℕ}

/-- **A step of the task** is one of threads that have each other at hand. -/
theorem Supplied.advances (hapart : op.Apart args n taken) (h : Supplied op args c.store c.procs)
    (hstep : TaskStep op args c c') :
    Advances (CascTask.next op args .own) c.procs c'.procs ∧ Supplied op args c'.store c'.procs := by
  obtain ⟨i, p, hmove, hprocs, hstore⟩ := hstep
  have hown := h.moves_iff.mp hmove
  obtain ⟨store', hstore', hsupplied⟩ := h.moves_store hapart hown
  rw [← hstore] at hstore'
  rw [hprocs, ← Option.some.inj hstore']
  exact ⟨⟨i, p, hown, rfl⟩, hsupplied⟩

/-- **A step of threads** that have each other at hand is one of the task. -/
theorem Supplied.taskStep (hapart : op.Apart args n taken) (h : Supplied op args c.store c.procs)
    (hadvance : Advances (CascTask.next op args .own) c.procs procs') :
    ∃ store', TaskStep op args c ⟨store', procs'⟩ ∧ Supplied op args store' procs' := by
  obtain ⟨i, p, hmove, rfl⟩ := hadvance
  obtain ⟨store', hstore', hsupplied⟩ := h.moves_store hapart hmove
  exact ⟨store', ⟨i, p, h.moves_iff.mpr hmove, rfl, hstore'⟩, hsupplied⟩

/-- A run of the task. -/
lemma Supplied.advances_run (hapart : op.Apart args n taken) (h : Supplied op args c.store c.procs)
    (hrun : Steps (TaskStep op args) steps c c') :
    Steps (Advances (CascTask.next op args .own)) steps c.procs c'.procs ∧ Supplied op args c'.store c'.procs := by
  induction steps generalizing c with
  | zero =>
      obtain rfl : c = c' := hrun
      exact ⟨rfl, h⟩
  | succ steps ih =>
      obtain ⟨d, hd, hrest⟩ := hrun
      obtain ⟨hadvance, hsupplied⟩ := h.advances hapart hd
      obtain ⟨hadvances, hend⟩ := ih hsupplied hrest
      exact ⟨⟨_, hadvance, hadvances⟩, hend⟩

/-- A run of threads that have each other at hand. -/
lemma Supplied.taskStep_run (hapart : op.Apart args n taken) (h : Supplied op args c.store c.procs)
    (hrun : Steps (Advances (CascTask.next op args .own)) steps c.procs procs') :
    ∃ store', Steps (TaskStep op args) steps c ⟨store', procs'⟩ := by
  induction steps generalizing c with
  | zero =>
      obtain rfl : c.procs = procs' := hrun
      exact ⟨c.store, rfl⟩
  | succ steps ih =>
      obtain ⟨d, hd, hrest⟩ := hrun
      obtain ⟨store', hstep, hsupplied⟩ := h.taskStep hapart hd
      obtain ⟨store'', hsteps⟩ := ih (c := ⟨store', d⟩) hsupplied hrest
      exact ⟨store'', _, hstep, hsteps⟩

end Stores

end Furious
