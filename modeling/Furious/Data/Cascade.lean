import Furious.Data.Frontiers
import Furious.Library.Layers

/-!
The cascade.

A cascading gather goes through a reference table from the roots on: a round processes the
sources whose targets the round before has processed. The threads go through their parts of
the table side by side and wait for each other between the phases of a round; at the end of
a round each of them makes the same frontier from what all of them have put on theirs.

* `gather`: the temporary tables get the components of targets that are there;
* `buildBclusterFromRefs`: what a round does with one block of references;
* `CascThread`, `start`, `round`, `cascade`: the code that is generated for the operator;
* `links`: the references that take part, `puts`: the sources a round puts on the frontier;
* `round_spec`: a round, and `cascade_spec`: **the cascade goes through the layers of the
  links**;
* `cascade_runs`: **it ends, and processes each entity at most once, after its target**.
-/

namespace Furious

/-! ### Temporary tables -/

/-- `copy_component_ptr`; the clusters of the hash tables have the targets with `hit`. The
pointer that is stored in the new components is not read here. -/
def copyComponentPtr (hit : ℕ → Bool) (source target : ℕ) (tables : List Table) : Option (List Table) :=
  if hit target = true then tables.mapM fun t => (t.createComponent source).map Prod.fst
  else some tables

/-- The body of the loop of `gather`. -/
def gatherStep (hit : ℕ → Bool) (block : RefBlock) (tables : List Table) (i : ℕ) : Option (List Table) := do
  let isSet ← block.enabled.isSet i
  if isSet = true then copyComponentPtr hit (block.start + i) (block.data i) tables else some tables

/-- `gather`. -/
def gather (hit : ℕ → Bool) (tables : List Table) (block : RefBlock) : Option (List Table) :=
  (List.range tableBlockSize).foldlM (gatherStep hit block) tables

/-- The tables have the same blocks, those of the numbers in `B`. -/
def Agree (tables : List Table) (B : ℕ → Bool) : Prop :=
  ∀ t ∈ tables, (∃ M, t.Sound M) ∧ ∀ b, (t.blockAt b).isSome = B b

/-- Tables that agree get a component of the same entity. -/
lemma Agree.createComponents {tables : List Table} {B : ℕ → Bool} (h : Agree tables B) {id : ℕ}
    (hid : id < invalidId) : ∃ tables', (tables.mapM fun t => (t.createComponent id).map Prod.fst)
      = some tables' ∧ tables'.length = tables.length
      ∧ Agree tables' (Function.update B (id / tableBlockSize) true) := by
  obtain ⟨tables', hmap, hall⟩ := mapM_spec (fun _ (t' : Table) => (∃ M, t'.Sound M)
      ∧ ∀ b, (t'.blockAt b).isSome = Function.update B (id / tableBlockSize) true b)
    (l := tables) (f := fun t => (t.createComponent id).map Prod.fst) fun t ht => by
      obtain ⟨⟨M, hsound⟩, hB⟩ := h t ht
      obtain ⟨t', M', block, block', hcreate, hsound', hchanges, -⟩ := hsound.create hid
      refine ⟨t', by rw [hcreate]; rfl, ⟨M', hsound'⟩, fun b => ?_⟩
      rw [hchanges.blockAt]
      by_cases hb : b = id / tableBlockSize
      · rw [hb, Function.update_self, Function.update_self]
        rfl
      · rw [Function.update_of_ne hb, Function.update_of_ne hb, hB]
  refine ⟨tables', hmap, hall.length_eq.symm, fun t' ht' => ?_⟩
  obtain ⟨t, -, ht⟩ := exists_of_mem_right hall ht'
  exact ht

/-- **`gather`** keeps the tables alike. -/
theorem gather_spec (hit : ℕ → Bool) {tables : List Table} {B : ℕ → Bool} (h : Agree tables B)
    (block : RefBlock) : ∃ tables' B', gather hit tables block = some tables' ∧ Agree tables' B' := by
  have hloop := foldlM_spec (f := gatherStep hit block) (fun _ tables => ∃ B, Agree tables B)
    (List.range tableBlockSize) ⟨B, h⟩ fun done i rest tables hl ⟨B, hB⟩ => by
      have hi : i ∈ List.range tableBlockSize := hl ▸ by simp
      have hset : block.enabled.isSet i = some (block.enabled.test i) :=
        Bitmap.isSet_eq (block.enabled_length ▸ List.mem_range.mp hi)
      cases ht : block.enabled.test i with
      | false =>
          refine ⟨tables, ?_, B, hB⟩
          simp only [gatherStep, hset, ht, Option.bind_eq_bind, Option.bind_some, Bool.false_eq_true, if_false]
      | true =>
          cases hh : hit (block.data i) with
          | false =>
              refine ⟨tables, ?_, B, hB⟩
              simp only [gatherStep, hset, ht, Option.bind_eq_bind, Option.bind_some, if_true,
                copyComponentPtr, hh, Bool.false_eq_true, if_false]
          | true =>
              obtain ⟨tables', hmap, -, hB'⟩ := hB.createComponents (block.source_lt i ht)
              refine ⟨tables', ?_, _, hB'⟩
              simp only [gatherStep, hset, ht, Option.bind_eq_bind, Option.bind_some, if_true,
                copyComponentPtr, hh, hmap]
  obtain ⟨tables', hrun, B', hB'⟩ := hloop
  exact ⟨tables', B', hrun, hB'⟩

/-! ### The clusters that are processed -/

/-- A `fdb_bcluster_t` of table blocks; its blocks are not read here. -/
structure Cluster where
  start : ℕ
  numColumns : ℕ
  enabled : Bitmap

namespace Cluster

/-- `fdb_bcluster_init`. -/
def init : Cluster := ⟨invalidBlockStart, 0, Bitmap.init tableBlockSize⟩

/-- `fdb_bcluster_append_block`, for a cluster with room: the bound of `maxClusterSize` columns is left out here and
kept in `BCluster.appendBlock`. -/
def appendBlock (bc : Cluster) (block : TableBlock) : Option Cluster := do
  if bc.start = invalidBlockStart ∨ bc.start = block.start then do
    let enabled ← if bc.start = invalidBlockStart then bc.enabled.setBitmap block.enabled
      else some bc.enabled
    let enabled ← enabled.setAnd block.enabled
    some { start := if bc.start = invalidBlockStart then block.start else bc.start
           numColumns := bc.numColumns + 1
           enabled := enabled }
  else none

/-- The entities of a cluster. -/
def ids (bc : Cluster) : List ℕ :=
  ((List.range tableBlockSize).filter fun i => bc.enabled.test i).map fun i => bc.start + i

end Cluster

/-- The first loop of `build_fdb_bcluster_from_refs`: the blocks of the temporary tables. -/
def appendTables (blockId : ℕ) (tables : List Table) : Option Cluster :=
  tables.foldlM (fun cluster t => do
    match ← t.getBlock blockId with
    | none => some cluster
    | some p => do
        let block ← t.tblockAllocator.get p
        cluster.appendBlock block) Cluster.init

/-- The body of the second loop of `build_fdb_bcluster_from_refs`, on the next frontier and the
enabled rows of the cluster. -/
def buildStep (refCluster : RefBlock) (current : Bittable) (s : Bittable × Bitmap) (i : ℕ) :
    Option (Bittable × Bitmap) := do
  let isSet ← refCluster.enabled.isSet i
  if isSet = true then do
    let exists_ ← current.existsId (refCluster.data i)
    if exists_ = true then do
      let enabled ← s.2.set i
      -- the source should not exist
      let twice ← s.1.existsId (i + refCluster.start)
      if twice = true then none else do
        let next ← s.1.add (i + refCluster.start)
        some (next, enabled)
    else some s
  else some s

/-- `build_fdb_bcluster_from_refs`: the next frontier and the cluster. -/
def buildBclusterFromRefs (refCluster : RefBlock) (current next : Bittable) (tables : List Table) :
    Option (Bittable × Cluster) := do
  let cluster ← appendTables (refCluster.start / tableBlockSize) tables
  if cluster.numColumns = 0 ∨ cluster.numColumns = tables.length then
    if 0 < cluster.numColumns then do
      let (next, enabled) ← (List.range tableBlockSize).foldlM (buildStep refCluster current)
        (next, cluster.enabled.nullify)
      some (next, { cluster with enabled := enabled })
    else some (next, cluster)
  else none

/-! ### The generated code -/

/-- The variables of a thread: its part of the reference table, the temporary tables and the
bittables. -/
structure CascThread where
  refs : List RefBlock
  tables : List Table
  blacklist : Bittable
  current : Bittable
  next : Bittable

namespace CascThread

/-- A thread before it goes through its part of the reference table. -/
def init (tables : List Table) : CascThread := ⟨[], tables, Bittable.init, Bittable.init, Bittable.init⟩

/-- A block of the reference table is consumed. -/
def consume (hit : ℕ → Bool) (t : CascThread) (block : RefBlock) : Option CascThread := do
  let (next, blacklist) ← findRootsAndBlacklist (t.next, t.blacklist) block
  let tables ← gather hit t.tables block
  some { t with refs := t.refs ++ [block], tables := tables, blacklist := blacklist, next := next }

/-- The first half of a round: the next frontier of the thread, and the clusters it processes. -/
def expand (t : CascThread) : Option (CascThread × List Cluster) := do
  let next ← t.next.clear
  let (next, clusters) ← t.refs.foldlM (fun s refCluster => do
    let (next, cluster) ← buildBclusterFromRefs refCluster t.current s.1 t.tables
    some (next, s.2 ++ [cluster])) (next, [])
  some ({ t with next := next }, clusters)

end CascThread

/-- The code before the loop: each thread consumes its part of the reference table, and when
all of them have done so it makes the first frontier. -/
def start (hit : ℕ → Bool) (parts : List (List RefBlock × List Table)) : Option (List CascThread) := do
  let threads ← parts.mapM fun part => part.1.foldlM (CascThread.consume hit) (CascThread.init part.2)
  threads.mapM fun t => do
    let current ← frontiersUnion (threads.map CascThread.next) t.current
    let current ← filterBlacklists (threads.map CascThread.blacklist) current
    some { t with current := current }

/-- The body of the loop: when all threads have expanded their frontiers, each of them makes
the current frontier. -/
def round (threads : List CascThread) : Option (List CascThread × List Cluster) := do
  let expanded ← threads.mapM CascThread.expand
  let threads ← expanded.mapM fun s => do
    let current ← s.1.current.clear
    let current ← frontiersUnion (expanded.map fun s => s.1.next) current
    some { s.1 with current := current }
  some (threads, expanded.flatMap Prod.snd)

/-- The loop, for at most `fuel` rounds: the clusters that the rounds process. Threads that do not
leave the loop together wait forever. -/
def cascade : ℕ → List CascThread → Option (List (List Cluster))
  | 0, _ => none
  | fuel + 1, threads =>
      if ∀ t ∈ threads, t.current.size = 0 then some []
      else if ∀ t ∈ threads, 0 < t.current.size then do
        let (threads, clusters) ← round threads
        let rest ← cascade fuel threads
        some (clusters :: rest)
      else none

/-! ### A block of references -/

/-- The sources that a round puts on the frontier, if their targets are on the one before. -/
def puts (edges : List (ℕ × ℕ)) (F : Finset ℕ) : List ℕ :=
  (edges.filter fun e => decide (e.2 ∈ F)).map Prod.fst

lemma puts_append (l r : List (ℕ × ℕ)) (F : Finset ℕ) : puts (l ++ r) F = puts l F ++ puts r F := by
  rw [puts, List.filter_append, List.map_append]
  rfl

lemma mem_puts {edges : List (ℕ × ℕ)} {F : Finset ℕ} {s : ℕ} :
    s ∈ puts edges F ↔ ∃ t, (s, t) ∈ edges ∧ t ∈ F := by
  simp [puts]

lemma puts_sublist (edges : List (ℕ × ℕ)) (F : Finset ℕ) : (puts edges F).Sublist (edges.map Prod.fst) :=
  List.filter_sublist.map Prod.fst

/-- The sources of a block are its ids. -/
lemma RefBlock.start_of_mem {block : RefBlock} {e : ℕ × ℕ} (h : e ∈ block.edges) :
    e.1 / tableBlockSize * tableBlockSize = block.start := by
  obtain ⟨i, hi, rfl⟩ := List.mem_map.mp h
  obtain ⟨k, hk⟩ := block.start_dvd
  have hlt : i < tableBlockSize := List.mem_range.mp (List.mem_filter.mp hi).1
  rw [hk, Nat.mul_add_div (by decide), Nat.div_eq_of_lt hlt, Nat.add_zero, Nat.mul_comm]

lemma RefBlock.nodup_edges (block : RefBlock) : (block.edges.map Prod.fst).Nodup := by
  rw [RefBlock.edges, List.map_map]
  exact ((List.nodup_range).filter _).map fun i j h => Nat.add_left_cancel h

/-- Distinct blocks have distinct sources. -/
lemma nodup_sources {blocks : List RefBlock} (h : (blocks.map RefBlock.start).Nodup) :
    ((blocks.flatMap RefBlock.edges).map Prod.fst).Nodup := by
  rw [List.map_flatMap]
  refine List.nodup_flatMap.mpr ⟨fun block _ => block.nodup_edges, ?_⟩
  refine (List.pairwise_map.mp h).imp fun hne s hs hs' => ?_
  obtain ⟨e, he, rfl⟩ := List.mem_map.mp hs
  obtain ⟨e', he', hee⟩ := List.mem_map.mp hs'
  exact hne ((RefBlock.start_of_mem he).symm.trans (hee ▸ RefBlock.start_of_mem he'))

/-- Whether the temporary tables have a block. -/
def serves (tables : List Table) (b : ℕ) : Bool := tables.any fun t => (t.blockAt b).isSome

lemma Agree.serves_eq {tables : List Table} {B : ℕ → Bool} (h : Agree tables B) {b : ℕ} :
    serves tables b = true ↔ tables ≠ [] ∧ B b = true := by
  rw [serves, List.any_eq_true]
  constructor
  · rintro ⟨t, ht, hb⟩
    exact ⟨List.ne_nil_of_mem ht, by rw [← (h t ht).2 b, hb]⟩
  · rintro ⟨hne, hb⟩
    obtain ⟨t, ht⟩ := List.exists_mem_of_ne_nil _ hne
    exact ⟨t, ht, by rw [(h t ht).2 b, hb]⟩

/-- The first loop of `build_fdb_bcluster_from_refs`: the blocks of all tables, or of none. -/
lemma appendTables_spec {tables : List Table} {B : ℕ → Bool} (h : Agree tables B) (b : ℕ) :
    ∃ cluster, appendTables b tables = some cluster
      ∧ cluster.enabled.bits.length = tableBlockSize
      ∧ (B b = false → cluster = Cluster.init)
      ∧ (B b = true → cluster.numColumns = tables.length
        ∧ cluster.start = if tables = [] then invalidBlockStart else b * tableBlockSize) := by
  refine foldlM_spec (fun done (cluster : Cluster) => cluster.enabled.bits.length = tableBlockSize
      ∧ (B b = false → cluster = Cluster.init)
      ∧ (B b = true → cluster.numColumns = done.length
        ∧ cluster.start = if done = [] then invalidBlockStart else b * tableBlockSize)) tables
    ⟨Bitmap.length_init _, fun _ => rfl, fun _ => ⟨rfl, rfl⟩⟩
    fun done t rest cluster hl ⟨hlen, hnone, hsome⟩ => ?_
  obtain ⟨⟨M, hsound⟩, hB⟩ := h t (hl ▸ by simp)
  have hB := hB b
  rcases hsound.cases b with ⟨hlook, hat⟩ | ⟨p, block, hlook, hget, hat, hshaped⟩
  · rw [hat] at hB
    refine ⟨cluster, ?_, hlen, hnone, fun ht => by rw [← hB] at ht; cases ht⟩
    simp only [Table.getBlock, hsound.shows.get, hlook, Option.bind_eq_bind, Option.bind_some]
  · rw [hat] at hB
    have hBtrue : B b = true := hB.symm
    obtain ⟨hcols, hstart⟩ := hsome hBtrue
    have hne : b * tableBlockSize ≠ invalidBlockStart := by
      intro heq
      have hdvd : tableBlockSize ∣ invalidBlockStart := ⟨b, by rw [← heq, Nat.mul_comm]⟩
      exact absurd hdvd (by decide)
    -- the enabled rows of the cluster before those of the block are taken into account
    have hset : cluster.enabled.setBitmap block.enabled = some block.enabled :=
      if_pos (hlen.trans hshaped.enabled.symm)
    have happend : ∃ enabled, cluster.appendBlock block = some ⟨b * tableBlockSize,
        cluster.numColumns + 1, enabled⟩ ∧ enabled.bits.length = tableBlockSize := by
      by_cases hdone : done = []
      · rw [if_pos hdone] at hstart
        obtain ⟨enabled, hand, hlen', -⟩ := Bitmap.combine_spec (fun d s => d && s)
          (rfl : block.enabled.bits.length = block.enabled.bits.length) rfl
        refine ⟨enabled, ?_, hlen'.trans hshaped.enabled⟩
        simp only [Cluster.appendBlock, hstart, true_or, if_true, hset, Option.bind_eq_bind,
          Option.bind_some, Bitmap.setAnd, hand, hshaped.start]
      · rw [if_neg hdone] at hstart
        obtain ⟨enabled, hand, hlen', -⟩ := Bitmap.combine_spec (fun d s => d && s)
          (hlen.trans hshaped.enabled.symm) rfl
        refine ⟨enabled, ?_, hlen'.trans hlen⟩
        simp only [Cluster.appendBlock, hstart, hshaped.start, hne, or_true, if_true, if_false,
          Option.bind_eq_bind, Option.bind_some, Bitmap.setAnd, hand]
    obtain ⟨enabled, happend, hlen'⟩ := happend
    refine ⟨⟨b * tableBlockSize, cluster.numColumns + 1, enabled⟩, ?_, ⟨hlen', fun hf => ?_,
      fun _ => ⟨?_, ?_⟩⟩⟩
    · simp only [Table.getBlock, hsound.shows.get, hlook, hget, Option.bind_eq_bind, Option.bind_some, happend]
    · rw [hBtrue] at hf
      cases hf
    · rw [hcols, List.length_append, List.length_singleton]
    · rw [if_neg (by simp)]

/-- The rows of a block that a round processes. -/
lemma puts_edges (block : RefBlock) (F : Finset ℕ) (l : List ℕ) :
    puts ((l.filter fun i => block.enabled.test i).map fun i => (block.start + i, block.data i)) F
      = (l.filter fun i => decide (block.data i ∈ F) && block.enabled.test i).map fun i => block.start + i := by
  rw [puts, List.filter_map, List.map_map, List.filter_filter]
  rfl

/-- **The second loop of `build_fdb_bcluster_from_refs`.** -/
lemma buildLoop_spec {block : RefBlock} {current next : Bittable} {F N : Finset ℕ} {enabled : Bitmap}
    (hF : Denotes current F) (hN : Denotes next N) (hlen : enabled.bits.length = tableBlockSize)
    (hclear : ∀ i, enabled.test i = false) (hnew : ∀ s ∈ puts block.edges F, s ∉ N) :
    ∃ next' enabled', (List.range tableBlockSize).foldlM (buildStep block current) (next, enabled)
        = some (next', enabled')
      ∧ Denotes next' (N ∪ (puts block.edges F).toFinset) ∧ enabled'.bits.length = tableBlockSize
      ∧ ((List.range tableBlockSize).filter fun i => enabled'.test i).map (fun i => block.start + i)
        = puts block.edges F := by
  let hit : ℕ → Bool := fun i => decide (block.data i ∈ F) && block.enabled.test i
  have hloop := foldlM_spec (f := buildStep block current) (fun done s =>
      Denotes s.1 (N ∪ ((done.filter hit).map fun i => block.start + i).toFinset)
      ∧ s.2.bits.length = tableBlockSize ∧ ∀ i, s.2.test i = (decide (i ∈ done) && hit i))
    (List.range tableBlockSize) (s := (next, enabled)) ⟨by simpa using hN, hlen, fun i => by simp [hclear]⟩
    fun done i rest s hl ⟨hden, hslen, htest⟩ => by
      have hi : i ∈ List.range tableBlockSize := hl ▸ by simp
      have hfresh : i ∉ done := by
        have hnd := List.nodup_range (n := tableBlockSize)
        rw [hl, List.nodup_append] at hnd
        exact fun hd => hnd.2.2 i hd i List.mem_cons_self rfl
      have hset : block.enabled.isSet i = some (block.enabled.test i) :=
        Bitmap.isSet_eq (block.enabled_length ▸ List.mem_range.mp hi)
      have hex := hF.existsId (block.data i)
      by_cases hhit : hit i = true
      · obtain ⟨hdata, hen⟩ := (Bool.and_eq_true _ _).mp hhit
        -- the source is neither on the frontier already nor put there by another row
        have hout : i + block.start ∉ N ∪ ((done.filter hit).map fun i => block.start + i).toFinset := by
          rw [Finset.mem_union, List.mem_toFinset, List.mem_map]
          rintro (hin | ⟨j, hj, hji⟩)
          · refine hnew (i + block.start) ?_ hin
            rw [RefBlock.edges, puts_edges, Nat.add_comm]
            exact List.mem_map.mpr ⟨i, List.mem_filter.mpr ⟨hi, hhit⟩, rfl⟩
          · have hij : j = i := by omega
            exact hfresh (hij ▸ (List.mem_filter.mp hj).1)
        obtain ⟨enabled', hset', hlen', htest', -⟩ :=
          Bitmap.setBit_spec (hslen.symm ▸ List.mem_range.mp hi) true
        have hlt : i + block.start < 2 ^ 32 := by
          rw [Nat.add_comm]
          exact lt_trans (block.source_lt i hen) (by decide)
        obtain ⟨next', hadd, hden'⟩ := hden.add hlt
        refine ⟨(next', enabled'), ?_, ?_, hlen'.trans hslen, fun j => ?_⟩
        · simp only [buildStep, hset, hen, hex, hdata, hden.existsId, decide_eq_false hout, Bitmap.set, hset',
            hadd, Option.bind_eq_bind, Option.bind_some, if_true, Bool.false_eq_true, if_false]
        · rw [List.filter_append, List.filter_cons_of_pos hhit, List.filter_nil, List.map_append,
            List.toFinset_append, ← Finset.union_assoc]
          have hins : insert (i + block.start) (N ∪ ((done.filter hit).map fun i => block.start + i).toFinset)
              = N ∪ ((done.filter hit).map fun i => block.start + i).toFinset
                ∪ ([i].map fun i => block.start + i).toFinset := by
            ext j
            simp [Nat.add_comm i]
          rw [← hins]
          exact hden'
        · rw [htest']
          by_cases hj : j = i
          · rw [hj, Function.update_self, hhit]
            simp
          · rw [Function.update_of_ne hj, htest]
            simp [hj]
      · have hskip : buildStep block current s i = some s := by
          cases hen : block.enabled.test i with
          | false => simp only [buildStep, hset, hen, Option.bind_eq_bind, Option.bind_some,
              Bool.false_eq_true, if_false]
          | true =>
              have hdata : decide (block.data i ∈ F) = false := by
                cases hd : decide (block.data i ∈ F) with
                | false => rfl
                | true => exact absurd ((Bool.and_eq_true _ _).mpr ⟨hd, hen⟩) hhit
              simp only [buildStep, hset, hen, hex, hdata, Option.bind_eq_bind, Option.bind_some, if_true,
                Bool.false_eq_true, if_false]
        have hfalse : hit i = false := Bool.not_eq_true _ ▸ hhit
        refine ⟨s, hskip, ?_, hslen, fun j => ?_⟩
        · rw [List.filter_append, List.filter_cons_of_neg hhit, List.filter_nil, List.append_nil]
          exact hden
        · rw [htest]
          by_cases hj : j = i
          · rw [hj, hfalse, Bool.and_false, Bool.and_false]
          · simp [hj]
  obtain ⟨⟨next', enabled'⟩, hrun, hden, hlen', htest⟩ := hloop
  refine ⟨next', enabled', hrun, ?_, hlen', ?_⟩
  · rw [RefBlock.edges, puts_edges]
    exact hden
  · rw [RefBlock.edges, puts_edges]
    refine congrArg _ (List.filter_congr fun i hi => ?_)
    rw [htest, decide_eq_true hi, Bool.true_and]

/-- What a round puts on the frontier for a block. -/
def blockPuts (tables : List Table) (block : RefBlock) (F : Finset ℕ) : List ℕ :=
  if serves tables (block.start / tableBlockSize) = true then puts block.edges F else []

/-- What is built for a block: the rows that are put on the frontier, or nothing. -/
structure Cluster.Built (tables : List Table) (block : RefBlock) (F : Finset ℕ) (c : Cluster) : Prop where
  ids : c.ids = blockPuts tables block F
  length : c.enabled.bits.length = tableBlockSize
  served : serves tables (block.start / tableBlockSize) = true → c.start = block.start
  unserved : serves tables (block.start / tableBlockSize) = false → c.enabled = Bitmap.init tableBlockSize

lemma Cluster.Built.map_ids {tables : List Table} {blocks : List RefBlock} {F : Finset ℕ} {clusters : List Cluster}
    (h : List.Forall₂ (Cluster.Built tables · F) blocks clusters) :
    clusters.map Cluster.ids = blocks.map fun block => blockPuts tables block F :=
  map_eq_of_forall₂ (h.imp fun _ _ hc => hc.ids)

/-- **`build_fdb_bcluster_from_refs`.** -/
theorem buildBclusterFromRefs_spec {block : RefBlock} {current next : Bittable} {tables : List Table}
    {B : ℕ → Bool} {F N : Finset ℕ} (hF : Denotes current F) (hN : Denotes next N) (h : Agree tables B)
    (hnew : ∀ s ∈ blockPuts tables block F, s ∉ N) :
    ∃ next' cluster, buildBclusterFromRefs block current next tables = some (next', cluster)
      ∧ Denotes next' (N ∪ (blockPuts tables block F).toFinset) ∧ cluster.Built tables block F := by
  obtain ⟨cluster, happend, hlen, hnone, hsome⟩ := appendTables_spec h (block.start / tableBlockSize)
  have hinit : Cluster.init.ids = [] := by
    rw [Cluster.ids, List.filter_eq_nil_iff.mpr fun i _ => by simp [Cluster.init], List.map_nil]
  by_cases hs : serves tables (block.start / tableBlockSize) = true
  · obtain ⟨hne, hB⟩ := h.serves_eq.mp hs
    obtain ⟨hcols, hstart⟩ := hsome hB
    rw [if_neg hne, Nat.div_mul_cancel block.start_dvd] at hstart
    have hpos : 0 < tables.length := List.length_pos_iff.mpr hne
    have hputs : blockPuts tables block F = puts block.edges F := if_pos hs
    rw [hputs] at hnew ⊢
    obtain ⟨next', enabled', hrun, hden, hlen', hids⟩ := buildLoop_spec
      hF hN ((Bitmap.length_nullify cluster.enabled).trans hlen) (Bitmap.test_nullify _) hnew
    refine ⟨next', { cluster with enabled := enabled' }, ?_, hden, ?_, hlen', fun _ => hstart, fun hno => ?_⟩
    · simp only [buildBclusterFromRefs, happend, hcols, or_true, if_true, hpos, hrun, Option.bind_eq_bind,
        Option.bind_some]
    · rw [Cluster.ids, hstart, hputs]
      exact hids
    · rw [hs] at hno
      cases hno
  · have hputs : blockPuts tables block F = [] := if_neg hs
    have hcluster : cluster = Cluster.init := by
      cases hB : B (block.start / tableBlockSize) with
      | false => exact hnone hB
      | true =>
          have hempty : tables = [] := by_contra fun hne => hs (h.serves_eq.mpr ⟨hne, hB⟩)
          subst hempty
          exact (Option.some.inj happend).symm
    subst hcluster
    refine ⟨next, Cluster.init, ?_, by rw [hputs, List.toFinset_nil, Finset.union_empty]; exact hN,
      hinit.trans hputs.symm, hlen, fun hyes => absurd hyes hs, fun _ => rfl⟩
    have hcols : Cluster.init.numColumns = 0 := rfl
    simp only [buildBclusterFromRefs, happend, hcols, true_or, if_true, lt_irrefl, if_false,
      Option.bind_eq_bind, Option.bind_some]

/-! ### Rounds -/

/-- The references of a thread that take part in the cascade: those of the blocks for which there
are temporary tables. -/
def CascThread.links (t : CascThread) : List (ℕ × ℕ) :=
  (t.refs.filter fun block => serves t.tables (block.start / tableBlockSize)).flatMap RefBlock.edges

/-- The references of all threads that take part in the cascade. -/
def links (threads : List CascThread) : List (ℕ × ℕ) := threads.flatMap CascThread.links

lemma flatMap_blockPuts (tables : List Table) (refs : List RefBlock) (F : Finset ℕ) :
    refs.flatMap (fun block => blockPuts tables block F)
      = puts ((refs.filter fun block => serves tables (block.start / tableBlockSize)).flatMap RefBlock.edges) F := by
  induction refs with
  | nil => rfl
  | cons block refs ih =>
      rw [List.flatMap_cons, ih, blockPuts]
      by_cases hs : serves tables (block.start / tableBlockSize) = true
      · rw [if_pos hs, List.filter_cons, if_pos hs, List.flatMap_cons, puts_append]
      · rw [if_neg hs, List.filter_cons, if_neg hs, List.nil_append]

/-- The state of a thread at the beginning of a round, with the current frontier `F`. -/
structure CascThread.Ready (t : CascThread) (F : Finset ℕ) : Prop where
  current : Denotes t.current F
  next : ∃ N, Denotes t.next N
  agree : ∃ B, Agree t.tables B

/-- **The first half of a round**, for a thread whose blocks are distinct. -/
lemma CascThread.expand_spec {t : CascThread} {F : Finset ℕ} (h : t.Ready F)
    (hnd : (puts t.links F).Nodup) :
    ∃ t' clusters, t.expand = some (t', clusters) ∧ t'.refs = t.refs ∧ t'.tables = t.tables
      ∧ t'.current = t.current ∧ Denotes t'.next (puts t.links F).toFinset
      ∧ List.Forall₂ (Cluster.Built t.tables · F) t.refs clusters := by
  obtain ⟨N, hN⟩ := h.next
  obtain ⟨B, hB⟩ := h.agree
  obtain ⟨next, hclear, hden⟩ := hN.clear
  rw [CascThread.links, ← flatMap_blockPuts] at hnd ⊢
  obtain ⟨⟨next', clusters⟩, hrun, hden', hbuilt⟩ := foldlM_spec (fun done (s : Bittable × List Cluster) =>
      Denotes s.1 (done.flatMap fun block => blockPuts t.tables block F).toFinset
      ∧ List.Forall₂ (Cluster.Built t.tables · F) done s.2)
    (f := fun s refCluster => do
      let (next, cluster) ← buildBclusterFromRefs refCluster t.current s.1 t.tables
      some (next, s.2 ++ [cluster])) t.refs (s := (next, [])) ⟨hden, .nil⟩
    fun done block rest s hl ⟨hd, hs⟩ => by
      have hnew : ∀ id ∈ blockPuts t.tables block F,
          id ∉ (done.flatMap fun block => blockPuts t.tables block F).toFinset := by
        rw [hl, List.flatMap_append, List.nodup_append] at hnd
        intro id hid hin
        refine hnd.2.2 id (List.mem_toFinset.mp hin) id ?_ rfl
        rw [List.flatMap_cons]
        exact List.mem_append_left _ hid
      obtain ⟨next', cluster, hbuild, hden', hbuilt⟩ := buildBclusterFromRefs_spec h.current hd hB hnew
      refine ⟨(next', s.2 ++ [cluster]), ?_, ?_, ?_⟩
      · simp only [hbuild, Option.bind_eq_bind, Option.bind_some]
      · rw [List.flatMap_append, List.flatMap_singleton, List.toFinset_append]
        exact hden'
      · exact List.rel_append hs (.cons hbuilt .nil)
  refine ⟨{ t with next := next' }, clusters, ?_, rfl, rfl, rfl, hden', hbuilt⟩
  simp only [CascThread.expand, hclear, Option.bind_eq_bind, Option.bind_some] at hrun ⊢
  rw [hrun]
  rfl

lemma puts_links (threads : List CascThread) (F : Finset ℕ) :
    puts (links threads) F = threads.flatMap fun t => puts t.links F := by
  induction threads with
  | nil => rfl
  | cons t threads ih =>
      rw [List.flatMap_cons, ← ih, ← puts_append]
      rfl

/-- **A round**: all threads make the same frontier of what they have put on theirs. -/
theorem round_spec {threads : List CascThread} {F : Finset ℕ} (h : ∀ t ∈ threads, t.Ready F)
    (hnd : (puts (links threads) F).Nodup) :
    ∃ threads' clusters, round threads = some (threads', clusters) ∧ links threads' = links threads
      ∧ (∀ t ∈ threads', t.Ready (puts (links threads) F).toFinset)
      ∧ clusters.flatMap Cluster.ids = puts (links threads) F := by
  rw [puts_links] at hnd ⊢
  obtain ⟨expanded, hexp, hall⟩ := mapM_spec (fun (t : CascThread) (s : CascThread × List Cluster) =>
      s.1.refs = t.refs ∧ s.1.tables = t.tables ∧ s.1.current = t.current
        ∧ Denotes s.1.next (puts t.links F).toFinset ∧ s.2.flatMap Cluster.ids = puts t.links F)
    (l := threads) (f := CascThread.expand) fun t ht => by
      obtain ⟨t', clusters, hexp, hrefs, htables, hcurrent, hden, hbuilt⟩ :=
        CascThread.expand_spec (h t ht) ((List.nodup_flatMap.mp hnd).1 t ht)
      refine ⟨(t', clusters), hexp, hrefs, htables, hcurrent, hden, ?_⟩
      rw [List.flatMap_def, Cluster.Built.map_ids hbuilt, ← List.flatMap_def]
      exact flatMap_blockPuts t.tables t.refs F
  have hset : (threads.map fun t => (puts t.links F).toFinset).foldl (· ∪ ·) ∅
      = (threads.flatMap fun t => puts t.links F).toFinset := by
    ext id
    simp [mem_foldl_union]
  have hnexts : List.Forall₂ Denotes (expanded.map fun s => s.1.next)
      (threads.map fun t => (puts t.links F).toFinset) :=
    List.forall₂_map_left_iff.mpr (List.forall₂_map_right_iff.mpr
      (hall.flip.imp fun _ _ hs => hs.2.2.2.1))
  obtain ⟨threads', hmap, hall'⟩ := mapM_spec (fun (s : CascThread × List Cluster) (t : CascThread) =>
      t.links = s.1.links ∧ t.Ready (threads.flatMap fun t => puts t.links F).toFinset)
    (l := expanded) (f := fun s => do
      let current ← s.1.current.clear
      let current ← frontiersUnion (expanded.map fun s => s.1.next) current
      some { s.1 with current := current }) fun s hs => by
      obtain ⟨t, ht, -, htables, hcurrent, hnext, -⟩ := exists_of_mem_right hall hs
      obtain ⟨current, hclear, hden⟩ := (h t ht).current.clear
      obtain ⟨current', hunion, hden'⟩ := frontiersUnion_spec hden _ _ hnexts
      rw [hset] at hden'
      refine ⟨{ s.1 with current := current' }, ?_, rfl, hden', ⟨_, hnext⟩, ?_⟩
      · simp only [hcurrent, hclear, hunion, Option.bind_eq_bind, Option.bind_some]
      · exact htables ▸ (h t ht).agree
  have hlinks₁ : expanded.map (fun s => s.1.links) = threads.map CascThread.links :=
    map_eq_of_forall₂ (hall.imp fun _ _ hs => by rw [CascThread.links, CascThread.links, hs.1, hs.2.1])
  have hlinks₂ : threads'.map CascThread.links = expanded.map fun s => s.1.links :=
    map_eq_of_forall₂ (hall'.imp fun _ _ hs => hs.1)
  have hclusters : expanded.map (fun s => s.2.flatMap Cluster.ids) = threads.map fun t => puts t.links F :=
    map_eq_of_forall₂ (hall.imp fun _ _ hs => hs.2.2.2.2)
  refine ⟨threads', expanded.flatMap Prod.snd, ?_, ?_, fun t ht => ?_, ?_⟩
  · simp only [round, hexp, Option.bind_eq_bind, Option.bind_some] at hmap ⊢
    rw [hmap]
    rfl
  · rw [links, links, List.flatMap_def, List.flatMap_def, hlinks₂, hlinks₁]
  · obtain ⟨s, -, -, hready⟩ := exists_of_mem_right hall' ht
    exact hready
  · rw [List.flatMap_assoc, List.flatMap_def, hclusters, List.flatMap_def]

/-- What round `n` puts on the frontier. -/
def entered (rounds : List (List Cluster)) (n : ℕ) : List ℕ :=
  (rounds.getD n []).flatMap Cluster.ids

/-- The layers of the links in front of the frontier `F`. -/
def linkLayer (E : List (ℕ × ℕ)) (F : Finset ℕ) (n : ℕ) : Set ℕ := layer (fun s t => (s, t) ∈ E) ↑F n

lemma linkLayer_one (E : List (ℕ × ℕ)) (F : Finset ℕ) :
    linkLayer E F 1 = ((puts E F).toFinset : Set ℕ) := by
  ext s
  rw [Finset.mem_coe, List.mem_toFinset, mem_puts]
  rfl

lemma linkLayer_puts (E : List (ℕ × ℕ)) (F : Finset ℕ) (n : ℕ) :
    linkLayer E (puts E F).toFinset n = linkLayer E F (n + 1) := by
  rw [linkLayer, ← linkLayer_one]
  exact layer_layer n

/-- In front of nothing, or without links, there is nothing. -/
lemma linkLayer_eq_empty {E : List (ℕ × ℕ)} {F : Finset ℕ} (h : E = [] ∨ F = ∅) (n : ℕ) :
    linkLayer E F (n + 1) = ∅ := by
  have hone : linkLayer E F 1 = ∅ := by
    rw [linkLayer_one, Finset.coe_eq_empty, List.toFinset_eq_empty_iff, puts, List.map_eq_nil_iff,
      List.filter_eq_nil_iff]
    rcases h with rfl | rfl <;> simp
  exact layer_eq_empty hone (by omega)

/-- **The loop** processes the links layer by layer. -/
theorem cascade_spec {threads : List CascThread} {E : List (ℕ × ℕ)} {F : Finset ℕ} {fuel : ℕ}
    (hE : links threads = E) (h : ∀ t ∈ threads, t.Ready F) (hnd : (E.map Prod.fst).Nodup)
    (hF : F ≠ Finset.range (2 ^ 32)) (hinvalid : invalidId ∉ sources E)
    (hend : linkLayer E F fuel = ∅) :
    ∃ rounds, cascade (fuel + 1) threads = some rounds
      ∧ ∀ n, (entered rounds n).Nodup ∧ ∀ id, id ∈ entered rounds n ↔ id ∈ linkLayer E F (n + 1) := by
  induction fuel generalizing threads F with
  | zero =>
      have hempty : F = ∅ := Finset.coe_eq_empty.mp hend
      have hzero : ∀ t ∈ threads, t.current.size = 0 := fun t ht => by
        rw [(h t ht).current.size, hempty]
        rfl
      refine ⟨[], by rw [cascade, if_pos hzero], fun n => ⟨List.nodup_nil, fun id => ?_⟩⟩
      rw [linkLayer_eq_empty (Or.inr hempty)]
      exact iff_of_false List.not_mem_nil (Set.notMem_empty id)
  | succ fuel ih =>
      by_cases hzero : ∀ t ∈ threads, t.current.size = 0
      · -- there are no threads, or the frontier is empty
        have hor : E = [] ∨ F = ∅ := by
          cases threads with
          | nil => exact Or.inl (hE.symm.trans rfl)
          | cons t threads =>
              right
              have hsize := hzero t List.mem_cons_self
              have hcard := (h t List.mem_cons_self).current.size_eq_card_iff.mpr hF
              rw [hsize] at hcard
              exact Finset.card_eq_zero.mp hcard.symm
        refine ⟨[], by rw [cascade, if_pos hzero], fun n => ⟨List.nodup_nil, fun id => ?_⟩⟩
        rw [linkLayer_eq_empty hor]
        exact iff_of_false List.not_mem_nil (Set.notMem_empty id)
      · have hpos : ∀ t ∈ threads, 0 < t.current.size := by
          have hcard : ∀ t ∈ threads, t.current.size = F.card := fun t ht =>
            (h t ht).current.size_eq_card_iff.mpr hF
          push Not at hzero
          obtain ⟨t, ht, hne⟩ := hzero
          intro t' ht'
          rw [hcard t' ht', ← hcard t ht]
          exact Nat.pos_of_ne_zero hne
        have hndF : (puts (links threads) F).Nodup := hE ▸ hnd.sublist (puts_sublist _ _)
        obtain ⟨threads', clusters, hround, hlinks, hready, hids⟩ := round_spec h hndF
        rw [hE] at hlinks hready hids hndF
        have hF' : (puts E F).toFinset ≠ Finset.range (2 ^ 32) := by
          intro hall
          have hmem : invalidId ∈ (puts E F).toFinset := hall ▸ Finset.mem_range.mpr (by decide)
          obtain ⟨t, ht, -⟩ := mem_puts.mp (List.mem_toFinset.mp hmem)
          exact hinvalid (mem_sources.mpr ⟨t, ht⟩)
        obtain ⟨rounds, hrun, hrounds⟩ := ih hlinks hready hF' (by rw [linkLayer_puts]; exact hend)
        refine ⟨clusters :: rounds, ?_, fun n => ?_⟩
        · rw [cascade, if_neg hzero, if_pos hpos, hround, Option.bind_eq_bind, Option.bind_some]
          simp only [hrun, Option.bind_eq_bind, Option.bind_some]
        · cases n with
          | zero =>
              have hentered : entered (clusters :: rounds) 0 = puts E F := hids
              rw [hentered, linkLayer_one]
              exact ⟨hndF, fun id => List.mem_toFinset.symm⟩
          | succ n =>
              have hentered : entered (clusters :: rounds) (n + 1) = entered rounds n := rfl
              rw [hentered, ← linkLayer_puts]
              exact hrounds n

/-! ### The whole operator -/

/-- The enabled references of a table, of which each thread has a part. -/
def references (parts : List (List RefBlock × List Table)) : List (ℕ × ℕ) :=
  (parts.map fun part => part.1.flatMap RefBlock.edges).flatten

/-- The targets that are not sources. -/
def roots (parts : List (List RefBlock × List Table)) : Finset ℕ :=
  targets (references parts) \ sources (references parts)

/-- A thread goes through its part of the reference table. -/
lemma consumeAll_spec {hit : ℕ → Bool} {tables : List Table} (h : ∀ t ∈ tables, t.Sound ∅)
    (refs : List RefBlock) : ∃ t, refs.foldlM (CascThread.consume hit) (CascThread.init tables) = some t
      ∧ t.refs = refs ∧ (∃ B, Agree t.tables B) ∧ t.current = Bittable.init
      ∧ Found (t.next, t.blacklist) (refs.flatMap RefBlock.edges) := by
  have hempty : Agree tables fun _ => false := fun t ht => ⟨⟨∅, h t ht⟩, fun b => by
    rw [(h t ht).blockAt_eq, Finmap.lookup_empty]
    rfl⟩
  refine foldlM_spec (fun done (t : CascThread) => t.refs = done ∧ (∃ B, Agree t.tables B)
      ∧ t.current = Bittable.init ∧ Found (t.next, t.blacklist) (done.flatMap RefBlock.edges)) refs
    ⟨rfl, ⟨_, hempty⟩, rfl, Denotes.init, Denotes.init⟩
    fun done block rest t _ ⟨hrefs, ⟨B, hB⟩, hcurrent, hfound⟩ => ?_
  obtain ⟨⟨next, blacklist⟩, hfind, hfound'⟩ := findRootsAndBlacklist_spec hfound block
  obtain ⟨tables', B', hgather, hB'⟩ := gather_spec hit hB block
  refine ⟨{ t with refs := t.refs ++ [block], tables := tables', blacklist := blacklist, next := next },
    ?_, by rw [hrefs], ⟨B', hB'⟩, hcurrent, ?_⟩
  · simp only [CascThread.consume, hfind, hgather, Option.bind_eq_bind, Option.bind_some]
  · rw [List.flatMap_append, List.flatMap_singleton]
    exact hfound'

/-- **The code before the loop.** -/
theorem start_spec (hit : ℕ → Bool) {parts : List (List RefBlock × List Table)}
    (h : ∀ part ∈ parts, ∀ t ∈ part.2, t.Sound ∅) :
    ∃ threads, start hit parts = some threads ∧ threads.map CascThread.refs = parts.map Prod.fst
      ∧ ∀ t ∈ threads, t.Ready (roots parts) := by
  obtain ⟨threads, hmap, hall⟩ := mapM_spec (fun (part : List RefBlock × List Table) (t : CascThread) =>
      t.refs = part.1 ∧ (∃ B, Agree t.tables B) ∧ t.current = Bittable.init
        ∧ Found (t.next, t.blacklist) (part.1.flatMap RefBlock.edges))
    (l := parts) (f := fun part => part.1.foldlM (CascThread.consume hit) (CascThread.init part.2))
    fun part hpart => consumeAll_spec (h part hpart) part.1
  have hfound : List.Forall₂ Found (threads.map fun t => (t.next, t.blacklist))
      (parts.map fun part => part.1.flatMap RefBlock.edges) :=
    List.forall₂_map_left_iff.mpr (List.forall₂_map_right_iff.mpr (hall.flip.imp fun _ _ ht => ht.2.2.2))
  obtain ⟨current, bt, hunion, hfilter, hbt⟩ := union_filter_spec hfound
  rw [List.map_map] at hunion hfilter
  obtain ⟨threads', hmap', hall'⟩ := mapM_spec (fun (t t' : CascThread) => t'.refs = t.refs
      ∧ t'.Ready (roots parts))
    (l := threads) (f := fun t => do
      let current ← frontiersUnion (threads.map CascThread.next) t.current
      let current ← filterBlacklists (threads.map CascThread.blacklist) current
      some { t with current := current }) fun t ht => by
      obtain ⟨part, -, -, hagree, hcurrent, hf⟩ := exists_of_mem_right hall ht
      refine ⟨{ t with current := bt }, ?_, rfl, hbt, ⟨_, hf.roots⟩, hagree⟩
      have hunion' : frontiersUnion (threads.map CascThread.next) Bittable.init = some current := hunion
      have hfilter' : filterBlacklists (threads.map CascThread.blacklist) current = some bt := hfilter
      simp only [hcurrent, hunion', hfilter', Option.bind_eq_bind, Option.bind_some]
  refine ⟨threads', ?_, ?_, fun t ht => ?_⟩
  · simp only [start, hmap, Option.bind_eq_bind, Option.bind_some] at hmap' ⊢
    exact hmap'
  · rw [map_eq_of_forall₂ (hall'.imp fun _ _ ht => ht.1), map_eq_of_forall₂ (hall.imp fun _ _ ht => ht.1)]
  · obtain ⟨t', -, -, hready⟩ := exists_of_mem_right hall' ht
    exact hready

/-- The links are among the references. -/
lemma links_sublist {threads : List CascThread} {parts : List (List RefBlock × List Table)}
    (h : threads.map CascThread.refs = parts.map Prod.fst) :
    (links threads).Sublist (references parts) := by
  have hrefs : references parts = threads.flatMap fun t => t.refs.flatMap RefBlock.edges := by
    rw [references, List.flatMap_def]
    refine congrArg _ ?_
    have hmap := congrArg (List.map fun refs => refs.flatMap RefBlock.edges) h
    rw [List.map_map, List.map_map] at hmap
    exact hmap.symm
  rw [hrefs]
  exact List.Sublist.flatMap_right threads fun t _ => List.Sublist.flatMap List.filter_sublist _

lemma references_eq (parts : List (List RefBlock × List Table)) :
    references parts = (parts.flatMap Prod.fst).flatMap RefBlock.edges := by
  rw [references, ← List.flatMap_def, List.flatMap_assoc]

lemma source_lt {parts : List (List RefBlock × List Table)} {s : ℕ} (h : s ∈ sources (references parts)) :
    s < invalidId := by
  obtain ⟨t, hst⟩ := mem_sources.mp h
  rw [references_eq] at hst
  obtain ⟨block, -, hedge⟩ := List.mem_flatMap.mp hst
  obtain ⟨i, hi, heq⟩ := List.mem_map.mp hedge
  obtain rfl : block.start + i = s := congrArg Prod.fst heq
  exact block.source_lt i (List.mem_filter.mp hi).2

/-- There are always other entities than the roots. -/
lemma roots_ne (parts : List (List RefBlock × List Table)) : roots parts ≠ Finset.range (2 ^ 32) := by
  intro hall
  have hmem : invalidId ∈ roots parts := hall ▸ Finset.mem_range.mpr (by decide)
  obtain ⟨s, hs⟩ := mem_targets.mp (Finset.mem_sdiff.mp hmem).1
  have hsource : s ∈ sources (references parts) := mem_sources.mpr ⟨_, hs⟩
  have hroot : s ∈ roots parts := hall ▸ Finset.mem_range.mpr (lt_trans (source_lt hsource) (by decide))
  exact (Finset.mem_sdiff.mp hroot).2 hsource

/-- **The cascade.** Whatever the references of a table are, cycles included, and however its
blocks are divided among threads, the loop ends; over the whole run each entity is put on a
frontier at most once, the roots before the first round; and an entity that a round processes has a
reference whose target the round before has put on the frontier, or that is a root for the first
round. -/
theorem cascade_runs (hit : ℕ → Bool) (parts : List (List RefBlock × List Table))
    (hblocks : ((parts.flatMap Prod.fst).map RefBlock.start).Nodup)
    (htables : ∀ part ∈ parts, ∀ t ∈ part.2, t.Sound ∅) :
    ∃ threads rounds, start hit parts = some threads
      ∧ (∀ t ∈ threads, ∀ id, t.current.existsId id = some (decide (id ∈ roots parts)))
      ∧ cascade ((references parts).length + 2) threads = some rounds
      ∧ (rounds.flatMap fun clusters => clusters.flatMap Cluster.ids).Nodup
      ∧ (∀ n, ∀ id ∈ entered rounds n, id ∉ roots parts)
      ∧ ∀ n, ∀ source ∈ entered rounds n, ∃ target, (source, target) ∈ references parts
        ∧ (n = 0 ∧ target ∈ roots parts ∨ ∃ m, n = m + 1 ∧ target ∈ entered rounds m) := by
  obtain ⟨threads, hstart, hrefs, hready⟩ := start_spec hit htables
  have hsub := links_sublist hrefs
  have hnd : ((links threads).map Prod.fst).Nodup := by
    refine List.Nodup.sublist (hsub.map Prod.fst) ?_
    rw [references_eq]
    exact nodup_sources hblocks
  have hfun : ∀ s t t', (s, t) ∈ links threads → (s, t') ∈ links threads → t = t' := fun s t t' h h' =>
    congrArg Prod.snd (List.inj_on_of_nodup_map hnd h h' rfl)
  have hroot : ∀ r ∈ (↑(roots parts) : Set ℕ), ∀ t, (r, t) ∉ links threads := fun r hr t hrt =>
    (Finset.mem_sdiff.mp (Finset.mem_coe.mp hr)).2 (mem_sources.mpr ⟨t, hsub.subset hrt⟩)
  have hinvalid : invalidId ∉ sources (links threads) := by
    intro hin
    obtain ⟨t, ht⟩ := mem_sources.mp hin
    exact lt_irrefl _ (source_lt (mem_sources.mpr ⟨t, hsub.subset ht⟩))
  have hend : linkLayer (links threads) (roots parts) ((references parts).length + 1) = ∅ := by
    have hempty := exists_layer_eq_empty hfun hroot (sources (links threads)) fun s t hst =>
      mem_sources.mpr ⟨t, hst⟩
    have hcard : (sources (links threads)).card ≤ (references parts).length := by
      refine le_trans (List.toFinset_card_le _) ?_
      rw [List.length_map]
      exact hsub.length_le
    exact layer_eq_empty hempty (Nat.add_le_add_right hcard 1)
  obtain ⟨rounds, hrun, hrounds⟩ := cascade_spec rfl hready hnd (roots_ne parts) hinvalid hend
  refine ⟨threads, rounds, hstart, fun t ht id => (hready t ht).current.existsId id, hrun, ?_,
    fun n id hid hr => ?_, fun n source hs => ?_⟩
  · -- entities of different rounds are in different layers
    have hget : ∀ n (hn : n < rounds.length), rounds[n].flatMap Cluster.ids = entered rounds n := by
      intro n hn
      rw [entered, List.getD_eq_getElem?_getD, List.getElem?_eq_getElem hn, Option.getD_some]
    refine List.nodup_flatMap.mpr ⟨fun clusters hc => ?_, List.pairwise_iff_getElem.mpr ?_⟩
    · obtain ⟨n, hn, rfl⟩ := List.getElem_of_mem hc
      rw [hget n hn]
      exact (hrounds n).1
    · intro i j hi hj hij id hid hid'
      have hidi : id ∈ entered rounds i := hget i hi ▸ hid
      have hidj : id ∈ entered rounds j := hget j hj ▸ hid'
      have := layer_injective hfun hroot (((hrounds i).2 id).mp hidi) (((hrounds j).2 id).mp hidj)
      omega
  · rw [(hrounds n).2] at hid
    have := layer_injective hfun hroot (i := 0) (Finset.mem_coe.mpr hr) hid
    omega
  · rw [(hrounds n).2] at hs
    obtain ⟨target, hedge, ht⟩ := mem_layer_succ.mp hs
    refine ⟨target, hsub.subset hedge, ?_⟩
    cases n with
    | zero => exact Or.inl ⟨rfl, Finset.mem_coe.mp ht⟩
    | succ m => exact Or.inr ⟨m, rfl, ((hrounds m).2 target).mpr ht⟩

/-- Two threads and a chain through both parts of the table. -/
theorem cascade_runs_two :
    ∃ threads rounds, start (fun _ => true)
        [([RefBlock.single 0 256 (by decide) (by decide)], [Table.init 8 false fun _ => 0]),
          ([RefBlock.single 1 7 (by decide) (by decide)], [Table.init 8 false fun _ => 0])] = some threads
      ∧ cascade 4 threads = some rounds
      ∧ (rounds.flatMap fun clusters => clusters.flatMap Cluster.ids).Nodup := by
  obtain ⟨threads, rounds, hstart, -, hrun, hnd, -⟩ := cascade_runs (fun _ => true)
    [([RefBlock.single 0 256 (by decide) (by decide)], [Table.init 8 false fun _ => 0]),
      ([RefBlock.single 1 7 (by decide) (by decide)], [Table.init 8 false fun _ => 0])]
    (by
      simp only [List.flatMap_cons, List.flatMap_nil, List.map_append, List.map_cons, List.map_nil,
        RefBlock.start_single]
      decide) (by
      intro part hpart t ht
      have hinit : t = Table.init 8 false fun _ => 0 := by
        rcases List.mem_cons.mp hpart with rfl | hpart
        · exact List.mem_singleton.mp ht
        · rw [List.mem_singleton] at hpart
          subst hpart
          exact List.mem_singleton.mp ht
      exact hinit ▸ Table.Sound.init 8 false _)
  have hlen : (references [([RefBlock.single 0 256 (by decide) (by decide)], [Table.init 8 false fun _ => 0]),
      ([RefBlock.single 1 7 (by decide) (by decide)], [Table.init 8 false fun _ => 0])]).length = 2 := by
    simp only [references_eq, List.flatMap_cons, List.flatMap_nil, List.append_nil, List.cons_append,
      List.nil_append, RefBlock.edges_single, List.length_cons, List.length_nil]
  rw [hlen] at hrun
  exact ⟨threads, rounds, hstart, hrun, hnd⟩

end Furious
