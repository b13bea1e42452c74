import Furious.Data.CascadeRuns
import Furious.Query.Clusters

/-!
The calls behind a cascading gather.

The clusters that are built for the blocks of references go through a join with what the statement matches, and the
system is called for the rows that are left, with the pointers that are in the temporary tables.

* `CascStmt`, `PairCall`: a statement, and a call of its system;
* `tempCluster`, `pairCalls`, `CascStmt.calls`: the code behind `build_fdb_bcluster_from_refs`;
* `appendTables_eq`: the cluster is the one of which the rows have been enabled;
* `pairCalls_spec`, `pairCalls_none`: the calls for a cluster;
* `consumeJoin_served`, `consumeJoin_unserved`, `consumeBlock_spec`: **the calls for a block of references**;
* `CascStmt.calls_spec`: **the calls of all threads**.
-/

namespace Furious

/-! ### The code behind the rounds -/

/-- A statement with a cascading gather: the operator, the tables that are matched, and the clusters that the code of
the match hands on to the join above the gather. -/
structure CascStmt where
  op : CascOp
  matched : List Expanded
  clusters : List BCluster

/-- A call of the system: the entity, the pointers to its components, and those to the components of its target. -/
structure PairCall where
  entity : ℕ
  components : List ℕ
  targets : List ℕ

/-- The first loop of `build_fdb_bcluster_from_refs`, with the pointers to the blocks. -/
def tempCluster (tables : List Table) (blockId : ℕ) : Option BCluster :=
  tables.foldlM (fun cluster t => do
    match ← t.getBlock blockId with
    | none => some cluster
    | some p => do
        let block ← t.tblockAllocator.get p
        cluster.appendBlock p block) BCluster.init

/-- The data of a column, which is a block of the table. -/
def blockData (source : BCluster) (t : Table) (index : ℕ) : Option Address := do
  let p ← (← source.getTblock index)
  let block ← t.tblockAllocator.get p
  some block.data

/-- The data of the columns from `first` on. -/
def blocksData (first : ℕ) (tables : List Table) (source : BCluster) : Option (List Address) :=
  tables.zipIdx.mapM fun t => blockData source t.1 (first + t.2)

/-- The call for the row `i`: a gathered component is a pointer. -/
def callAt (matched : List Expanded) (tables : List Table) (data gathered : List Address) (start i : ℕ) : PairCall where
  entity := start + i
  components := List.zipWith (fun e a => (e.locate (a.add (i * e.table.esize))).toNat) matched data
  targets := List.zipWith (fun t a => t.loadSize (a.add (i * tempSize))) tables gathered

/-- The code of the foreach, for the columns of the match and the gathered ones behind them. -/
def pairCalls (matched : List Expanded) (tables : List Table) (source : BCluster) : Option (List PairCall) := do
  let data ← blocksData 0 (matched.map Expanded.table) source
  let gathered ← blocksData matched.length tables source
  let call := callAt matched tables data gathered source.start
  if source.enabled.numSet = tableBlockSize then some ((List.range tableBlockSize).map call)
  else
    (List.range tableBlockSize).foldlM (fun calls i => do
      let isSet ← source.enabled.isSet i
      if isSet = true then some (calls ++ [call i]) else some calls) []

namespace CascStmt

/-- `consume_join`, for a cluster of the gather. -/
def consumeJoin (stmt : CascStmt) (hashTable : BTree BCluster) (tables : List Table) (source : BCluster) :
    Option (List PairCall) := do
  match ← hashTable.get (source.start / tableBlockSize) with
  | none => some []
  | some build => do
      let cluster ← BCluster.init.appendCluster build
      let cluster ← cluster.appendCluster source
      if cluster.enabled.numSet ≠ 0 then pairCalls stmt.matched tables cluster else some []

/-- What the code does in a round with a block of references, for which the rows of `built` have been enabled: the
temporary tables are the same in all rounds. -/
def consumeBlock (stmt : CascStmt) (hashTable : BTree BCluster) (tables : List Table) (built : RefBlock × Cluster) :
    Option (List PairCall) := do
  let source ← tempCluster tables (built.1.start / tableBlockSize)
  stmt.consumeJoin hashTable tables { source with enabled := built.2.enabled }

/-- The clusters of the match that a thread gets. -/
def scanned (stmt : CascStmt) (args : CascArgs) (n offset : ℕ) : List BCluster :=
  Gather.scan BCluster.start args.chunkSize n stmt.clusters offset

/-- The calls of a thread: it has put the clusters of the match in the hash table of the join, as the code of a gather
does, and goes through the clusters of its rounds. The code reads nothing that the system writes. -/
def threadCalls (stmt : CascStmt) (args : CascArgs) (n : ℕ) (s : CascTask) : Option (List PairCall) := do
  let hashTable ← (stmt.scanned args n s.offset).foldlM Gather.consumeGather BTree.init
  let calls ← (s.rounds.flatMap fun clusters => s.thread.refs.zip clusters).mapM
    (stmt.consumeBlock hashTable s.thread.tables)
  some calls.flatten

/-- The calls of all threads. -/
def calls (stmt : CascStmt) (args : CascArgs) {n : ℕ} (c : TaskConfig n) : Option (List PairCall) := do
  let calls ← (List.ofFn fun i => (c.procs i).state).mapM (stmt.threadCalls args n)
  some calls.flatten

end CascStmt

/-! ### The cluster of the temporary tables -/

/-- A cluster without its columns. -/
def BCluster.rows (bc : BCluster) : Cluster := ⟨bc.start, bc.numColumns, bc.enabled⟩

lemma BCluster.appendBlock_rows {bc bc' : BCluster} {p : ℕ} {block : TableBlock}
    (h : bc.appendBlock p block = some bc') : bc.rows.appendBlock block = some bc'.rows := by
  rw [BCluster.appendBlock] at h
  split_ifs at h with hroom hnew
  · obtain ⟨enabled, henabled, h⟩ := Option.bind_eq_some_iff.mp h
    obtain ⟨bc₁, hbc₁, h⟩ := Option.bind_eq_some_iff.mp h
    obtain rfl := Option.some.inj hbc₁
    obtain ⟨enabled', hand, h⟩ := Option.bind_eq_some_iff.mp h
    obtain rfl := Option.some.inj h
    dsimp only at hand
    simp only [BCluster.rows, Cluster.appendBlock, hnew, true_or, if_true, henabled, hand, Option.bind_eq_bind,
      Option.bind_some]
  · obtain ⟨bc₁, hbc₁, h⟩ := Option.bind_eq_some_iff.mp h
    obtain rfl := Option.some.inj hbc₁
    obtain ⟨enabled, hand, h⟩ := Option.bind_eq_some_iff.mp h
    obtain rfl := Option.some.inj h
    have hsame : bc.start = block.start := hroom.2.resolve_left hnew
    have hnew' : ¬ block.start = invalidBlockStart := hsame ▸ hnew
    simp only [BCluster.rows, Cluster.appendBlock, hsame, hnew', or_true, if_true, if_false, hand, Option.bind_eq_bind,
      Option.bind_some]

/-- **The cluster** is the one of which `build_fdb_bcluster_from_refs` enables the rows. -/
theorem appendTables_eq {tables : List Table} {b : ℕ} {bc : BCluster} (h : tempCluster tables b = some bc) :
    appendTables b tables = some bc.rows := by
  induction tables using List.reverseRecOn generalizing bc with
  | nil =>
      obtain rfl := Option.some.inj h
      rfl
  | append_singleton tables t ih =>
      rw [tempCluster, List.foldlM_append] at h
      obtain ⟨bc₁, hbefore, h⟩ := Option.bind_eq_some_iff.mp h
      obtain ⟨bc₂, hblock, h⟩ := Option.bind_eq_some_iff.mp h
      obtain rfl := Option.some.inj h
      obtain ⟨q, hget, hblock⟩ := Option.bind_eq_some_iff.mp hblock
      have hrows := ih hbefore
      rw [appendTables] at hrows
      rw [appendTables, List.foldlM_append, hrows]
      cases q with
      | none =>
          obtain rfl := Option.some.inj hblock
          simp only [List.foldlM_cons, List.foldlM_nil, hget, Option.bind_eq_bind, Option.bind_some, Option.pure_def]
      | some p =>
          obtain ⟨block, hblock', happend⟩ := Option.bind_eq_some_iff.mp hblock
          simp only [List.foldlM_cons, List.foldlM_nil, hget, hblock', BCluster.appendBlock_rows happend,
            Option.bind_eq_bind, Option.bind_some, Option.pure_def]

/-! ### One block of references -/

/-- A temporary table, as a table whose blocks may be in a cluster. -/
def Table.asExpanded (t : Table) : Expanded := ⟨t, fun _ => 0⟩

section Blocks

variable {tables : List Table} {b : ℕ}

/-- No table has the block. -/
lemma tempCluster_none (h : ∀ t ∈ tables, (∃ M, t.Sound M) ∧ t.blockAt b = none) :
    tempCluster tables b = some BCluster.init := by
  have hloop : ∃ bc, tempCluster tables b = some bc ∧ bc = BCluster.init := by
    refine foldlM_spec (fun _ bc => bc = BCluster.init) tables rfl fun done t rest bc hl hbc => ?_
    obtain ⟨⟨M, hsound⟩, hnone⟩ := h t (hl ▸ by simp)
    rcases hsound.cases b with ⟨hlook, -⟩ | ⟨p, block, -, -, hat, -⟩
    · refine ⟨bc, ?_, hbc⟩
      simp only [Table.getBlock, hsound.shows.get, hlook, Option.bind_eq_bind, Option.bind_some]
    · rw [hnone] at hat
      cases hat
  obtain ⟨bc, hrun, rfl⟩ := hloop
  exact hrun

/-- All tables have the block. -/
lemma tempCluster_spec (h : ∀ t ∈ tables, (∃ M, t.Sound M) ∧ (t.blockAt b).isSome = true) (hb : b < numBlocks)
    (hne : tables ≠ []) (hle : tables.length ≤ maxClusterSize) :
    ∃ bc, tempCluster tables b = some bc ∧ bc.Expands (tables.map Table.asExpanded) b := by
  have hstart : b * tableBlockSize ≠ invalidBlockStart := by
    have hlt : b < 2 ^ 24 := hb
    have hne : b * 256 ≠ 0xffffffff := by omega
    exact hne
  have hloop : ∃ bc, tempCluster tables b = some bc ∧ ∃ cols, BClusterRun (b * tableBlockSize) bc cols
      ∧ List.Forall₂ (fun e c => e.HasBlock b c) (tables.map Table.asExpanded) cols := by
    refine foldlM_spec (fun done bc => ∃ cols, BClusterRun (b * tableBlockSize) bc cols
      ∧ List.Forall₂ (fun e c => e.HasBlock b c) (done.map Table.asExpanded) cols) tables ⟨[], .init, .nil⟩
      fun done t rest bc hl ⟨cols, hbc, hcols⟩ => ?_
    obtain ⟨⟨M, hsound⟩, hsome⟩ := h t (hl ▸ by simp)
    rcases hsound.cases b with ⟨-, hnone⟩ | ⟨p, block, hlook, hget, hat, hshaped⟩
    · rw [hnone] at hsome
      cases hsome
    · have hroom : cols.length < maxClusterSize := by
        rw [← hcols.length_eq, List.length_map]
        refine lt_of_lt_of_le ?_ hle
        rw [hl, List.length_append, List.length_cons]
        omega
      have haligned : Aligned (b * tableBlockSize) [.block p block] := by
        intro p' block' hmem
        obtain ⟨-, rfl⟩ := Column.block.inj (List.mem_singleton.mp hmem)
        exact ⟨hshaped.start, hshaped.enabled⟩
      obtain ⟨bc', hcall, -⟩ := (hbc.joins hstart).1.appendBlock hstart haligned hroom
      refine ⟨bc', ?_, _, hbc.appendBlock p block haligned hroom hcall, ?_⟩
      · simp only [Table.getBlock, hsound.shows.get, hlook, hget, hcall, Option.bind_eq_bind, Option.bind_some]
      · rw [List.map_append, List.map_singleton]
        exact List.rel_append hcols (.cons ⟨p, block, rfl, hget, hat⟩ .nil)
  obtain ⟨bc, hrun, cols, hbc, hcols⟩ := hloop
  exact ⟨bc, hrun, hbc.expands hb (by simpa using hne) hcols⟩

/-- The pointer that a temporary table has for an entity. -/
def Table.pointerAt (t : Table) (id : ℕ) : ℕ := (t.place id).elim 0 t.loadSize

/-- The pointer to the component of an entity. -/
def Expanded.address (e : Expanded) (id : ℕ) : ℕ := (e.table.place id).elim 0 fun a => (e.locate a).toNat

/-- The call for an entity. -/
def rowCall (matched : List Expanded) (tables : List Table) (id : ℕ) : PairCall :=
  ⟨id, matched.map fun e => e.address id, tables.map fun t => t.pointerAt id⟩

/-- The calls for the rows of a cluster. -/
def rowCalls (matched : List Expanded) (tables : List Table) (b : ℕ) (enabled : Bitmap) : List PairCall :=
  (List.range tableBlockSize).flatMap fun o =>
    if enabled.test o = true then [rowCall matched tables (b * tableBlockSize + o)] else []

variable {bc : BCluster} {cs cols cols' : List Column} {matched : List Expanded}

/-- The data of a column. -/
lemma blockData_spec (h : bc.HasColumns cs) {j : ℕ} {c : Column} (hc : cs[j]? = some c) {t : Table}
    (ht : (Table.asExpanded t).HasBlock b c) :
    ∃ block, blockData bc t j = some block.data ∧ t.blockAt b = some block := by
  obtain ⟨p, block, rfl, hblock, hat⟩ := ht
  obtain ⟨hptr, hbit⟩ := h.get hc
  have htblock : bc.getTblock j = some (some p) := by
    rw [BCluster.getTblock, hbit, hptr]
    rfl
  have hblock' : t.tblockAllocator.get p = some block := hblock
  exact ⟨block, by simp only [blockData, htblock, hblock', Option.bind_eq_bind, Option.bind_some], hat⟩

/-- The data of columns from one on. -/
lemma blocksData_spec (h : bc.HasColumns cs) {first : ℕ} (hcs : ∀ j < cols.length, cs[first + j]? = cols[j]?)
    (hcols : List.Forall₂ (fun t c => (Table.asExpanded t).HasBlock b c) tables cols) :
    ∃ data, blocksData first tables bc = some data
      ∧ List.Forall₂ (fun t a => ∃ block, a = block.data ∧ t.blockAt b = some block) tables data := by
  obtain ⟨data, hdata, hall⟩ := mapM_spec (fun (t : Table × ℕ) (a : Address) =>
      ∃ block, a = block.data ∧ t.1.blockAt b = some block) (l := tables.zipIdx)
      (f := fun t => blockData bc t.1 (first + t.2)) fun t ht => by
    obtain ⟨hlt, ht'⟩ := List.getElem?_eq_some_iff.mp (List.mem_zipIdx_iff_getElem?.mp ht)
    have hlt' : t.2 < cols.length := by rwa [← hcols.length_eq]
    have hcol : (Table.asExpanded t.1).HasBlock b cols[t.2] := by
      have hget := (List.forall₂_iff_get.mp hcols).2 t.2 hlt hlt'
      rwa [List.get_eq_getElem, List.get_eq_getElem, ht'] at hget
    obtain ⟨block, hrun, hat⟩ := blockData_spec h ((hcs t.2 hlt').trans (List.getElem?_eq_getElem hlt')) hcol
    exact ⟨block.data, hrun, block, rfl, hat⟩
  refine ⟨data, hdata, ?_⟩
  rw [← List.zipIdx_map_fst 0 tables]
  exact List.forall₂_map_left_iff.mpr hall

/-- The call for a row is the one for its entity. -/
lemma callAt_eq {data gathered : List Address}
    (hdata : List.Forall₂ (fun t a => ∃ block, a = block.data ∧ t.blockAt b = some block)
      (matched.map Expanded.table) data)
    (hgathered : List.Forall₂ (fun t a => ∃ block, a = block.data ∧ t.blockAt b = some block) tables gathered)
    (hesize : ∀ t ∈ tables, t.esize = tempSize) {o : ℕ} (ho : o < tableBlockSize) :
    callAt matched tables data gathered (b * tableBlockSize) o
      = rowCall matched tables (b * tableBlockSize + o) := by
  have hplace : ∀ (t : Table) block, t.blockAt b = some block →
      t.place (b * tableBlockSize + o) = some (block.data.add (o * t.esize)) := fun t block hat => by
    obtain ⟨hdiv, hmod⟩ := block_of_id (b := b) ho
    rw [Table.place_eq (hdiv.symm ▸ hat), hmod]
  rw [callAt, rowCall, PairCall.mk.injEq]
  refine ⟨rfl, ?_, ?_⟩
  · refine zipWith_eq_of_forall₂ (List.forall₂_map_left_iff.mp hdata) fun e _ a ha => ?_
    obtain ⟨block, rfl, hat⟩ := ha
    rw [Expanded.address, hplace _ _ hat]
    rfl
  · refine zipWith_eq_of_forall₂ hgathered fun t ht a ha => ?_
    obtain ⟨block, rfl, hat⟩ := ha
    rw [Table.pointerAt, hplace _ _ hat, hesize t ht]
    rfl

/-- **The calls for a cluster** with the blocks of the match and those of the temporary tables. -/
lemma pairCalls_spec (h : bc.HasColumns (cols ++ cols')) (hstart : bc.start = b * tableBlockSize)
    (hlen : bc.enabled.bits.length = tableBlockSize) (hcols : List.Forall₂ (fun e c => e.HasBlock b c) matched cols)
    (hcols' : List.Forall₂ (fun e c => e.HasBlock b c) (tables.map Table.asExpanded) cols')
    (hesize : ∀ t ∈ tables, t.esize = tempSize) :
    pairCalls matched tables bc = some (rowCalls matched tables b bc.enabled) := by
  obtain ⟨data, hdata, hall⟩ := blocksData_spec h (fun j hj => by rw [Nat.zero_add, List.getElem?_append_left hj])
    (List.forall₂_map_left_iff.mpr hcols : List.Forall₂ (fun t c => (Table.asExpanded t).HasBlock b c)
      (matched.map Expanded.table) cols)
  obtain ⟨gathered, hgathered, hall'⟩ := blocksData_spec h
    (fun j hj => by rw [List.getElem?_append_right (Nat.le_add_right _ _), Nat.add_sub_cancel_left])
    (List.forall₂_map_left_iff.mp hcols')
  rw [← hcols.length_eq] at hgathered
  have hrows : rowCalls matched tables b bc.enabled = (List.range tableBlockSize).flatMap fun o =>
      if bc.enabled.test o = true then [callAt matched tables data gathered bc.start o] else [] :=
    List.flatMap_congr fun o ho => by rw [hstart, callAt_eq hall hall' hesize (List.mem_range.mp ho)]
  rw [hrows]
  simp only [pairCalls, hdata, hgathered, Option.bind_eq_bind, Option.bind_some]
  split_ifs with hfull
  · rw [map_range_of_full hlen hfull]
  · exact foldlM_enabled hlen _

/-- Without the blocks of the temporary tables there is nothing to read. -/
lemma pairCalls_none (h : bc.HasColumns cols) (hne : tables ≠ []) (hlength : cols.length = matched.length) :
    pairCalls matched tables bc = none := by
  have hgathered : blocksData matched.length tables bc = none := by
    cases tables with
    | nil => exact absurd rfl hne
    | cons t tables =>
        have hblocks : bc.blocks[cols.length]? = some none ∨ bc.blocks[cols.length]? = none := by
          rw [h.blocks, List.getElem?_append_right (by rw [List.length_map]), List.length_map, Nat.sub_self,
            List.getElem?_replicate]
          split_ifs
          · exact Or.inl rfl
          · exact Or.inr rfl
        have hfirst : blockData bc t (matched.length + 0) = none := by
          rw [blockData, BCluster.getTblock, Nat.add_zero, ← hlength]
          cases bc.global.isSet cols.length with
          | none => rfl
          | some isGlobal =>
              cases isGlobal with
              | true => rfl
              | false =>
                  simp only [Option.bind_eq_bind, Option.bind_some, Bool.false_eq_true, if_false]
                  rcases hblocks with hb | hb <;> rw [hb] <;> rfl
        rw [blocksData, List.zipIdx_cons, List.mapM_cons, hfirst]
        rfl
  rw [pairCalls, hgathered]
  cases blocksData 0 (matched.map Expanded.table) bc <;> rfl

end Blocks

/-! ### The join -/

/-- A row of the last block is enabled. -/
def lastRow (clusters : List BCluster) : Bool :=
  (List.range tableBlockSize).any fun o => reaches clusters (lastBlock * tableBlockSize + o)

lemma lastRow_iff {clusters : List BCluster} :
    lastRow clusters = true ↔ ∃ id, reaches clusters id = true ∧ id / tableBlockSize = lastBlock := by
  rw [lastRow, List.any_eq_true]
  constructor
  · rintro ⟨o, ho, hrow⟩
    exact ⟨_, hrow, (block_of_id (List.mem_range.mp ho)).1⟩
  · rintro ⟨id, hrow, hid⟩
    refine ⟨id % tableBlockSize, List.mem_range.mpr (offset_lt id), ?_⟩
    rw [← hid, Nat.div_add_mod']
    exact hrow

/-- The hash table of the join has the clusters of the match. -/
structure CascStmt.Joins (stmt : CascStmt) (hashTable : BTree BCluster) (clusters : List BCluster) : Prop where
  expands : ∀ c ∈ clusters, c.Expands stmt.matched (c.start / tableBlockSize)
  shows : ∃ M, Shows hashTable M ∧ ∀ b c, M.lookup b = some c ↔ c ∈ clusters ∧ c.start / tableBlockSize = b

section Joins

variable {stmt : CascStmt} {clusters : List BCluster} {hashTable : BTree BCluster} {tables : List Table} {b : ℕ}

/-- A row in the clusters of a hash table. -/
lemma reaches_row {M : KeyMap BCluster} (hexp : ∀ c ∈ clusters, c.Expands stmt.matched (c.start / tableBlockSize))
    (hiff : ∀ b c, M.lookup b = some c ↔ c ∈ clusters ∧ c.start / tableBlockSize = b) {o : ℕ}
    (ho : o < tableBlockSize) :
    reaches clusters (b * tableBlockSize + o) = (M.lookup b).elim false fun c => c.enabled.test o := by
  obtain ⟨hdiv, hmod⟩ := block_of_id (b := b) ho
  rw [reaches_eq (hiff _) hexp, hdiv, hmod]

lemma mem_rowCalls {enabled : Bitmap} {call : PairCall} :
    call ∈ rowCalls stmt.matched tables b enabled ↔ ∃ o < tableBlockSize, enabled.test o = true
      ∧ call = rowCall stmt.matched tables (b * tableBlockSize + o) := by
  rw [rowCalls, List.mem_flatMap]
  refine exists_congr fun o => ?_
  rw [List.mem_range]
  refine and_congr_right fun _ => ?_
  split_ifs with ht
  · rw [List.mem_singleton]
    exact (and_iff_right ht).symm
  · exact iff_of_false List.not_mem_nil fun hand => ht hand.1

/-- **The join** of a cluster with the blocks of the temporary tables. -/
theorem consumeJoin_served (h : stmt.Joins hashTable clusters)
    (hroom : stmt.matched.length + tables.length ≤ maxClusterSize) {source : BCluster} {cols' : List Column}
    (hsource : source.HasColumns cols') (hstart : source.start = b * tableBlockSize)
    (hne : b * tableBlockSize ≠ invalidBlockStart) (hlen : source.enabled.bits.length = tableBlockSize)
    (hcols : List.Forall₂ (fun e c => e.HasBlock b c) (tables.map Table.asExpanded) cols')
    (hesize : ∀ t ∈ tables, t.esize = tempSize) :
    ∃ calls, stmt.consumeJoin hashTable tables source = some calls
      ∧ ∀ call, call ∈ calls ↔ ∃ o < tableBlockSize, source.enabled.test o = true
        ∧ reaches clusters (b * tableBlockSize + o) = true
        ∧ call = rowCall stmt.matched tables (b * tableBlockSize + o) := by
  obtain ⟨M, hshows, hiff⟩ := h.shows
  have hkey : source.start / tableBlockSize = b := by rw [hstart, Nat.mul_div_cancel _ (by decide)]
  cases hlookup : M.lookup b with
  | none =>
      refine ⟨[], ?_, fun call => iff_of_false List.not_mem_nil ?_⟩
      · simp only [CascStmt.consumeJoin, hkey, hshows.get, hlookup, Option.bind_eq_bind, Option.bind_some]
      · rintro ⟨o, ho, -, hrow, -⟩
        rw [reaches_row h.expands hiff ho, hlookup] at hrow
        cases hrow
  | some build =>
      obtain ⟨hmem, hblock⟩ := (hiff _ build).mp hlookup
      have hbuild := h.expands build hmem
      obtain ⟨cols, hbcols, -, hball⟩ := hbuild.columns
      have hbstart : build.start = b * tableBlockSize := by rw [hbuild.start, hblock]
      have hlength : cols.length = stmt.matched.length := hball.length_eq.symm
      obtain ⟨bc, happend, hbc, hbclen, hbcstart, htest⟩ := BCluster.appendCluster_spec hbcols hsource
        hbuild.length hlen
        (by rw [hlength, ← hcols.length_eq, List.length_map]; exact hroom) (Or.inl (hbstart.trans hstart.symm))
      rw [hstart, if_neg hne] at hbcstart
      simp only [hstart, hbstart, if_neg hne] at htest
      -- without a row there are no calls either
      have hcalls : ∃ calls, stmt.consumeJoin hashTable tables source = some calls
          ∧ ∀ call, call ∈ calls ↔ call ∈ rowCalls stmt.matched tables b bc.enabled := by
        have hpairs := pairCalls_spec hbc hbcstart hbclen (hblock ▸ hball) hcols hesize
        simp only [CascStmt.consumeJoin, hkey, hshows.get, hlookup, hbuild.copy, happend, hpairs, Option.bind_eq_bind,
          Option.bind_some]
        by_cases hset : bc.enabled.numSet = 0
        · refine ⟨[], if_neg (not_not.mpr hset), fun call => iff_of_false List.not_mem_nil fun hcall => ?_⟩
          obtain ⟨o, ho, ht, -⟩ := mem_rowCalls.mp hcall
          exact (BCluster.numSet_ne_zero hbclen).mpr ⟨o, ho, ht⟩ hset
        · exact ⟨_, if_pos hset, fun call => Iff.rfl⟩
      obtain ⟨calls, hrun, hcalls⟩ := hcalls
      refine ⟨calls, hrun, fun call => (hcalls call).trans (mem_rowCalls.trans (exists_congr fun o => ?_))⟩
      refine and_congr_right fun ho => ?_
      rw [htest, reaches_row h.expands hiff ho, hlookup, Option.elim_some, Bool.and_eq_true]
      tauto

/-- **The join** of a cluster without a block: it is joined to the cluster of the last block, all rows of which stay
enabled, and its columns are not there. -/
theorem consumeJoin_unserved (h : stmt.Joins hashTable clusters) (hne : tables ≠ []) :
    stmt.consumeJoin hashTable tables BCluster.init = if lastRow clusters = true then none else some [] := by
  obtain ⟨M, hshows, hiff⟩ := h.shows
  have hkey : BCluster.init.start / tableBlockSize = lastBlock := rfl
  cases hlookup : M.lookup lastBlock with
  | none =>
      have hdark : ¬ lastRow clusters = true := by
        rw [lastRow, List.any_eq_true]
        rintro ⟨o, ho, hrow⟩
        rw [reaches_row h.expands hiff (List.mem_range.mp ho), hlookup] at hrow
        cases hrow
      rw [if_neg hdark]
      simp only [CascStmt.consumeJoin, hkey, hshows.get, hlookup, Option.bind_eq_bind, Option.bind_some]
  | some build =>
      obtain ⟨hmem, hblock⟩ := (hiff _ build).mp hlookup
      have hbuild := h.expands build hmem
      obtain ⟨cols, hbcols, hble, hball⟩ := hbuild.columns
      obtain ⟨bc, happend, hbc, hbclen, -, htest⟩ := BCluster.appendCluster_spec hbcols BCluster.hasColumns_init
        hbuild.length (Bitmap.length_init _) (by simpa using hble) (Or.inr (Or.inr rfl))
      rw [List.append_nil] at hbc
      have hsame : ∀ o, bc.enabled.test o = build.enabled.test o := fun o => (htest o).trans (if_pos rfl)
      have hpairs := pairCalls_none hbc hne hball.length_eq.symm
      simp only [CascStmt.consumeJoin, hkey, hshows.get, hlookup, hbuild.copy, happend, hpairs, Option.bind_eq_bind,
        Option.bind_some]
      refine if_congr ?_ rfl rfl
      rw [BCluster.numSet_ne_zero hbclen, lastRow, List.any_eq_true]
      refine exists_congr fun o => ?_
      rw [List.mem_range]
      refine and_congr_right fun ho => ?_
      rw [reaches_row h.expands hiff ho, hlookup, Option.elim_some, hsame]

/-- What a block of references does to a round if there are no temporary tables for it: the join finds the rows of the
last block. -/
def Stray (clusters : List BCluster) (tables : List Table) (block : RefBlock) : Prop :=
  serves tables (block.start / tableBlockSize) = false ∧ lastRow clusters = true

/-- **A block of references in a round**: the calls for the sources that are put on the frontier and have a row, with
the pointers in the temporary tables; there are none if the code reads columns that are not there. -/
theorem consumeBlock_spec (h : stmt.Joins hashTable clusters) {B : ℕ → Bool} (htables : Agree tables B)
    (hne : tables ≠ []) (hesize : ∀ t ∈ tables, t.esize = tempSize)
    (hroom : stmt.matched.length + tables.length ≤ maxClusterSize) {block : RefBlock} (hblock : block.start < 2 ^ 32)
    {c : Cluster} {F : Finset ℕ} (hc : c.Built tables block F) :
    Yields (stmt.consumeBlock hashTable tables (block, c)) (Stray clusters tables block) fun call =>
      ∃ s ∈ c.ids, reaches clusters s = true ∧ call = rowCall stmt.matched tables s := by
  have hstart : block.start / tableBlockSize * tableBlockSize = block.start := Nat.div_mul_cancel block.start_dvd
  cases hserves : serves tables (block.start / tableBlockSize) with
  | false =>
      have hnone : ∀ t ∈ tables, (∃ M, t.Sound M) ∧ t.blockAt (block.start / tableBlockSize) = none := by
        refine fun t ht => ⟨(htables t ht).1, ?_⟩
        rw [serves, List.any_eq_false] at hserves
        exact Option.not_isSome_iff_eq_none.mp (hserves t ht)
      have hids : c.ids = [] := hc.ids.trans (if_neg (by rw [hserves]; exact Bool.false_ne_true))
      have hrun : stmt.consumeBlock hashTable tables (block, c)
          = if lastRow clusters = true then none else some [] := by
        have henabled : ({ BCluster.init with enabled := c.enabled } : BCluster) = BCluster.init := by
          rw [hc.unserved hserves]
          rfl
        rw [← consumeJoin_unserved h hne]
        simp only [CascStmt.consumeBlock, tempCluster_none hnone, henabled, Option.bind_eq_bind, Option.bind_some]
      rw [hrun, hids]
      exact ⟨fun hstray => if_pos hstray.2, fun hstray => ⟨[], if_neg fun hrow => hstray ⟨hserves, hrow⟩, by simp⟩⟩
  | true =>
      obtain ⟨-, hB⟩ := htables.serves_eq.mp hserves
      have hlt : block.start / tableBlockSize < numBlocks := by
        rw [Nat.div_lt_iff_lt_mul (by decide)]
        exact hblock
      obtain ⟨bc, htemp, hbc⟩ := tempCluster_spec (fun t ht => ⟨(htables t ht).1, by rw [(htables t ht).2, hB]⟩) hlt hne
        (le_trans (Nat.le_add_left _ _) hroom)
      obtain ⟨cols', hcols', -, hall⟩ := hbc.columns
      obtain ⟨calls, hrun, hcalls⟩ := consumeJoin_served h hroom
        (show ({ bc with enabled := c.enabled } : BCluster).HasColumns cols' from
          ⟨hcols'.numColumns, hcols'.blocks, hcols'.global⟩) hbc.start (hbc.start ▸ hbc.start_ne) hc.length hall hesize
      refine ⟨fun hstray => ?_, fun _ => ⟨calls, ?_, fun call => (hcalls call).trans ?_⟩⟩
      · rw [hstray.1] at hserves
        cases hserves
      · simp only [CascStmt.consumeBlock, htemp, hrun, Option.bind_eq_bind, Option.bind_some]
      · have hids : ∀ s, s ∈ c.ids ↔ ∃ o < tableBlockSize, c.enabled.test o = true ∧ block.start + o = s := fun s => by
          rw [Cluster.ids, hc.served hserves, List.mem_map]
          simp only [List.mem_filter, List.mem_range, and_assoc]
        rw [hstart]
        constructor
        · rintro ⟨o, ho, ht, hrow, hcall⟩
          exact ⟨_, (hids _).mpr ⟨o, ho, ht, rfl⟩, hrow, hcall⟩
        · rintro ⟨s, hs, hrow, hcall⟩
          obtain ⟨o, ho, ht, rfl⟩ := (hids s).mp hs
          exact ⟨o, ho, ht, hrow, hcall⟩

end Joins

/-! ### The calls of all threads -/

/-- The sources whose rows are enabled in the clusters that a thread has built. -/
def CascTask.rows (s : CascTask) : List ℕ := s.rounds.flatten.flatMap Cluster.ids

lemma CascTask.mem_rows {s : CascTask} {id : ℕ} :
    id ∈ s.rows ↔ ∃ clusters ∈ s.rounds, ∃ c ∈ clusters, id ∈ c.ids := by
  simp only [CascTask.rows, List.mem_flatMap, List.mem_flatten]
  tauto

/-- The rows in the clusters that an iterator takes. -/
lemma reaches_scan {expanded : List Expanded} {clusters : List BCluster} (h : Expansion expanded clusters)
    {chunkSize stride offset : ℕ} (ho : offset < stride) (hle : stride ≤ 2 ^ 31) {id : ℕ} :
    reaches (Gather.scan BCluster.start chunkSize stride clusters offset) id = true
      ↔ reaches clusters id = true ∧ blockGetOffset (id / tableBlockSize) chunkSize stride = offset := by
  rw [reaches, reaches, List.any_eq_true, List.any_eq_true]
  constructor
  · rintro ⟨c, hc, hrow⟩
    obtain ⟨hc, hselected⟩ := List.mem_filter.mp hc
    have hstart : c.start = id / tableBlockSize * tableBlockSize := of_decide_eq_true ((Bool.and_eq_true _ _).mp hrow).1
    rw [isSelected_iff (h.expands c hc).lt ho hle, hstart, Nat.mul_div_cancel _ (by decide)] at hselected
    exact ⟨⟨c, hc, hrow⟩, hselected⟩
  · rintro ⟨⟨c, hc, hrow⟩, hoffset⟩
    have hstart : c.start = id / tableBlockSize * tableBlockSize := of_decide_eq_true ((Bool.and_eq_true _ _).mp hrow).1
    refine ⟨c, List.mem_filter.mpr ⟨hc, ?_⟩, hrow⟩
    rw [isSelected_iff (h.expands c hc).lt ho hle, hstart, Nat.mul_div_cancel _ (by decide)]
    exact hoffset

namespace CascStmt

/-- What the code relies on: clusters of the blocks of the matched tables and of the expanded ones, with the rows that
are enabled in all of them, and no more columns than an operator of a plan can have. -/
structure Valid (stmt : CascStmt) : Prop where
  op : stmt.op.Valid
  expanded_rows : ∀ id, reaches stmt.op.clusters id = true ↔ ∀ e ∈ stmt.op.expanded, e.table.enabledAt id = true
  expansion : Expansion stmt.matched stmt.clusters
  matched_rows : ∀ id, reaches stmt.clusters id = true ↔ ∀ e ∈ stmt.matched, e.table.enabledAt id = true
  room : stmt.matched.length + stmt.op.expanded.length ≤ maxClusterSize

/-- A thread that has gone through some rounds. -/
structure Through (stmt : CascStmt) (s : CascTask) : Prop where
  agree : ∃ B, Agree s.thread.tables B
  length : s.thread.tables.length = stmt.op.expanded.length
  esize : ∀ t ∈ s.thread.tables, t.esize = tempSize
  starts : ∀ block ∈ s.thread.refs, block.start < 2 ^ 32
  built : ∀ clusters ∈ s.rounds, ∃ F, List.Forall₂ (Cluster.Built s.thread.tables · F) s.thread.refs clusters

variable {stmt : CascStmt} {args : CascArgs} {n : ℕ} {s : CascTask}

/-- A thread reads columns that are not there. -/
def Astray (stmt : CascStmt) (args : CascArgs) (n : ℕ) (s : CascTask) : Prop :=
  s.rounds ≠ [] ∧ ∃ block ∈ s.thread.refs, Stray (stmt.scanned args n s.offset) s.thread.tables block

/-- A call of a thread, for a row in a cluster of the match. -/
def IsCall (stmt : CascStmt) (args : CascArgs) (n : ℕ) (s : CascTask) (call : PairCall) : Prop :=
  ∃ id ∈ s.rows, reaches (stmt.scanned args n s.offset) id = true
    ∧ call = rowCall stmt.matched s.thread.tables id

/-- **The calls of a thread.** -/
theorem threadCalls_spec (h : stmt.Valid) (hs : stmt.Through s) :
    Yields (stmt.threadCalls args n s) (stmt.Astray args n s) (stmt.IsCall args n s) := by
  have hexp : ∀ c ∈ stmt.scanned args n s.offset, c.Expands stmt.matched (c.start / tableBlockSize) := fun c hc =>
    h.expansion.expands c (List.mem_filter.mp hc).1
  obtain ⟨hashTable, hfill, hshows⟩ := consume_spec hexp (h.expansion.nodup.sublist (List.filter_sublist.map _))
  obtain ⟨B, hagree⟩ := hs.agree
  have hne : s.thread.tables ≠ [] := by
    rw [← List.length_pos_iff, hs.length]
    exact List.length_pos_iff.mpr h.op.expanded_ne
  have hrun : stmt.threadCalls args n s = ((s.rounds.flatMap fun clusters => s.thread.refs.zip clusters).mapM
      (stmt.consumeBlock hashTable s.thread.tables)).bind fun calls => some calls.flatten := by
    simp only [threadCalls, hfill, Option.bind_eq_bind, Option.bind_some]
  rw [hrun]
  refine (Yields.mapM (fun built => Stray (stmt.scanned args n s.offset) s.thread.tables built.1)
    (fun built call => ∃ id ∈ built.2.ids, reaches (stmt.scanned args n s.offset) id = true
      ∧ call = rowCall stmt.matched s.thread.tables id) fun built hbuilt => ?_).congr ?_ fun call => ?_
  · obtain ⟨clusters, hclusters, hmem⟩ := List.mem_flatMap.mp hbuilt
    obtain ⟨F, hF⟩ := hs.built clusters hclusters
    exact consumeBlock_spec ⟨hexp, hshows⟩ hagree hne hs.esize (by rw [hs.length]; exact h.room)
      (hs.starts _ (List.of_mem_zip hmem).1) ((List.forall₂_iff_zip.mp hF).2 hmem)
  · constructor
    · rintro ⟨built, hbuilt, hstray⟩
      obtain ⟨clusters, hclusters, hmem⟩ := List.mem_flatMap.mp hbuilt
      exact ⟨List.ne_nil_of_mem hclusters, built.1, (List.of_mem_zip hmem).1, hstray⟩
    · rintro ⟨hrounds, block, hblock, hstray⟩
      obtain ⟨clusters, hclusters⟩ := List.exists_mem_of_ne_nil _ hrounds
      obtain ⟨F, hF⟩ := hs.built clusters hclusters
      obtain ⟨built, hmem, rfl⟩ := List.mem_map.mp ((List.map_fst_zip hF.length_eq.le).symm ▸ hblock)
      exact ⟨built, List.mem_flatMap.mpr ⟨clusters, hclusters, hmem⟩, hstray⟩
  · constructor
    · rintro ⟨built, hbuilt, id, hid, hrow⟩
      obtain ⟨clusters, hclusters, hmem⟩ := List.mem_flatMap.mp hbuilt
      exact ⟨id, CascTask.mem_rows.mpr ⟨clusters, hclusters, built.2, (List.of_mem_zip hmem).2, hid⟩, hrow⟩
    · rintro ⟨id, hid, hrow⟩
      obtain ⟨clusters, hclusters, c, hc, hid⟩ := CascTask.mem_rows.mp hid
      obtain ⟨F, hF⟩ := hs.built clusters hclusters
      obtain ⟨built, hmem, rfl⟩ := List.mem_map.mp ((List.map_snd_zip hF.length_eq.ge).symm ▸ hc)
      exact ⟨built, List.mem_flatMap.mpr ⟨clusters, hclusters, hmem⟩, id, hid, hrow⟩

/-- **The calls of all threads.** -/
theorem calls_spec (h : stmt.Valid) {c : TaskConfig n} (hc : ∀ i, stmt.Through (c.procs i).state) :
    Yields (stmt.calls args c) (∃ i, stmt.Astray args n (c.procs i).state)
      fun call => ∃ i, stmt.IsCall args n (c.procs i).state call := by
  have hrun : stmt.calls args c = ((List.ofFn fun i => (c.procs i).state).mapM (stmt.threadCalls args n)).bind
      fun calls => some calls.flatten := rfl
  rw [hrun]
  refine (Yields.mapM (stmt.Astray args n) (stmt.IsCall args n) fun s hs => ?_).congr ?_ fun call => ?_
  · obtain ⟨i, rfl⟩ := List.mem_ofFn.mp hs
    exact threadCalls_spec h (hc i)
  · simp only [List.mem_ofFn, exists_exists_eq_and]
  · simp only [List.mem_ofFn, exists_exists_eq_and]

end CascStmt

end Furious
