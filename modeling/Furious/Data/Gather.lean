import Furious.Data.BlockCluster
import Furious.Data.Cascade
import Furious.Data.Contents

/-!
Gathering components.

For an expand over components, the code of a gather stores pointers to the components of the
targets in temporary tables, by the sources. The clusters of the expanded components are in
hash tables, one of each thread; the block of a target says in which of them it is.

* `Expanded`: a table of expanded components, `BCluster.Expands`: a cluster of their blocks;
* `Table.storeSize`, `Table.loadSize`: pointers as the bytes of components;
* `Gather.copyComponentPtr`, `Gather.gather`, `Gather.consumeGather`, `Gather.produceGather`:
  the function of the runtime, and the code that is generated for the operator;
* `Expanded.Filled`: a temporary table has the pointers for some references, `Filled.copy`;
* `gather_fills`: **the temporary tables get the pointers for the targets that are enabled**.
-/

namespace Furious

/-! ### Pointers in memory -/

namespace Table

/-- `*(size_t*)ptr`. -/
def loadSize (t : Table) (ptr : Address) : ℕ := loadWord (t.page ptr.page) ptr.offset

/-- `*(size_t*)ptr = word`. -/
def storeSize (t : Table) (ptr : Address) (word : ℕ) : Table :=
  { t with memory := fun a =>
      if a.page = ptr.page then storeWord (t.page ptr.page) ptr.offset word a.offset else t.memory a }

variable {t : Table} {ptr : Address}

lemma storeSize_eq (t : Table) (ptr : Address) (word : ℕ) : t.storeSize ptr word = t.store 8 ptr word := rfl

lemma loadSize_storeSize (t : Table) (ptr : Address) {word : ℕ} (h : word < 2 ^ 64) :
    (t.storeSize ptr word).loadSize ptr = word :=
  load_store t ptr (lt_of_lt_of_le h (by norm_num))

/-- A store changes its own bytes only. -/
lemma memory_storeSize {word : ℕ} {a : Address} (h : a ∉ ptr.bytes 8) :
    (t.storeSize ptr word).memory a = t.memory a := by
  rw [storeSize_eq, memory_store h]

/-- A pointer depends on its own bytes only. -/
lemma loadSize_congr {t' : Table} (h : ∀ a ∈ ptr.bytes 8, t'.memory a = t.memory a) :
    t'.loadSize ptr = t.loadSize ptr :=
  load_congr h

/-- A temporary table in which nothing is. -/
structure Empty (t : Table) : Prop where
  sound : t.Sound ∅
  housed : t.Housed
  esize : t.esize = 8

lemma Empty.init (memory : Address → UInt8) : (Table.init 8 false memory).Empty :=
  ⟨Sound.init 8 false memory, Housed.init (by decide) false memory, rfl⟩

end Table

/-! ### The code -/

/-- A table of expanded components, and the addresses of the pages of its data. -/
structure Expanded where
  table : Table
  base : ℕ → UInt64

/-- A place in the data of the table, as a pointer. -/
def Expanded.locate (e : Expanded) (a : Address) : UInt64 := e.base a.page + UInt64.ofNat a.offset

/-- `fdb_bcluster_get_tblock`. -/
def BCluster.getTblock (bc : BCluster) (index : ℕ) : Option (Option ℕ) := do
  let isGlobal ← bc.global.isSet index
  if isGlobal = true then none else bc.blocks[index]?

namespace Gather

/-- The body of the loop of `copy_component_ptr`, for the table `i`. -/
def copyStep (expanded : List Expanded) (cluster : BCluster) (source target : ℕ) (t : Table) (i : ℕ) :
    Option Table := do
  let (t, ptr) ← t.createComponent source
  let e ← expanded[i]?
  let p ← (← cluster.getTblock i)
  let tblock ← e.table.tblockAllocator.get p
  let object := e.locate (tblock.data.add (target % tableBlockSize * tblock.esize))
  -- the pointer to a component cannot be null
  if object = 0 then none else some (t.storeSize ptr object.toNat)

/-- `copy_component_ptr`, with the hash tables. -/
def copyComponentPtr (expanded : List Expanded) (chunkSize stride source target : ℕ)
    (hashTables : List (BTree BCluster)) (tables : List Table) : Option (List Table) := do
  let otherBlockId := target / tableBlockSize
  let hashTable ← hashTables[blockGetOffset otherBlockId chunkSize stride]?
  match ← hashTable.get otherBlockId with
  | none => some tables
  | some cluster => do
      let isSet ← cluster.enabled.isSet (target % tableBlockSize)
      if isSet = true then tables.zipIdx.mapM fun t => copyStep expanded cluster source target t.1 t.2
      else some tables

/-- The body of the loop of `gather`. -/
def gatherStep (expanded : List Expanded) (hashTables : List (BTree BCluster)) (chunkSize stride : ℕ)
    (block : RefBlock) (tables : List Table) (i : ℕ) : Option (List Table) := do
  let isSet ← block.enabled.isSet i
  if isSet = true then
    copyComponentPtr expanded chunkSize stride (block.start + i) (block.data i) hashTables tables
  else some tables

/-- `gather`. -/
def gather (expanded : List Expanded) (hashTables : List (BTree BCluster)) (chunkSize stride : ℕ)
    (tables : List Table) (block : RefBlock) : Option (List Table) :=
  (List.range tableBlockSize).foldlM (gatherStep expanded hashTables chunkSize stride block) tables

/-- `consume_gather`, for a cluster of the expanded components: a copy of it is inserted in the hash
table. -/
def consumeGather (hashTable : BTree BCluster) (source : BCluster) : Option (BTree BCluster) := do
  let cluster ← BCluster.init.appendCluster source
  let (hashTable, _) ← hashTable.insert (source.start / tableBlockSize) cluster
  some hashTable

/-- The blocks that the iterator of a thread takes, by their starts. -/
def scan {T : Type} (start : T → ℕ) (chunkSize stride : ℕ) (blocks : List T) (offset : ℕ) : List T :=
  blocks.filter fun b => isSelected (start b / tableBlockSize) chunkSize offset stride

/-- `produce_gather`, for threads with the temporary tables `temps`: when all threads have filled
their hash tables, each of them gathers the references of its blocks. -/
def produceGather (expanded : List Expanded) (chunkSize : ℕ) (clusters : List BCluster) (refs : List RefBlock)
    (temps : List (List Table)) : Option (List (List Table)) := do
  let hashTables ← (List.range temps.length).mapM fun offset =>
    (scan BCluster.start chunkSize temps.length clusters offset).foldlM consumeGather BTree.init
  temps.zipIdx.mapM fun thread =>
    (scan RefBlock.start chunkSize temps.length refs thread.2).foldlM
      (gather expanded hashTables chunkSize temps.length) thread.1

end Gather

/-! ### Clusters of expanded components -/

/-- The column is the block `b` of the table. -/
def Expanded.HasBlock (e : Expanded) (b : ℕ) (c : Column) : Prop :=
  ∃ p block, c = .block p block ∧ e.table.tblockAllocator.get p = some block
    ∧ e.table.blockAt b = some block

/-- A cluster that the child of a gather makes: the blocks `b` of the tables, with some rows enabled. -/
structure BCluster.Expands (expanded : List Expanded) (bc : BCluster) (b : ℕ) : Prop where
  lt : b < numBlocks
  start : bc.start = b * tableBlockSize
  length : bc.enabled.bits.length = tableBlockSize
  columns : ∃ cols, bc.HasColumns cols ∧ cols.length ≤ maxClusterSize
    ∧ List.Forall₂ (fun e c => e.HasBlock b c) expanded cols

/-- Whether a target is enabled in the cluster of its block. -/
def reaches (clusters : List BCluster) (target : ℕ) : Bool :=
  clusters.any fun c => decide (c.start = target / tableBlockSize * tableBlockSize)
    && c.enabled.test (target % tableBlockSize)

lemma Bitmap.eq_of_bits {x y : Bitmap} (h : x.bits = y.bits) : x = y := by
  obtain ⟨bits, n, hn⟩ := x
  obtain ⟨bits', n', hn'⟩ := y
  dsimp only at h
  subst h
  rw [Bitmap.mk.injEq]
  exact ⟨rfl, hn.trans hn'.symm⟩

namespace BCluster.Expands

variable {expanded : List Expanded} {bc : BCluster} {b : ℕ}

lemma start_ne (h : bc.Expands expanded b) : bc.start ≠ invalidBlockStart := by
  have hlt : b < 2 ^ 24 := h.lt
  have hne : b * 256 ≠ 0xffffffff := by omega
  rw [h.start]
  exact hne

/-- The block of a cluster. -/
lemma block_eq (h : bc.Expands expanded b) : bc.start / tableBlockSize = b := by
  rw [h.start, Nat.mul_div_cancel _ (by decide)]

/-- **`fdb_bcluster_append_cluster`** to a new cluster makes a copy. -/
theorem copy (h : bc.Expands expanded b) : BCluster.init.appendCluster bc = some bc := by
  obtain ⟨cols, hcols, hle, -⟩ := h.columns
  have hset : BCluster.init.enabled.setBitmap bc.enabled = some bc.enabled :=
    if_pos ((Bitmap.length_init _).trans h.length.symm)
  have hrows : BCluster.init.joinRows bc
      = some { BCluster.init with enabled := bc.enabled, start := bc.start } := by
    rw [joinRows, if_pos h.start_ne, if_pos (show BCluster.init.start = invalidBlockStart from rfl), hset]
    rfl
  obtain ⟨bc', hfold, hcols', henabled, hstart⟩ :=
    HasColumns.appendColumns (show ({ BCluster.init with enabled := bc.enabled, start := bc.start } :
      BCluster).HasColumns [] from ⟨rfl, rfl, rfl⟩) (l := []) hcols (by simpa using hle)
  rw [List.nil_append] at hcols'
  have heq : bc' = bc := by
    obtain ⟨n, enabled, global, start, blocks⟩ := bc
    obtain ⟨n', enabled', global', start', blocks'⟩ := bc'
    have hglobal := Bitmap.eq_of_bits (hcols'.global.trans hcols.global.symm)
    dsimp only at hglobal henabled hstart
    rw [BCluster.mk.injEq]
    exact ⟨hcols'.numColumns.trans hcols.numColumns.symm, henabled, hglobal, hstart,
      hcols'.blocks.trans hcols.blocks.symm⟩
  rw [appendCluster, if_pos (Or.inr (Or.inl (show BCluster.init.start = invalidBlockStart from rfl))),
    hrows, hcols.numColumns, List.range_eq_range', ← heq]
  rw [← heq] at hfold
  exact hfold

/-- **`fdb_bcluster_get_tblock`** gives the block of the table. -/
theorem getTblock (h : bc.Expands expanded b) {i : ℕ} {e : Expanded} (hi : expanded[i]? = some e) :
    ∃ p block, bc.getTblock i = some (some p) ∧ e.table.tblockAllocator.get p = some block
      ∧ e.table.blockAt b = some block := by
  obtain ⟨cols, hcols, -, hall⟩ := h.columns
  obtain ⟨hlt, he⟩ := List.getElem?_eq_some_iff.mp hi
  have hlt' : i < cols.length := hall.length_eq ▸ hlt
  obtain ⟨p, block, hc, hget, hat⟩ : e.HasBlock b cols[i] := by
    have := List.forall₂_iff_get.mp hall |>.2 i hlt hlt'
    rwa [List.get_eq_getElem, List.get_eq_getElem, he] at this
  obtain ⟨hblock, hbit⟩ := hcols.get ((List.getElem?_eq_getElem hlt').trans (congrArg some hc))
  refine ⟨p, block, ?_, hget, hat⟩
  rw [BCluster.getTblock, hbit, hblock]
  rfl

end BCluster.Expands

/-! ### One pointer -/

/-- The temporary table has pointers to the components of the targets `L`, by their sources, and
nothing else. -/
structure Expanded.Filled (e : Expanded) (t : Table) (L : List (ℕ × ℕ)) : Prop where
  sound : ∃ M, t.Sound M
  housed : t.Housed
  esize : t.esize = 8
  blocks : ∀ b, (t.blockAt b).isSome = true ↔ ∃ s ∈ sources L, s / tableBlockSize = b
  existing : t.existsAt = fun s => decide (s ∈ sources L)
  enabled : t.enabledAt = fun s => decide (s ∈ sources L)
  pointer : ∀ s target, (s, target) ∈ L → ∃ ptr a, t.slot s = some ptr ∧ e.table.place target = some a
    ∧ t.loadSize ptr = (e.locate a).toNat

lemma mem_sources_snoc {L : List (ℕ × ℕ)} {s source target : ℕ} :
    s ∈ sources (L ++ [(source, target)]) ↔ s ∈ sources L ∨ s = source := by
  rw [sources_append, Finset.mem_union, sources, sources, List.map_singleton, List.toFinset_cons,
    List.toFinset_nil, Finset.insert_empty, Finset.mem_singleton]

lemma decide_sources_snoc (L : List (ℕ × ℕ)) (source target : ℕ) :
    (fun s => decide (s ∈ sources (L ++ [(source, target)])))
      = Function.update (fun s => decide (s ∈ sources L)) source true := by
  funext s
  by_cases hs : s = source
  · rw [hs, Function.update_self, decide_eq_true (mem_sources_snoc.mpr (Or.inr rfl))]
  · rw [Function.update_of_ne hs]
    exact decide_eq_decide.mpr (mem_sources_snoc.trans (or_iff_left hs))

namespace Expanded.Filled

variable {e : Expanded} {t : Table} {L : List (ℕ × ℕ)}

lemma empty (e : Expanded) (h : t.Empty) : e.Filled t [] := by
  have hnone : ∀ b, t.blockAt b = none := fun b => by
    rw [h.sound.blockAt_eq, Finmap.lookup_empty]
    rfl
  refine ⟨⟨∅, h.sound⟩, h.housed, h.esize, fun b => ?_, funext fun s => ?_, funext fun s => ?_,
    fun s target hmem => ?_⟩
  · rw [hnone]
    simp [sources]
  · rw [(Table.bits_of_none (hnone _)).1]
    rfl
  · rw [(Table.bits_of_none (hnone _)).2]
    rfl
  · cases hmem

/-- **A pointer is stored** for a new source. -/
theorem copy (h : e.Filled t L) {expanded : List Expanded} {bc : BCluster} {source target i : ℕ}
    (hbc : bc.Expands expanded (target / tableBlockSize)) (hi : expanded[i]? = some e)
    (hsound : ∃ M, e.table.Sound M) (hnull : ∀ a, e.table.place target = some a → e.locate a ≠ 0)
    (hs : source < invalidId) (hnew : source ∉ sources L) :
    ∃ t', Gather.copyStep expanded bc source target t i = some t' ∧ e.Filled t' (L ++ [(source, target)]) := by
  obtain ⟨M, hM⟩ := h.sound
  obtain ⟨t₁, M₁, ptr, hcreate, hM₁, hup, hslot, hmem, -⟩ := hM.create_updates hs
  obtain ⟨t₂, -, old, new, hcreate', -, hchanges, -⟩ := hM.create hs
  obtain rfl : t₂ = t₁ := (Prod.mk.inj (Option.some.inj (hcreate'.symm.trans hcreate))).1
  have hhoused : t₂.Housed := by
    have hcall : (TableOp.create source).call t = some (t₂, some ptr) := by
      rw [TableOp.call, hcreate]
      rfl
    exact h.housed.step hM (show (TableOp.create source).Valid from hs) (by simp) hcall
  obtain ⟨p, tblock, hcol, hget, hat⟩ := hbc.getTblock hi
  obtain ⟨M', hM'⟩ := hsound
  have hplace : e.table.place target = some (tblock.data.add (target % tableBlockSize * tblock.esize)) := by
    rw [Table.place_eq hat, (hM'.shaped hat).1.esize]
  set a := tblock.data.add (target % tableBlockSize * tblock.esize) with ha
  have hesize : t₂.esize = 8 := hup.esize.trans h.esize
  refine ⟨t₂.storeSize ptr (e.locate a).toNat, ?_, ⟨M₁, hM₁.store _ _ _⟩, hhoused.store _ _ _, hesize,
    fun b => ?_, ?_, ?_, fun s target' hst => ?_⟩
  · simp only [Gather.copyStep, hcreate, hi, hcol, hget, ← ha, if_neg (hnull a hplace), Option.bind_eq_bind,
      Option.bind_some]
  · have hblocks : (t₂.storeSize ptr (e.locate a).toNat).blockAt = t₂.blockAt := rfl
    rw [hblocks, hchanges.blockAt]
    by_cases hb : b = source / tableBlockSize
    · rw [hb, Function.update_self]
      exact iff_of_true rfl ⟨source, mem_sources_snoc.mpr (Or.inr rfl), rfl⟩
    · rw [Function.update_of_ne hb, h.blocks]
      constructor
      · rintro ⟨s, hs, rfl⟩
        exact ⟨s, mem_sources_snoc.mpr (Or.inl hs), rfl⟩
      · rintro ⟨s, hs, rfl⟩
        rcases mem_sources_snoc.mp hs with hs | rfl
        · exact ⟨s, hs, rfl⟩
        · exact absurd rfl hb
  · exact hup.existsAt.trans (by rw [h.existing, decide_sources_snoc])
  · exact hup.enabledAt.trans (by rw [h.enabled, decide_sources_snoc])
  · have hslots : (t₂.storeSize ptr (e.locate a).toNat).slot = t₂.slot := rfl
    rw [hslots]
    rcases List.mem_append.mp hst with hst | hst
    · -- the pointers of other sources are elsewhere
      obtain ⟨ptr', a', hslot', hplace', hload⟩ := h.pointer s target' hst
      have hne : s ≠ source := fun heq => hnew (heq ▸ mem_sources.mpr ⟨target', hst⟩)
      rw [← hup.slot_of_ne hne] at hslot'
      refine ⟨ptr', a', hslot', hplace', ?_⟩
      have hdisj := hhoused.apart hne (Table.place_of_slot hslot') (Table.place_of_slot hslot)
      rw [hesize] at hdisj
      rw [← hload]
      refine Table.loadSize_congr fun x hx => ?_
      rw [Table.memory_storeSize (Set.disjoint_left.mp hdisj hx), hmem]
    · obtain ⟨rfl, rfl⟩ := Prod.mk.inj (List.mem_singleton.mp hst)
      exact ⟨ptr, a, hslot, hplace, Table.loadSize_storeSize t₂ ptr (e.locate a).toNat_lt⟩

end Expanded.Filled

/-! ### One reference -/

/-- All temporary tables have the pointers for `L`. -/
def Fills (expanded : List Expanded) (tables : List Table) (L : List (ℕ × ℕ)) : Prop :=
  List.Forall₂ (fun e t => e.Filled t L) expanded tables

lemma Fills.get {expanded : List Expanded} {tables : List Table} {L : List (ℕ × ℕ)}
    (h : Fills expanded tables L) {i : ℕ} {t : Table} (hi : tables[i]? = some t) :
    ∃ e, expanded[i]? = some e ∧ e.Filled t L := by
  obtain ⟨hlt, ht⟩ := List.getElem?_eq_some_iff.mp hi
  have hlt' : i < expanded.length := h.length_eq ▸ hlt
  have hfilled := (List.forall₂_iff_get.mp h).2 i hlt' hlt
  rw [List.get_eq_getElem, List.get_eq_getElem, ht] at hfilled
  exact ⟨expanded[i], List.getElem?_eq_getElem hlt', hfilled⟩

/-- What the code relies on: the expanded tables are tables whose components are not at null, and
clusters of different blocks. -/
structure Expansion (expanded : List Expanded) (clusters : List BCluster) : Prop where
  sound : ∀ e ∈ expanded, ∃ M, e.table.Sound M
  ne_null : ∀ e ∈ expanded, ∀ id a, e.table.place id = some a → e.locate a ≠ 0
  expands : ∀ c ∈ clusters, c.Expands expanded (c.start / tableBlockSize)
  nodup : (clusters.map BCluster.start).Nodup

/-- The hash table where the code looks for the clusters of a block has them. -/
def Serves (hashTables : List (BTree BCluster)) (clusters : List BCluster) (chunkSize stride b : ℕ) : Prop :=
  ∃ ht M, hashTables[blockGetOffset b chunkSize stride]? = some ht ∧ Shows ht M
    ∧ ∀ c, M.lookup b = some c ↔ c ∈ clusters ∧ c.start / tableBlockSize = b

section Reference

variable {expanded : List Expanded} {clusters : List BCluster} {tables : List Table} {L : List (ℕ × ℕ)}

/-- **The loop of `copy_component_ptr`** adds to all tables. -/
theorem Fills.copy (h : Fills expanded tables L) {bc : BCluster} {source target : ℕ}
    (hbc : bc.Expands expanded (target / tableBlockSize)) (hsound : ∀ e ∈ expanded, ∃ M, e.table.Sound M)
    (hnull : ∀ e ∈ expanded, ∀ a, e.table.place target = some a → e.locate a ≠ 0) (hs : source < invalidId)
    (hnew : source ∉ sources L) :
    ∃ tables', (tables.zipIdx.mapM fun t => Gather.copyStep expanded bc source target t.1 t.2) = some tables'
      ∧ Fills expanded tables' (L ++ [(source, target)]) := by
  obtain ⟨tables', hmap, hall⟩ := mapM_spec (fun (t : Table × ℕ) t' => ∀ e, expanded[t.2]? = some e →
      e.Filled t' (L ++ [(source, target)]))
    (l := tables.zipIdx) (f := fun t => Gather.copyStep expanded bc source target t.1 t.2) fun t ht => by
      obtain ⟨e, he, hfilled⟩ := h.get (List.mem_zipIdx_iff_getElem?.mp ht)
      have hmem := List.mem_of_getElem? he
      obtain ⟨t', hstep, hfilled'⟩ := hfilled.copy hbc he (hsound e hmem) (hnull e hmem) hs hnew
      refine ⟨t', hstep, fun e' he' => ?_⟩
      obtain rfl := Option.some.inj (he.symm.trans he')
      exact hfilled'
  refine ⟨tables', hmap, List.forall₂_iff_get.mpr ⟨?_, fun i hi hi' => ?_⟩⟩
  · rw [← hall.length_eq, List.length_zipIdx, h.length_eq]
  · have hlt : i < tables.zipIdx.length := hall.length_eq ▸ hi'
    have hfilled := (List.forall₂_iff_get.mp hall).2 i hlt hi'
    rw [List.get_eq_getElem, List.getElem_zipIdx] at hfilled
    exact hfilled _ (by rw [Nat.zero_add, List.get_eq_getElem]; exact List.getElem?_eq_getElem hi)

/-- What is enabled in the cluster of a block. -/
lemma reaches_eq {target : ℕ} {lookup : Option BCluster}
    (h : ∀ c, lookup = some c ↔ c ∈ clusters ∧ c.start / tableBlockSize = target / tableBlockSize)
    (hexp : ∀ c ∈ clusters, c.Expands expanded (c.start / tableBlockSize)) :
    reaches clusters target = lookup.elim false fun c => c.enabled.test (target % tableBlockSize) := by
  have hiff : reaches clusters target = true
      ↔ ∃ c, lookup = some c ∧ c.enabled.test (target % tableBlockSize) = true := by
    rw [reaches, List.any_eq_true]
    refine exists_congr fun c => ?_
    rw [h, Bool.and_eq_true, decide_eq_true_eq, and_assoc]
    refine and_congr_right fun hc => and_congr_left fun _ => ?_
    constructor
    · intro hstart
      rw [hstart, Nat.mul_div_cancel _ (by decide)]
    · intro hb
      rw [(hexp c hc).start, hb]
  cases lookup with
  | none =>
      rw [Option.elim_none, Bool.eq_false_iff]
      intro htrue
      obtain ⟨c, hc, -⟩ := hiff.mp htrue
      cases hc
  | some c =>
      rw [Option.elim_some, Bool.eq_iff_iff, hiff]
      exact ⟨fun ⟨c', hc', ht⟩ => Option.some.inj hc' ▸ ht, fun ht => ⟨c, rfl, ht⟩⟩

/-- **`copy_component_ptr`** adds to all tables or to none. -/
theorem Fills.copyComponentPtr (h : Fills expanded tables L) (hexp : Expansion expanded clusters)
    {hashTables : List (BTree BCluster)} {chunkSize stride source target : ℕ}
    (hserves : Serves hashTables clusters chunkSize stride (target / tableBlockSize)) (hs : source < invalidId)
    (hnew : source ∉ sources L) :
    ∃ tables', Gather.copyComponentPtr expanded chunkSize stride source target hashTables tables = some tables'
      ∧ Fills expanded tables' (L ++ if reaches clusters target = true then [(source, target)] else []) := by
  obtain ⟨ht, M, hht, hshows, hiff⟩ := hserves
  have hreach := reaches_eq hiff hexp.expands
  have hget := hshows.get (target / tableBlockSize)
  cases hlookup : M.lookup (target / tableBlockSize) with
  | none =>
      rw [hlookup] at hget hreach
      refine ⟨tables, ?_, by rw [hreach]; simpa using h⟩
      simp only [Gather.copyComponentPtr, hht, hget, Option.bind_eq_bind, Option.bind_some]
  | some c =>
      rw [hlookup, Option.elim_some] at hreach
      rw [hlookup] at hget
      obtain ⟨hc, hb⟩ := (hiff c).mp hlookup
      have hbc := hexp.expands c hc
      rw [hb] at hbc
      have hset : c.enabled.isSet (target % tableBlockSize) = some (c.enabled.test (target % tableBlockSize)) :=
        Bitmap.isSet_eq (hbc.length ▸ offset_lt target)
      rw [hreach]
      cases htest : c.enabled.test (target % tableBlockSize) with
      | false =>
          refine ⟨tables, ?_, by simpa using h⟩
          simp only [Gather.copyComponentPtr, hht, hget, hset, htest, Option.bind_eq_bind, Option.bind_some,
            Bool.false_eq_true, if_false]
      | true =>
          obtain ⟨tables', hmap, hfills⟩ := h.copy hbc hexp.sound
            (fun e he a ha => hexp.ne_null e he target a ha) hs hnew
          refine ⟨tables', ?_, by rw [if_pos rfl]; exact hfills⟩
          simp only [Gather.copyComponentPtr, hht, hget, hset, htest, Option.bind_eq_bind, Option.bind_some,
            if_true]
          exact hmap

/-- The references whose targets are enabled. -/
def entries (clusters : List BCluster) (edges : List (ℕ × ℕ)) : List (ℕ × ℕ) :=
  edges.filter fun e => reaches clusters e.2

lemma entries_append (l r : List (ℕ × ℕ)) : entries clusters (l ++ r) = entries clusters l ++ entries clusters r :=
  List.filter_append _ _

lemma entries_singleton (e : ℕ × ℕ) :
    entries clusters [e] = if reaches clusters e.2 = true then [e] else [] := by
  rw [entries, List.filter_cons, List.filter_nil]

lemma mem_entries {E : List (ℕ × ℕ)} {s target : ℕ} :
    (s, target) ∈ entries clusters E ↔ (s, target) ∈ E ∧ reaches clusters target = true := List.mem_filter

lemma notMem_sources_entries {E : List (ℕ × ℕ)} {s : ℕ} (h : s ∉ E.map Prod.fst) :
    s ∉ sources (entries clusters E) := by
  intro hs
  obtain ⟨target, hmem⟩ := mem_sources.mp hs
  exact h (List.mem_map.mpr ⟨(s, target), (mem_entries.mp hmem).1, rfl⟩)

/-- **`gather`**: the references of a block. -/
theorem Fills.gather {E : List (ℕ × ℕ)} (h : Fills expanded tables (entries clusters E))
    (hexp : Expansion expanded clusters) {hashTables : List (BTree BCluster)} {chunkSize stride : ℕ}
    (hserves : ∀ b < numBlocks, Serves hashTables clusters chunkSize stride b) (block : RefBlock)
    (hnd : ((E ++ block.edges).map Prod.fst).Nodup) :
    ∃ tables', Gather.gather expanded hashTables chunkSize stride tables block = some tables'
      ∧ Fills expanded tables' (entries clusters (E ++ block.edges)) := by
  -- the references of the places passed so far
  let edges : List ℕ → List (ℕ × ℕ) := fun l =>
    (l.filter fun i => block.enabled.test i).map fun i => (block.start + i, block.data i)
  have happend : ∀ l r, edges (l ++ r) = edges l ++ edges r := fun l r => by
    simp only [edges, List.filter_append, List.map_append]
  refine foldlM_spec (fun done tables => Fills expanded tables (entries clusters (E ++ edges done)))
    (List.range tableBlockSize) (by simpa [edges] using h) fun done i rest tables hl hfills => ?_
  have hi : i ∈ List.range tableBlockSize := hl ▸ by simp
  have hset : block.enabled.isSet i = some (block.enabled.test i) :=
    Bitmap.isSet_eq (block.enabled_length ▸ List.mem_range.mp hi)
  rw [happend, ← List.append_assoc, entries_append]
  cases ht : block.enabled.test i with
  | false =>
      have hnone : edges [i] = [] := by simp [edges, ht]
      refine ⟨tables, ?_, by rw [hnone]; simpa [entries] using hfills⟩
      simp only [Gather.gatherStep, hset, ht, Option.bind_eq_bind, Option.bind_some, Bool.false_eq_true,
        if_false]
  | true =>
      have hone : edges [i] = [(block.start + i, block.data i)] := by simp [edges, ht]
      have hnew : block.start + i ∉ (E ++ edges done).map Prod.fst := by
        have hedges : block.edges = edges done ++ (block.start + i, block.data i) :: edges rest := by
          have hall : block.edges = edges (done ++ ([i] ++ rest)) := by
            rw [List.singleton_append, ← hl]
            rfl
          rw [hall, happend, happend, hone, List.singleton_append]
        rw [hedges, ← List.append_assoc, List.map_append, List.nodup_append] at hnd
        exact fun hmem => hnd.2.2 _ hmem _ (by rw [List.map_cons]; exact List.mem_cons_self) rfl
      have hblock : block.data i / tableBlockSize < numBlocks := by
        rw [Nat.div_lt_iff_lt_mul (by decide)]
        exact block.data_lt i
      obtain ⟨tables', hcopy, hfills'⟩ := hfills.copyComponentPtr hexp (hserves _ hblock)
        (block.source_lt i ht) (notMem_sources_entries hnew)
      refine ⟨tables', ?_, by rw [hone, entries_singleton]; exact hfills'⟩
      simp only [Gather.gatherStep, hset, ht, Option.bind_eq_bind, Option.bind_some, if_true]
      exact hcopy

/-- The references of the blocks of a thread. -/
theorem Fills.gathers (h : Fills expanded tables []) (hexp : Expansion expanded clusters)
    {hashTables : List (BTree BCluster)} {chunkSize stride : ℕ}
    (hserves : ∀ b < numBlocks, Serves hashTables clusters chunkSize stride b) {refs : List RefBlock}
    (hrefs : (refs.map RefBlock.start).Nodup) :
    ∃ tables', refs.foldlM (Gather.gather expanded hashTables chunkSize stride) tables = some tables'
      ∧ Fills expanded tables' (entries clusters (refs.flatMap RefBlock.edges)) := by
  refine foldlM_spec (fun done tables => Fills expanded tables (entries clusters (done.flatMap RefBlock.edges)))
    refs h fun done block rest tables hl hfills => ?_
  have hnd := nodup_sources hrefs
  rw [hl, List.flatMap_append, List.flatMap_cons, ← List.append_assoc, List.map_append] at hnd
  obtain ⟨tables', hgather, hfills'⟩ := hfills.gather hexp hserves block (List.nodup_append.mp hnd).1
  refine ⟨tables', hgather, ?_⟩
  rw [List.flatMap_append, List.flatMap_singleton]
  exact hfills'

/-! ### The hash tables -/

/-- **`consume_gather`** fills the hash table of a thread. -/
theorem consume_spec (hexp : ∀ c ∈ clusters, c.Expands expanded (c.start / tableBlockSize))
    (hnd : (clusters.map BCluster.start).Nodup) :
    ∃ ht, clusters.foldlM Gather.consumeGather BTree.init = some ht
      ∧ ∃ M, Shows ht M ∧ ∀ b c, M.lookup b = some c ↔ c ∈ clusters ∧ c.start / tableBlockSize = b := by
  refine foldlM_spec (fun done ht => ∃ M, Shows ht M
      ∧ ∀ b c, M.lookup b = some c ↔ c ∈ done ∧ c.start / tableBlockSize = b) clusters
    ⟨∅, Shows.init, fun b c => by simp [Finmap.lookup_empty]⟩ fun done c rest ht hl ⟨M, hshows, hiff⟩ => ?_
  have hc : c ∈ clusters := hl ▸ by simp
  have hkey : c.start / tableBlockSize ∉ M := by
    intro hmem
    obtain ⟨c', hc'⟩ := Finmap.mem_iff.mp hmem
    obtain ⟨hdone, hb⟩ := (hiff _ c').mp hc'
    have hstart : c'.start = c.start := by
      rw [(hexp c' (hl ▸ List.mem_append_left _ hdone)).start, (hexp c hc).start, hb]
    rw [hl, List.map_append, List.map_cons] at hnd
    exact (List.nodup_append.mp hnd).2.2 _ (List.mem_map_of_mem hdone) _ List.mem_cons_self hstart
  obtain ⟨ht', ins, hins, -, -, hshows'⟩ := hshows.insert hkey c
  refine ⟨ht', ?_, _, hshows', fun b c' => ?_⟩
  · rw [Gather.consumeGather, (hexp c hc).copy]
    simp only [Option.bind_eq_bind, Option.bind_some, hins]
  · rw [List.mem_append, List.mem_singleton]
    by_cases hb : b = c.start / tableBlockSize
    · rw [hb, Finmap.lookup_insert, Option.some_inj]
      constructor
      · rintro rfl
        exact ⟨Or.inr rfl, rfl⟩
      · rintro ⟨hdone | rfl, hb'⟩
        · exact absurd (Finmap.mem_of_lookup_eq_some ((hiff _ c').mpr ⟨hdone, hb'⟩)) hkey
        · rfl
    · rw [Finmap.lookup_insert_of_ne _ hb, hiff]
      refine and_congr_left fun hb' => ⟨Or.inl, ?_⟩
      rintro (hdone | rfl)
      · exact hdone
      · exact absurd hb'.symm hb

/-- **The hash tables** of all threads have the clusters where they are looked for. -/
theorem serves_all (hexp : Expansion expanded clusters) (chunkSize : ℕ) {stride : ℕ} (hstride : 0 < stride)
    (hle : stride ≤ 2 ^ 31) :
    ∃ hashTables, ((List.range stride).mapM fun offset =>
        (Gather.scan BCluster.start chunkSize stride clusters offset).foldlM Gather.consumeGather BTree.init)
        = some hashTables
      ∧ ∀ b < numBlocks, Serves hashTables clusters chunkSize stride b := by
  obtain ⟨hashTables, hmap, hall⟩ := mapM_spec (fun offset ht => ∃ M, Shows ht M ∧ ∀ b c, M.lookup b = some c
      ↔ c ∈ Gather.scan BCluster.start chunkSize stride clusters offset ∧ c.start / tableBlockSize = b)
    (l := List.range stride) (f := fun offset =>
      (Gather.scan BCluster.start chunkSize stride clusters offset).foldlM Gather.consumeGather BTree.init)
    fun offset _ => consume_spec (fun c hc => hexp.expands c (List.mem_filter.mp hc).1)
      (hexp.nodup.sublist (List.filter_sublist.map _))
  refine ⟨hashTables, hmap, fun b hb => ?_⟩
  have hlt : blockGetOffset b chunkSize stride < stride := Nat.mod_lt _ hstride
  have hlt' : blockGetOffset b chunkSize stride < (List.range stride).length := by rwa [List.length_range]
  have hlt'' : blockGetOffset b chunkSize stride < hashTables.length := hall.length_eq ▸ hlt'
  obtain ⟨M, hshows, hiff⟩ := (List.forall₂_iff_get.mp hall).2 _ hlt' hlt''
  rw [List.get_eq_getElem, List.getElem_range] at hiff
  refine ⟨_, M, List.getElem?_eq_getElem hlt'', hshows, fun c => (hiff b c).trans ?_⟩
  refine and_congr_left fun hcb => ?_
  rw [Gather.scan, List.mem_filter, hcb, isSelected_iff hb hlt hle]
  exact and_iff_left rfl

/-! ### The whole operator -/

/-- The temporary tables of a thread after a gather: alike, with enabled entries for the sources in
`selected` of references to enabled targets, and in them the addresses of the components of the
targets. -/
structure Gathered (expanded : List Expanded) (clusters : List BCluster) (edges : List (ℕ × ℕ))
    (selected : ℕ → Prop) (tables : List Table) : Prop where
  length : tables.length = expanded.length
  enabled : ∀ t ∈ tables, ∀ s < invalidId, ∃ v, t.isEnabled s = some v
    ∧ (v = true ↔ selected s ∧ ∃ target, (s, target) ∈ edges ∧ reaches clusters target = true)
  pointer : ∀ (i : ℕ) (e : Expanded) (t : Table), expanded[i]? = some e → tables[i]? = some t →
    ∀ s target, selected s → (s, target) ∈ edges → reaches clusters target = true →
      ∃ ptr a, t.getComponent s = some (some ptr) ∧ e.table.place target = some a
        ∧ t.loadSize ptr = (e.locate a).toNat
  alike : ∀ t ∈ tables, ∀ t' ∈ tables, (∀ b, (t.blockAt b).isSome = (t'.blockAt b).isSome)
    ∧ t.existsAt = t'.existsAt ∧ t.enabledAt = t'.enabledAt

/-- The references of the blocks that a thread takes. -/
lemma mem_scan_edges {refs : List RefBlock} {chunkSize stride offset s target : ℕ} (ho : offset < stride)
    (hle : stride ≤ 2 ^ 31) :
    (s, target) ∈ (Gather.scan RefBlock.start chunkSize stride refs offset).flatMap RefBlock.edges
      ↔ (s, target) ∈ refs.flatMap RefBlock.edges
        ∧ blockGetOffset (s / tableBlockSize) chunkSize stride = offset := by
  have hblock : ∀ block : RefBlock, (s, target) ∈ block.edges →
      (isSelected (block.start / tableBlockSize) chunkSize offset stride = true
        ↔ blockGetOffset (s / tableBlockSize) chunkSize stride = offset) := by
    intro block hmem
    have hstart := RefBlock.start_of_mem hmem
    dsimp only at hstart
    obtain ⟨i, hi, heq⟩ := List.mem_map.mp hmem
    have hsource : block.start + i = s := congrArg Prod.fst heq
    have hs : s < invalidId := hsource ▸ block.source_lt i (List.mem_filter.mp hi).2
    rw [← hstart, Nat.mul_div_cancel _ (by decide)]
    exact isSelected_iff (block_lt hs) ho hle
  simp only [List.mem_flatMap, Gather.scan, List.mem_filter]
  constructor
  · rintro ⟨block, ⟨hmem, hsel⟩, hedge⟩
    exact ⟨⟨block, hmem, hedge⟩, (hblock block hedge).mp hsel⟩
  · rintro ⟨⟨block, hmem, hedge⟩, hsel⟩
    exact ⟨block, ⟨hmem, (hblock block hedge).mpr hsel⟩, hedge⟩

/-- What the invariant says about the operations of a table. -/
lemma Fills.gathered {E edges : List (ℕ × ℕ)} {selected : ℕ → Prop} (h : Fills expanded tables (entries clusters E))
    (hE : ∀ s target, (s, target) ∈ E ↔ (s, target) ∈ edges ∧ selected s) (hlt : ∀ s ∈ E.map Prod.fst, s < invalidId) :
    Gathered expanded clusters edges selected tables where
  length := h.length_eq.symm
  enabled t ht s hs := by
    obtain ⟨i, hi⟩ := List.getElem?_of_mem ht
    obtain ⟨e, -, hfilled⟩ := h.get hi
    obtain ⟨M, hM⟩ := hfilled.sound
    refine ⟨_, hM.isEnabled hs, ?_⟩
    rw [hfilled.enabled, decide_eq_true_eq, mem_sources]
    constructor
    · rintro ⟨target, hmem⟩
      obtain ⟨hst, hreach⟩ := mem_entries.mp hmem
      exact ⟨((hE s target).mp hst).2, target, ((hE s target).mp hst).1, hreach⟩
    · rintro ⟨hsel, target, hst, hreach⟩
      exact ⟨target, mem_entries.mpr ⟨(hE s target).mpr ⟨hst, hsel⟩, hreach⟩⟩
  pointer i e t he ht s target hsel hst hreach := by
    obtain ⟨e', he', hfilled⟩ := h.get ht
    obtain rfl := Option.some.inj (he'.symm.trans he)
    have hmem : (s, target) ∈ E := (hE s target).mpr ⟨hst, hsel⟩
    obtain ⟨M, hM⟩ := hfilled.sound
    obtain ⟨ptr, a, hslot, hplace, hload⟩ := hfilled.pointer s target (mem_entries.mpr ⟨hmem, hreach⟩)
    exact ⟨ptr, a, by rw [hM.getComponent (hlt s (List.mem_map_of_mem (f := Prod.fst) hmem)), hslot], hplace, hload⟩
  alike t ht t' ht' := by
    obtain ⟨i, hi⟩ := List.getElem?_of_mem ht
    obtain ⟨j, hj⟩ := List.getElem?_of_mem ht'
    obtain ⟨e, -, hfilled⟩ := h.get hi
    obtain ⟨e', -, hfilled'⟩ := h.get hj
    refine ⟨fun b => ?_, hfilled.existing.trans hfilled'.existing.symm,
      hfilled.enabled.trans hfilled'.enabled.symm⟩
    rw [Bool.eq_iff_iff, hfilled.blocks, hfilled'.blocks]

/-- **A gather.** For every reference table, any number of tables of expanded components and every
pattern of enabled rows, from empty temporary tables: the sources of a block go to the temporary
tables of the thread that takes the block; there is an enabled entry for a source if and only if it
has an enabled reference to a target that is enabled in the cluster of its block, the entry in the
table `i` is the address of the component of the target in the expanded table `i`, and the
temporary tables of a thread have the same blocks and ids. -/
theorem gather_fills {chunkSize : ℕ} (_hchunk : 1 ≤ chunkSize) {refs : List RefBlock}
    {temps : List (List Table)} (hstride : 1 ≤ temps.length) (hle : temps.length ≤ 2 ^ 31)
    (hexp : Expansion expanded clusters) (hrefs : (refs.map RefBlock.start).Nodup)
    (hlength : ∀ tables ∈ temps, tables.length = expanded.length)
    (hempty : ∀ tables ∈ temps, ∀ t ∈ tables, t.Empty) :
    ∃ results, Gather.produceGather expanded chunkSize clusters refs temps = some results
      ∧ results.length = temps.length
      ∧ ∀ (offset : ℕ) (tables : List Table), results[offset]? = some tables →
        Gathered expanded clusters (refs.flatMap RefBlock.edges)
          (fun s => blockGetOffset (s / tableBlockSize) chunkSize temps.length = offset) tables := by
  obtain ⟨hashTables, hfill, hserves⟩ := serves_all hexp chunkSize hstride hle
  obtain ⟨results, hmap, hall⟩ := mapM_spec (fun (thread : List Table × ℕ) tables =>
      Fills expanded tables (entries clusters
        ((Gather.scan RefBlock.start chunkSize temps.length refs thread.2).flatMap RefBlock.edges)))
    (l := temps.zipIdx) (f := fun thread =>
      (Gather.scan RefBlock.start chunkSize temps.length refs thread.2).foldlM
        (Gather.gather expanded hashTables chunkSize temps.length) thread.1) fun thread hthread => by
      have hmem := List.mem_of_getElem? (List.mem_zipIdx_iff_getElem?.mp hthread)
      have hnil : Fills expanded thread.1 [] := by
        refine List.forall₂_iff_get.mpr ⟨(hlength _ hmem).symm, fun i hi hi' => ?_⟩
        exact Expanded.Filled.empty _ (hempty _ hmem _ (List.get_mem _ _))
      exact hnil.gathers hexp hserves (hrefs.sublist (List.filter_sublist.map _))
  have hlen : results.length = temps.length := by rw [← hall.length_eq, List.length_zipIdx]
  refine ⟨results, ?_, hlen, fun offset tables ht => ?_⟩
  · simp only [Gather.produceGather, hfill, Option.bind_eq_bind, Option.bind_some]
    exact hmap
  · obtain ⟨hlt, hget⟩ := List.getElem?_eq_some_iff.mp ht
    have hlt' : offset < temps.zipIdx.length := hall.length_eq ▸ hlt
    have hfills := (List.forall₂_iff_get.mp hall).2 offset hlt' hlt
    rw [List.get_eq_getElem, List.get_eq_getElem, List.getElem_zipIdx, Nat.zero_add, hget] at hfills
    refine hfills.gathered (fun s target => mem_scan_edges (hlen ▸ hlt) hle) fun s hs => ?_
    obtain ⟨⟨s', target⟩, hmem, rfl⟩ := List.mem_map.mp hs
    obtain ⟨block, -, hedge⟩ := List.mem_flatMap.mp hmem
    obtain ⟨i, hi, heq⟩ := List.mem_map.mp hedge
    have hsource : block.start + i = s' := congrArg Prod.fst heq
    exact hsource ▸ block.source_lt i (List.mem_filter.mp hi).2

/-- A cluster to which the blocks of the tables have been appended. -/
theorem BClusterRun.expands {b : ℕ} (hb : b < numBlocks) {bc : BCluster} {cols : List Column}
    (h : BClusterRun (b * tableBlockSize) bc cols) (hne : expanded ≠ [])
    (hcols : List.Forall₂ (fun e c => e.HasBlock b c) expanded cols) : bc.Expands expanded b := by
  have hstart : b * tableBlockSize ≠ invalidBlockStart := by
    have hlt : b < 2 ^ 24 := hb
    have hne : b * 256 ≠ 0xffffffff := by omega
    exact hne
  obtain ⟨hjoins, hle⟩ := h.joins hstart
  refine ⟨hb, ?_, hjoins.length, cols, hjoins.columns, hle, hcols⟩
  rw [hjoins.start]
  refine if_neg fun hall => ?_
  cases hcols with
  | nil => exact hne rfl
  | cons hc _ =>
      obtain ⟨p, block, rfl, -⟩ := hc
      rw [List.all_cons, Bool.and_eq_true] at hall
      exact Bool.false_ne_true hall.1

end Reference

section FirstBlock

variable {ids : List ℕ} (hlt : ∀ id ∈ ids, id < tableBlockSize) {t : Table} {hist : History}
  (h : TableRun (fun _ op => op ∈ ids.map TableOp.create) t hist)

include hlt h

/-- Components of the first block are nowhere else. -/
lemma TableRun.blockAt_eq_none {b : ℕ} (hb : b ≠ 0) : t.blockAt b = none := by
  induction h with
  | init esize destructor memory =>
      rw [(Table.Sound.init esize destructor memory).blockAt_eq, Finmap.lookup_empty]
      rfl
  | step h op valid hop hcall ih =>
      obtain ⟨id, hid, rfl⟩ := List.mem_map.mp hop
      obtain ⟨⟨M, hsound⟩, -⟩ := h.keeps
      obtain ⟨t', -, block, block', hcreate, -, hchanges, -⟩ := hsound.create (show id < invalidId from valid)
      rw [TableOp.call, hcreate] at hcall
      obtain ⟨rfl, -⟩ := Prod.mk.inj (Option.some.inj hcall)
      rw [hchanges.blockAt, Nat.div_eq_of_lt (hlt id hid), Function.update_of_ne hb]
      exact ih

/-- A table with components of the first block, and its cluster. -/
lemma TableRun.expansion {id : ℕ}
    (hM : (t.esize, t.dataAllocator.pageSize, t.dataAllocator.blockSize, t.enabledAt id) = (8, 65536, 2048, true)) :
    ∃ bc, Expansion [⟨t, fun _ => 4096⟩] [bc] ∧ ∀ id, reaches [bc] id = t.enabledAt id := by
  obtain ⟨hesize, hpage, hblock, henabled⟩ : t.esize = 8 ∧ t.dataAllocator.pageSize = 65536
      ∧ t.dataAllocator.blockSize = 2048 ∧ t.enabledAt id = true := by simpa using hM
  have hfits : Table.Fits t.esize := by
    rw [hesize]
    decide
  have hrun : TableRun (fun _ op => op ≠ .clear) t hist := h.mono fun _ op hop => by
    obtain ⟨id, -, rfl⟩ := List.mem_map.mp hop
    exact TableOp.noConfusion
  have hhoused := hrun.housed hfits
  obtain ⟨⟨M, hsound⟩, -⟩ := h.keeps
  obtain ⟨p, block, hget, hat⟩ : ∃ p block, t.tblockAllocator.get p = some block ∧ t.blockAt 0 = some block := by
    rcases hsound.cases (id / tableBlockSize) with ⟨-, hnone⟩ | ⟨p, block, -, hget, hat, -⟩
    · rw [(Table.bits_of_none hnone).2] at henabled
      cases henabled
    · refine ⟨p, block, hget, ?_⟩
      by_cases hzero : id / tableBlockSize = 0
      · rw [← hzero, hat]
      · rw [h.blockAt_eq_none hlt hzero] at hat
        cases hat
  obtain ⟨hshaped, -⟩ := hsound.shaped hat
  have haligned : Aligned 0 [.block p block] := by
    intro p' block' hmem
    obtain ⟨-, rfl⟩ := Column.block.inj (List.mem_singleton.mp hmem)
    exact ⟨hshaped.start.trans (Nat.zero_mul _), hshaped.enabled⟩
  obtain ⟨bc, hcall, hjoins⟩ := (BCluster.joins_init 0).appendBlock (by decide) haligned (by decide)
  have hexpands : bc.Expands [⟨t, fun _ => 4096⟩] 0 :=
    BClusterRun.expands (by decide) (BClusterRun.init.appendBlock p block haligned (by decide) hcall)
      (List.cons_ne_nil _ _) (List.Forall₂.cons ⟨p, block, rfl, hget, hat⟩ List.Forall₂.nil)
  have hstart : bc.start / tableBlockSize = 0 := hexpands.block_eq
  refine ⟨bc, ⟨fun e he => ?_, fun e he id a ha => ?_, fun c hc => ?_, List.nodup_singleton _⟩, fun id => ?_⟩
  · obtain rfl := List.mem_singleton.mp he
    exact ⟨M, hsound⟩
  · obtain rfl := List.mem_singleton.mp he
    obtain ⟨block', hb, rfl⟩ := Option.map_eq_some_iff.mp ha
    have hinside := (hhoused.hands.block block'.data (Or.inl ⟨_, by rw [Table.dataAt, hb]; rfl⟩)).inside
    have hoff : id % tableBlockSize < 256 := offset_lt id
    rw [hpage, hblock] at hinside
    intro hzero
    have hnat := congrArg UInt64.toNat hzero
    rw [Expanded.locate, UInt64.toNat_add, UInt64.toNat_ofNat', Address.add, hesize] at hnat
    dsimp only at hnat
    have hbase : (4096 : UInt64).toNat = 4096 := rfl
    have hzero : (0 : UInt64).toNat = 0 := rfl
    rw [hbase, hzero] at hnat
    generalize id % tableBlockSize = o at hnat hoff
    omega
  · obtain rfl := List.mem_singleton.mp hc
    rw [hstart]
    exact hexpands
  · rw [reaches, List.any_cons, List.any_nil, Bool.or_false, hexpands.start, Nat.zero_mul]
    by_cases hzero : id / tableBlockSize = 0
    · have hbit : t.enabledAt id = block.enabled.test (id % tableBlockSize) := Table.enabledAt_eq (hzero ▸ hat)
      rw [hzero, hbit, Nat.zero_mul, decide_eq_true rfl, Bool.true_and, hjoins.enabled rfl]
      simp [Column.leaves]
    · have hne : ¬ 0 = id / tableBlockSize * tableBlockSize := fun heq =>
        hzero ((Nat.mul_eq_zero.mp heq.symm).resolve_right (by decide))
      rw [decide_eq_false hne, Bool.false_and, (Table.bits_of_none (h.blockAt_eq_none hlt hzero)).2]

end FirstBlock

/-- A table with the component 7, and its cluster. -/
lemma exists_expansion : ∃ (t : Table) (bc : BCluster), reaches [bc] 7 = true
    ∧ Expansion [⟨t, fun _ => 4096⟩] [bc] := by
  obtain ⟨t, hist, h, hM⟩ := TableRun.exists_of_map (fun _ op => op ∈ [7].map TableOp.create) ([7].map TableOp.create)
    (f := fun r => (r.1.esize, r.1.dataAllocator.pageSize, r.1.dataAllocator.blockSize, r.1.enabledAt 7))
    (x := (8, 65536, 2048, true)) (by decide +kernel)
  obtain ⟨bc, hexpansion, hreach⟩ := h.expansion (by decide) hM
  exact ⟨t, bc, (hreach 7).trans (congrArg (fun r => r.2.2.2) hM), hexpansion⟩

/-- Two threads; the target 7 of the source 256 is enabled. -/
theorem gather_fills_two : ∃ (t : Table) (bc : BCluster) (results : List (List Table)),
    reaches [bc] 7 = true
    ∧ Gather.produceGather [⟨t, fun _ => 4096⟩] 1 [bc] [RefBlock.single 1 7 (by decide) (by decide)]
        [[Table.init 8 false fun _ => 0], [Table.init 8 false fun _ => 0]] = some results
    ∧ ∀ (offset : ℕ) (tables : List Table), results[offset]? = some tables →
      Gathered [⟨t, fun _ => 4096⟩] [bc] [(256, 7)]
        (fun s => blockGetOffset (s / tableBlockSize) 1 2 = offset) tables := by
  obtain ⟨t, bc, hreach, hexpansion⟩ := exists_expansion
  obtain ⟨results, hrun, -, hall⟩ := gather_fills (le_refl 1)
    (show 1 ≤ [[Table.init 8 false fun _ => 0], [Table.init 8 false fun _ => 0]].length by decide)
    (by decide) hexpansion
    (show ([RefBlock.single 1 7 (by decide) (by decide)].map RefBlock.start).Nodup from List.nodup_singleton _)
    (fun tables ht => by
      have heq : tables = [Table.init 8 false fun _ => 0] := by simpa using ht
      rw [heq]
      rfl)
    (fun tables ht t ht' => by
      have heq : tables = [Table.init 8 false fun _ => 0] := by simpa using ht
      obtain rfl := List.mem_singleton.mp (heq ▸ ht')
      exact Table.Empty.init _)
  rw [List.flatMap_singleton, RefBlock.edges_single] at hall
  exact ⟨t, bc, results, hreach, hrun, hall⟩

end Furious
