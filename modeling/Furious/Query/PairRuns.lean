import Furious.Query.Pairs

/-!
The pairs that a cascading gather hands to the system.

The system should be called for the references whose source is matched, whose target has the expanded components and
from where the references come to an end. A round takes nothing from a block of references for which nothing has been
gathered, and everything from another one whose target is on the frontier.

* `CascStmt.Pair`, `CascStmt.Right`: the pairs for which the system should be called, and the calls for them;
* `CascStmt.Covered`: a condition on the references and the entities;
* `CascOp.Finished`: a thread at the end of the task, `Finished.mem_rows`: the rows that it has enabled;
* `CascStmt.right_iff`: **the calls are right just under the condition**;
* `pairs_exact_iff`: **so it is for all runs**.
-/

namespace Furious

/-! ### The right pairs -/

/-- The references of the operator. -/
def CascOp.refs (op : CascOp) : List (ℕ × ℕ) := op.blocks.flatMap RefBlock.edges

/-- The references in `E` lead from an entity to one that refers to nothing. -/
def CascOp.Ends (op : CascOp) (E : List (ℕ × ℕ)) (id : ℕ) : Prop :=
  ∃ r, r ∉ sources op.refs ∧ Relation.ReflTransGen (fun s t => (s, t) ∈ E) id r

namespace CascStmt

/-- An entity is enabled in every matched table. -/
def IsMatched (stmt : CascStmt) (id : ℕ) : Prop := ∀ e ∈ stmt.matched, e.table.enabledAt id = true

/-- An entity is enabled in every expanded table. -/
def IsExpanded (stmt : CascStmt) (id : ℕ) : Prop := ∀ e ∈ stmt.op.expanded, e.table.enabledAt id = true

/-- A reference for which the system should be called. -/
structure Pair (stmt : CascStmt) (s t : ℕ) : Prop where
  edge : (s, t) ∈ stmt.op.refs
  matched : stmt.IsMatched s
  expanded : stmt.IsExpanded t
  ends : stmt.op.Ends stmt.op.refs s

/-- The call for a reference. -/
def call (stmt : CascStmt) (s t : ℕ) : PairCall :=
  ⟨s, stmt.matched.map fun e => e.address s, stmt.op.expanded.map fun e => e.address t⟩

/-- **The calls are right**: they are those for the pairs, a row is enabled only for a source with an enabled entry in
the temporary tables, and no source is skipped. -/
structure Right (stmt : CascStmt) (args : CascArgs) {n : ℕ} (c : TaskConfig n) : Prop where
  calls : ∃ calls, stmt.calls args c = some calls ∧ ∀ call, call ∈ calls
    ↔ ∃ s t, stmt.Pair s t ∧ call = stmt.call s t
  rows : ∀ i, ∀ s ∈ (c.procs i).state.rows, ∀ table ∈ (c.procs i).state.thread.tables, table.enabledAt s = true
  skips : ∀ s t, (s, t) ∈ stmt.op.refs → stmt.IsExpanded t → stmt.op.Ends stmt.op.refs s →
    ∃ i, s ∈ (c.procs i).state.rows

/-- **The condition.** Where the references come to an end, a target has the expanded components just if each block on the
way has a reference to an entity that has them; and if there is a round, no thread has a block without such a reference
and a matched entity in the last block. -/
structure Covered (stmt : CascStmt) (chunkSize stride : ℕ) : Prop where
  through : ∀ s t, (s, t) ∈ stmt.op.refs → stmt.op.Ends stmt.op.refs s →
    (stmt.IsExpanded t ↔ stmt.op.Ends stmt.op.edges s)
  apart : (∃ s t, (s, t) ∈ stmt.op.refs ∧ t ∉ sources stmt.op.refs) → ∀ block ∈ stmt.op.blocks,
    block.hits (reaches stmt.op.clusters) = false → ∀ id, stmt.IsMatched id → id / tableBlockSize = lastBlock →
    blockGetOffset (block.start / tableBlockSize) chunkSize stride ≠ blockGetOffset lastBlock chunkSize stride

end CascStmt

/-! ### The end of the task -/

section Ends

variable {stmt : CascStmt} {args : CascArgs} {n : ℕ} {t : Fin n → CascThread} {x : ℕ → Fin n → CascThread}
  {e : ℕ → Fin n → CascThread × List Cluster} {rounds : ℕ} {s : CascTask} {i : Fin n}

lemma CascOp.edges_subset {op : CascOp} {s t : ℕ} (h : (s, t) ∈ op.edges) : (s, t) ∈ op.refs := by
  have hmem := op.edges_sublist.subset h
  rwa [CascOp.references_blocks] at hmem

/-- **What is on a frontier**: what leads to a root. -/
lemma CascOp.exists_mem_frontier {op : CascOp} {id : ℕ} (hid : id ∈ sources op.refs) :
    (∃ t m, (id, t) ∈ op.edges ∧ t ∈ op.frontier m) ↔ op.Ends op.edges id := by
  have hroots : ∀ r, r ∈ (↑(roots [(op.blocks, [])]) : Set ℕ)
      ↔ r ∈ targets op.refs ∧ r ∉ sources op.refs := fun r => by
    rw [Finset.mem_coe, roots, CascOp.references_blocks, Finset.mem_sdiff]
    rfl
  have hfrontier : ∀ t, (∃ m, t ∈ op.frontier m)
      ↔ ∃ r, (r ∈ targets op.refs ∧ r ∉ sources op.refs) ∧ Relation.ReflTransGen (fun s t => (s, t) ∈ op.edges) t r := by
    intro t
    simp only [← hroots]
    rw [← exists_mem_layer]
    refine exists_congr fun m => ?_
    rw [← Finset.mem_coe, CascOp.frontier, coe_frontier]
    rfl
  constructor
  · rintro ⟨t, m, hedge, ht⟩
    obtain ⟨r, hr, htr⟩ := (hfrontier t).mp ⟨m, ht⟩
    exact ⟨r, hr.2, .head hedge htr⟩
  · rintro ⟨r, hr, hpath⟩
    rcases hpath.cases_head with rfl | ⟨t, hedge, htr⟩
    · exact absurd hid hr
    · -- the last reference on the way makes it a target
      have htarget : r ∈ targets op.refs := by
        rcases hpath.cases_tail with rfl | ⟨b, -, hbr⟩
        · exact absurd hid hr
        · exact List.mem_toFinset.mpr (List.mem_map.mpr ⟨(b, r), CascOp.edges_subset hbr, rfl⟩)
      obtain ⟨m, hm⟩ := (hfrontier t).mpr ⟨r, ⟨htarget, hr⟩, htr⟩
      exact ⟨t, m, hedge, hm⟩

/-- A thread at the end of the task, with what it has gathered and built. -/
structure CascOp.Finished (op : CascOp) (args : CascArgs) (rounds : ℕ) (i : Fin n) (s : CascTask) : Prop where
  offset : s.offset = i
  refs : s.thread.refs = Gather.scan RefBlock.start args.chunkSize n op.blocks i
  fills : Fills op.expanded s.thread.tables (entries op.clusters (s.thread.refs.flatMap RefBlock.edges))
  built : List.Forall₂ (fun m clusters => List.Forall₂ (Cluster.Built s.thread.tables · (op.frontier m)) s.thread.refs
      clusters) (List.range rounds) s.rounds

lemma CascOp.Rounds.finished (h : stmt.op.Rounds args t x e) (hts : Fin n → BTree BCluster)
    (tables : Fin n → List Table) (i : Fin n) :
    stmt.op.Finished args rounds i (CascTask.course hts tables t x e (2 * rounds + 4) i) := by
  rw [CascTask.course_test]
  obtain ⟨hrefs, htables, -⟩ := h.start rounds i
  refine ⟨rfl, hrefs.trans (h.consumed i).refs, ?_, ?_⟩
  · rw [hrefs, htables]
    exact (h.consumed i).fills
  · rw [hrefs, htables]
    exact List.forall₂_map_right_iff.mpr (List.forall₂_same.mpr fun m _ => (h.round m).built i)

namespace CascOp.Finished

variable (h : stmt.Valid) (hs : stmt.op.Finished args rounds i s)

include h hs

lemma starts_nodup : (s.thread.refs.map RefBlock.start).Nodup := by
  rw [hs.refs]
  exact h.op.scan_nodup args i

lemma through : stmt.Through s where
  agree := ⟨_, hs.fills.agree⟩
  length := hs.fills.length_eq.symm
  esize table htable := by
    obtain ⟨j, hj⟩ := List.getElem?_of_mem htable
    obtain ⟨e, -, hfilled⟩ := hs.fills.get hj
    exact hfilled.esize
  starts block hblock := h.op.start_lt block (List.mem_filter.mp (hs.refs ▸ hblock)).1
  built clusters hclusters := by
    obtain ⟨m, -, hbuilt⟩ := exists_of_mem_right hs.built hclusters
    exact ⟨_, hbuilt⟩

/-- The references of a thread that take part. -/
lemma mem_links (hle : n ≤ 2 ^ 31) {id target : ℕ} : (id, target) ∈ s.thread.links
    ↔ (id, target) ∈ stmt.op.edges ∧ blockGetOffset (id / tableBlockSize) args.chunkSize n = i := by
  rw [links_of_fills h.op.expanded_ne (hs.starts_nodup h) rfl hs.fills, hs.refs, hitEdges, Gather.scan,
    List.filter_comm]
  exact mem_scan_edges i.isLt hle

/-- **The rows** that a thread enables. -/
lemma mem_rows (hle : n ≤ 2 ^ 31) (hend : stmt.op.frontier rounds = ∅) {id : ℕ} : id ∈ s.rows
    ↔ id ∈ sources stmt.op.refs ∧ stmt.op.Ends stmt.op.edges id
      ∧ blockGetOffset (id / tableBlockSize) args.chunkSize n = i := by
  have hrows : id ∈ s.rows ↔ ∃ m < rounds, id ∈ puts s.thread.links (stmt.op.frontier m) := by
    have hmap : s.rounds.map (fun clusters => clusters.flatMap Cluster.ids)
        = (List.range rounds).map fun m => puts s.thread.links (stmt.op.frontier m) := by
      refine map_eq_of_forall₂ (hs.built.imp fun m clusters hbuilt => ?_)
      rw [CascThread.links, ← flatMap_blockPuts, List.flatMap_def, Cluster.Built.map_ids hbuilt, ← List.flatMap_def]
    have hmem : id ∈ s.rows ↔ ∃ l ∈ s.rounds.map (fun clusters => clusters.flatMap Cluster.ids), id ∈ l := by
      simp only [CascTask.mem_rows, List.mem_map, exists_exists_and_eq_and, List.mem_flatMap]
    rw [hmem, hmap]
    simp only [List.mem_map, exists_exists_and_eq_and, List.mem_range]
  have hlt : ∀ target m, target ∈ stmt.op.frontier m → m < rounds := fun target m htarget => by
    by_contra hm
    rw [CascOp.Valid.frontier_eq_empty hend (not_lt.mp hm)] at htarget
    exact absurd htarget (Finset.notMem_empty _)
  rw [hrows]
  constructor
  · rintro ⟨m, -, hput⟩
    obtain ⟨target, hlink, htarget⟩ := mem_puts.mp hput
    obtain ⟨hedge, hoffset⟩ := (hs.mem_links h hle).mp hlink
    have hsource : id ∈ sources stmt.op.refs := mem_sources.mpr ⟨target, CascOp.edges_subset hedge⟩
    exact ⟨hsource, (CascOp.exists_mem_frontier hsource).mp ⟨target, m, hedge, htarget⟩, hoffset⟩
  · rintro ⟨hsource, hends, hoffset⟩
    obtain ⟨target, m, hedge, htarget⟩ := (CascOp.exists_mem_frontier hsource).mpr hends
    exact ⟨m, hlt target m htarget, mem_puts.mpr ⟨target, (hs.mem_links h hle).mpr ⟨hedge, hoffset⟩, htarget⟩⟩

/-- The references of a thread with an expanded target. -/
lemma mem_entries (hle : n ≤ 2 ^ 31) {id target : ℕ} :
    (id, target) ∈ entries stmt.op.clusters (s.thread.refs.flatMap RefBlock.edges)
      ↔ (id, target) ∈ stmt.op.refs ∧ blockGetOffset (id / tableBlockSize) args.chunkSize n = i
        ∧ stmt.IsExpanded target := by
  rw [Furious.mem_entries, h.expanded_rows, hs.refs, mem_scan_edges i.isLt hle, and_assoc]
  rfl

/-- **The pointers** in the temporary tables are those to the components of the target. -/
lemma rowCall_eq (hle : n ≤ 2 ^ 31) {id target : ℕ} (hedge : (id, target) ∈ stmt.op.refs)
    (hoffset : blockGetOffset (id / tableBlockSize) args.chunkSize n = i) (htarget : stmt.IsExpanded target) :
    rowCall stmt.matched s.thread.tables id = stmt.call id target := by
  rw [rowCall, CascStmt.call, PairCall.mk.injEq]
  refine ⟨rfl, rfl, map_eq_of_forall₂ (hs.fills.imp fun e table hfilled => ?_)⟩
  obtain ⟨ptr, a, hslot, hplace, hload⟩ := hfilled.pointer id target
    ((hs.mem_entries h hle).mpr ⟨hedge, hoffset, htarget⟩)
  rw [Table.pointerAt, Table.place_of_slot hslot, Expanded.address, hplace]
  exact hload

/-- The entries in the temporary tables. -/
lemma enabledAt (hle : n ≤ 2 ^ 31) {id : ℕ} : (∀ table ∈ s.thread.tables, table.enabledAt id = true)
    ↔ ∃ target, (id, target) ∈ stmt.op.refs ∧ blockGetOffset (id / tableBlockSize) args.chunkSize n = i
      ∧ stmt.IsExpanded target := by
  have hone : ∀ table ∈ s.thread.tables, (table.enabledAt id = true ↔ ∃ target, (id, target) ∈ stmt.op.refs
      ∧ blockGetOffset (id / tableBlockSize) args.chunkSize n = i ∧ stmt.IsExpanded target) := fun table htable => by
    obtain ⟨j, hj⟩ := List.getElem?_of_mem htable
    obtain ⟨e, -, hfilled⟩ := hs.fills.get hj
    rw [hfilled.enabled, decide_eq_true_eq, mem_sources]
    exact exists_congr fun target => hs.mem_entries h hle
  have hne : s.thread.tables ≠ [] := by
    rw [← List.length_pos_iff, (hs.through h).length]
    exact List.length_pos_iff.mpr h.op.expanded_ne
  constructor
  · intro hall
    obtain ⟨table, htable⟩ := List.exists_mem_of_ne_nil _ hne
    exact (hone table htable).mp (hall table htable)
  · exact fun htarget table htable => (hone table htable).mpr htarget

/-- **A thread reads columns that are not there** if a block of its references has none to an expanded entity, and its
part of the match has an entity in the last block. -/
lemma astray_iff (hle : n ≤ 2 ^ 31) : stmt.Astray args n s ↔ rounds ≠ 0 ∧ ∃ block ∈ stmt.op.blocks,
    blockGetOffset (block.start / tableBlockSize) args.chunkSize n = i
    ∧ block.hits (reaches stmt.op.clusters) = false
    ∧ ∃ id, stmt.IsMatched id ∧ id / tableBlockSize = lastBlock
      ∧ blockGetOffset lastBlock args.chunkSize n = i := by
  have hlast : lastRow (stmt.scanned args n s.offset) = true ↔ ∃ id, stmt.IsMatched id
      ∧ id / tableBlockSize = lastBlock ∧ blockGetOffset lastBlock args.chunkSize n = i := by
    rw [lastRow_iff]
    refine exists_congr fun id => ?_
    rw [CascStmt.scanned, hs.offset, reaches_scan h.expansion i.isLt hle, h.matched_rows, and_assoc]
    refine and_congr_right fun _ => and_comm.trans (and_congr_right fun hid => ?_)
    rw [hid]
  have hlength : s.rounds ≠ [] ↔ rounds ≠ 0 := by
    rw [Ne, ← List.length_eq_zero_iff, ← hs.built.length_eq, List.length_range]
  have hblocks : ∀ block, block ∈ s.thread.refs ↔ block ∈ stmt.op.blocks
      ∧ blockGetOffset (block.start / tableBlockSize) args.chunkSize n = i := fun block => by
    rw [hs.refs, Gather.scan, List.mem_filter]
    refine and_congr_right fun hblock => isSelected_iff ?_ i.isLt hle
    rw [Nat.div_lt_iff_lt_mul (by decide)]
    exact h.op.start_lt block hblock
  rw [CascStmt.Astray, hlength]
  refine and_congr_right fun _ => exists_congr fun block => ?_
  rw [hblocks, and_assoc]
  refine and_congr_right fun hblock => and_congr_right fun hoffset => ?_
  have hmem : block ∈ s.thread.refs := (hblocks block).mpr ⟨hblock, hoffset⟩
  rw [Stray, hlast, serves_of_fills h.op.expanded_ne (hs.starts_nodup h) hs.fills hmem]

end CascOp.Finished

/-- The references that take part lead to nothing else. -/
lemma CascOp.Ends.refs {op : CascOp} {id : ℕ} (h : op.Ends op.edges id) : op.Ends op.refs id := by
  obtain ⟨r, hr, hpath⟩ := h
  exact ⟨r, hr, Relation.ReflTransGen.mono (fun _ _ => CascOp.edges_subset) _ _ hpath⟩

/-- A source has one target. -/
lemma CascStmt.Valid.target_unique (h : stmt.Valid) {id target target' : ℕ} (ht : (id, target) ∈ stmt.op.refs)
    (ht' : (id, target') ∈ stmt.op.refs) : target = target' :=
  congrArg Prod.snd (List.inj_on_of_nodup_map (nodup_sources h.op.starts) ht ht' rfl)

/-- There is a round just if a reference leads to an entity that refers to nothing. -/
lemma CascOp.rounds_ne_zero {op : CascOp} (hend : op.frontier rounds = ∅) (hbefore : ∀ m < rounds, op.frontier m ≠ ∅) :
    rounds ≠ 0 ↔ ∃ s t, (s, t) ∈ op.refs ∧ t ∉ sources op.refs := by
  have hfirst : op.frontier 0 ≠ ∅ ↔ ∃ s t, (s, t) ∈ op.refs ∧ t ∉ sources op.refs := by
    have hzero : op.frontier 0 = targets op.refs \ sources op.refs := by
      rw [CascOp.frontier, Furious.frontier, roots, CascOp.references_blocks]
      rfl
    rw [hzero, ← Finset.nonempty_iff_ne_empty, Finset.Nonempty]
    simp only [Finset.mem_sdiff, targets, List.mem_toFinset, List.mem_map, Prod.exists, exists_eq_right]
    constructor
    · rintro ⟨t, ⟨s, hedge⟩, ht⟩
      exact ⟨s, t, hedge, ht⟩
    · rintro ⟨s, t, hedge, ht⟩
      exact ⟨t, ⟨s, hedge⟩, ht⟩
  rw [← hfirst]
  refine ⟨fun hne => hbefore 0 (Nat.pos_of_ne_zero hne), fun hne hzero => hne ?_⟩
  rw [← hend, hzero]

/-- **At the end of the task** the calls are right just under the condition. -/
theorem CascStmt.right_iff (h : stmt.Valid) (hn : 1 ≤ n) (hle : n ≤ 2 ^ 31) {c : TaskConfig n}
    (hc : ∀ i, stmt.op.Finished args rounds i (c.procs i).state) (hend : stmt.op.frontier rounds = ∅)
    (hbefore : ∀ m < rounds, stmt.op.frontier m ≠ ∅) : stmt.Right args c ↔ stmt.Covered args.chunkSize n := by
  have hthread : ∀ b, ∃ i : Fin n, blockGetOffset b args.chunkSize n = i := fun b => ⟨⟨_, Nat.mod_lt _ hn⟩, rfl⟩
  have hcalls : Yields (stmt.calls args c) _ _ := calls_spec h fun i => (hc i).through h
  constructor
  · intro hright
    refine ⟨fun s t hedge hends => ⟨fun ht => ?_, fun hpath => ?_⟩, fun hround block hblock hhits id hid hlast => ?_⟩
    · obtain ⟨i, hrow⟩ := hright.skips s t hedge ht hends
      exact (((hc i).mem_rows h hle hend).mp hrow).2.1
    · obtain ⟨i, hi⟩ := hthread (s / tableBlockSize)
      have hrow := ((hc i).mem_rows h hle hend).mpr ⟨mem_sources.mpr ⟨t, hedge⟩, hpath, hi⟩
      obtain ⟨t', hedge', -, ht'⟩ := ((hc i).enabledAt h hle).mp (hright.rows i s hrow)
      rwa [h.target_unique hedge hedge']
    · intro hsame
      obtain ⟨i, hi⟩ := hthread lastBlock
      obtain ⟨calls, hrun, -⟩ := hright.calls
      exact (hcalls.of_eq_some hrun).1 ⟨i, ((hc i).astray_iff h hle).mpr
        ⟨(CascOp.rounds_ne_zero hend hbefore).mpr hround, block, hblock, hsame.trans hi, hhits, id, hid, hlast, hi⟩⟩
  · intro hcov
    -- the rows are those of the sources of pairs, if these are matched
    have hrows : ∀ i s, s ∈ (c.procs i).state.rows → ∃ t, (s, t) ∈ stmt.op.refs ∧ stmt.IsExpanded t
        ∧ stmt.op.Ends stmt.op.refs s ∧ blockGetOffset (s / tableBlockSize) args.chunkSize n = i := fun i s hs => by
      obtain ⟨hsource, hpath, hi⟩ := ((hc i).mem_rows h hle hend).mp hs
      obtain ⟨t, hedge⟩ := mem_sources.mp hsource
      exact ⟨t, hedge, (hcov.through s t hedge hpath.refs).mpr hpath, hpath.refs, hi⟩
    have hskips : ∀ s t, (s, t) ∈ stmt.op.refs → stmt.IsExpanded t → stmt.op.Ends stmt.op.refs s →
        ∃ i, s ∈ (c.procs i).state.rows ∧ blockGetOffset (s / tableBlockSize) args.chunkSize n = i :=
      fun s t hedge ht hends => by
        obtain ⟨i, hi⟩ := hthread (s / tableBlockSize)
        exact ⟨i, ((hc i).mem_rows h hle hend).mpr
          ⟨mem_sources.mpr ⟨t, hedge⟩, (hcov.through s t hedge hends).mp ht, hi⟩, hi⟩
    refine ⟨?_, fun i s hs => ?_, fun s t hedge ht hends => ?_⟩
    · have hgood : ¬ ∃ i, stmt.Astray args n (c.procs i).state := by
        rintro ⟨i, hastray⟩
        obtain ⟨hrounds, block, hblock, hoffset, hhits, id, hid, hlast, hi⟩ := ((hc i).astray_iff h hle).mp hastray
        exact hcov.apart ((CascOp.rounds_ne_zero hend hbefore).mp hrounds) block hblock hhits id hid hlast
          (hoffset.trans hi.symm)
      obtain ⟨calls, hrun, hmem⟩ := hcalls.makes hgood
      refine ⟨calls, hrun, fun call => (hmem call).trans ?_⟩
      constructor
      · rintro ⟨i, s, hs, hreach, rfl⟩
        obtain ⟨t, hedge, ht, hends, hi⟩ := hrows i s hs
        rw [scanned, (hc i).offset, reaches_scan h.expansion i.isLt hle, h.matched_rows] at hreach
        exact ⟨s, t, ⟨hedge, hreach.1, ht, hends⟩, (hc i).rowCall_eq h hle hedge hi ht⟩
      · rintro ⟨s, t, hpair, rfl⟩
        obtain ⟨i, hs, hi⟩ := hskips s t hpair.edge hpair.expanded hpair.ends
        refine ⟨i, s, hs, ?_, ((hc i).rowCall_eq h hle hpair.edge hi hpair.expanded).symm⟩
        rw [scanned, (hc i).offset, reaches_scan h.expansion i.isLt hle, h.matched_rows]
        exact ⟨hpair.matched, hi⟩
    · obtain ⟨t, hedge, ht, -, hi⟩ := hrows i s hs
      exact ((hc i).enabledAt h hle).mpr ⟨t, hedge, hi, ht⟩
    · obtain ⟨i, hs, -⟩ := hskips s t hedge ht hends
      exact ⟨i, hs⟩

end Ends

/-! ### All runs -/

/-- The task is over. -/
def TaskConfig.Over {n : ℕ} (c : TaskConfig n) : Prop := ∃ rounds waits, c.Ended rounds waits

/-- Nothing happens any more. -/
lemma TaskConfig.Over.not_step {op : CascOp} {args : CascArgs} {n : ℕ} {c c' : TaskConfig n} (h : c.Over) :
    ¬ TaskStep op args c c' := by
  obtain ⟨rounds, waits, hended⟩ := h
  rintro ⟨i, p, hmove, -⟩
  obtain ⟨hrun, -, hpc, hsize, -⟩ := hended i
  cases hmove with
  | move _ hnext =>
      simp only [CascTask.next, hpc, CascState.next, hsize, lt_irrefl, if_false, Option.bind_eq_bind,
        Option.bind_none, Option.bind_eq_some_iff, reduceCtorEq, and_false, exists_false] at hnext
  | leave hwait _ =>
      rw [hrun] at hwait
      cases hwait

/-- **All runs** come to an end, at which the threads have gathered and built what they should. -/
theorem CascStmt.Valid.exists_ends {stmt : CascStmt} (h : stmt.Valid) (args : CascArgs) {n : ℕ} (hn : 1 ≤ n)
    (hle : n ≤ 2 ^ 31) {store : Store} {taken : Set ℕ} (hstore : store.Holds taken)
    (hapart : stmt.op.Apart args n taken) :
    ∃ rounds total, stmt.op.frontier rounds = ∅ ∧ (∀ m < rounds, stmt.op.frontier m ≠ ∅)
      ∧ ∀ steps c, Steps (TaskStep stmt.op args) steps (TaskConfig.init n store) c →
        ∃ rest c', total = steps + rest ∧ Steps (TaskStep stmt.op args) rest c c' ∧ c'.Over
          ∧ ∀ i, stmt.op.Finished args rounds i (c'.procs i).state := by
  obtain ⟨rounds, hend, hbefore⟩ := h.op.exists_rounds
  obtain ⟨hts, tables, t, x, e, hrounds, -, total, hends⟩ :=
    h.op.exists_runs args hn hle hstore hapart hend hbefore
  refine ⟨rounds, total, hend, hbefore, fun steps c hrun => ?_⟩
  obtain ⟨rest, store', hrest, hsteps⟩ := hends steps c hrun
  exact ⟨rest, _, hrest, hsteps, ⟨rounds, _, CascOp.Valid.ended tables hrounds hend store'⟩,
    fun i => hrounds.finished hts tables i⟩

/-- A statement that matches the component that it expands. -/
def beltStmt (e : Expanded) (bc : BCluster) (blocks : List RefBlock) : CascStmt :=
  ⟨beltGather [e] [bc] blocks, [e], [bc]⟩

section BeltStmt

variable {e : Expanded} {bc : BCluster} {blocks : List RefBlock}

lemma beltStmt_valid (h : Expansion [e] [bc]) (hreach : ∀ id, reaches [bc] id = e.table.enabledAt id)
    (hstarts : (blocks.map RefBlock.start).Nodup) (hlt : ∀ block ∈ blocks, block.start < 2 ^ 32) :
    (beltStmt e bc blocks).Valid := by
  have hrows : ∀ id, reaches [bc] id = true ↔ ∀ e' ∈ [e], e'.table.enabledAt id = true := fun id => by
    rw [List.forall_mem_singleton, hreach]
  exact ⟨beltGather_valid h hstarts hlt, hrows, h, hrows, show 1 + 1 ≤ maxClusterSize by decide⟩

end BeltStmt

/-- A block with the references 1 -> 7 and 3 -> 5. -/
def mixedBlock : RefBlock where
  start := 0
  enabled :=
    { bits := [false, true, false, true] ++ List.replicate 252 false
      numSet := 2
      numSet_eq := by rw [List.count_append, List.count_replicate]; rfl }
  data i := if i = 1 then 7 else 5
  start_dvd := dvd_zero _
  enabled_length := by rw [List.length_append, List.length_replicate]; rfl
  source_lt i hi := by
    have hlt : i < 256 := by
      by_contra hge
      rw [Bitmap.test, List.getD_eq_getElem?_getD, List.getElem?_eq_none] at hi
      · cases hi
      · rw [List.length_append, List.length_replicate]
        exact not_lt.mp hge
    exact lt_of_lt_of_le (by omega : 0 + i < 256) (by decide)
  data_lt i := by split_ifs <;> decide

lemma mixedBlock_edges : mixedBlock.edges = [(1, 7), (3, 5)] := by decide +kernel

end Furious
