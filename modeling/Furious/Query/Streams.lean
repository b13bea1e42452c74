import Furious.Query.Clusters

/-!
The clusters that the code of a plan goes through.

The code of an operator runs the code above it once for each cluster that it hands on, and the clusters have
different blocks. What is above relies on nothing else, and leaves the hash tables below it alone.

* `Collects`: a hash table has the clusters of some blocks;
* `Covers`, `Streams`: **the blocks that are handed on** are those in which the plan has rows;
* `Takes`, `Blind`: what is above, and what it does not read;
* `produce_spec`: **the code of a plan**.
-/

namespace Furious

/-! ### Hash tables -/

namespace TaskState

variable {st : TaskState} {id i : ℕ} {side s : Bool} {hashTable : BTree BCluster}

@[simp] lemma hashTables_setHashTable : (st.setHashTable id side hashTable).hashTables id side = hashTable := by
  simp only [setHashTable, Function.update_self]

lemma hashTables_of_ne (h : i ≠ id) : (st.setHashTable id side hashTable).hashTables i = st.hashTables i :=
  Function.update_of_ne h _ _

lemma hashTables_of_side (h : s ≠ side) :
    (st.setHashTable id side hashTable).hashTables id s = st.hashTables id s := by
  simp only [setHashTable, Function.update_self, Function.update_of_ne h]

@[simp] lemma calls_setHashTable : (st.setHashTable id side hashTable).calls = st.calls := rfl

end TaskState

/-- The values that an iterator gives. -/
lemma values_reported {V : Type} (l : List (ℕ × V)) : (reported l).mapM Prod.snd = some (l.map Prod.snd) := by
  induction l with
  | nil => rfl
  | cons e l ih =>
      rw [reported, List.map_cons, List.mapM_cons, Option.bind_eq_bind, Option.bind_some]
      rw [reported] at ih
      rw [ih]
      rfl

/-- A hash table has the clusters that the plan `t` has handed on for `out`. -/
structure Collects (db : QueryDb) (t : PlanTree) (out : List (Option ℕ)) (hashTable : BTree BCluster)
    (M : KeyMap BCluster) : Prop where
  shows : Shows hashTable M
  mem : ∀ key, key ∈ M ↔ key ∈ out.map blockKey
  carries : ∀ key bc, M.lookup key = some bc → ∃ k ∈ out, blockKey k = key ∧ bc.Carries db t k

namespace Collects

variable {db : QueryDb} {t : PlanTree} {out : List (Option ℕ)} {hashTable : BTree BCluster} {M : KeyMap BCluster}
  {k : Option ℕ} {bc : BCluster} {st : TaskState} {id : ℕ} {side : Bool}

lemma init : Collects db t [] BTree.init ∅ where
  shows := Shows.init
  mem key := by simp [Finmap.notMem_empty]
  carries key bc h := by
    rw [Finmap.lookup_empty] at h
    cases h

lemma lt (h : Collects db t out hashTable M) {key : ℕ} (hkey : key ∈ M) : key < numBlocks := by
  obtain ⟨bc, hbc⟩ := Finmap.mem_iff.mp hkey
  obtain ⟨k, -, rfl, hcarries⟩ := h.carries key bc hbc
  cases k with
  | none => decide
  | some b => exact hcarries.lt b rfl

/-- **A cluster is kept.** -/
theorem insert (ht : t.Plain) (h : Collects db t out (st.hashTables id side) M) (hc : bc.Carries db t k)
    (hk : blockKey k ∉ out.map blockKey) : ∃ hashTable' M',
      st.insert id side bc = some (st.setHashTable id side hashTable') ∧ Collects db t (out ++ [k]) hashTable' M' := by
  obtain ⟨bc', hcopy, hc'⟩ := hc.copy ht.length_columns_le
  have hkey : bc.start / tableBlockSize = blockKey k := by rw [hc.start, blockStart_div]
  have hnotMem : blockKey k ∉ M := fun hmem => hk ((h.mem _).mp hmem)
  obtain ⟨hashTable', ins, hins, -, -, hshows⟩ := h.shows.insert hnotMem bc'
  refine ⟨hashTable', M.insert (blockKey k) bc', ?_, hshows, fun key => ?_, fun key c hc'' => ?_⟩
  · rw [TaskState.insert, hcopy]
    simp only [hkey, Option.bind_eq_bind, Option.bind_some, hins]
  · rw [Finmap.mem_insert, h.mem, List.map_append, List.mem_append, List.map_singleton, List.mem_singleton]
    exact or_comm
  · by_cases hcase : key = blockKey k
    · rw [hcase, Finmap.lookup_insert] at hc''
      obtain rfl := Option.some.inj hc''
      exact ⟨k, List.mem_append_right _ (List.mem_singleton_self k), hcase.symm, hc'⟩
    · rw [Finmap.lookup_insert_of_ne _ hcase] at hc''
      obtain ⟨k', hmem, hkey', hcarries⟩ := h.carries key c hc''
      exact ⟨k', List.mem_append_left _ hmem, hkey', hcarries⟩

/-- **A cluster is looked for.** -/
theorem get (h : Collects db t out hashTable M) (key : ℕ) :
    (hashTable.get key = some none ∧ key ∉ out.map blockKey)
    ∨ ∃ k ∈ out, ∃ bc, hashTable.get key = some (some bc) ∧ blockKey k = key ∧ bc.Carries db t k := by
  rw [h.shows.get]
  cases hlookup : M.lookup key with
  | none => exact .inl ⟨rfl, fun hmem => Finmap.lookup_eq_none.mp hlookup ((h.mem key).mpr hmem)⟩
  | some bc =>
      obtain ⟨k, hk, hkey, hc⟩ := h.carries key bc hlookup
      exact .inr ⟨k, hk, bc, rfl, hkey, hc⟩

/-- **The clusters**, one after the other. -/
theorem clusters (h : Collects db t out (st.hashTables id side) M) :
    ∃ l, Lists l M ∧ st.clusters id side = some (l.map Prod.snd) := by
  obtain ⟨l, iter, hl, hinit, hremains⟩ := h.shows.iterInit
  have hsize : l.length = (st.hashTables id side).size := by
    have hsub : M.keys ⊆ Finset.range numBlocks := fun key hkey =>
      Finset.mem_range.mpr (h.lt (Finmap.mem_keys.mp hkey))
    have hcard : M.keys.card ≤ 2 ^ 24 := (Finset.card_le_card hsub).trans_eq (Finset.card_range _)
    rw [h.shows.size, ← hl.card, Nat.mod_eq_of_lt (by omega)]
  have hdrain : iter.drain (st.hashTables id side).nodes ((st.hashTables id side).size + 1) = some (reported l) :=
    hremains.drain (by omega)
  refine ⟨l, hl, ?_⟩
  simp only [TaskState.clusters, BTree.entries, hinit, Option.bind_eq_bind, Option.bind_some, hdrain]
  exact values_reported l

end Collects

/-! ### What is handed on -/

/-- The thread takes the block. -/
def Thread.Takes (thread : Thread) (b : ℕ) : Prop := blockGetOffset b thread.chunkSize thread.stride = thread.offset

/-- Of the blocks in `seen`, those that are in `out` have been handed on, and the others have no rows. -/
structure Covers (db : QueryDb) (t : PlanTree) (thread : Thread) (seen : ℕ → Prop) (out : List (Option ℕ)) : Prop where
  nodup : (out.map blockKey).Nodup
  lt : ∀ b, some b ∈ out → b < numBlocks
  kind : ∀ k ∈ out, t.isGlobal = k.isNone
  taken : ∀ b, some b ∈ out → thread.Takes b
  among : ∀ k ∈ out, seen (blockKey k)
  rows : ∀ b, thread.Takes b → seen b → some b ∉ out → ∀ o < tableBlockSize,
    db.row t (b * tableBlockSize + o) = none

/-- **What a plan hands on** to a thread. -/
structure Streams (db : QueryDb) (t : PlanTree) (thread : Thread) (out : List (Option ℕ)) : Prop where
  covers : Covers db t thread (fun _ => True) out
  globals : none ∉ out → db.globalRow t = none

section Covers

variable {db : QueryDb} {t : PlanTree} {thread : Thread} {seen seen' : ℕ → Prop} {out : List (Option ℕ)}
  {k : Option ℕ} {bc : BCluster}

namespace Covers

lemma nil : Covers db t thread (fun key => key ∈ ([] : List (Option ℕ)).map blockKey) [] where
  nodup := List.nodup_nil
  lt b hb := by cases hb
  kind k hk := by cases hk
  taken b hb := by cases hb
  among k hk := by cases hk
  rows b _ hb := by cases hb

lemma congr (h : Covers db t thread seen out) (hseen : ∀ key, seen key ↔ seen' key) :
    Covers db t thread seen' out where
  nodup := h.nodup
  lt := h.lt
  kind := h.kind
  taken := h.taken
  among k hk := (hseen _).mp (h.among k hk)
  rows b hb hs := h.rows b hb ((hseen b).mpr hs)

/-- A cluster is handed on. -/
lemma snoc (h : Covers db t thread seen out) (ht : t.Plain) (hc : bc.Carries db t k) (hnew : ¬ seen (blockKey k))
    (htaken : ∀ b, k = some b → thread.Takes b) :
    Covers db t thread (fun key => seen key ∨ key = blockKey k) (out ++ [k]) where
  nodup := by
    rw [List.map_append, List.map_singleton, List.nodup_append]
    refine ⟨h.nodup, List.nodup_singleton _, fun key hkey key' hkey' heq => hnew ?_⟩
    obtain ⟨k', hk', rfl⟩ := List.mem_map.mp hkey
    rw [List.mem_singleton.mp hkey'] at heq
    exact heq ▸ h.among k' hk'
  lt b hb := by
    rcases List.mem_append.mp hb with hb | hb
    · exact h.lt b hb
    · exact hc.lt b (List.mem_singleton.mp hb).symm
  kind k' hk' := by
    rcases List.mem_append.mp hk' with hk' | hk'
    · exact h.kind k' hk'
    · rw [List.mem_singleton.mp hk', hc.kind]
  taken b hb := by
    rcases List.mem_append.mp hb with hb | hb
    · exact h.taken b hb
    · exact htaken b (List.mem_singleton.mp hb).symm
  among k' hk' := by
    rcases List.mem_append.mp hk' with hk' | hk'
    · exact .inl (h.among k' hk')
    · exact .inr (by rw [List.mem_singleton.mp hk'])
  rows b hb hs hnot o ho := by
    rw [List.mem_append, List.mem_singleton, not_or] at hnot
    rcases hs with hs | hs
    · exact h.rows b hb hs hnot.1 o ho
    · cases k with
      | none => exact QueryDb.row_of_isGlobal ht hc.kind _
      | some b' => exact absurd (congrArg some hs) hnot.2

/-- A block without rows is passed over. -/
lemma skip (h : Covers db t thread seen out) {key : ℕ}
    (hnone : thread.Takes key → ∀ o < tableBlockSize, db.row t (key * tableBlockSize + o) = none) :
    Covers db t thread (fun key' => seen key' ∨ key' = key) out where
  nodup := h.nodup
  lt := h.lt
  kind := h.kind
  taken := h.taken
  among k hk := .inl (h.among k hk)
  rows b hb hs hnot o ho := by
    rcases hs with hs | rfl
    · exact h.rows b hb hs hnot o ho
    · exact hnone hb o ho

/-- All blocks have been seen. -/
lemma all (h : Covers db t thread seen out)
    (hrest : ∀ b, thread.Takes b → ¬ seen b → ∀ o < tableBlockSize, db.row t (b * tableBlockSize + o) = none) :
    Covers db t thread (fun _ => True) out where
  nodup := h.nodup
  lt := h.lt
  kind := h.kind
  taken := h.taken
  among _ _ := trivial
  rows b hb _ hnot o ho := by
    by_cases hs : seen b
    · exact h.rows b hb hs hnot o ho
    · exact hrest b hb hs o ho

end Covers

namespace Streams

/-- A block that is not handed on has no rows. -/
lemma row_eq_none (h : Streams db t thread out) {b o : ℕ} (hb : thread.Takes b) (hnot : b ∉ out.map blockKey)
    (ho : o < tableBlockSize) : db.row t (b * tableBlockSize + o) = none :=
  h.covers.rows b hb trivial (fun hmem => hnot (List.mem_map_of_mem hmem)) o ho

/-- Nor has it the row of globals next to it. -/
lemma row_or_eq_none (h : Streams db t thread out) {b o : ℕ} (hb : thread.Takes b) (hnot : b ∉ out.map blockKey)
    (ho : o < tableBlockSize) : (db.row t (b * tableBlockSize + o)).or
      (if (b * tableBlockSize + o) / tableBlockSize = lastBlock then db.globalRow t else none) = none := by
  rw [h.row_eq_none hb hnot ho, Option.none_or, (block_of_id ho).1]
  split_ifs with hlast
  · exact h.globals fun hmem => hnot (List.mem_map.mpr ⟨none, hmem, hlast.symm⟩)
  · rfl

end Streams

end Covers

/-! ### What is above -/

/-- What does not depend on the hash tables from `o` on and before `lim`. -/
def Blind (o lim : ℕ) (J : List (Option ℕ) → TaskState → Prop) : Prop :=
  ∀ out st st', J out st → (∀ i, i < o ∨ lim ≤ i → st'.hashTables i = st.hashTables i) → st'.calls = st.calls →
    J out st'

/-- The code of the operator `p` takes the clusters of the plan `t` from the operator `id`, of each block one,
and does not change the hash tables before `lim`. -/
def Consumes (db : QueryDb) (nodes : List Operator) (thread : Thread) (t : PlanTree) (p id D lim : ℕ)
    (J : List (Option ℕ) → TaskState → Prop) : Prop :=
  ∀ d, D ≤ d → ∀ out k bc st, J out st → bc.Carries db t k → blockKey k ∉ out.map blockKey →
    (∀ b, k = some b → thread.Takes b) → ∃ st', Exec.consume db nodes d p bc id st = some st'
      ∧ J (out ++ [k]) st' ∧ ∀ i < lim, st'.hashTables i = st.hashTables i

/-- The code of the operator `id` hands on the clusters of the plan `t`. -/
def Produces (db : QueryDb) (nodes : List Operator) (thread : Thread) (t : PlanTree) (id D : ℕ)
    (J : List (Option ℕ) → TaskState → Prop) : Prop :=
  ∀ d, D ≤ d → ∀ st, J [] st → ∃ out st', Exec.produce db nodes thread d id true st = some st'
    ∧ J out st' ∧ Streams db t thread out

section Above

variable {db : QueryDb} {nodes : List Operator} {thread : Thread} {t : PlanTree} {p id o lim D : ℕ}
  {J : List (Option ℕ) → TaskState → Prop}

lemma Blind.mono (h : Blind o lim J) {o' lim' : ℕ} (ho : o ≤ o') (hlim : lim' ≤ lim) : Blind o' lim' J :=
  fun out st st' hJ htables hcalls => h out st st' hJ (fun i hi => htables i (by omega)) hcalls

/-- A hash table that is not read. -/
lemma Blind.setHashTable (h : Blind o lim J) (ho : o ≤ id) (hlim : id < lim) {out : List (Option ℕ)} {st : TaskState}
    (hJ : J out st) (side : Bool) (hashTable : BTree BCluster) : J out (st.setHashTable id side hashTable) :=
  h out st _ hJ (fun i hi => TaskState.hashTables_of_ne (by omega)) rfl

/-- **A cluster is handed on** if a row of it is enabled. -/
lemma Consumes.hand (h : Consumes db nodes thread t p id D lim J) (ht : t.Plain) {seen : ℕ → Prop}
    {out : List (Option ℕ)} {st : TaskState} {bc : BCluster} {k : Option ℕ} (hJ : J out st)
    (hcov : Covers db t thread seen out) (hands : bc.Hands db t k) (hnew : ¬ seen (blockKey k))
    (htaken : ∀ b, k = some b → thread.Takes b) {d : ℕ} (hd : D ≤ d) :
    ∃ st' out', (if bc.enabled.numSet ≠ 0 then Exec.consume db nodes d p bc id st else some st) = some st'
      ∧ J out' st' ∧ (∀ i < lim, st'.hashTables i = st.hashTables i)
      ∧ Covers db t thread (fun key => seen key ∨ key = blockKey k) out' := by
  by_cases hzero : bc.enabled.numSet ≠ 0
  · have hc := hands.carries hzero
    have hnotMem : blockKey k ∉ out.map blockKey := by
      intro hmem
      obtain ⟨k', hk', heq⟩ := List.mem_map.mp hmem
      exact hnew (heq ▸ hcov.among k' hk')
    obtain ⟨st', hconsume, hJ', htables⟩ := h d hd out k bc st hJ hc hnotMem htaken
    exact ⟨st', out ++ [k], by rw [if_pos hzero, hconsume], hJ', htables, hcov.snoc ht hc hnew htaken⟩
  · refine ⟨st, out, by rw [if_neg hzero], hJ, fun _ _ => rfl, hcov.skip fun _ o ho => ?_⟩
    cases k with
    | none => exact QueryDb.row_of_isGlobal ht hands.kind _
    | some b => exact hands.drops (not_not.mp hzero) b rfl o ho

end Above

/-- The table of a scan. -/
lemma QueryDb.Sound.tableOf {db : QueryDb} (h : db.Sound) (col : FccColumn) : ∃ M, (db.tableOf col).Sound M := by
  rw [QueryDb.tableOf]
  split_ifs
  · exact h.tables _
  · exact h.refs _

/-! ### The leaves -/

/-- What a task may be given: its offset is below the stride, and the 32 bit arithmetic is enough. -/
structure Thread.Valid (thread : Thread) : Prop where
  chunkSize_pos : 1 ≤ thread.chunkSize
  offset_lt : thread.offset < thread.stride
  stride_le : thread.stride ≤ 2 ^ 31

section Leaves

variable {db : QueryDb} {nodes : List Operator} {thread : Thread} {p o lim D : ℕ} {col : FccColumn}
  {J : List (Option ℕ) → TaskState → Prop}

/-- A block that a table does not have has no rows. -/
lemma row_scan_eq_none {M : KeyMap ℕ} (h : (db.tableOf col).Sound M) {b o' : ℕ} (hb : b ∉ M)
    (ho : o' < tableBlockSize) : db.row (.leaf .scan [col]) (b * tableBlockSize + o') = none := by
  have hat : (db.tableOf col).blockAt b = none := by
    obtain ⟨-, hat⟩ | ⟨p', -, hp', -⟩ := h.cases b
    · exact hat
    · exact absurd (Finmap.mem_of_lookup_eq_some hp') hb
  have henabled : (db.tableOf col).enabledAt (b * tableBlockSize + o') = false := by
    rw [Table.enabledAt, (block_of_id ho).1, hat]
    rfl
  rw [QueryDb.row, List.head?_cons, Option.bind_eq_bind, Option.bind_some, henabled]
  rfl

/-- **A scan.** -/
theorem produces_scan (hdb : db.Sound) (hthread : thread.Valid) (hcol : col.type = .component ∨ col.type = .id)
    (hroot : nodes[o]? = some ⟨.leaf .scan, p, [col]⟩)
    (h : Consumes db nodes thread (.leaf .scan [col]) p o D lim J) :
    Produces db nodes thread (.leaf .scan [col]) o (D + 1) J := by
  intro d hd st hJ
  obtain ⟨d, rfl⟩ : ∃ d', d = d' + 1 := ⟨d - 1, by omega⟩
  obtain ⟨M, hsound⟩ := hdb.tableOf col
  obtain ⟨l, hl, hinit⟩ := hsound.iterInit
  obtain ⟨iter, hiter, haw⟩ := hinit thread.chunkSize thread.offset thread.stride hthread.offset_lt hthread.stride_le
  obtain ⟨hleads, hlt, -, hlen⟩ := hsound.leads hl
  obtain ⟨L, hL⟩ : ∃ L, routed l thread.chunkSize thread.stride thread.offset = L := ⟨_, rfl⟩
  rw [hL] at haw
  have hmem : ∀ e, e ∈ L ↔ e ∈ l ∧ thread.Takes e.1 := fun e => by
    rw [← hL, routed, List.mem_filter, decide_eq_true_iff]
    rfl
  have hnodup : (L.map Prod.fst).Nodup := by
    rw [← hL]
    exact (hl.sorted.imp fun hlt => hlt.ne).map Prod.fst (fun _ _ h => h) |>.sublist (List.filter_sublist.map _)
  have hkeys : ∀ done : List (ℕ × ℕ), (done.map fun e => some e.1).map blockKey = done.map Prod.fst := fun done => by
    rw [List.map_map]
    rfl
  -- the loop over the entries
  obtain ⟨st', hloop, hJ'⟩ := foldlM_spec (fun done st' => J (done.map fun e => some e.1) st')
    (f := fun st (e : ℕ × ℕ) => do
      let block ← (db.tableOf col).tblockAllocator.get e.2
      let cluster ← BCluster.init.appendBlock e.2 block
      Exec.consume db nodes d p cluster o st) L hJ fun done e rest st' hdone hJ' => by
    have he : e ∈ L := hdone ▸ List.mem_append_right _ List.mem_cons_self
    obtain ⟨hel, htakes⟩ := (hmem e).mp he
    obtain ⟨block, bc, hget, happend, hc⟩ := carries_scan hsound hcol ((hl.mem e.1 e.2).mp hel)
    have hnew : blockKey (some e.1) ∉ (done.map fun e => some e.1).map blockKey := by
      rw [hkeys]
      rw [hdone, List.map_append, List.map_cons] at hnodup
      exact fun hmem => (List.nodup_append.mp hnodup).2.2 _ hmem _ List.mem_cons_self rfl
    obtain ⟨st'', hconsume, hJ'', -⟩ := h d (by omega) _ _ bc st' hJ' hc hnew fun b hb =>
      Option.some.inj hb ▸ htakes
    refine ⟨st'', ?_, ?_⟩
    · simp only [hget, happend, Option.bind_eq_bind, Option.bind_some, hconsume]
    · rw [List.map_append, List.map_singleton]
      exact hJ''
  refine ⟨L.map fun e => some e.1, st', ?_, hJ', ⟨⟨?_, ?_, ?_, ?_, fun _ _ => trivial, ?_⟩, fun _ => rfl⟩⟩
  · rw [Exec.produce, hroot]
    simp only [List.head?_cons, Option.bind_eq_bind, Option.bind_some, if_true, hiter]
    have hlenL : L.length ≤ l.length := hL ▸ List.length_filter_le _ _
    rw [haw.forEach_eq hleads (by omega) (by rw [List.length_map]; omega), List.foldlM_map]
    exact hloop
  · rw [hkeys]
    exact hnodup
  · intro b hb
    obtain ⟨e, he, heq⟩ := List.mem_map.mp hb
    exact Option.some.inj heq ▸ hlt e ((hmem e).mp he).1
  · intro k hk
    obtain ⟨e, he, rfl⟩ := List.mem_map.mp hk
    rcases hcol with hcol | hcol <;>
      simp [PlanTree.isGlobal, allGlobals, PlanTree.columns, OpTree.value, hcol]
  · intro b hb
    obtain ⟨e, he, heq⟩ := List.mem_map.mp hb
    exact Option.some.inj heq ▸ ((hmem e).mp he).2
  · intro b hb _ hnot o' ho
    refine row_scan_eq_none hsound (fun hbM => hnot ?_) ho
    obtain ⟨q, hq⟩ := Finmap.mem_iff.mp hbM
    exact List.mem_map.mpr ⟨(b, q), (hmem _).mpr ⟨(hl.mem b q).mpr hq, hb⟩, rfl⟩

/-- **A fetch.** -/
theorem produces_fetch (hcol : col.type = .global) (hroot : nodes[o]? = some ⟨.leaf .fetch, p, [col]⟩)
    (h : Consumes db nodes thread (.leaf .fetch [col]) p o D lim J) :
    Produces db nodes thread (.leaf .fetch [col]) o (D + 1) J := by
  intro d hd st hJ
  obtain ⟨d, rfl⟩ : ∃ d', d = d' + 1 := ⟨d - 1, by omega⟩
  have hrow : ∀ e, db.row (.leaf .fetch [col]) e = none := fun _ => rfl
  cases hglobal : db.globals col.componentType with
  | none =>
      refine ⟨[], st, ?_, hJ, Covers.nil.all fun b _ _ o _ => hrow _, fun _ => ?_⟩
      · rw [Exec.produce, hroot]
        simp only [List.head?_cons, Option.bind_eq_bind, Option.bind_some, hglobal]
      · rw [QueryDb.globalRow, List.head?_cons, Option.bind_eq_bind, Option.bind_some, hglobal]
        rfl
  | some ptr =>
      obtain ⟨bc, happend, hc⟩ := carries_fetch hcol hglobal
      obtain ⟨st', hconsume, hJ', -⟩ := h d (by omega) [] none bc st hJ hc (by simp) fun b hb => by cases hb
      refine ⟨[none], st', ?_, hJ', ?_, fun hnot => absurd (List.mem_singleton_self none) hnot⟩
      · rw [Exec.produce, hroot]
        simp only [List.head?_cons, Option.bind_eq_bind, Option.bind_some, hglobal, happend, hconsume]
      · have hplain : PlanTree.Plain (.leaf .fetch [col]) := ⟨col, rfl, hcol⟩
        exact (Covers.nil.snoc hplain hc (by simp) fun b hb => by cases hb).all fun b _ _ o _ => hrow _

end Leaves

/-! ### The filters -/

section Filters

variable {db : QueryDb} {nodes : List Operator} {thread : Thread} {t : PlanTree} {type : UnaryType}
  {p id child lim D : ℕ} {J : List (Option ℕ) → TaskState → Prop}

/-- What a filter has handed on of `done`. -/
def Passed (db : QueryDb) (thread : Thread) (t : PlanTree) (J : List (Option ℕ) → TaskState → Prop)
    (done : List (Option ℕ)) (st : TaskState) : Prop :=
  ∃ out, J out st ∧ Covers db t thread (fun key => key ∈ done.map blockKey) out

lemma mem_snoc_blockKey {done : List (Option ℕ)} {k : Option ℕ} (key : ℕ) :
    key ∈ done.map blockKey ∨ key = blockKey k ↔ key ∈ (done ++ [k]).map blockKey := by
  rw [List.map_append, List.mem_append, List.map_singleton, List.mem_singleton]

lemma Blind.passed (h : Blind child lim J) : Blind child lim (Passed db thread t J) :=
  fun _ _ _ ⟨out, hJ, hcov⟩ htables hcalls => ⟨out, h _ _ _ hJ htables hcalls, hcov⟩

/-- **A filter** takes what comes from its child. -/
lemma consumes_filter (ht : PlanTree.Plain (.unary type t)) (h : Consumes db nodes thread (.unary type t) p id D lim J)
    (hfilter : ∀ bc k, bc.Carries db t k → ∃ bc', bc'.Hands db (.unary type t) k
      ∧ ∀ d st, Exec.consume db nodes (d + 1) id bc child st
        = if bc'.enabled.numSet ≠ 0 then Exec.consume db nodes d p bc' id st else some st) :
    Consumes db nodes thread t id child (D + 1) lim (Passed db thread (.unary type t) J) := by
  intro d hd done k bc st ⟨out, hJ, hcov⟩ hc hnew htaken
  obtain ⟨d, rfl⟩ : ∃ d', d = d' + 1 := ⟨d - 1, by omega⟩
  obtain ⟨bc', hands, hconsume⟩ := hfilter bc k hc
  obtain ⟨st', out', hif, hJ', htables, hcov'⟩ := h.hand ht hJ hcov hands hnew htaken (Nat.le_of_succ_le_succ hd)
  exact ⟨st', by rw [hconsume, hif], ⟨out', hJ', hcov'.congr mem_snoc_blockKey⟩, htables⟩

/-- **The code of a filter** hands on what passes it. -/
lemma produces_filter (hproduce : ∀ d st, Exec.produce db nodes thread (d + 1) id true st
      = Exec.produce db nodes thread d child true st)
    (h : Produces db nodes thread t child D (Passed db thread (.unary type t) J)) :
    Produces db nodes thread (.unary type t) id (D + 1) J := by
  intro d hd st hJ
  obtain ⟨d, rfl⟩ : ∃ d', d = d' + 1 := ⟨d - 1, by omega⟩
  obtain ⟨done, st', hrun, ⟨out, hJ', hcov⟩, hstreams⟩ := h d (Nat.le_of_succ_le_succ hd) st ⟨[], hJ, Covers.nil⟩
  refine ⟨out, st', by rw [hproduce, hrun], hJ', hcov.all fun b hb hnot o ho => ?_, fun _ => rfl⟩
  rw [QueryDb.row, hstreams.row_eq_none hb hnot ho, Option.filter_none]

/-- The code of a tag filter takes clusters. -/
lemma consumes_tagFilter (hdb : db.Sound) {tag : String} {opType : FilterOpType} {onColumn : Bool} {below : ℕ}
    (hroot : nodes[id]? = some ⟨.unary (.tagFilter tag opType onColumn) below, p, t.columns⟩)
    (ht : PlanTree.Plain (.unary (.tagFilter tag opType onColumn) t))
    (h : Consumes db nodes thread (.unary (.tagFilter tag opType onColumn) t) p id D lim J) :
    Consumes db nodes thread t id child (D + 1) lim (Passed db thread (.unary (.tagFilter tag opType onColumn) t) J) :=
  consumes_filter ht h fun bc k hc => by
    obtain ⟨bc', hfilter, hands⟩ := hc.tagFilter hdb ht.2 opType
    refine ⟨bc', hands, fun d st => ?_⟩
    rw [Exec.consume, hroot]
    simp only [Option.bind_eq_bind, Option.bind_some, hfilter]

/-- The code of a predicate filter takes clusters. -/
lemma consumes_predicateFilter {funcDecl : FccDecl} {below : ℕ}
    (hroot : nodes[id]? = some ⟨.unary (.predicateFilter funcDecl) below, p, t.columns⟩)
    (ht : PlanTree.Plain (.unary (.predicateFilter funcDecl) t))
    (h : Consumes db nodes thread (.unary (.predicateFilter funcDecl) t) p id D lim J) :
    Consumes db nodes thread t id child (D + 1) lim (Passed db thread (.unary (.predicateFilter funcDecl) t) J) :=
  consumes_filter ht h fun bc k hc => by
    obtain ⟨bc', hfilter, hands⟩ := hc.predicateFilter ht.2 funcDecl
    refine ⟨bc', hands, fun d st => ?_⟩
    rw [Exec.consume, hroot]
    simp only [Option.bind_eq_bind, Option.bind_some, hfilter]

end Filters

/-! ### The joins -/

/-- A join that has kept the clusters of `done`. -/
def HasBuilt (db : QueryDb) (t : PlanTree) (id : ℕ) (side : Bool) (J : List (Option ℕ) → TaskState → Prop)
    (done : List (Option ℕ)) (st : TaskState) : Prop :=
  J [] st ∧ ∃ M, Collects db t done (st.hashTables id side) M

/-- A join that has kept the clusters of `build`, and has looked for what belongs to `done`. -/
def HasProbed (db : QueryDb) (thread : Thread) (l t : PlanTree) (build : List (Option ℕ)) (id : ℕ)
    (J : List (Option ℕ) → TaskState → Prop) (done : List (Option ℕ)) (st : TaskState) : Prop :=
  (∃ M, Collects db l build (st.hashTables id leftSide) M) ∧ Passed db thread t J done st

section Joins

variable {db : QueryDb} {nodes : List Operator} {thread : Thread} {l r : PlanTree} {type : BinaryType}
  {p id left right o lim D : ℕ} {cols : List FccColumn} {J : List (Option ℕ) → TaskState → Prop}

lemma Blind.hasBuilt (h : Blind o lim J) {lim' : ℕ} (hlim : lim' ≤ lim) (hid : lim' ≤ id) {t : PlanTree} {side : Bool} :
    Blind o lim' (HasBuilt db t id side J) := by
  intro out st st' ⟨hJ, M, hM⟩ htables hcalls
  refine ⟨h _ _ _ hJ (fun i hi => htables i (by omega)) hcalls, M, ?_⟩
  rw [htables id (.inr hid)]
  exact hM

lemma Blind.hasProbed (h : Blind o lim J) {o' lim' : ℕ} (ho : o ≤ o') (hlim : lim' ≤ lim) (hid : lim' ≤ id)
    {t : PlanTree} {build : List (Option ℕ)} : Blind o' lim' (HasProbed db thread l t build id J) := by
  intro out st st' ⟨⟨M, hM⟩, hpassed⟩ htables hcalls
  refine ⟨⟨M, ?_⟩, (h.mono ho hlim).passed _ _ _ hpassed htables hcalls⟩
  rw [htables id (.inr hid)]
  exact hM

/-- **A join keeps** what comes from one side. -/
lemma consumes_build {t : PlanTree} {side : Bool} {caller : ℕ} (ht : t.Plain)
    (hJ : ∀ st hashTable, J [] st → J [] (st.setHashTable id side hashTable))
    (hconsume : ∀ d bc st, Exec.consume db nodes (d + 1) id bc caller st = st.insert id side bc) :
    Consumes db nodes thread t id caller (D + 1) id (HasBuilt db t id side J) := by
  intro d hd done k bc st ⟨hst, M, hM⟩ hc hnew _
  obtain ⟨d, rfl⟩ : ∃ d', d = d' + 1 := ⟨d - 1, by omega⟩
  obtain ⟨hashTable, M', hinsert, hM'⟩ := hM.insert ht hc hnew
  refine ⟨_, by rw [hconsume, hinsert], ⟨hJ st _ hst, M', ?_⟩, fun i hi => TaskState.hashTables_of_ne (by omega)⟩
  rw [TaskState.hashTables_setHashTable]
  exact hM'

/-- What a join does with a cluster from the right, for the cluster that it finds. -/
structure Probes (db : QueryDb) (nodes : List Operator) (l r t : PlanTree) (p id right : ℕ) : Prop where
  left_none : ∀ e, (db.row l e).or (if e / tableBlockSize = lastBlock then db.globalRow l else none) = none →
    db.row t e = none
  right_none : ∀ e, (db.row r e).or (if e / tableBlockSize = lastBlock then db.globalRow r else none) = none →
    db.row t e = none
  globals : db.globalRow t = none
  missed : ∀ d bc st, (st.hashTables id leftSide).get (bc.start / tableBlockSize) = some none →
    Exec.consume db nodes (d + 1) id bc right st = some st
  found : ∀ k₁ k₂ build source, build.Carries db l k₁ → source.Carries db r k₂ → blockKey k₁ = blockKey k₂ →
    ∃ bc k, bc.Hands db t k ∧ blockKey k = blockKey k₂ ∧ (∀ b, k = some b → k₁ = some b ∨ k₂ = some b)
      ∧ ∀ d st, (st.hashTables id leftSide).get (source.start / tableBlockSize) = some (some build) →
        Exec.consume db nodes (d + 1) id source right st
          = if bc.enabled.numSet ≠ 0 then Exec.consume db nodes d p bc id st else some st

/-- **A join looks** for what comes from the right. -/
lemma consumes_probe {t : PlanTree} (ht : t.Plain) (hprobes : Probes db nodes l r t p id right) (hid : id < lim)
    (h : Consumes db nodes thread t p id D lim J) {build : List (Option ℕ)} (hbuild : Streams db l thread build) :
    Consumes db nodes thread r id right (D + 1) id (HasProbed db thread l t build id J) := by
  intro d hd done k₂ source st ⟨⟨M, hM⟩, out, hJ, hcov⟩ hc hnew htaken
  obtain ⟨d, rfl⟩ : ∃ d', d = d' + 1 := ⟨d - 1, by omega⟩
  have hkey : source.start / tableBlockSize = blockKey k₂ := by rw [hc.start, blockStart_div]
  rcases hM.get (blockKey k₂) with ⟨hget, hnot⟩ | ⟨k₁, hk₁, bc₁, hget, hkey₁, hc₁⟩
  · -- there is nothing in the block
    refine ⟨st, hprobes.missed d source st (hkey ▸ hget), ⟨⟨M, hM⟩, out, hJ, ?_⟩, fun _ _ => rfl⟩
    refine (hcov.skip fun htakes o ho => hprobes.left_none _ ?_).congr mem_snoc_blockKey
    exact hbuild.row_or_eq_none htakes hnot ho
  · obtain ⟨bc', k, hands, hkey', hblock, hconsume⟩ := hprobes.found k₁ k₂ bc₁ source hc₁ hc hkey₁
    have htaken' : ∀ b, k = some b → thread.Takes b := fun b hb => by
      rcases hblock b hb with hb | hb
      · exact hbuild.covers.taken b (hb ▸ hk₁)
      · exact htaken b hb
    obtain ⟨st', out', hif, hJ', htables, hcov'⟩ := h.hand ht hJ hcov hands (hkey' ▸ hnew) htaken'
      (Nat.le_of_succ_le_succ hd)
    refine ⟨st', by rw [hconsume d st (hkey ▸ hget), hif], ⟨⟨M, ?_⟩, out', hJ', ?_⟩,
      fun i hi => htables i (by omega)⟩
    · rw [htables id hid]
      exact hM
    · rw [hkey'] at hcov'
      exact hcov'.congr mem_snoc_blockKey

lemma Collects.release {t : PlanTree} {done : List (Option ℕ)} {st : TaskState} {side : Bool} {M : KeyMap BCluster}
    (h : Collects db t done (st.hashTables id side) M) : st.release id side = some st := by
  obtain ⟨l, -, hclusters⟩ := h.clusters
  obtain ⟨nodes, hrelease⟩ := h.shows.release
  rw [TaskState.release, hclusters, hrelease]
  rfl

/-- **The code of a join** hands on what belongs to both sides. -/
lemma produces_join {t : PlanTree} (hprobes : Probes db nodes l r t p id right) (hJ : Blind o lim J) (ho : o ≤ id)
    (hid : id < lim)
    (hproduce : ∀ d st, Exec.produce db nodes thread (d + 1) id true st = (do
      let st ← Exec.produce db nodes thread d left true (st.setHashTable id leftSide BTree.init)
      let st ← Exec.produce db nodes thread d right true st
      st.release id leftSide))
    (hleft : Produces db nodes thread l left D (HasBuilt db l id leftSide J))
    (hright : ∀ build, Streams db l thread build →
      Produces db nodes thread r right D (HasProbed db thread l t build id J)) :
    Produces db nodes thread t id (D + 1) J := by
  intro d hd st hst
  obtain ⟨d, rfl⟩ : ∃ d', d = d' + 1 := ⟨d - 1, by omega⟩
  have hempty : HasBuilt db l id leftSide J [] (st.setHashTable id leftSide BTree.init) := by
    refine ⟨hJ.setHashTable ho hid hst _ _, ∅, ?_⟩
    rw [TaskState.hashTables_setHashTable]
    exact Collects.init
  obtain ⟨build, st₁, hrun₁, ⟨hst₁, hM₁⟩, hbuild⟩ := hleft d (by omega) _ hempty
  obtain ⟨done, st₂, hrun₂, ⟨⟨M, hM₂⟩, out, hst₂, hcov⟩, hdone⟩ :=
    hright build hbuild d (by omega) st₁ ⟨hM₁, [], hst₁, Covers.nil⟩
  refine ⟨out, st₂, ?_, hst₂, hcov.all fun b hb hnot o' ho' => ?_, fun _ => hprobes.globals⟩
  · simp only [hproduce, hrun₁, hrun₂, hM₂.release, Option.bind_eq_bind, Option.bind_some]
  · exact hprobes.right_none _ (hdone.row_or_eq_none hb hnot ho')

/-- The code of a join, when it looks for something. -/
lemma probes_join (hl : l.Plain) (hr : r.Plain) (hcols : (l.columns ++ r.columns).length ≤ maxOperatorNumColumns)
    (hroot : nodes[id]? = some ⟨.binary .join left right, p, cols⟩) (hne : right ≠ left) :
    Probes db nodes l r (.binary .join l r) p id right where
  left_none e h := by
    rw [QueryDb.row, h]
    by_cases hboth : l.isGlobal = true ∧ r.isGlobal = true
    · rw [if_pos hboth]
    · rw [if_neg hboth]
      rfl
  right_none e h := by
    rw [QueryDb.row, h]
    by_cases hboth : l.isGlobal = true ∧ r.isGlobal = true
    · rw [if_pos hboth]
    · rw [if_neg hboth, Option.bind_eq_bind, Option.bind_eq_none_iff]
      exact fun a _ => rfl
  globals := rfl
  missed d bc st hget := by
    rw [Exec.consume, hroot]
    simp only [Option.bind_eq_bind, Option.bind_some, if_neg hne, hget]
  found k₁ k₂ build source hc₁ hc₂ hkey := by
    obtain ⟨copy, hcopy, hc₁'⟩ := hc₁.copy hl.length_columns_le
    obtain ⟨bc, happend, hands⟩ := hc₁'.join hl hr hcols hc₂ hkey
    refine ⟨bc, k₁.or k₂, hands, ?_, fun b hb => ?_, fun d st hget => ?_⟩
    · cases k₁ with
      | none => rfl
      | some b => exact hkey
    · exact (Option.or_eq_some_iff.mp hb).imp_right And.right
    · rw [Exec.consume, hroot]
      simp only [Option.bind_eq_bind, Option.bind_some, if_neg hne, hget, hcopy, happend]

/-- The code of a left filter join, when it looks for something. -/
lemma probes_leftFilterJoin (hl : l.Plain) (hr : r.Plain)
    (hroot : nodes[id]? = some ⟨.binary .leftFilterJoin left right, p, cols⟩) (hne : right ≠ left) :
    Probes db nodes l r (.binary .leftFilterJoin l r) p id right where
  left_none e h := by rw [QueryDb.row, (Option.or_eq_none_iff.mp h).1, Option.filter_none]
  right_none e h := by
    rw [QueryDb.row, (Option.or_eq_none_iff.mp h).1]
    cases db.row l e <;> rfl
  globals := rfl
  missed d bc st hget := by
    rw [Exec.consume, hroot]
    simp only [Option.bind_eq_bind, Option.bind_some, if_neg hne, hget]
  found k₁ k₂ build source hc₁ hc₂ hkey := by
    obtain ⟨copy, hcopy, hc₁'⟩ := hc₁.copy hl.length_columns_le
    obtain ⟨bc, hfilter, hands⟩ := hc₁'.leftFilterJoin hr hc₂ hkey
    refine ⟨bc, k₁, hands, hkey, fun b hb => .inl hb, fun d st hget => ?_⟩
    rw [Exec.consume, hroot]
    simp only [Option.bind_eq_bind, Option.bind_some, if_neg hne, hget, hcopy, hfilter]

end Joins

/-! ### Cross joins -/

section CrossJoin

variable {db : QueryDb} {nodes : List Operator} {thread : Thread} {l r t : PlanTree} {p id left right o lim D D' : ℕ}
  {cols : List FccColumn} {J : List (Option ℕ) → TaskState → Prop} {out out' : List (Option ℕ)}
  {L L' : List (Option ℕ × BCluster)}

/-- The clusters of a hash table, with their blocks. -/
structure Entries (db : QueryDb) (t : PlanTree) (out : List (Option ℕ)) (L : List (Option ℕ × BCluster)) : Prop where
  carries : ∀ e ∈ L, e.2.Carries db t e.1
  mem : ∀ k, k ∈ L.map Prod.fst ↔ k ∈ out
  nodup : ((L.map Prod.fst).map blockKey).Nodup

/-- **The clusters of a hash table.** -/
lemma Collects.exists_entries {st : TaskState} {side : Bool} {M : KeyMap BCluster}
    (h : Collects db t out (st.hashTables id side) M) (hnodup : (out.map blockKey).Nodup) :
    ∃ L, Entries db t out L ∧ st.clusters id side = some (L.map Prod.snd) := by
  obtain ⟨l, hl, hclusters⟩ := h.clusters
  have hlookup : ∀ e ∈ l, M.lookup e.1 = some e.2 := fun e he => (hl.mem e.1 e.2).mp he
  choose! f hf using fun (e : ℕ × BCluster) (he : e ∈ l) => h.carries e.1 e.2 (hlookup e he)
  have hkeys : ((l.map fun e => (f e, e.2)).map Prod.fst).map blockKey = l.map Prod.fst := by
    rw [List.map_map, List.map_map]
    exact List.map_congr_left fun e he => (hf e he).2.1
  refine ⟨l.map fun e => (f e, e.2), ⟨?_, fun k => ⟨fun hk => ?_, fun hk => ?_⟩, ?_⟩, ?_⟩
  · intro e he
    obtain ⟨e', he', rfl⟩ := List.mem_map.mp he
    exact (hf e' he').2.2
  · rw [List.map_map] at hk
    obtain ⟨e, he, rfl⟩ := List.mem_map.mp hk
    exact (hf e he).1
  · obtain ⟨bc, hbc⟩ := Finmap.mem_iff.mp ((h.mem _).mpr (List.mem_map_of_mem hk))
    have he := (hl.mem (blockKey k) bc).mpr hbc
    obtain ⟨hmem, hkey, -⟩ := hf _ he
    rw [List.map_map]
    exact List.mem_map.mpr ⟨_, he, List.inj_on_of_nodup_map hnodup hmem hk hkey⟩
  · rw [hkeys]
    exact hl.sorted.map Prod.fst fun _ _ hlt => hlt.ne
  · rw [hclusters, List.map_map]
    rfl

/-- There is one cluster of globals at most. -/
lemma Entries.of_isGlobal (h : Entries db t out L) (hglobal : t.isGlobal = true) :
    L = [] ∨ ∃ bc, L = [(none, bc)] := by
  have hnone : ∀ e ∈ L, e.1 = none := fun e he => by
    rw [← Option.isNone_iff_eq_none, ← (h.carries e he).kind, hglobal]
  cases L with
  | nil => exact .inl rfl
  | cons e L =>
      cases L with
      | nil => exact .inr ⟨e.2, by rw [← hnone e List.mem_cons_self]⟩
      | cons e' L =>
          have hnodup := h.nodup
          simp [hnone e (by simp), hnone e' (by simp)] at hnodup

/-- The blocks of a cross join. -/
def crossKeys (L L' : List (Option ℕ × BCluster)) : List (Option ℕ) := L.flatMap fun e => L'.map fun e' => e.1.or e'.1

lemma crossKeys_nodup (h : Entries db l out L) (h' : Entries db r out' L')
    (hglobal : l.isGlobal = true ∨ r.isGlobal = true) : ((crossKeys L L').map blockKey).Nodup := by
  rcases hglobal with hglobal | hglobal
  · rcases h.of_isGlobal hglobal with rfl | ⟨bc, rfl⟩
    · exact List.nodup_nil
    · have heq : crossKeys [(none, bc)] L' = L'.map Prod.fst := by
        rw [crossKeys, List.flatMap_singleton]
        exact List.map_congr_left fun e' _ => Option.none_or
      rw [heq]
      exact h'.nodup
  · rcases h'.of_isGlobal hglobal with rfl | ⟨bc, rfl⟩
    · have heq : crossKeys L [] = [] := List.flatMap_eq_nil_iff.mpr fun _ _ => rfl
      rw [heq]
      exact List.nodup_nil
    · have heq : crossKeys L [(none, bc)] = L.map Prod.fst := by
        rw [crossKeys, List.map_eq_flatMap]
        exact List.flatMap_congr fun e _ => by rw [List.map_singleton, Option.or_none]
      rw [heq]
      exact h.nodup

lemma mem_crossKeys (h : Entries db l out L) (h' : Entries db r out' L') (k : Option ℕ) :
    k ∈ crossKeys L L' ↔ ∃ k₁ ∈ out, ∃ k₂ ∈ out', k₁.or k₂ = k := by
  simp only [crossKeys, List.mem_flatMap, List.mem_map]
  constructor
  · rintro ⟨e, he, e', he', rfl⟩
    exact ⟨e.1, (h.mem _).mp (List.mem_map_of_mem he), e'.1, (h'.mem _).mp (List.mem_map_of_mem he'), rfl⟩
  · rintro ⟨k₁, hk₁, k₂, hk₂, rfl⟩
    obtain ⟨e, he, rfl⟩ := List.mem_map.mp ((h.mem _).mpr hk₁)
    obtain ⟨e', he', rfl⟩ := List.mem_map.mp ((h'.mem _).mpr hk₂)
    exact ⟨e, he, e', he', rfl⟩

/-- A plan without a cluster for a block, nor one of globals, has nothing there. -/
lemma Streams.or_globalRow (h : Streams db t thread out) {b o' : ℕ} (hb : thread.Takes b) (ho : o' < tableBlockSize)
    (hnot : some b ∉ out) (hglobal : none ∉ out) :
    (db.row t (b * tableBlockSize + o')).or (db.globalRow t) = none := by
  rw [h.covers.rows b hb trivial hnot o' ho, h.globals hglobal]
  rfl

/-- **What a cross join hands on.** -/
lemma streams_crossJoin (hplain : PlanTree.Plain (.binary .crossJoin l r)) (h : Entries db l out L)
    (h' : Entries db r out' L') (hout : Streams db l thread out) (hout' : Streams db r thread out') :
    Streams db (.binary .crossJoin l r) thread (crossKeys L L') := by
  have hkind : PlanTree.isGlobal (.binary .crossJoin l r) = (l.isGlobal && r.isGlobal) := by
    rw [PlanTree.isGlobal, PlanTree.columns_crossJoin, PlanTree.isGlobal_append]
  have hmem := mem_crossKeys h h'
  refine ⟨⟨crossKeys_nodup h h' hplain.2.2.2, fun b hb => ?_, fun k hk => ?_, fun b hb => ?_, fun _ _ => trivial,
    fun b hb _ hnot o' ho => ?_⟩, fun hnot => ?_⟩
  · obtain ⟨k₁, hk₁, k₂, hk₂, hor⟩ := (hmem _).mp hb
    rcases Option.or_eq_some_iff.mp hor with rfl | ⟨-, rfl⟩
    · exact hout.covers.lt b hk₁
    · exact hout'.covers.lt b hk₂
  · obtain ⟨k₁, hk₁, k₂, hk₂, rfl⟩ := (hmem _).mp hk
    rw [hkind, hout.covers.kind k₁ hk₁, hout'.covers.kind k₂ hk₂]
    cases k₁ <;> cases k₂ <;> rfl
  · obtain ⟨k₁, hk₁, k₂, hk₂, hor⟩ := (hmem _).mp hb
    rcases Option.or_eq_some_iff.mp hor with rfl | ⟨-, rfl⟩
    · exact hout.covers.taken b hk₁
    · exact hout'.covers.taken b hk₂
  · rw [QueryDb.row]
    by_cases hk₁ : some b ∉ out ∧ none ∉ out
    · rw [hout.or_globalRow hb ho hk₁.1 hk₁.2]
      rfl
    · by_cases hk₂ : some b ∉ out' ∧ none ∉ out'
      · rw [hout'.or_globalRow hb ho hk₂.1 hk₂.2, Option.bind_eq_bind, Option.bind_eq_none_iff]
        exact fun _ _ => rfl
      · -- both have globals only, or there is a cluster for the block
        have hboth : none ∈ out ∧ none ∈ out' := by
          by_contra hboth
          refine hnot ((hmem _).mpr ?_)
          by_cases hsome : some b ∈ out
          · obtain ⟨k₂, hk₂⟩ : ∃ k₂, k₂ ∈ out' := by
              by_contra hnone
              push Not at hnone
              exact hk₂ ⟨hnone _, hnone _⟩
            exact ⟨some b, hsome, k₂, hk₂, rfl⟩
          · have hnone : none ∈ out := by
              by_contra hnone
              exact hk₁ ⟨hsome, hnone⟩
            refine ⟨none, hnone, some b, ?_, rfl⟩
            by_contra hsome'
            exact hk₂ ⟨hsome', fun hnone' => hboth ⟨hnone, hnone'⟩⟩
        have hglobal : l.isGlobal = true ∧ r.isGlobal = true :=
          ⟨hout.covers.kind _ hboth.1, hout'.covers.kind _ hboth.2⟩
        simp only [if_pos hglobal]
        cases (db.row l (b * tableBlockSize + o')).or (db.globalRow l) <;>
          cases (db.row r (b * tableBlockSize + o')).or (db.globalRow r) <;> rfl
  · rw [QueryDb.globalRow]
    by_cases hk₁ : none ∈ out
    · by_cases hk₂ : none ∈ out'
      · exact absurd ((hmem _).mpr ⟨none, hk₁, none, hk₂, rfl⟩) hnot
      · rw [hout'.globals hk₂, Option.bind_eq_bind, Option.bind_eq_none_iff]
        exact fun _ _ => rfl
    · rw [hout.globals hk₁]
      rfl

/-- The right side of a cross join, while the left one is kept. -/
def HasLeft (db : QueryDb) (l : PlanTree) (build : List (Option ℕ)) (id : ℕ) (J : List (Option ℕ) → TaskState → Prop)
    (done : List (Option ℕ)) (st : TaskState) : Prop :=
  J done st ∧ ∃ M, Collects db l build (st.hashTables id leftSide) M

lemma HasLeft.setHashTable {build : List (Option ℕ)} (hJ : Blind o lim J) (ho : o ≤ id) (hid : id < lim)
    {done : List (Option ℕ)} {st : TaskState} (h : HasLeft db l build id J done st) (hashTable : BTree BCluster) :
    HasLeft db l build id J done (st.setHashTable id rightSide hashTable) := by
  refine ⟨hJ.setHashTable ho hid h.1 _ _, ?_⟩
  rw [TaskState.hashTables_of_side (by decide)]
  exact h.2

lemma Blind.hasLeft (h : Blind o lim J) {o' lim' : ℕ} (ho : o ≤ o') (hlim : lim' ≤ lim) (hid : lim' ≤ id)
    {build : List (Option ℕ)} : Blind o' lim' (HasLeft db l build id J) := by
  intro out st st' ⟨hJ, M, hM⟩ htables hcalls
  refine ⟨(h.mono ho hlim) _ _ _ hJ htables hcalls, M, ?_⟩
  rw [htables id (.inr hid)]
  exact hM

/-- **The loops of a cross join.** -/
lemma crossJoin_loop (hplain : PlanTree.Plain (.binary .crossJoin l r)) (hid : id < lim)
    (h : Consumes db nodes thread (.binary .crossJoin l r) p id D lim J) (hL : Entries db l out L)
    (hL' : Entries db r out' L') (hout : Streams db l thread out) (hout' : Streams db r thread out') {st : TaskState}
    (hst : J [] st) (hclusters : st.clusters id rightSide = some (L'.map Prod.snd)) {d : ℕ} (hd : D ≤ d) :
    ∃ st', (L.map Prod.snd).foldlM (fun st left => do
        let rights ← st.clusters id rightSide
        rights.foldlM (fun st right => do
          let cluster ← BCluster.init.appendCluster left
          let cluster ← cluster.appendCluster right
          Exec.consume db nodes d p cluster id st) st) st = some st'
      ∧ J (crossKeys L L') st' ∧ ∀ i < lim, st'.hashTables i = st.hashTables i := by
  have hnodup := crossKeys_nodup hL hL' hplain.2.2.2
  have htaken := (streams_crossJoin hplain hL hL' hout hout').covers.taken
  rw [List.foldlM_map]
  refine foldlM_spec (fun done st' => J (crossKeys done L') st' ∧ ∀ i < lim, st'.hashTables i = st.hashTables i) L
    ⟨hst, fun _ _ => rfl⟩ fun done e rest st₁ hdone ⟨hst₁, htables₁⟩ => ?_
  have he : e ∈ L := hdone ▸ List.mem_append_right _ List.mem_cons_self
  obtain ⟨copy, hcopy, hc⟩ := (hL.carries e he).copy hplain.1.length_columns_le
  have hclusters₁ : st₁.clusters id rightSide = some (L'.map Prod.snd) := by
    rw [← hclusters, TaskState.clusters, TaskState.clusters, htables₁ id hid]
  rw [hclusters₁, Option.bind_eq_bind, Option.bind_some, List.foldlM_map]
  have hkeys : crossKeys (done ++ [e]) L' = crossKeys done L' ++ L'.map fun e' => e.1.or e'.1 := by
    rw [crossKeys, List.flatMap_append, List.flatMap_singleton, ← crossKeys]
  rw [hkeys]
  refine foldlM_spec (fun done' st' => J (crossKeys done L' ++ done'.map fun e' => e.1.or e'.1) st'
    ∧ ∀ i < lim, st'.hashTables i = st.hashTables i) L'
    ⟨by rw [List.map_nil, List.append_nil]; exact hst₁, htables₁⟩ fun done' e' rest' st₂ hdone' ⟨hst₂, htables₂⟩ => ?_
  have he' : e' ∈ L' := hdone' ▸ List.mem_append_right _ List.mem_cons_self
  obtain ⟨bc, happend, hbc⟩ := hc.crossJoin hplain.1 hplain.2.1 hplain.2.2.1 (hL'.carries e' he') hplain.2.2.2
  -- every block is handed on once
  have hsplit : crossKeys L L' = (crossKeys done L' ++ done'.map fun e' => e.1.or e'.1)
      ++ e.1.or e'.1 :: ((rest'.map fun e' => e.1.or e'.1) ++ crossKeys rest L') := by
    rw [hdone, crossKeys, List.flatMap_append, List.flatMap_cons, ← crossKeys, ← crossKeys]
    conv_lhs => rw [hdone', List.map_append, List.map_cons, ← hdone']
    simp only [List.append_assoc, List.cons_append]
  rw [hsplit, List.map_append, List.map_cons] at hnodup
  have hnew : blockKey (e.1.or e'.1) ∉ (crossKeys done L' ++ done'.map fun e' => e.1.or e'.1).map blockKey :=
    fun hmem => (List.nodup_append.mp hnodup).2.2 _ hmem _ List.mem_cons_self rfl
  obtain ⟨st₃, hconsume, hst₃, htables₃⟩ := h d hd _ _ bc st₂ hst₂ hbc hnew fun b hb =>
    htaken b (by rw [hsplit, ← hb]; exact List.mem_append_right _ List.mem_cons_self)
  refine ⟨st₃, ?_, ?_, fun i hi => by rw [htables₃ i hi, htables₂ i hi]⟩
  · simp only [hcopy, happend, Option.bind_eq_bind, Option.bind_some, hconsume]
  · rw [List.map_append, List.map_singleton, ← List.append_assoc]
    exact hst₃

/-- **The code of a cross join.** -/
theorem produces_crossJoin (hplain : PlanTree.Plain (.binary .crossJoin l r))
    (hroot : nodes[id]? = some ⟨.binary .crossJoin left right, p, cols⟩) (hJ : Blind o lim J) (ho : o ≤ id)
    (hid : id < lim) (h : Consumes db nodes thread (.binary .crossJoin l r) p id D lim J) (hD : D ≤ D')
    (hleft : Produces db nodes thread l left D' (HasBuilt db l id leftSide J))
    (hright : ∀ build, Produces db nodes thread r right D' (HasBuilt db r id rightSide (HasLeft db l build id J))) :
    Produces db nodes thread (.binary .crossJoin l r) id (D' + 1) J := by
  intro d hd st hst
  obtain ⟨d, rfl⟩ : ∃ d', d = d' + 1 := ⟨d - 1, by omega⟩
  have hempty : HasBuilt db l id leftSide J [] (st.setHashTable id leftSide BTree.init) := by
    refine ⟨hJ.setHashTable ho hid hst _ _, ∅, ?_⟩
    rw [TaskState.hashTables_setHashTable]
    exact Collects.init
  obtain ⟨out, st₁, hrun₁, hst₁, hout⟩ := hleft d (by omega) _ hempty
  have hempty' : HasBuilt db r id rightSide (HasLeft db l out id J) [] (st₁.setHashTable id rightSide BTree.init) := by
    refine ⟨HasLeft.setHashTable hJ ho hid hst₁ _, ∅, ?_⟩
    rw [TaskState.hashTables_setHashTable]
    exact Collects.init
  obtain ⟨out', st₂, hrun₂, ⟨⟨hst₂, M, hM⟩, M', hM'⟩, hout'⟩ := hright out d (by omega) _ hempty'
  obtain ⟨L, hL, hclusters⟩ := hM.exists_entries hout.covers.nodup
  obtain ⟨L', hL', hclusters'⟩ := hM'.exists_entries hout'.covers.nodup
  obtain ⟨st₃, hloop, hst₃, htables⟩ := crossJoin_loop hplain hid h hL hL' hout hout' hst₂ hclusters'
    (show D ≤ d by omega)
  have hrelease : st₃.release id leftSide = some st₃ ∧ st₃.release id rightSide = some st₃ := by
    rw [← htables id hid] at hM hM'
    exact ⟨hM.release, hM'.release⟩
  refine ⟨crossKeys L L', st₃, ?_, hst₃, streams_crossJoin hplain hL hL' hout hout'⟩
  rw [Exec.produce, hroot]
  simp only [Option.bind_eq_bind, Option.bind_some, hrun₁, hrun₂, hclusters]
  simp only [Option.bind_eq_bind] at hloop
  rw [hloop, Option.bind_some, hrelease.1, Option.bind_some, hrelease.2]

end CrossJoin

/-! ### The code of a plan -/

section Plan

variable {db : QueryDb} {nodes : List Operator} {thread : Thread}

lemma Produces.mono {t : PlanTree} {id D D' : ℕ} {J : List (Option ℕ) → TaskState → Prop}
    (h : Produces db nodes thread t id D J) (hD : D ≤ D') : Produces db nodes thread t id D' J :=
  fun d hd => h d (hD.trans hd)

/-- A plan that keeps what comes from its left side. -/
lemma consumes_left {t : PlanTree} {type : BinaryType} {p id left right o lim D : ℕ} {cols : List FccColumn}
    {J : List (Option ℕ) → TaskState → Prop} (ht : t.Plain)
    (htype : type = .join ∨ type = .leftFilterJoin ∨ type = .crossJoin)
    (hroot : nodes[id]? = some ⟨.binary type left right, p, cols⟩) (hJ : Blind o lim J) (ho : o ≤ id) (hid : id < lim) :
    Consumes db nodes thread t id left (D + 1) id (HasBuilt db t id leftSide J) := by
  refine consumes_build ht (fun st hashTable hst => hJ.setHashTable ho hid hst _ _) fun d bc st => ?_
  rw [Exec.consume, hroot]
  rcases htype with rfl | rfl | rfl <;> simp only [Option.bind_eq_bind, Option.bind_some, if_true]

/-- **The code of a plan** hands on the blocks in which the plan has rows. -/
theorem produce_spec (hdb : db.Sound) (hthread : thread.Valid) {t : PlanTree} (ht : t.Plain) {o p D lim : ℕ}
    {J : List (Option ℕ) → TaskState → Prop} (hlaid : LaidOut upColumns joinColumns nodes t o p)
    (hJ : Blind o lim J) (hlim : o + t.size ≤ lim)
    (h : Consumes db nodes thread t p (o + t.size - 1) D lim J) :
    Produces db nodes thread t (o + t.size - 1) (D + 2 * t.size) J := by
  induction t generalizing o p D lim J with
  | leaf type cols =>
      have hroot := hlaid.leaf
      cases type with
      | scan =>
          obtain ⟨col, rfl, hcol⟩ := ht
          exact (produces_scan hdb hthread hcol hroot h).mono (Nat.le_succ _)
      | fetch =>
          obtain ⟨col, rfl, hcol⟩ := ht
          exact (produces_fetch hcol hroot h).mono (Nat.le_succ _)
  | unary type t ih =>
      obtain ⟨hroot, hchild⟩ := hlaid.unary
      have hid : o + (OpTree.unary type t).size - 1 = o + t.size := by rw [OpTree.size]; omega
      have hsize : D + 1 + 2 * t.size + 1 = D + 2 * (OpTree.unary type t).size := by rw [OpTree.size]; omega
      rw [OpTree.size] at hlim
      rw [hid] at h
      rw [hid, ← hsize]
      cases type with
      | tagFilter tag opType onColumn =>
          refine produces_filter (fun d st => by rw [Exec.produce, hroot]; rfl)
            (ih ht.1 hchild hJ.passed (by omega) (consumes_tagFilter hdb hroot ht h))
      | predicateFilter funcDecl =>
          refine produces_filter (fun d st => by rw [Exec.produce, hroot]; rfl)
            (ih ht.1 hchild hJ.passed (by omega) (consumes_predicateFilter hroot ht h))
      | componentFilter filterType opType onColumn => exact ht.elim
      | foreach system => exact ht.elim
  | binary type l r ihl ihr =>
      obtain ⟨hroot, hlaidl, hlaidr⟩ := hlaid.binary
      have hid : o + (OpTree.binary type l r).size - 1 = o + l.size + r.size := by rw [OpTree.size]; omega
      have hsize : D + 1 + 2 * (l.size + r.size) + 1 = D + 2 * (OpTree.binary type l r).size := by
        rw [OpTree.size]
        omega
      have hposl := l.size_pos
      have hposr := r.size_pos
      have hne : o + l.size + r.size - 1 ≠ o + l.size - 1 := by omega
      rw [OpTree.size] at hlim
      rw [hid] at h
      rw [hid, ← hsize]
      have hleft (hl : PlanTree.Plain l) (htype : type = .join ∨ type = .leftFilterJoin ∨ type = .crossJoin) :=
        ihl hl hlaidl (hJ.hasBuilt (by omega) (le_refl (o + l.size + r.size))) (by omega)
          (consumes_left (D := D) hl htype hroot hJ (by omega) (by omega))
      cases type with
      | join =>
          have hplain := ht
          obtain ⟨hl, hr, hcols⟩ := hplain
          have hprobes : Probes db nodes l r (.binary .join l r) p (o + l.size + r.size) (o + l.size + r.size - 1) :=
            probes_join hl hr hcols hroot hne
          refine produces_join hprobes hJ (by omega) (by omega) (fun d st => by rw [Exec.produce, hroot]; rfl)
            ((hleft hl (.inl rfl)).mono (by omega)) fun build hbuild => ?_
          exact (ihr hr hlaidr (hJ.hasProbed (by omega) (by omega) le_rfl) (by omega)
            (consumes_probe ht hprobes (by omega) h hbuild)).mono (by omega)
      | leftFilterJoin =>
          have hplain := ht
          obtain ⟨hl, hr⟩ := hplain
          have hprobes : Probes db nodes l r (.binary .leftFilterJoin l r) p (o + l.size + r.size)
              (o + l.size + r.size - 1) := probes_leftFilterJoin hl hr hroot hne
          refine produces_join hprobes hJ (by omega) (by omega) (fun d st => by rw [Exec.produce, hroot]; rfl)
            ((hleft hl (.inr (.inl rfl))).mono (by omega)) fun build hbuild => ?_
          exact (ihr hr hlaidr (hJ.hasProbed (by omega) (by omega) le_rfl) (by omega)
            (consumes_probe ht hprobes (by omega) h hbuild)).mono (by omega)
      | crossJoin =>
          have hr := ht.2.1
          refine produces_crossJoin ht hroot hJ (by omega) (by omega) h (by omega)
            ((hleft ht.1 (.inr (.inr rfl))).mono (by omega)) fun build => ?_
          have hbuild : Consumes db nodes thread r (o + l.size + r.size) (o + l.size + r.size - 1) (D + 1)
              (o + l.size + r.size) (HasBuilt db r (o + l.size + r.size) rightSide
                (HasLeft db l build (o + l.size + r.size) J)) := by
            refine consumes_build hr (fun st hashTable hst => HasLeft.setHashTable hJ (by omega) (by omega) hst _)
              fun d bc st => ?_
            rw [Exec.consume, hroot]
            simp only [Option.bind_eq_bind, Option.bind_some, if_neg hne]
          have hblind : Blind (o + l.size) (o + l.size + r.size) (HasBuilt db r (o + l.size + r.size) rightSide
              (HasLeft db l build (o + l.size + r.size) J)) :=
            Blind.hasBuilt (hJ.hasLeft (by omega) (by omega) le_rfl) le_rfl le_rfl
          exact (ihr hr hlaidr hblind (by omega) hbuild).mono (by omega)
      | gather => exact ht.elim
      | cascadingGather => exact ht.elim

end Plan

end Furious
