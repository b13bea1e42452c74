import Furious.Data.Blocks

/-!
Block clusters.

A block cluster joins blocks with one start, and globals, as the columns of rows. Appending keeps
the intersection of the enabled bitmaps of its blocks.

* `BCluster`, with `BCluster.appendBlock`, `BCluster.appendGlobal` and `BCluster.appendCluster`:
  `fdb_bcluster_append_block` and its like; a failing assertion is a fault;
* `Column`: what has been appended;
* `BClusterRun`: the clusters that appends build, and `BCluster.Joins`: what they have to be;
* `bcluster_joins`: **they are, whatever the order and grouping of the appends**.
-/

namespace Furious

/-- `FDB_MAX_CLUSTER_SIZE`. -/
abbrev maxClusterSize : ℕ := 16

/-- `fdb_bcluster_t`. -/
structure BCluster where
  numColumns : ℕ
  enabled : Bitmap
  global : Bitmap
  start : ℕ
  blocks : List (Option ℕ)

namespace BCluster

/-- `fdb_bcluster_init`. -/
def init : BCluster where
  numColumns := 0
  enabled := Bitmap.init tableBlockSize
  global := Bitmap.init maxClusterSize
  start := invalidBlockStart
  blocks := List.replicate maxClusterSize none

/-- `fdb_bcluster_append_block`, of the block that `ptr` points to. -/
def appendBlock (bc : BCluster) (ptr : ℕ) (block : TableBlock) : Option BCluster :=
  if bc.numColumns < maxClusterSize ∧ (bc.start = invalidBlockStart ∨ bc.start = block.start) then do
    let bc ← if bc.start = invalidBlockStart then do
        let enabled ← bc.enabled.setBitmap block.enabled
        some { bc with start := block.start, enabled := enabled }
      else some bc
    let enabled ← bc.enabled.setAnd block.enabled
    some { bc with
      blocks := bc.blocks.set bc.numColumns (some ptr)
      numColumns := bc.numColumns + 1
      enabled := enabled }
  else none

/-- `fdb_bcluster_append_global`. -/
def appendGlobal (bc : BCluster) (ptr : ℕ) : Option BCluster := do
  let global ← bc.global.set bc.numColumns
  some { bc with
    global := global
    blocks := bc.blocks.set bc.numColumns (some ptr)
    numColumns := bc.numColumns + 1 }

/-- The body of the loop of `fdb_bcluster_append_cluster`. -/
def appendColumn (bc other : BCluster) (i : ℕ) : Option BCluster :=
  if bc.numColumns < maxClusterSize then do
    let block ← other.blocks[i]?
    let isGlobal ← other.global.isSet i
    let global ← if isGlobal = true then bc.global.set bc.numColumns else some bc.global
    some { bc with
      blocks := bc.blocks.set bc.numColumns block
      global := global
      numColumns := bc.numColumns + 1 }
  else none

/-- The first part of `fdb_bcluster_append_cluster`: the rows that stay enabled. -/
def joinRows (bc other : BCluster) : Option BCluster :=
  if other.start ≠ invalidBlockStart then do
    let enabled ← if bc.start = invalidBlockStart then bc.enabled.setBitmap other.enabled
      else bc.enabled.setAnd other.enabled
    some { bc with enabled := enabled, start := other.start }
  else some bc

/-- `fdb_bcluster_append_cluster`. -/
def appendCluster (bc other : BCluster) : Option BCluster :=
  if bc.start = other.start ∨ bc.start = invalidBlockStart ∨ other.start = invalidBlockStart then do
    let bc ← bc.joinRows other
    (List.range other.numColumns).foldlM (fun bc i => bc.appendColumn other i) bc
  else none

/-- `fdb_bcluster_filter`. -/
def filter (bc other : BCluster) : Option BCluster := do
  let enabled ← bc.enabled.setAnd other.enabled
  some { bc with enabled := enabled }

/-- `fdb_bcluster_get_global`. -/
def getGlobal (bc : BCluster) (index : ℕ) : Option (Option ℕ) := do
  let isGlobal ← bc.global.isSet index
  if isGlobal = true then bc.blocks[index]? else none

end BCluster

/-! ### Columns -/

/-- What is appended: a block, or a global. -/
inductive Column where
  | block (ptr : ℕ) (block : TableBlock)
  | global (ptr : ℕ)

namespace Column

/-- The pointer. -/
def ptr : Column → ℕ
  | block ptr _ => ptr
  | global ptr => ptr

/-- Whether the column is a global. -/
def isGlobal : Column → Bool
  | block _ _ => false
  | global _ => true

/-- Whether the column leaves a row enabled. -/
def leaves (o : ℕ) : Column → Bool
  | block _ b => b.enabled.test o
  | global _ => true

end Column

/-- The columns are blocks of a table that start at `start`, and globals. -/
def Aligned (start : ℕ) (cols : List Column) : Prop :=
  ∀ ptr b, Column.block ptr b ∈ cols → b.start = start ∧ b.enabled.bits.length = tableBlockSize

/-- The cluster has the columns. -/
structure BCluster.HasColumns (bc : BCluster) (cols : List Column) : Prop where
  numColumns : bc.numColumns = cols.length
  blocks : bc.blocks = cols.map (some ∘ Column.ptr) ++ List.replicate (maxClusterSize - cols.length) none
  global : bc.global.bits
    = cols.map Column.isGlobal ++ List.replicate (maxClusterSize - cols.length) false

/-- The cluster joins the columns: the rows that are enabled in all of its blocks. -/
structure BCluster.Joins (start : ℕ) (bc : BCluster) (cols : List Column) : Prop where
  columns : bc.HasColumns cols
  length : bc.enabled.bits.length = tableBlockSize
  start : bc.start = if cols.all Column.isGlobal then invalidBlockStart else start
  enabled : cols.all Column.isGlobal = false → ∀ o, bc.enabled.test o = cols.all (Column.leaves o)

/-- The clusters that appends of columns build. -/
inductive BClusterRun (start : ℕ) : BCluster → List Column → Prop
  | init : BClusterRun start BCluster.init []
  | appendBlock {bc bc' : BCluster} {cols : List Column} (h : BClusterRun start bc cols) (ptr : ℕ)
      (block : TableBlock) (aligned : Aligned start [.block ptr block]) (room : cols.length < maxClusterSize)
      (hcall : bc.appendBlock ptr block = some bc') : BClusterRun start bc' (cols ++ [.block ptr block])
  | appendGlobal {bc bc' : BCluster} {cols : List Column} (h : BClusterRun start bc cols) (ptr : ℕ)
      (room : cols.length < maxClusterSize) (hcall : bc.appendGlobal ptr = some bc') :
      BClusterRun start bc' (cols ++ [.global ptr])
  | appendCluster {bc bc' other : BCluster} {cols cols' : List Column} (h : BClusterRun start bc cols)
      (h' : BClusterRun start other cols') (room : cols.length + cols'.length ≤ maxClusterSize)
      (hcall : bc.appendCluster other = some bc') : BClusterRun start bc' (cols ++ cols')

/-! ### Appending -/

/-- A new element in front of what is still free. -/
lemma set_free {T : Type} (xs : List T) {n : ℕ} (h : xs.length < n) (d v : T) :
    (xs ++ List.replicate (n - xs.length) d).set xs.length v
      = (xs ++ [v]) ++ List.replicate (n - (xs ++ [v]).length) d := by
  obtain ⟨k, hk⟩ : ∃ k, n - xs.length = k + 1 := ⟨n - xs.length - 1, by omega⟩
  have hk' : n - (xs ++ [v]).length = k := by
    rw [List.length_append, List.length_singleton]
    omega
  rw [hk, hk', List.set_append_right _ _ le_rfl, Nat.sub_self, List.replicate_succ, List.set_cons_zero,
    List.append_assoc, List.singleton_append]

/-- Globals enable every row. -/
lemma all_leaves {cols : List Column} (h : cols.all Column.isGlobal = true) (o : ℕ) :
    cols.all (Column.leaves o) = true := by
  rw [List.all_eq_true] at h ⊢
  intro c hc
  cases c with
  | block ptr b => exact absurd (h _ hc) Bool.false_ne_true
  | global ptr => rfl

namespace BCluster

variable {start : ℕ} {bc bc' other : BCluster} {cols cols' : List Column}

lemma joins_init (start : ℕ) : init.Joins start [] :=
  ⟨⟨rfl, rfl, rfl⟩, Bitmap.length_init _, rfl, fun h => absurd h (by decide)⟩

/-- The arrays after one more column. -/
lemma HasColumns.snoc (h : bc.HasColumns cols) (hroom : cols.length < maxClusterSize) (c : Column)
    {global : Bitmap} (hglobal : global.bits = bc.global.bits.set cols.length c.isGlobal)
    (hnum : bc'.numColumns = bc.numColumns + 1)
    (hblocks : bc'.blocks = bc.blocks.set bc.numColumns (some c.ptr)) (hset : bc'.global = global) :
    bc'.HasColumns (cols ++ [c]) := by
  have hlen : (cols.map (some ∘ Column.ptr)).length = cols.length := List.length_map ..
  have hlen' : (cols.map Column.isGlobal).length = cols.length := List.length_map ..
  refine ⟨?_, ?_, ?_⟩
  · rw [hnum, h.numColumns, List.length_append, List.length_singleton]
  · have := set_free (cols.map (some ∘ Column.ptr)) (by rwa [hlen]) none (some c.ptr)
    rw [hlen] at this
    rw [hblocks, h.blocks, h.numColumns, this, List.map_append, List.length_append, List.length_append, hlen]
    rfl
  · have := set_free (cols.map Column.isGlobal) (by rwa [hlen']) false c.isGlobal
    rw [hlen'] at this
    rw [hset, hglobal, h.global, this, List.map_append, List.length_append, List.length_append, hlen']
    rfl

/-- The bit of the next column, which is not set. -/
lemma HasColumns.free (h : bc.HasColumns cols) (hroom : cols.length < maxClusterSize) :
    bc.global.bits = bc.global.bits.set cols.length false ∧ cols.length < bc.global.bits.length := by
  have hlt : cols.length < bc.global.bits.length := by
    rw [h.global, List.length_append, List.length_map, List.length_replicate]
    omega
  refine ⟨?_, hlt⟩
  have hget : bc.global.bits[cols.length] = false := by
    have : bc.global.bits[cols.length]? = some false := by
      rw [h.global, List.getElem?_append_right (by rw [List.length_map]), List.length_map, Nat.sub_self,
        List.getElem?_replicate, if_pos (by omega)]
    rw [List.getElem?_eq_getElem hlt] at this
    exact Option.some.inj this
  rw [← hget, List.set_getElem_self]

/-- A column, in the arrays. -/
lemma HasColumns.get (h : bc.HasColumns cols) {i : ℕ} {c : Column} (hi : cols[i]? = some c) :
    bc.blocks[i]? = some (some c.ptr) ∧ bc.global.isSet i = some c.isGlobal := by
  obtain ⟨hlt, rfl⟩ := List.getElem?_eq_some_iff.mp hi
  constructor
  · rw [h.blocks, List.getElem?_append_left (by rwa [List.length_map]), List.getElem?_map, hi]
    rfl
  · rw [Bitmap.isSet, h.global, List.getElem?_append_left (by rwa [List.length_map]), List.getElem?_map, hi]
    rfl

/-- **A block.** -/
theorem Joins.appendBlock (h : bc.Joins start cols) (hstart : start ≠ invalidBlockStart) {ptr : ℕ}
    {block : TableBlock} (haligned : Aligned start [.block ptr block])
    (hroom : cols.length < maxClusterSize) :
    ∃ bc', bc.appendBlock ptr block = some bc' ∧ bc'.Joins start (cols ++ [.block ptr block]) := by
  obtain ⟨hb, hlen⟩ := haligned ptr block (List.mem_singleton_self _)
  have hnum : bc.numColumns < maxClusterSize := by rw [h.columns.numColumns]; exact hroom
  have hall : (cols ++ [Column.block ptr block]).all Column.isGlobal = false := by simp [Column.isGlobal]
  have hrest : ∀ o, (cols ++ [Column.block ptr block]).all (Column.leaves o)
      = (cols.all (Column.leaves o) && block.enabled.test o) := by simp [Column.leaves]
  obtain ⟨hfree, -⟩ := h.columns.free hroom
  cases hg : cols.all Column.isGlobal with
  | true =>
      have hs : bc.start = invalidBlockStart := by rw [h.start, hg, if_pos rfl]
      have hset : bc.enabled.setBitmap block.enabled = some block.enabled :=
        if_pos (h.length.trans hlen.symm)
      obtain ⟨enabled, hand, hlen', htest⟩ := Bitmap.combine_spec (fun d s => d && s)
        (rfl : block.enabled.bits.length = block.enabled.bits.length) rfl
      refine ⟨{ bc with
          start := block.start
          enabled := enabled
          blocks := bc.blocks.set bc.numColumns (some ptr)
          numColumns := bc.numColumns + 1 }, ?_,
        h.columns.snoc hroom (.block ptr block) hfree rfl rfl rfl, ?_, ?_, ?_⟩
      · simp only [BCluster.appendBlock, if_pos (And.intro hnum (Or.inl hs)), if_pos hs, hset, Bitmap.setAnd,
          hand, Option.bind_eq_bind, Option.bind_some]
      · exact hlen'.trans hlen
      · rw [hall]
        exact hb
      · intro _ o
        rw [hrest, all_leaves hg, Bool.true_and]
        exact (htest o).trans (Bool.and_self _)
  | false =>
      have hs : bc.start = start := by rw [h.start, hg]; rfl
      have hne : bc.start ≠ invalidBlockStart := hs ▸ hstart
      obtain ⟨enabled, hand, hlen', htest⟩ := Bitmap.combine_spec (fun d s => d && s)
        (h.length.trans hlen.symm) rfl
      refine ⟨{ bc with
          enabled := enabled
          blocks := bc.blocks.set bc.numColumns (some ptr)
          numColumns := bc.numColumns + 1 }, ?_,
        h.columns.snoc hroom (.block ptr block) hfree rfl rfl rfl, ?_, ?_, ?_⟩
      · simp only [BCluster.appendBlock, if_pos (And.intro hnum (Or.inr (hs.trans hb.symm))), if_neg hne,
          Bitmap.setAnd, hand, Option.bind_eq_bind, Option.bind_some]
      · exact hlen'.trans h.length
      · rw [hall]
        exact hs
      · intro _ o
        rw [hrest, ← h.enabled hg o]
        exact htest o

/-- A global, in the bitmap. -/
lemma HasColumns.setGlobal (h : bc.HasColumns cols) (hroom : cols.length < maxClusterSize) :
    ∃ global, bc.global.set bc.numColumns = some global
      ∧ global.bits = bc.global.bits.set cols.length true := by
  obtain ⟨-, hlt⟩ := h.free hroom
  exact ⟨_, by rw [h.numColumns, Bitmap.set, Bitmap.setBit, dif_pos hlt], rfl⟩

/-- **A global.** -/
theorem Joins.appendGlobal (h : bc.Joins start cols) (ptr : ℕ) (hroom : cols.length < maxClusterSize) :
    ∃ bc', bc.appendGlobal ptr = some bc' ∧ bc'.Joins start (cols ++ [.global ptr]) := by
  obtain ⟨global, hset, hbits⟩ := h.columns.setGlobal hroom
  have hall : (cols ++ [Column.global ptr]).all Column.isGlobal = cols.all Column.isGlobal := by
    simp [Column.isGlobal]
  refine ⟨{ bc with
      global := global
      blocks := bc.blocks.set bc.numColumns (some ptr)
      numColumns := bc.numColumns + 1 }, ?_,
    h.columns.snoc hroom (.global ptr) hbits rfl rfl rfl, h.length, ?_, fun hg o => ?_⟩
  · simp only [BCluster.appendGlobal, hset, Option.bind_eq_bind, Option.bind_some]
  · rw [hall]
    exact h.start
  · rw [hall] at hg
    rw [List.all_append, ← h.enabled hg o]
    simp [Column.leaves]

/-- One column of another cluster. -/
lemma HasColumns.appendColumn (h : bc.HasColumns cols) {l r : List Column} {c : Column}
    (h' : other.HasColumns (l ++ c :: r)) (hroom : cols.length < maxClusterSize) :
    ∃ bc', bc.appendColumn other l.length = some bc' ∧ bc'.HasColumns (cols ++ [c])
      ∧ bc'.enabled = bc.enabled ∧ bc'.start = bc.start := by
  have hnum : bc.numColumns < maxClusterSize := by rw [h.numColumns]; exact hroom
  have hblock : other.blocks[l.length]? = some (some c.ptr) := by
    rw [h'.blocks]
    simp
  have hbit : other.global.isSet l.length = some c.isGlobal := by
    rw [Bitmap.isSet, h'.global]
    simp
  obtain ⟨hfree, -⟩ := h.free hroom
  cases hc : c.isGlobal with
  | true =>
      obtain ⟨global, hset, hbits⟩ := h.setGlobal hroom
      refine ⟨{ bc with
          blocks := bc.blocks.set bc.numColumns (some c.ptr)
          global := global
          numColumns := bc.numColumns + 1 }, ?_, h.snoc hroom c (hc ▸ hbits) rfl rfl rfl, rfl, rfl⟩
      simp only [BCluster.appendColumn, if_pos hnum, hblock, hbit, hc, if_true, hset, Option.bind_eq_bind,
        Option.bind_some]
  | false =>
      refine ⟨{ bc with
          blocks := bc.blocks.set bc.numColumns (some c.ptr)
          numColumns := bc.numColumns + 1 }, ?_, h.snoc hroom c (hc ▸ hfree) rfl rfl rfl, rfl, rfl⟩
      simp only [BCluster.appendColumn, if_pos hnum, hblock, hbit, hc, Bool.false_eq_true, if_false,
        Option.bind_eq_bind, Option.bind_some]

/-- The columns of another cluster, one after the other. -/
lemma HasColumns.appendColumns (h : bc.HasColumns cols) {l r : List Column}
    (h' : other.HasColumns (l ++ r)) (hroom : cols.length + r.length ≤ maxClusterSize) :
    ∃ bc', (List.range' l.length r.length).foldlM (fun bc i => bc.appendColumn other i) bc = some bc'
      ∧ bc'.HasColumns (cols ++ r) ∧ bc'.enabled = bc.enabled ∧ bc'.start = bc.start := by
  induction r generalizing bc cols l with
  | nil => exact ⟨bc, rfl, by simpa using h, rfl, rfl⟩
  | cons c r ih =>
      rw [List.length_cons] at hroom
      obtain ⟨bc₁, hcall, h₁, henabled, hstart⟩ := h.appendColumn h' (by omega)
      obtain ⟨bc', hrest, h₂, henabled', hstart'⟩ := ih h₁ (l := l ++ [c]) (by simpa using h')
        (by rw [List.length_append, List.length_singleton]; omega)
      rw [List.length_append, List.length_singleton] at hrest
      refine ⟨bc', ?_, by simpa using h₂, henabled'.trans henabled, hstart'.trans hstart⟩
      rw [List.length_cons, List.range'_succ, List.foldlM_cons, hcall]
      exact hrest

/-- The rows of two clusters. -/
lemma Joins.joinRows (h : bc.Joins start cols) (h' : other.Joins start cols')
    (hstart : start ≠ invalidBlockStart) :
    ∃ enabled s, bc.joinRows other = some { bc with enabled := enabled, start := s }
      ∧ enabled.bits.length = tableBlockSize
      ∧ s = (if (cols ++ cols').all Column.isGlobal then invalidBlockStart else start)
      ∧ ((cols ++ cols').all Column.isGlobal = false →
        ∀ o, enabled.test o = (cols ++ cols').all (Column.leaves o)) := by
  rw [List.all_append]
  cases hg' : cols'.all Column.isGlobal with
  | true =>
      have hs' : other.start = invalidBlockStart := by rw [h'.start, hg', if_pos rfl]
      refine ⟨bc.enabled, bc.start, ?_, h.length, by rw [Bool.and_true]; exact h.start, fun hg o => ?_⟩
      · rw [BCluster.joinRows, hs', if_neg (by simp)]
      · rw [Bool.and_true] at hg
        rw [h.enabled hg o, List.all_append, all_leaves hg', Bool.and_true]
  | false =>
      have hs' : other.start = start := by rw [h'.start, hg']; rfl
      have hne : other.start ≠ invalidBlockStart := hs' ▸ hstart
      cases hg : cols.all Column.isGlobal with
      | true =>
          have hs : bc.start = invalidBlockStart := by rw [h.start, hg, if_pos rfl]
          have hset : bc.enabled.setBitmap other.enabled = some other.enabled :=
            if_pos (h.length.trans h'.length.symm)
          refine ⟨other.enabled, other.start, ?_, h'.length, hs', fun _ o => ?_⟩
          · simp only [BCluster.joinRows, if_pos hne, if_pos hs, hset, Option.bind_eq_bind, Option.bind_some]
          · rw [h'.enabled hg' o, List.all_append, all_leaves hg, Bool.true_and]
      | false =>
          have hs : bc.start = start := by rw [h.start, hg]; rfl
          obtain ⟨enabled, hand, hlen, htest⟩ := Bitmap.combine_spec (fun d s => d && s)
            (h.length.trans h'.length.symm) rfl
          refine ⟨enabled, other.start, ?_, hlen.trans h.length, hs', fun _ o => ?_⟩
          · simp only [BCluster.joinRows, if_pos hne, if_neg (show bc.start ≠ invalidBlockStart from hs ▸ hstart),
              Bitmap.setAnd, hand, Option.bind_eq_bind, Option.bind_some]
          · rw [htest o, h.enabled hg o, h'.enabled hg' o, List.all_append]

/-- **A cluster.** -/
theorem Joins.appendCluster (h : bc.Joins start cols) (h' : other.Joins start cols')
    (hstart : start ≠ invalidBlockStart) (hroom : cols.length + cols'.length ≤ maxClusterSize) :
    ∃ bc', bc.appendCluster other = some bc' ∧ bc'.Joins start (cols ++ cols') := by
  obtain ⟨enabled, s, hrows, hlen, hs, htest⟩ := h.joinRows h' hstart
  obtain ⟨bc', hfold, hcols, henabled, hstart'⟩ :=
    HasColumns.appendColumns (show ({ bc with enabled := enabled, start := s } : BCluster).HasColumns cols from
      ⟨h.columns.numColumns, h.columns.blocks, h.columns.global⟩) (l := []) h'.columns hroom
  have haligned : bc.start = other.start ∨ bc.start = invalidBlockStart ∨ other.start = invalidBlockStart := by
    rw [h.start, h'.start]
    split
    · exact Or.inr (Or.inl rfl)
    · split
      · exact Or.inr (Or.inr rfl)
      · exact Or.inl rfl
  refine ⟨bc', ?_, hcols, henabled ▸ hlen, hstart'.trans hs, fun hg o => ?_⟩
  · rw [BCluster.appendCluster, if_pos haligned, hrows, h'.columns.numColumns, List.range_eq_range']
    exact hfold
  · rw [henabled]
    exact htest hg o

end BCluster

/-! ### Runs -/

/-- **The invariant of a run.** -/
theorem BClusterRun.joins {start : ℕ} (hstart : start ≠ invalidBlockStart) {bc : BCluster} {cols : List Column}
    (h : BClusterRun start bc cols) : bc.Joins start cols ∧ cols.length ≤ maxClusterSize := by
  induction h with
  | init => exact ⟨BCluster.joins_init start, Nat.zero_le _⟩
  | @appendBlock bc bc' cols h ptr block aligned room hcall ih =>
      obtain ⟨bc₁, heq, hjoins⟩ := ih.1.appendBlock hstart aligned room
      obtain rfl := Option.some.inj (heq.symm.trans hcall)
      exact ⟨hjoins, by rw [List.length_append]; exact room⟩
  | @appendGlobal bc bc' cols h ptr room hcall ih =>
      obtain ⟨bc₁, heq, hjoins⟩ := ih.1.appendGlobal ptr room
      obtain rfl := Option.some.inj (heq.symm.trans hcall)
      exact ⟨hjoins, by rw [List.length_append]; exact room⟩
  | @appendCluster bc bc' other cols cols' h h' room hcall ih ih' =>
      obtain ⟨bc₁, heq, hjoins⟩ := ih.1.appendCluster ih'.1 hstart room
      obtain rfl := Option.some.inj (heq.symm.trans hcall)
      exact ⟨hjoins, by rw [List.length_append]; exact room⟩

/-- What a cluster shows: the columns in order, the globals among them, and with a block among
them its start and the rows that all blocks enable. -/
structure Joined (start : ℕ) (bc : BCluster) (cols : List Column) : Prop where
  numColumns : bc.numColumns = cols.length
  column : ∀ (i : ℕ) (c : Column), cols[i]? = some c → bc.blocks[i]? = some (some c.ptr)
  global : ∀ i < maxClusterSize, bc.global.isSet i = some true ↔ ∃ ptr, cols[i]? = some (.global ptr)
  start : (∃ ptr b, Column.block ptr b ∈ cols) → bc.start = start
  enabled : (∃ ptr b, Column.block ptr b ∈ cols) → ∀ o < tableBlockSize, bc.enabled.isSet o = some true
    ↔ ∀ ptr b, Column.block ptr b ∈ cols → b.enabled.test o = true

/-- The next append succeeds, where there is room. -/
structure Appends (start : ℕ) (bc : BCluster) (cols : List Column) : Prop where
  block : ∀ ptr b, Aligned start [.block ptr b] → cols.length < maxClusterSize → bc.appendBlock ptr b ≠ none
  global : ∀ ptr, cols.length < maxClusterSize → bc.appendGlobal ptr ≠ none
  cluster : ∀ other cols', BClusterRun start other cols' → cols.length + cols'.length ≤ maxClusterSize →
    bc.appendCluster other ≠ none

lemma BCluster.Joins.joined {start : ℕ} {bc : BCluster} {cols : List Column} (h : bc.Joins start cols) :
    Joined start bc cols := by
  have hsome : (∃ ptr b, Column.block ptr b ∈ cols) → cols.all Column.isGlobal = false := by
    rintro ⟨ptr, b, hb⟩
    rw [Bool.eq_false_iff, Ne, List.all_eq_true]
    exact fun hall => absurd (hall _ hb) Bool.false_ne_true
  refine ⟨h.columns.numColumns, fun i c hc => ?_, fun i hi => ?_, fun hb => ?_, fun hb o ho => ?_⟩
  · have hi := (List.getElem?_eq_some_iff.mp hc).1
    rw [h.columns.blocks, List.getElem?_append_left (by rwa [List.length_map]), List.getElem?_map, hc]
    rfl
  · rw [Bitmap.isSet, h.columns.global]
    by_cases hlt : i < cols.length
    · rw [List.getElem?_append_left (by rwa [List.length_map]), List.getElem?_map,
        List.getElem?_eq_getElem hlt, Option.map_some, Option.some_inj]
      cases cols[i] with
      | block ptr b => simp [Column.isGlobal]
      | global ptr => simp [Column.isGlobal]
    · have hnone : cols[i]? = none := List.getElem?_eq_none (not_lt.mp hlt)
      rw [List.getElem?_append_right (by rw [List.length_map]; omega), List.getElem?_replicate, hnone]
      split <;> simp
  · rw [h.start, hsome hb]
    rfl
  · rw [Bitmap.isSet_eq (by rw [h.length]; exact ho), h.enabled (hsome hb) o, Option.some_inj,
      List.all_eq_true]
    constructor
    · exact fun hall ptr b hmem => hall _ hmem
    · rintro hall (⟨ptr, b⟩ | ptr) hmem
      · exact hall ptr b hmem
      · rfl

/-- **A cluster joins what has been appended**, whatever the order and grouping of the appends, and
every append for which there is room succeeds. -/
theorem bcluster_joins {start : ℕ} (hstart : start ≠ invalidBlockStart) {bc : BCluster} {cols : List Column}
    (h : BClusterRun start bc cols) : Joined start bc cols ∧ Appends start bc cols := by
  obtain ⟨hjoins, -⟩ := h.joins hstart
  refine ⟨hjoins.joined, fun ptr b ha hroom => ?_, fun ptr hroom => ?_, fun other cols' h' hroom => ?_⟩
  · obtain ⟨bc', heq, -⟩ := hjoins.appendBlock hstart ha hroom
    rw [heq]
    exact Option.some_ne_none _
  · obtain ⟨bc', heq, -⟩ := hjoins.appendGlobal ptr hroom
    rw [heq]
    exact Option.some_ne_none _
  · obtain ⟨bc', heq, -⟩ := hjoins.appendCluster (h'.joins hstart).1 hstart hroom
    rw [heq]
    exact Option.some_ne_none _

lemma aligned_block {start ptr : ℕ} {b : TableBlock} (hs : b.start = start)
    (hl : b.enabled.bits.length = tableBlockSize) : Aligned start [.block ptr b] := by
  intro p b' hmem
  obtain ⟨-, rfl⟩ := Column.block.inj (List.mem_singleton.mp hmem)
  exact ⟨hs, hl⟩

/-- A block from the id 512 on with two components. -/
def blockWith (o₁ o₂ : ℕ) : Option TableBlock := do
  let block ← (TableBlock.init ⟨0, 0⟩ 512 8).create o₁
  block.create o₂

/-- A global, a cluster of two blocks of which one enables the rows 1 and 2 and the other one 2 and 3, and another
global: row 2 is left. -/
theorem bcluster_joins_grouped : ∃ (bc : BCluster) (b c : TableBlock),
    b.enabled.test 1 = true ∧ c.enabled.test 3 = true
      ∧ Joined 512 bc [.global 1, .block 2 b, .block 3 c, .global 4]
      ∧ bc.enabled.isSet 1 ≠ some true ∧ bc.enabled.isSet 2 = some true ∧ bc.enabled.isSet 3 ≠ some true := by
  have hne : 512 ≠ invalidBlockStart := by decide
  obtain ⟨b, -, hb⟩ := Option.map_eq_some_iff.mp (show (blockWith 1 2).map (fun b =>
    (b.start, b.enabled.bits.length, [1, 2, 3].map b.enabled.test)) = some (512, 256, [true, true, false])
    by decide +kernel)
  obtain ⟨c, -, hc⟩ := Option.map_eq_some_iff.mp (show (blockWith 2 3).map (fun b =>
    (b.start, b.enabled.bits.length, [1, 2, 3].map b.enabled.test)) = some (512, 256, [false, true, true])
    by decide +kernel)
  simp only [List.map_cons, List.map_nil, Prod.mk.injEq, List.cons.injEq, and_true] at hb hc
  obtain ⟨hbs, hbl, hb₁, hb₂, hb₃⟩ := hb
  obtain ⟨hcs, hcl, hc₁, hc₂, hc₃⟩ := hc
  have hab : Aligned 512 [.block 2 b] := aligned_block hbs hbl
  have hac : Aligned 512 [.block 3 c] := aligned_block hcs hcl
  have h₀ := BCluster.joins_init 512
  obtain ⟨bc₁, heq₁, h₁⟩ := h₀.appendGlobal 1 (by simp [maxClusterSize])
  obtain ⟨bc₂, heq₂, h₂⟩ := h₀.appendBlock hne hab (by simp [maxClusterSize])
  obtain ⟨bc₃, heq₃, h₃⟩ := h₂.appendBlock hne hac (by simp [maxClusterSize])
  obtain ⟨bc₄, heq₄, h₄⟩ := h₁.appendCluster h₃ hne (by simp [maxClusterSize])
  obtain ⟨bc₅, heq₅, -⟩ := h₄.appendGlobal 4 (by simp [maxClusterSize])
  have hblocks : BClusterRun 512 bc₃ [.block 2 b, .block 3 c] :=
    (BClusterRun.init.appendBlock 2 b hab (by decide) heq₂).appendBlock 3 c hac (by simp [maxClusterSize]) heq₃
  have hrun : BClusterRun 512 bc₅ [.global 1, .block 2 b, .block 3 c, .global 4] :=
    ((BClusterRun.init.appendGlobal 1 (by decide) heq₁).appendCluster hblocks (by simp [maxClusterSize])
      heq₄).appendGlobal 4 (by simp [maxClusterSize]) heq₅
  have hjoined := (bcluster_joins hne hrun).1
  have henabled := hjoined.enabled ⟨2, b, by simp⟩
  refine ⟨bc₅, b, c, hb₁, hc₃, hjoined, fun h => ?_, ?_, fun h => ?_⟩
  · exact absurd ((henabled 1 (by decide)).mp h 3 c (by simp)) (by rw [hc₁]; exact Bool.false_ne_true)
  · refine (henabled 2 (by decide)).mpr fun ptr b' hmem => ?_
    simp only [List.mem_cons, reduceCtorEq, List.not_mem_nil, or_false, false_or, Column.block.injEq] at hmem
    rcases hmem with ⟨-, rfl⟩ | ⟨-, rfl⟩
    · exact hb₂
    · exact hc₂
  · exact absurd ((henabled 3 (by decide)).mp h 2 b (by simp)) (by rw [hb₃]; exact Bool.false_ne_true)

end Furious
