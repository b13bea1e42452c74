import Furious.Query.Rows

/-!
The operators of a plan, on one cluster.

A cluster that an operator hands on belongs to a block, or to none if it has globals only. Its enabled
rows are those that the plan has for the entities of the block.

* `BCluster.appendCluster_spec`: two clusters, whatever filters have left of their rows;
* `BCluster.Carries`: **a cluster has the rows of a plan in a block**;
* `carries_scan`, `carries_fetch`: the leaves;
* `Carries.tagFilter`, `Carries.predicateFilter`: the filters;
* `Carries.join`, `Carries.leftFilterJoin`, `Carries.crossJoin`: the joins;
* `Carries.foreachCalls`: **the calls for a cluster**.
-/

namespace Furious

/-! ### Appending -/

namespace BCluster

variable {bc other : BCluster} {cs cs' : List Column}

lemma hasColumns_init : init.HasColumns [] := (joins_init 0).columns

/-- Some row is enabled. -/
lemma numSet_ne_zero (h : bc.enabled.bits.length = tableBlockSize) :
    bc.enabled.numSet ≠ 0 ↔ ∃ o < tableBlockSize, bc.enabled.test o = true := by
  rw [Bitmap.numSet_eq_card, h, Finset.card_ne_zero]
  constructor
  · rintro ⟨o, ho⟩
    rw [Finset.mem_filter, Finset.mem_range] at ho
    exact ⟨o, ho⟩
  · rintro ⟨o, ho⟩
    exact ⟨o, by rwa [Finset.mem_filter, Finset.mem_range]⟩

/-- The rows of two clusters. -/
lemma joinRows_spec (h : bc.enabled.bits.length = tableBlockSize)
    (h' : other.enabled.bits.length = tableBlockSize) :
    ∃ enabled, bc.joinRows other = some { bc with
        enabled := enabled
        start := if other.start = invalidBlockStart then bc.start else other.start }
      ∧ enabled.bits.length = tableBlockSize
      ∧ ∀ o, enabled.test o = if other.start = invalidBlockStart then bc.enabled.test o
        else if bc.start = invalidBlockStart then other.enabled.test o
        else bc.enabled.test o && other.enabled.test o := by
  by_cases hother : other.start = invalidBlockStart
  · exact ⟨bc.enabled, by simp [joinRows, hother], h, fun o => by rw [if_pos hother]⟩
  · by_cases hbc : bc.start = invalidBlockStart
    · have hset : bc.enabled.setBitmap other.enabled = some other.enabled := if_pos (h.trans h'.symm)
      refine ⟨other.enabled, ?_, h', fun o => by rw [if_neg hother, if_pos hbc]⟩
      simp only [joinRows, if_pos hother, if_pos hbc, if_neg hother, hset, Option.bind_eq_bind, Option.bind_some]
    · obtain ⟨enabled, hand, hlen, htest⟩ := Bitmap.combine_spec (fun d s => d && s) (h.trans h'.symm) rfl
      refine ⟨enabled, ?_, hlen.trans h, fun o => by rw [if_neg hother, if_neg hbc, htest]⟩
      simp only [joinRows, if_pos hother, if_neg hbc, if_neg hother, Bitmap.setAnd, hand, Option.bind_eq_bind,
        Option.bind_some]

/-- **`fdb_bcluster_append_cluster`**, for clusters with any rows. -/
theorem appendCluster_spec (h : bc.HasColumns cs) (h' : other.HasColumns cs')
    (hlen : bc.enabled.bits.length = tableBlockSize) (hlen' : other.enabled.bits.length = tableBlockSize)
    (hroom : cs.length + cs'.length ≤ maxClusterSize)
    (haligned : bc.start = other.start ∨ bc.start = invalidBlockStart ∨ other.start = invalidBlockStart) :
    ∃ bc', bc.appendCluster other = some bc' ∧ bc'.HasColumns (cs ++ cs')
      ∧ bc'.enabled.bits.length = tableBlockSize
      ∧ bc'.start = (if other.start = invalidBlockStart then bc.start else other.start)
      ∧ ∀ o, bc'.enabled.test o = if other.start = invalidBlockStart then bc.enabled.test o
        else if bc.start = invalidBlockStart then other.enabled.test o
        else bc.enabled.test o && other.enabled.test o := by
  obtain ⟨enabled, hrows, hlenE, htest⟩ := joinRows_spec hlen hlen'
  obtain ⟨bc', hfold, hcols, henabled, hstart⟩ :=
    HasColumns.appendColumns (show ({ bc with
        enabled := enabled
        start := if other.start = invalidBlockStart then bc.start else other.start } : BCluster).HasColumns cs from
      ⟨h.numColumns, h.blocks, h.global⟩) (l := []) h' hroom
  refine ⟨bc', ?_, hcols, henabled ▸ hlenE, hstart, fun o => by rw [henabled, htest]⟩
  rw [appendCluster, if_pos haligned, hrows, h'.numColumns, List.range_eq_range']
  exact hfold

end BCluster

/-! ### Columns -/

namespace QueryDb

variable (db : QueryDb)

/-- What is in a column of a plan. -/
def Typed (col : FccColumn) : Column → Prop
  | .block p block => (col.type = .component ∨ col.type = .id)
      ∧ (db.tableOf col).tblockAllocator.get p = some block
  | .global _ => col.type = .global

/-- The argument for a column in a row. -/
def argOf (o : ℕ) (col : FccColumn) : Column → Arg
  | .block _ block => .component (block.data.add (o * (db.tableOf col).esize))
  | .global ptr => .global ptr

/-- The arguments for a row. -/
def argsOf (cols : List FccColumn) (cs : List Column) (o : ℕ) : List Arg := List.zipWith (db.argOf o) cols cs

variable {db} {cols cols' : List FccColumn} {cs cs' : List Column} {bc : BCluster}

lemma argsOf_append (h : List.Forall₂ db.Typed cols cs) (o : ℕ) :
    db.argsOf (cols ++ cols') (cs ++ cs') o = db.argsOf cols cs o ++ db.argsOf cols' cs' o :=
  List.zipWith_append h.length_eq

/-- The data of a column. -/
lemma columnData_spec (h : bc.HasColumns cs) {i : ℕ} {col : FccColumn} {c : Column} (hc : cs[i]? = some c)
    (htyped : db.Typed col c) (hid : col.type ≠ .id) :
    ∃ data, db.columnData bc col i = some data ∧ ∀ o, data.arg o = db.argOf o col c := by
  obtain ⟨hblock, hbit⟩ := h.get hc
  cases c with
  | block p block =>
      have hcol : col.type = .component := htyped.1.resolve_right hid
      have htable : db.tableOf col = db.tables col.componentType := if_pos hcol
      have hget := htyped.2
      rw [htable] at hget
      refine ⟨.block block.data (db.tables col.componentType).esize, ?_, fun o => ?_⟩
      · have htblock : bc.getTblock i = some (some p) := by
          rw [BCluster.getTblock, hbit, hblock]
          rfl
        simp only [columnData, hcol, htblock, hget, Option.bind_eq_bind, Option.bind_some]
      · rw [Data.arg, argOf, htable]
  | global p =>
      have hcol : col.type = .global := htyped
      refine ⟨.global p, ?_, fun o => rfl⟩
      have hglobal : bc.getGlobal i = some (some p) := by
        rw [BCluster.getGlobal, hbit, hblock]
        rfl
      simp only [columnData, hcol, hglobal, Option.bind_eq_bind, Option.bind_some]

/-- **The data of all columns.** -/
theorem columnsData_spec (h : bc.HasColumns cs) (htyped : List.Forall₂ db.Typed cols cs)
    (hid : ∀ col ∈ cols, col.type ≠ .id) :
    ∃ data, db.columnsData bc cols = some data ∧ ∀ o, data.map (Data.arg o) = db.argsOf cols cs o := by
  obtain ⟨data, hdata, hall⟩ := mapM_spec
    (fun (col : FccColumn × ℕ) (d : Data) => ∀ o, some (d.arg o) = (cs[col.2]?).map (db.argOf o col.1))
    (f := fun col : FccColumn × ℕ => db.columnData bc col.1 col.2) (l := cols.zipIdx) fun col hcol => by
      obtain ⟨hlt, hget⟩ := List.getElem?_eq_some_iff.mp (List.mem_zipIdx_iff_getElem?.mp hcol)
      have hlt' : col.2 < cs.length := htyped.length_eq ▸ hlt
      have hc : db.Typed col.1 cs[col.2] := by
        have := (List.forall₂_iff_get.mp htyped).2 col.2 hlt hlt'
        rwa [List.get_eq_getElem, List.get_eq_getElem, hget] at this
      have hmem : col.1 ∈ cols := hget ▸ List.getElem_mem hlt
      obtain ⟨d, hd, harg⟩ := columnData_spec h (List.getElem?_eq_getElem hlt') hc (hid _ hmem)
      exact ⟨d, hd, fun o => by rw [List.getElem?_eq_getElem hlt', Option.map_some, harg]⟩
  refine ⟨data, hdata, fun o => List.ext_getElem? fun i => ?_⟩
  have hlen : data.length = cols.length := hall.length_eq.symm.trans List.length_zipIdx
  rw [List.getElem?_map, argsOf, List.getElem?_zipWith]
  by_cases hi : i < cols.length
  · have hi' : i < data.length := hlen ▸ hi
    have hz : i < cols.zipIdx.length := by rwa [List.length_zipIdx]
    have := (List.forall₂_iff_get.mp hall).2 i hz hi' o
    rw [List.get_eq_getElem, List.get_eq_getElem, List.getElem_zipIdx, Nat.zero_add] at this
    have hlt' : i < cs.length := htyped.length_eq ▸ hi
    rw [List.getElem?_eq_getElem hi', Option.map_some, this, List.getElem?_eq_getElem hi,
      List.getElem?_eq_getElem hlt']
    rfl
  · rw [List.getElem?_eq_none (by omega), List.getElem?_eq_none (by omega)]
    rfl

end QueryDb

/-! ### A cluster of a plan -/

/-- The start of a block, or of a cluster that has none. -/
def blockStart (k : Option ℕ) : ℕ := k.elim invalidBlockStart fun b => b * tableBlockSize

/-- The key under which hash tables keep a cluster. -/
def blockKey (k : Option ℕ) : ℕ := k.elim lastBlock id

lemma blockStart_div (k : Option ℕ) : blockStart k / tableBlockSize = blockKey k := by
  cases k with
  | none => rfl
  | some b => exact Nat.mul_div_cancel b (by decide)

lemma blockStart_some_ne {b : ℕ} (h : b < numBlocks) : blockStart (some b) ≠ invalidBlockStart := by
  have hlt : b < 2 ^ 24 := h
  have hne : b * 256 ≠ 0xffffffff := by omega
  exact hne

lemma block_of_id {b o : ℕ} (ho : o < tableBlockSize) :
    (b * tableBlockSize + o) / tableBlockSize = b ∧ (b * tableBlockSize + o) % tableBlockSize = o := by
  rw [Nat.mul_comm, Nat.mul_add_div (by decide), Nat.div_eq_of_lt ho, Nat.add_zero, Nat.mul_add_mod,
    Nat.mod_eq_of_lt ho]
  exact ⟨rfl, rfl⟩

/-- The columns and the rows of a cluster that the plan `t` hands on for the block `k`. -/
structure BCluster.Shows (db : QueryDb) (t : PlanTree) (k : Option ℕ) (bc : BCluster) (cs : List Column) :
    Prop where
  columns : bc.HasColumns cs
  typed : List.Forall₂ db.Typed t.columns cs
  globals : k = none → db.globalRow t = some (db.argsOf t.columns cs 0)
  rows : ∀ b, k = some b → ∀ o < tableBlockSize, db.row t (b * tableBlockSize + o)
    = if bc.enabled.test o = true then some (db.argsOf t.columns cs o) else none

/-- **A cluster that the plan `t` hands on** for the block `k`. -/
structure BCluster.Carries (db : QueryDb) (t : PlanTree) (k : Option ℕ) (bc : BCluster) : Prop where
  length : bc.enabled.bits.length = tableBlockSize
  start : bc.start = blockStart k
  lt : ∀ b, k = some b → b < numBlocks
  kind : t.isGlobal = k.isNone
  dark : k = none → ∀ o < tableBlockSize, bc.enabled.test o = false
  shows : ∃ cs, bc.Shows db t k cs

/-! ### The leaves -/

section Leaves

variable {db : QueryDb} {col : FccColumn}

/-- **A block of a table.** -/
theorem carries_scan {M : KeyMap ℕ} (h : (db.tableOf col).Sound M) (hcol : col.type = .component ∨ col.type = .id)
    {b p : ℕ} (hp : M.lookup b = some p) :
    ∃ block bc, (db.tableOf col).tblockAllocator.get p = some block
      ∧ BCluster.init.appendBlock p block = some bc ∧ bc.Carries db (.leaf .scan [col]) (some b) := by
  obtain ⟨hnone, -⟩ | ⟨p', block, hp', hget, hat, hshaped⟩ := h.cases b
  · rw [hp] at hnone
    cases hnone
  obtain rfl : p = p' := Option.some.inj (hp.symm.trans hp')
  have hlt : b < numBlocks := h.lt b (Finmap.mem_of_lookup_eq_some hp)
  obtain ⟨bc, happend, hjoins⟩ : ∃ bc, BCluster.init.appendBlock p block = some bc
      ∧ bc.Joins (b * tableBlockSize) ([] ++ [.block p block]) :=
    (BCluster.joins_init (b * tableBlockSize)).appendBlock (blockStart_some_ne hlt)
      (fun ptr b' hmem => by
        obtain ⟨rfl, rfl⟩ : ptr = p ∧ b' = block := by simpa using hmem
        exact ⟨hshaped.start, hshaped.enabled⟩) (by decide)
  have htest : ∀ o, bc.enabled.test o = block.enabled.test o := fun o => by
    rw [hjoins.enabled rfl o]
    simp [Column.leaves]
  refine ⟨block, bc, hget, happend, hjoins.length, hjoins.start, fun b' hb => Option.some.inj hb ▸ hlt, ?_,
    fun hk => (by cases hk), [.block p block], hjoins.columns, List.Forall₂.cons ⟨hcol, hget⟩ List.Forall₂.nil,
    fun hk => (by cases hk), fun b' hb o ho => ?_⟩
  · rcases hcol with hcol | hcol <;>
      simp [PlanTree.isGlobal, allGlobals, PlanTree.columns, OpTree.value, hcol]
  · obtain rfl := Option.some.inj hb
    obtain ⟨hdiv, hmod⟩ := block_of_id (b := b) ho
    have hat' : (db.tableOf col).blockAt ((b * tableBlockSize + o) / tableBlockSize) = some block := by rw [hdiv, hat]
    have henabled := Table.enabledAt_eq hat'
    have hplace := Table.place_eq hat'
    rw [hmod] at henabled hplace
    rw [QueryDb.row, List.head?_cons, Option.bind_eq_bind, Option.bind_some, henabled, hplace, htest]
    by_cases ht : block.enabled.test o = true
    · rw [if_pos ht, if_pos ht]
      rfl
    · rw [if_neg ht, if_neg ht]
      rfl

/-- **A global.** -/
theorem carries_fetch (hcol : col.type = .global) {p : ℕ} (hp : db.globals col.componentType = some p) :
    ∃ bc, BCluster.init.appendGlobal p = some bc ∧ bc.Carries db (.leaf .fetch [col]) none := by
  obtain ⟨bc, happend, hjoins⟩ := (BCluster.joins_init 0).appendGlobal p (by decide)
  have henabled : bc.enabled = BCluster.init.enabled := by
    obtain ⟨global, hset, -⟩ := BCluster.hasColumns_init.setGlobal (by decide)
    rw [BCluster.appendGlobal, hset] at happend
    obtain rfl := Option.some.inj happend
    rfl
  refine ⟨bc, happend, hjoins.length, hjoins.start, fun b hb => (by cases hb), ?_, fun _ o _ => ?_,
    [.global p], hjoins.columns, List.Forall₂.cons hcol List.Forall₂.nil, fun _ => ?_, fun b hb => (by cases hb)⟩
  · simp [PlanTree.isGlobal, allGlobals, PlanTree.columns, OpTree.value, hcol]
  · rw [henabled]
    exact Bitmap.test_init _ _
  · rw [QueryDb.globalRow, List.head?_cons, Option.bind_eq_bind, Option.bind_some, hp]
    rfl

end Leaves

/-! ### The filters -/

/-- What an operator hands on if a row of it is enabled. -/
structure BCluster.Hands (db : QueryDb) (t : PlanTree) (k : Option ℕ) (bc : BCluster) : Prop where
  kind : t.isGlobal = k.isNone
  carries : bc.enabled.numSet ≠ 0 → bc.Carries db t k
  drops : bc.enabled.numSet = 0 → ∀ b, k = some b → ∀ o < tableBlockSize, db.row t (b * tableBlockSize + o) = none

/-- The database is as its functions make it. -/
structure QueryDb.Sound (db : QueryDb) : Prop where
  tables : ∀ type, ∃ M, (db.tables type).Sound M
  refs : ∀ name, ∃ M, (db.refs name).table.Sound M
  refs_esize : ∀ name, (db.refs name).table.esize = Reftable.entityIdSize
  tags : ∀ tag, ∃ S, Denotes (db.tags tag) S

/-- No ids among the columns. -/
lemma noIds_of_check {message : String} {cols : List FccColumn} (h : checkNoIds message cols = .ok []) :
    ∀ col ∈ cols, col.type ≠ .id := by
  intro col hcol hid
  rw [checkNoIds] at h
  cases hfind : cols.find? fun col => col.type = .id with
  | none => exact absurd (decide_eq_true hid) (List.find?_eq_none.mp hfind col hcol)
  | some col' =>
      rw [hfind] at h
      cases h

section Filters

variable {db : QueryDb} {t : PlanTree} {k : Option ℕ} {b : ℕ} {bc : BCluster} {cs : List Column} {type : UnaryType}

namespace BCluster

/-- A cluster with a block. -/
lemma Carries.hands (h : bc.Carries db t k) : bc.Hands db t k := by
  refine ⟨h.kind, fun _ => h, fun hzero b hb o ho => ?_⟩
  obtain ⟨cs, hshows⟩ := h.shows
  rw [hshows.rows b hb o ho, if_neg]
  intro ht
  exact (numSet_ne_zero h.length).mpr ⟨o, ho, ht⟩ hzero

/-- A cluster without a row. -/
lemma hands_of_dark (hkind : t.isGlobal = true) (hlen : bc.enabled.bits.length = tableBlockSize)
    (hdark : ∀ o < tableBlockSize, bc.enabled.test o = false) :
    bc.Hands db t none := by
  refine ⟨hkind, fun hne => ?_, fun _ b hb => (by cases hb)⟩
  obtain ⟨o, ho, ht⟩ := (numSet_ne_zero hlen).mp hne
  rw [hdark o ho] at ht
  cases ht

/-- **The rows that pass a filter.** -/
lemma Carries.keep (h : bc.Carries db t (some b)) (hshows : bc.Shows db t (some b) cs) {enabled : Bitmap}
    (hlen : enabled.bits.length = tableBlockSize)
    (htest : ∀ o < tableBlockSize, enabled.test o = (bc.enabled.test o
      && db.passes type t.columns (b * tableBlockSize + o) (db.argsOf t.columns cs o))) :
    ({ bc with enabled := enabled } : BCluster).Carries db (.unary type t) (some b) := by
  refine ⟨hlen, h.start, h.lt, h.kind, fun hk => (by cases hk), cs,
    ⟨hshows.columns.numColumns, hshows.columns.blocks, hshows.columns.global⟩, hshows.typed,
    fun hk => (by cases hk), fun b' hb o ho => ?_⟩
  obtain rfl := Option.some.inj hb
  dsimp only
  rw [QueryDb.row, hshows.rows b rfl o ho, htest o ho]
  cases bc.enabled.test o with
  | false => rfl
  | true =>
      rw [Bool.true_and, if_pos rfl, Option.filter_some]
      rfl

end BCluster

/-- The tag of an entity. -/
lemma hasTag_eq {tag : String} {S : Finset ℕ} (h : Denotes (db.tags tag) S) (id : ℕ) :
    db.hasTag tag id = decide (id ∈ S) := by
  rw [QueryDb.hasTag, h.existsId]
  rfl

/-- A tag filter on entities, for a block or for none. -/
lemma filterBitmap_spec {bittable : Bittable} {S : Finset ℕ} (hS : Denotes bittable S)
    (hlen : bc.enabled.bits.length = tableBlockSize) (opType : FilterOpType) :
    ∃ enabled, QueryDb.filterBitmap opType bittable bc = some { bc with enabled := enabled }
      ∧ enabled.bits.length = tableBlockSize
      ∧ ∀ o < tableBlockSize, enabled.test o = (bc.enabled.test o
        && (decide (bc.start / tableBlockSize * tableBlockSize + o ∈ S) == decide (opType = .has))) := by
  obtain ⟨filter, hget, hlenF, htest⟩ := hS.getBitmap bc.start
  cases opType with
  | has =>
      have hbit : ∀ v : Bool, (v == decide (FilterOpType.has = .has)) = v := by decide
      cases filter with
      | none =>
          refine ⟨bc.enabled.nullify, ?_, (Bitmap.length_nullify _).trans hlen, fun o ho => ?_⟩
          · simp only [QueryDb.filterBitmap, hget, Option.bind_eq_bind, Option.bind_some]
          · rw [Bitmap.test_nullify, hbit, htest o ho, Option.elim_none, Bool.and_false]
      | some x =>
          obtain ⟨enabled, hand, hlenE, htestE⟩ := Bitmap.combine_spec (fun d s => d && s)
            (hlen.trans (hlenF x rfl).symm) rfl
          refine ⟨enabled, ?_, hlenE.trans hlen, fun o ho => ?_⟩
          · simp only [QueryDb.filterBitmap, hget, Option.bind_eq_bind, Option.bind_some, Bitmap.setAnd, hand]
          · rw [htestE, hbit, htest o ho, Option.elim_some]
  | hasNot =>
      have hbit : ∀ v : Bool, (v == decide (FilterOpType.hasNot = .has)) = !v := by decide
      -- the complement of the bitmap, or of an empty one
      have hand : ∀ negate : Bitmap, negate.bits.length = tableBlockSize →
          (∀ o < tableBlockSize, decide (bc.start / tableBlockSize * tableBlockSize + o ∈ S) = negate.test o) →
          ∃ enabled, bc.enabled.setAnd negate.negate = some enabled ∧ enabled.bits.length = tableBlockSize
            ∧ ∀ o < tableBlockSize, enabled.test o = (bc.enabled.test o
              && (decide (bc.start / tableBlockSize * tableBlockSize + o ∈ S)
                == decide (FilterOpType.hasNot = .has))) := by
        intro negate hlenN htestN
        obtain ⟨enabled, hand, hlenE, htestE⟩ := Bitmap.combine_spec (fun d s => d && s)
          (hlen.trans ((Bitmap.length_negate negate).trans hlenN).symm) rfl
        refine ⟨enabled, hand, hlenE.trans hlen, fun o ho => ?_⟩
        rw [htestE, hbit, htestN o ho, Bitmap.test_negate (hlenN.symm ▸ ho)]
      cases filter with
      | none =>
          obtain ⟨enabled, hand, hspec⟩ := hand (Bitmap.init tableBlockSize) (Bitmap.length_init _) fun o ho => by
            rw [htest o ho, Bitmap.test_init, Option.elim_none]
          refine ⟨enabled, ?_, hspec⟩
          simp only [QueryDb.filterBitmap, hget, Option.bind_eq_bind, Option.bind_some, hand]
      | some x =>
          obtain ⟨enabled, hand, hspec⟩ := hand x (hlenF x rfl) htest
          have hset : (Bitmap.init tableBlockSize).setBitmap x = some x :=
            if_pos ((Bitmap.length_init _).trans (hlenF x rfl).symm)
          refine ⟨enabled, ?_, hspec⟩
          simp only [QueryDb.filterBitmap, hget, Option.bind_eq_bind, Option.bind_some, hset, hand]

/-- A loop that goes through the rows and keeps some of them. -/
lemma keepRows_spec {f : BCluster → ℕ → Option BCluster} (keep : ℕ → Bool)
    (hlen : bc.enabled.bits.length = tableBlockSize)
    (hstep : ∀ (enabled : Bitmap) (i : ℕ), enabled.bits.length = tableBlockSize → i < tableBlockSize →
      ∃ enabled', f { bc with enabled := enabled } i = some { bc with enabled := enabled' }
        ∧ enabled'.bits.length = tableBlockSize
        ∧ enabled'.test = Function.update enabled.test i (enabled.test i && keep i)) :
    ∃ enabled, (List.range tableBlockSize).foldlM f bc = some { bc with enabled := enabled }
      ∧ enabled.bits.length = tableBlockSize
      ∧ ∀ o < tableBlockSize, enabled.test o = (bc.enabled.test o && keep o) := by
  obtain ⟨bc', hloop, enabled, rfl, hlenE, htest⟩ := foldlM_spec
    (fun done (bc' : BCluster) => ∃ enabled, bc' = { bc with enabled := enabled }
      ∧ enabled.bits.length = tableBlockSize
      ∧ ∀ o, enabled.test o = (bc.enabled.test o && (decide (o ∉ done) || keep o)))
    (List.range tableBlockSize) ⟨bc.enabled, rfl, hlen, fun o => by simp⟩
    fun done i rest bc' hl ⟨enabled, heq, hlenE, htest⟩ => by
      have hi : i < tableBlockSize := by
        rw [← List.mem_range, hl]
        exact List.mem_append_right _ List.mem_cons_self
      obtain ⟨enabled', hf, hlen', htest'⟩ := hstep enabled i hlenE hi
      refine ⟨_, heq ▸ hf, enabled', rfl, hlen', fun o => ?_⟩
      rw [htest']
      by_cases ho : o = i
      · -- every row is come by once
        have hnotMem : i ∉ done := by
          intro hmem
          have hnodup : (done ++ i :: rest).Nodup := hl ▸ List.nodup_range
          exact (List.nodup_append.mp hnodup).2.2 i hmem i List.mem_cons_self rfl
        rw [ho, Function.update_self, htest, decide_eq_true hnotMem,
          decide_eq_false (not_not_intro (List.mem_append_right done (List.mem_singleton_self i)))]
        simp
      · have hiff : o ∈ done ++ [i] ↔ o ∈ done := by simp [ho]
        rw [Function.update_of_ne ho, htest]
        simp only [hiff]
  refine ⟨enabled, hloop, hlenE, fun o ho => ?_⟩
  rw [htest o, decide_eq_false (not_not_intro (List.mem_range.mpr ho)), Bool.false_or]

/-- A tag filter on the first column, that has ids. -/
lemma filterBittable_spec {refs : Table} {bittable : Bittable} {S : Finset ℕ} (hS : Denotes bittable S)
    (hlen : bc.enabled.bits.length = tableBlockSize) {p : ℕ} {block : TableBlock}
    (hblock : bc.getTblock 0 = some (some p)) (hget : refs.tblockAllocator.get p = some block) (expected : Bool) :
    ∃ enabled, QueryDb.filterBittable expected refs bittable bc 0 = some { bc with enabled := enabled }
      ∧ enabled.bits.length = tableBlockSize
      ∧ ∀ o < tableBlockSize, enabled.test o = (bc.enabled.test o && (decide (refs.load Reftable.entityIdSize
        (block.data.add (o * Reftable.entityIdSize)) ∈ S) == expected)) := by
  refine keepRows_spec (fun o => decide (refs.load Reftable.entityIdSize
    (block.data.add (o * Reftable.entityIdSize)) ∈ S) == expected) hlen fun enabled i hlenE hi => ?_
  have hisSet : enabled.isSet i = some (enabled.test i) := Bitmap.isSet_eq (hlenE.symm ▸ hi)
  have hblock' : ({ bc with enabled := enabled } : BCluster).getTblock 0 = some (some p) := hblock
  cases ht : enabled.test i with
  | false =>
      refine ⟨enabled, ?_, hlenE, ?_⟩
      · simp only [hisSet, ht, Option.bind_eq_bind, Option.bind_some, Bool.false_eq_true, if_false]
      · rw [Bool.false_and, ← ht, Function.update_eq_self]
  | true =>
      simp only [hisSet, ht, hblock', hget, hS.existsId, Option.bind_eq_bind, Option.bind_some, if_true,
        Bool.true_and]
      split_ifs with hexists
      · refine ⟨enabled, rfl, hlenE, ?_⟩
        rw [hexists, beq_self_eq_true, ← ht, Function.update_eq_self]
      · obtain ⟨enabled', hunset, hlen', htest, -⟩ := Bitmap.setBit_spec (hlenE.symm ▸ hi) false
        refine ⟨enabled', by rw [Bitmap.unset, hunset]; rfl, hlen'.trans hlenE, ?_⟩
        rw [htest, beq_eq_false_iff_ne.mpr hexists]

/-- The code of a predicate filter. -/
lemma predicateFilter_spec (hlen : bc.enabled.bits.length = tableBlockSize) {cols : List FccColumn}
    (hcols : bc.HasColumns cs) (htyped : List.Forall₂ db.Typed cols cs) (hid : ∀ col ∈ cols, col.type ≠ .id)
    (funcDecl : FccDecl) :
    ∃ enabled, db.predicateFilter funcDecl cols bc = some { bc with enabled := enabled }
      ∧ enabled.bits.length = tableBlockSize
      ∧ ∀ o < tableBlockSize, enabled.test o
        = (bc.enabled.test o && db.predicates funcDecl (db.argsOf cols cs o)) := by
  obtain ⟨data, hdata, hargs⟩ := QueryDb.columnsData_spec hcols htyped hid
  simp only [QueryDb.predicateFilter, hdata, Option.bind_eq_bind, Option.bind_some]
  refine keepRows_spec (fun o => db.predicates funcDecl (db.argsOf cols cs o)) hlen fun enabled i hlenE hi => ?_
  by_cases hzero : enabled.numSet ≠ 0
  · obtain ⟨enabled', hset, hlen', htest, -⟩ := Bitmap.setBit_spec (hlenE.symm ▸ hi)
      (enabled.test i && db.predicates funcDecl (db.argsOf cols cs i))
    refine ⟨enabled', ?_, hlen'.trans hlenE, htest⟩
    simp only [if_pos hzero, Bitmap.isSet_eq (hlenE.symm ▸ hi), hargs, hset, Option.bind_some]
  · -- no row is left
    refine ⟨enabled, by simp only [if_neg hzero], hlenE, ?_⟩
    have ht : enabled.test i = false := by
      by_contra ht
      exact hzero (Nat.pos_iff_ne_zero.mp (Bitmap.numSet_pos (Bool.not_eq_false _ ▸ ht)))
    rw [ht, Bool.false_and, ← ht, Function.update_eq_self]

/-- A tag filter on ids. -/
lemma tagFilter_ids (hdb : db.Sound) (h : bc.Carries db t k) {tag : String} {col : FccColumn}
    {cols : List FccColumn} (hcols : t.columns = col :: cols) (hid : col.type = .id) (opType : FilterOpType) :
    ∃ bc', db.tagFilter tag opType true t.columns bc = some bc'
      ∧ bc'.Hands db (.unary (.tagFilter tag opType true) t) k := by
  obtain ⟨cs, hshows⟩ := h.shows
  obtain ⟨S, hS⟩ := hdb.tags tag
  -- a cluster with ids has a block
  cases k with
  | none =>
      have hall := h.kind
      rw [PlanTree.isGlobal, allGlobals, hcols, List.all_cons, hid] at hall
      simp at hall
  | some b =>
      have htyped := hshows.typed
      rw [hcols] at htyped
      cases cs with
      | nil => cases htyped
      | cons c cs =>
          obtain ⟨hc, -⟩ := List.forall₂_cons.mp htyped
          cases c with
          | global ptr =>
              have hglobal : col.type = .global := hc
              rw [hid] at hglobal
              cases hglobal
          | block p block =>
              have htable : db.tableOf col = (db.refs col.refName).table := if_neg (by rw [hid]; decide)
              have hget := hc.2
              rw [htable] at hget
              have hblock : bc.getTblock 0 = some (some p) := by
                obtain ⟨hptr, hbit⟩ := hshows.columns.get (i := 0) rfl
                rw [BCluster.getTblock, hbit, hptr]
                rfl
              have htarget (o : ℕ) : db.passes (.tagFilter tag opType true) t.columns (b * tableBlockSize + o)
                  (db.argsOf t.columns (.block p block :: cs) o)
                  = (decide ((db.refs col.refName).table.load Reftable.entityIdSize
                    (block.data.add (o * Reftable.entityIdSize)) ∈ S) == decide (opType = .has)) := by
                rw [QueryDb.passes, if_pos rfl, hcols, List.head?_cons, Option.map_some, Option.getD_some,
                  QueryDb.argsOf, List.zipWith_cons_cons, QueryDb.argOf, QueryDb.target, htable, hdb.refs_esize,
                  hasTag_eq hS]
              obtain ⟨enabled, hfilter, hlen, htest⟩ :=
                filterBittable_spec hS h.length hblock hget (decide (opType = .has))
              refine ⟨{ bc with enabled := enabled }, ?_, ?_⟩
              · rw [hcols]
                cases opType <;> exact hfilter
              · exact (h.keep hshows hlen fun o ho => by rw [htest o ho, htarget]).hands

/-- **A tag filter.** -/
theorem BCluster.Carries.tagFilter (hdb : db.Sound) (h : bc.Carries db t k) {tag : String} {onColumn : Bool}
    (hcheck : checkTagFilter tag onColumn t.columns = .ok []) (opType : FilterOpType) :
    ∃ bc', db.tagFilter tag opType onColumn t.columns bc = some bc'
      ∧ bc'.Hands db (.unary (.tagFilter tag opType onColumn) t) k := by
  cases onColumn with
  | true =>
      have hid : t.columns.head?.map FccColumn.type = some .id := by
        by_contra hne
        rw [checkTagFilter, if_pos ⟨rfl, hne⟩] at hcheck
        cases hcheck
      cases hcols : t.columns with
      | nil =>
          rw [hcols] at hid
          cases hid
      | cons col cols =>
          rw [hcols] at hid
          rw [← hcols]
          exact tagFilter_ids hdb h hcols (Option.some.inj hid) opType
  | false =>
      obtain ⟨cs, hshows⟩ := h.shows
      obtain ⟨S, hS⟩ := hdb.tags tag
      obtain ⟨enabled, hfilter, hlen, htest⟩ := filterBitmap_spec hS h.length opType
      refine ⟨{ bc with enabled := enabled }, hfilter, ?_⟩
      cases k with
      | none =>
          refine hands_of_dark h.kind hlen fun o ho => ?_
          dsimp only
          rw [htest o ho, h.dark rfl o ho, Bool.false_and]
      | some b =>
          refine (h.keep hshows hlen fun o ho => ?_).hands
          rw [htest o ho, h.start, blockStart_div, QueryDb.passes, hasTag_eq hS]
          rfl

/-- **A predicate filter.** -/
theorem BCluster.Carries.predicateFilter (h : bc.Carries db t k) (hcheck : checkPredicateFilter t.columns = .ok [])
    (funcDecl : FccDecl) : ∃ bc', db.predicateFilter funcDecl t.columns bc = some bc'
      ∧ bc'.Hands db (.unary (.predicateFilter funcDecl) t) k := by
  obtain ⟨cs, hshows⟩ := h.shows
  obtain ⟨enabled, hfilter, hlen, htest⟩ := predicateFilter_spec h.length hshows.columns hshows.typed
    (noIds_of_check hcheck) funcDecl
  refine ⟨{ bc with enabled := enabled }, hfilter, ?_⟩
  cases k with
  | none =>
      refine hands_of_dark h.kind hlen fun o ho => ?_
      dsimp only
      rw [htest o ho, h.dark rfl o ho, Bool.false_and]
  | some b => exact (h.keep hshows hlen fun o ho => by rw [htest o ho, QueryDb.passes]).hands

end Filters

/-! ### The joins -/

section Joins

variable {db : QueryDb} {l r t : PlanTree} {k k₁ k₂ : Option ℕ} {bc other : BCluster}

/-- The rows of globals are all alike. -/
lemma argsOf_global {cols : List FccColumn} {cs : List Column} (htyped : List.Forall₂ db.Typed cols cs)
    (hall : allGlobals cols = true) (o o' : ℕ) : db.argsOf cols cs o = db.argsOf cols cs o' := by
  induction htyped with
  | nil => rfl
  | cons hc hcs ih =>
      rename_i col c cols cs
      rw [allGlobals, List.all_cons, Bool.and_eq_true] at hall
      cases c with
      | block p block =>
          have hcol := of_decide_eq_true hall.1
          rcases hc.1 with hc | hc <;> rw [hcol] at hc <;> cases hc
      | global ptr =>
          show Arg.global ptr :: db.argsOf cols cs o = Arg.global ptr :: db.argsOf cols cs o'
          rw [ih hall.2]

namespace BCluster

/-- A row of a cluster, if the cluster belongs to the block of the row or to none. -/
lemma Carries.row_or (ht : t.Plain) (h : bc.Carries db t k) {cs : List Column} (hshows : bc.Shows db t k cs)
    {b o : ℕ} (hb : ∀ b', k = some b' → b' = b) (ho : o < tableBlockSize) :
    (db.row t (b * tableBlockSize + o)).or (db.globalRow t)
      = if k.isNone || bc.enabled.test o then some (db.argsOf t.columns cs o) else none := by
  have hkind := h.kind
  cases k with
  | none =>
      rw [Option.isNone_none] at hkind
      rw [QueryDb.row_of_isGlobal ht hkind, Option.none_or, hshows.globals rfl, argsOf_global hshows.typed hkind o 0]
      rfl
  | some b' =>
      obtain rfl := hb b' rfl
      rw [QueryDb.globalRow_of_not_isGlobal ht hkind, Option.or_none, hshows.rows b' rfl o ho]
      rfl

lemma blockStart_eq_invalid (h : bc.Carries db t k) : bc.start = invalidBlockStart ↔ k = none := by
  rw [h.start]
  cases k with
  | none => exact ⟨fun _ => rfl, fun _ => rfl⟩
  | some b => exact ⟨fun hb => absurd hb (blockStart_some_ne (h.lt b rfl)), fun hb => by cases hb⟩

/-- The rows of two clusters. -/
lemma Carries.append (h : bc.Carries db l k₁) (h' : other.Carries db r k₂) {cs cs' : List Column}
    (hcs : bc.HasColumns cs) (hcs' : other.HasColumns cs') (hroom : cs.length + cs'.length ≤ maxClusterSize)
    (haligned : k₁ = k₂ ∨ k₁ = none ∨ k₂ = none) :
    ∃ bc', bc.appendCluster other = some bc' ∧ bc'.HasColumns (cs ++ cs')
      ∧ bc'.enabled.bits.length = tableBlockSize ∧ bc'.start = blockStart (k₁.or k₂)
      ∧ ∀ o < tableBlockSize, bc'.enabled.test o
        = (!(k₁.or k₂).isNone && ((k₁.isNone || bc.enabled.test o) && (k₂.isNone || other.enabled.test o))) := by
  have hstart := blockStart_eq_invalid h
  have hstart' := blockStart_eq_invalid h'
  obtain ⟨bc', happend, hcols, hlen, hst, htest⟩ := appendCluster_spec hcs hcs' h.length h'.length hroom (by
    rw [hstart, hstart', h.start, h'.start]
    rcases haligned with heq | hnone | hnone
    · exact .inl (by rw [heq])
    · exact .inr (.inl hnone)
    · exact .inr (.inr hnone))
  refine ⟨bc', happend, hcols, hlen, ?_, fun o ho => ?_⟩
  · rw [hst, if_congr hstart' rfl rfl, h.start, h'.start]
    rcases haligned with heq | hnone | hnone
    · rw [heq]
      cases k₂ <;> rfl
    · rw [hnone]
      cases k₂ <;> rfl
    · rw [hnone]
      cases k₁ <;> rfl
  · rw [htest, if_congr hstart' rfl rfl, if_congr hstart rfl rfl]
    cases k₁ with
    | none =>
        cases k₂ with
        | none => simpa using h.dark rfl o ho
        | some b => simp
    | some b =>
        cases k₂ with
        | none => simp
        | some b' => simp

/-- **The copy of a cluster** in a hash table. -/
theorem Carries.copy (h : bc.Carries db t k) (hroom : t.columns.length ≤ maxClusterSize) :
    ∃ bc', init.appendCluster bc = some bc' ∧ bc'.Carries db t k := by
  obtain ⟨cs, hshows⟩ := h.shows
  have hinvalid : bc.start = invalidBlockStart ↔ k = none := blockStart_eq_invalid h
  obtain ⟨bc', happend, hcols, hlen, hst, htest⟩ := appendCluster_spec hasColumns_init hshows.columns
    (Bitmap.length_init _) h.length (by rw [List.length_nil, Nat.zero_add, ← hshows.typed.length_eq]; exact hroom)
    (.inr (.inl rfl))
  rw [List.nil_append] at hcols
  have htest' : ∀ o < tableBlockSize, bc'.enabled.test o = bc.enabled.test o := by
    intro o ho
    rw [htest, if_congr hinvalid rfl rfl, show init.start = invalidBlockStart from rfl, if_pos rfl]
    split_ifs with hk
    · rw [h.dark hk o ho]
      exact Bitmap.test_init _ _
    · rfl
  refine ⟨bc', happend, hlen, ?_, h.lt, h.kind, fun hk o ho => by rw [htest' o ho, h.dark hk o ho],
    cs, hcols, hshows.typed, hshows.globals, fun b hb o ho => by rw [htest' o ho, hshows.rows b hb o ho]⟩
  rw [hst, if_congr hinvalid rfl rfl, h.start]
  split_ifs with hk
  · rw [hk]
    rfl
  · rfl

/-- What two clusters that are appended have together. -/
structure Pairs (db : QueryDb) (l r : PlanTree) (k : Option ℕ) (bc : BCluster) (cs : List Column) : Prop where
  length : bc.enabled.bits.length = tableBlockSize
  start : bc.start = blockStart k
  lt : ∀ b, k = some b → b < numBlocks
  kind : (l.isGlobal && r.isGlobal) = k.isNone
  dark : k = none → ∀ o < tableBlockSize, bc.enabled.test o = false
  columns : bc.HasColumns cs
  typed : List.Forall₂ db.Typed (l.columns ++ r.columns) cs
  globals : k = none → ((do
      let a ← db.globalRow l
      let b ← db.globalRow r
      some (a ++ b)) = some (db.argsOf (l.columns ++ r.columns) cs 0))
  rows : ∀ b, k = some b → ∀ o < tableBlockSize, ((do
      let x ← (db.row l (b * tableBlockSize + o)).or (db.globalRow l)
      let y ← (db.row r (b * tableBlockSize + o)).or (db.globalRow r)
      some (x ++ y)) = if bc.enabled.test o = true then some (db.argsOf (l.columns ++ r.columns) cs o) else none)

/-- **Two clusters** of one block, or of which one has none. -/
theorem Carries.pairs (hl : l.Plain) (hr : r.Plain) (hcols : (l.columns ++ r.columns).length ≤ maxOperatorNumColumns)
    (h : bc.Carries db l k₁) (h' : other.Carries db r k₂) (haligned : k₁ = k₂ ∨ k₁ = none ∨ k₂ = none) :
    ∃ bc' cs, bc.appendCluster other = some bc' ∧ Pairs db l r (k₁.or k₂) bc' cs := by
  obtain ⟨cs, hshows⟩ := h.shows
  obtain ⟨cs', hshows'⟩ := h'.shows
  have hroom : cs.length + cs'.length ≤ maxClusterSize := by
    rwa [List.length_append, hshows.typed.length_eq, hshows'.typed.length_eq] at hcols
  obtain ⟨bc', happend, hcolumns, hlen, hstart, htest⟩ := h.append h' hshows.columns hshows'.columns hroom haligned
  refine ⟨bc', cs ++ cs', happend, hlen, hstart, ?_, ?_, ?_, hcolumns, ?_, ?_, ?_⟩
  · intro b hb
    rcases Option.or_eq_some_iff.mp hb with hb | ⟨-, hb⟩
    · exact h.lt b hb
    · exact h'.lt b hb
  · rw [h.kind, h'.kind]
    cases k₁ <;> cases k₂ <;> rfl
  · intro hk o ho
    rw [htest o ho, hk]
    rfl
  · exact List.rel_append hshows.typed hshows'.typed
  · intro hk
    obtain ⟨hk₁, hk₂⟩ := Option.or_eq_none_iff.mp hk
    rw [hshows.globals hk₁, hshows'.globals hk₂, QueryDb.argsOf_append hshows.typed]
    rfl
  · intro b hb o ho
    have hblock₁ : ∀ b', k₁ = some b' → b' = b := by
      rintro b' rfl
      exact Option.some.inj hb
    have hblock₂ : ∀ b', k₂ = some b' → b' = b := by
      rintro b' rfl
      rcases haligned with heq | hnone | hnone
      · rw [heq] at hb
        exact Option.some.inj hb
      · rw [hnone] at hb
        exact Option.some.inj hb
      · cases hnone
    rw [h.row_or hl hshows hblock₁ ho, h'.row_or hr hshows' hblock₂ ho, htest o ho, hb,
      QueryDb.argsOf_append hshows.typed]
    cases k₁.isNone || bc.enabled.test o <;> cases k₂.isNone || other.enabled.test o <;> rfl

/-- The clusters of a join belong to one block, or one of them to none. -/
lemma aligned_of_key (hkey : blockKey k₁ = blockKey k₂) : k₁ = k₂ ∨ k₁ = none ∨ k₂ = none := by
  cases k₁ with
  | none => exact .inr (.inl rfl)
  | some b₁ =>
      cases k₂ with
      | none => exact .inr (.inr rfl)
      | some b₂ => exact .inl (congrArg some hkey)

/-- A row of globals meets the last block only. -/
lemma row_or_last (ht : t.Plain) (h : bc.Carries db t k) {b o : ℕ} (hkey : blockKey k = b) (ho : o < tableBlockSize) :
    (db.row t (b * tableBlockSize + o)).or
      (if (b * tableBlockSize + o) / tableBlockSize = lastBlock then db.globalRow t else none)
      = (db.row t (b * tableBlockSize + o)).or (db.globalRow t) := by
  rw [(block_of_id ho).1]
  cases k with
  | none => rw [if_pos (show b = lastBlock from hkey.symm)]
  | some b' => rw [QueryDb.globalRow_of_not_isGlobal ht h.kind, ite_self]

/-- **A join.** -/
theorem Carries.join (hl : l.Plain) (hr : r.Plain) (hcols : (l.columns ++ r.columns).length ≤ maxOperatorNumColumns)
    (h : bc.Carries db l k₁) (h' : other.Carries db r k₂) (hkey : blockKey k₁ = blockKey k₂) :
    ∃ bc', bc.appendCluster other = some bc' ∧ bc'.Hands db (.binary .join l r) (k₁.or k₂) := by
  obtain ⟨bc', cs, happend, hpairs⟩ := h.pairs hl hr hcols h' (aligned_of_key hkey)
  refine ⟨bc', happend, ?_⟩
  cases hk : k₁.or k₂ with
  | none =>
      refine hands_of_dark ?_ hpairs.length (hpairs.dark hk)
      rw [PlanTree.isGlobal, PlanTree.columns_join, PlanTree.isGlobal_append, hpairs.kind, hk]
      rfl
  | some b =>
      rw [hk] at hpairs
      have hnot : ¬ (l.isGlobal = true ∧ r.isGlobal = true) := by
        rw [← Bool.and_eq_true, hpairs.kind]
        exact Bool.false_ne_true
      have hb : blockKey k₁ = b ∧ blockKey k₂ = b := by
        rcases Option.or_eq_some_iff.mp hk with rfl | ⟨rfl, rfl⟩
        · exact ⟨rfl, hkey.symm⟩
        · exact ⟨hkey, rfl⟩
      refine BCluster.Carries.hands ⟨hpairs.length, hpairs.start, hpairs.lt, ?_, hpairs.dark, cs, hpairs.columns,
        hpairs.typed, fun hk => (by cases hk), fun b' hb' o ho => ?_⟩
      · rw [PlanTree.isGlobal, PlanTree.columns_join, PlanTree.isGlobal_append, hpairs.kind]
      · obtain rfl := Option.some.inj hb'
        rw [PlanTree.columns_join, ← hpairs.rows b rfl o ho, QueryDb.row, if_neg hnot, row_or_last hl h hb.1 ho,
          row_or_last hr h' hb.2 ho]

/-- **A cross join** of which one side has globals only. -/
theorem Carries.crossJoin (hl : l.Plain) (hr : r.Plain)
    (hcols : (l.columns ++ r.columns).length ≤ maxOperatorNumColumns) (h : bc.Carries db l k₁)
    (h' : other.Carries db r k₂) (hglobal : l.isGlobal = true ∨ r.isGlobal = true) :
    ∃ bc', bc.appendCluster other = some bc' ∧ bc'.Carries db (.binary .crossJoin l r) (k₁.or k₂) := by
  have haligned : k₁ = k₂ ∨ k₁ = none ∨ k₂ = none := by
    rw [h.kind, h'.kind, Option.isNone_iff_eq_none, Option.isNone_iff_eq_none] at hglobal
    exact .inr hglobal
  obtain ⟨bc', cs, happend, hpairs⟩ := h.pairs hl hr hcols h' haligned
  refine ⟨bc', happend, hpairs.length, hpairs.start, hpairs.lt, ?_, hpairs.dark, cs, hpairs.columns, hpairs.typed,
    hpairs.globals, fun b hb o ho => ?_⟩
  · rw [PlanTree.isGlobal, PlanTree.columns_crossJoin, PlanTree.isGlobal_append, hpairs.kind]
  · have hnot : ¬ (l.isGlobal = true ∧ r.isGlobal = true) := by
      rw [← Bool.and_eq_true, hpairs.kind, hb]
      exact Bool.false_ne_true
    rw [PlanTree.columns_crossJoin, ← hpairs.rows b hb o ho, QueryDb.row]
    simp only [if_neg hnot]

/-- **A left filter join.** -/
theorem Carries.leftFilterJoin (hr : r.Plain) (h : bc.Carries db l k₁) (h' : other.Carries db r k₂)
    (hkey : blockKey k₁ = blockKey k₂) :
    ∃ bc', bc.filter other = some bc' ∧ bc'.Hands db (.binary .leftFilterJoin l r) k₁ := by
  obtain ⟨enabled, hand, hlen, htest⟩ := Bitmap.combine_spec (fun d s => d && s) (h.length.trans h'.length.symm) rfl
  refine ⟨{ bc with enabled := enabled }, by simp only [filter, Bitmap.setAnd, hand, Option.bind_eq_bind,
    Option.bind_some], ?_⟩
  obtain ⟨cs, hshows⟩ := h.shows
  obtain ⟨cs', hshows'⟩ := h'.shows
  cases hk : k₁ with
  | none =>
      refine hands_of_dark (by rw [hk] at h; exact h.kind) (hlen.trans h.length) fun o ho => ?_
      dsimp only
      rw [htest, h.dark hk o ho, Bool.false_and]
  | some b =>
      rw [hk] at h hshows hkey
      refine BCluster.Carries.hands ⟨hlen.trans h.length, h.start, h.lt, h.kind, fun hk => (by cases hk), cs,
        ⟨hshows.columns.numColumns, hshows.columns.blocks, hshows.columns.global⟩, hshows.typed,
        fun hk => (by cases hk), fun b' hb o ho => ?_⟩
      obtain rfl := Option.some.inj hb
      dsimp only
      have hsome : (db.row r (b * tableBlockSize + o)).isSome = other.enabled.test o := by
        cases hk₂ : k₂ with
        | none =>
            -- what has globals only is next to no row
            have hkind := h'.kind
            rw [hk₂] at hkind
            rw [QueryDb.row_of_isGlobal hr hkind, h'.dark hk₂ o ho]
            rfl
        | some b₂ =>
            rw [hk₂] at hkey hshows'
            obtain rfl : b = b₂ := hkey
            rw [hshows'.rows b rfl o ho]
            cases other.enabled.test o <;> rfl
      rw [QueryDb.row, PlanTree.columns_leftFilterJoin, hshows.rows b rfl o ho, htest, hsome]
      cases bc.enabled.test o <;> cases other.enabled.test o <;> rfl

end BCluster

end Joins

/-! ### The calls -/

section Calls

variable {db : QueryDb} {t : PlanTree} {bc : BCluster} {b : ℕ}

/-- The call for an entity, if the plan has a row for it. -/
def QueryDb.callAt (db : QueryDb) (t : PlanTree) (e : ℕ) : Option SystemCall := (db.row t e).map (SystemCall.mk e)

/-- The calls for the entities of a block. -/
def QueryDb.blockCalls (db : QueryDb) (t : PlanTree) (b : ℕ) : List SystemCall :=
  (List.range tableBlockSize).filterMap fun o => db.callAt t (b * tableBlockSize + o)

/-- The call for what has globals only. -/
def QueryDb.globalCalls (db : QueryDb) (t : PlanTree) : List SystemCall :=
  (db.globalRow t).toList.map (SystemCall.mk 0)

/-- A full block. -/
lemma test_of_full (hlen : bc.enabled.bits.length = tableBlockSize) (hfull : bc.enabled.numSet = tableBlockSize)
    {o : ℕ} (ho : o < tableBlockSize) : bc.enabled.test o = true := by
  have hcard : ((Finset.range tableBlockSize).filter fun o => bc.enabled.test o = true).card
      = (Finset.range tableBlockSize).card := by
    rw [← hlen, ← Bitmap.numSet_eq_card, hfull, hlen, Finset.card_range]
  exact Finset.filter_eq_self.mp (Finset.eq_of_subset_of_card_le (Finset.filter_subset _ _) hcard.ge) o
    (Finset.mem_range.mpr ho)

/-- **The loop over the rows**: the calls for those that are enabled. -/
lemma foldlM_enabled {C : Type} (hlen : bc.enabled.bits.length = tableBlockSize) (call : ℕ → C) :
    ((List.range tableBlockSize).foldlM (fun calls i => do
      let isSet ← bc.enabled.isSet i
      if isSet = true then some (calls ++ [call i]) else some calls) [] : Option (List C))
      = some ((List.range tableBlockSize).flatMap fun o => if bc.enabled.test o = true then [call o] else []) := by
  obtain ⟨calls, hloop, hspec⟩ := foldlM_spec
    (fun done calls => calls = done.flatMap fun o => if bc.enabled.test o = true then [call o] else [])
    (f := fun calls i => do
      let isSet ← bc.enabled.isSet i
      if isSet = true then some (calls ++ [call i]) else some calls)
    (List.range tableBlockSize) rfl fun done i rest calls hl hdone => by
      have hi : i < bc.enabled.bits.length := by
        rw [hlen, ← List.mem_range, hl]
        exact List.mem_append_right _ List.mem_cons_self
      simp only [Bitmap.isSet_eq hi, Option.bind_eq_bind, Option.bind_some, List.flatMap_append,
        List.flatMap_singleton, hdone]
      split_ifs
      · exact ⟨_, rfl, rfl⟩
      · exact ⟨_, rfl, (List.append_nil _).symm⟩
  rw [← hspec]
  exact hloop

/-- What the loop over the rows of a full block calls. -/
lemma map_range_of_full {C : Type} (hlen : bc.enabled.bits.length = tableBlockSize)
    (hfull : bc.enabled.numSet = tableBlockSize) (call : ℕ → C) : (List.range tableBlockSize).map call
      = (List.range tableBlockSize).flatMap fun o => if bc.enabled.test o = true then [call o] else [] := by
  rw [List.map_eq_flatMap]
  refine List.flatMap_congr fun o ho => ?_
  rw [if_pos (test_of_full hlen hfull (List.mem_range.mp ho))]

namespace BCluster

/-- **The calls for a cluster with a block**, where a full block is a case of its own. -/
theorem Carries.foreachCalls (h : bc.Carries db t (some b)) (hcheck : checkForeach t.columns = .ok []) :
    db.foreachCalls t.columns bc = some (db.blockCalls t b) := by
  obtain ⟨cs, hshows⟩ := h.shows
  obtain ⟨data, hdata, hargs⟩ := QueryDb.columnsData_spec hshows.columns hshows.typed (noIds_of_check hcheck)
  have hglobal : allGlobals t.columns = false := h.kind
  have hstart : bc.start = b * tableBlockSize := h.start
  -- the calls for the rows that are enabled
  have hcalls : db.blockCalls t b = (List.range tableBlockSize).flatMap fun o =>
      if bc.enabled.test o = true then [⟨bc.start + o, data.map (Data.arg o)⟩] else [] := by
    rw [QueryDb.blockCalls, List.filterMap_eq_flatMap_toList]
    refine List.flatMap_congr fun o ho => ?_
    rw [QueryDb.callAt, hshows.rows b rfl o (List.mem_range.mp ho), hstart, hargs]
    split <;> rfl
  simp only [QueryDb.foreachCalls, hdata, Option.bind_eq_bind, Option.bind_some, hglobal, Bool.false_eq_true,
    if_false]
  split_ifs with hfull
  · rw [hcalls, map_range_of_full h.length hfull]
  · rw [hcalls]
    exact foldlM_enabled h.length _

/-- The call for a cluster of globals. -/
lemma Carries.foreachCalls_global (h : bc.Carries db t none) (hcheck : checkForeach t.columns = .ok []) :
    db.foreachCalls t.columns bc = some (db.globalCalls t) := by
  obtain ⟨cs, hshows⟩ := h.shows
  obtain ⟨data, hdata, hargs⟩ := QueryDb.columnsData_spec hshows.columns hshows.typed (noIds_of_check hcheck)
  have hglobal : allGlobals t.columns = true := h.kind
  simp only [QueryDb.foreachCalls, hdata, Option.bind_eq_bind, Option.bind_some, hglobal, if_true]
  rw [QueryDb.globalCalls, hshows.globals rfl, hargs]
  rfl

end BCluster

end Calls

end Furious
