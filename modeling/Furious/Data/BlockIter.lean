import Furious.Data.Runs

/-!
The iterator over a block.

It stands at the position of the next enabled component, which it looks for by asking for the
component of each id of the block.

* `TableEntry`, `TBlockIter`: a row of a block, and the iterator with its operations;
* `TBlockIter.Remains`: the rows that it has still to give, one after the other;
* `TableBlock.Rows`: the rows of the enabled components in ascending order of their ids;
* `tblock_iterates`: **these are what it gives** on every block but the last one of the id space, in which it
  asks for the invalid id.
-/

namespace Furious

/-! ### The iterator -/

/-- `fdb_table_entry_t`. -/
structure TableEntry where
  id : ℕ
  data : Option Address
  enabled : Bool
deriving DecidableEq, Repr

/-- `fdb_table_block_get_component`, with the whole row. -/
def TableBlock.getEntry (block : TableBlock) (id : ℕ) : Option TableEntry := do
  let (_, offset) ← decodeId id
  if block.start = id / tableBlockSize * tableBlockSize then do
    let isSet ← block.enabled.isSet offset
    if isSet then do
      let enabled ← block.enabled.isSet offset
      some ⟨block.start + offset, some (block.data.add (offset * block.esize)), enabled⟩
    else some ⟨0, none, false⟩
  else none

/-- `fdb_tblock_iter_t`. -/
structure TBlockIter where
  block : Option TableBlock
  nextPosition : ℕ

namespace TBlockIter

/-- `fdb_tblock_iter_init`. -/
def init : Option TableBlock → Option TBlockIter
  | none => some ⟨none, 0⟩
  | some block => do
      let position ← block.skip tableBlockSize 0
      some ⟨some block, position⟩

/-- `fdb_tblock_iter_has_next`. -/
def hasNext (iter : TBlockIter) : Bool := iter.block.isSome && decide (iter.nextPosition < tableBlockSize)

/-- `fdb_tblock_iter_next`. -/
def next (iter : TBlockIter) : Option (TableEntry × TBlockIter) := do
  let block ← iter.block
  let entry ← block.getEntry (block.start + iter.nextPosition)
  let position := iter.nextPosition + 1
  let position ← block.skip (tableBlockSize - position) position
  some (entry, ⟨some block, position⟩)

/-- The iterator gives these rows one after the other and has no further ones. -/
def Remains : TBlockIter → List TableEntry → Prop
  | iter, [] => iter.hasNext = false
  | iter, e :: l => iter.hasNext = true ∧ ∃ iter', iter.next = some (e, iter') ∧ iter'.Remains l

end TBlockIter

namespace TableBlock

variable {block : TableBlock} {b esize : ℕ}

/-- The row of the component at a place. -/
def row (block : TableBlock) (offset : ℕ) : TableEntry :=
  ⟨block.start + offset, some (block.data.add (offset * block.esize)), true⟩

/-- The rows of the enabled components, in ascending order of their ids. -/
structure Rows (block : TableBlock) (l : List TableEntry) : Prop where
  sorted : l.Pairwise fun e f => e.id < f.id
  mem : ∀ e, e ∈ l ↔ ∃ o < tableBlockSize, block.enabled.test o = true ∧ e = block.row o

lemma rows_placesFrom (block : TableBlock) : block.Rows ((block.placesFrom 0).map block.row) := by
  have hplaces : block.placesFrom 0 = (List.range tableBlockSize).filter block.enabled.test := by
    rw [placesFrom, Nat.sub_zero, ← List.range_eq_range']
  rw [hplaces]
  refine ⟨List.pairwise_map.mpr ?_, fun e => ?_⟩
  · exact (List.pairwise_lt_range.filter _).imp fun hlt => Nat.add_lt_add_left hlt _
  · simp only [List.mem_map, List.mem_filter, List.mem_range, and_assoc, eq_comm]

/-- The row at the place of an enabled component. -/
lemma Shaped.getEntry (h : block.Shaped b esize) (hb : b + 1 < numBlocks) {o : ℕ} (ho : o < tableBlockSize)
    (ht : block.enabled.test o = true) : block.getEntry (block.start + o) = some (block.row o) := by
  have hset : block.enabled.isSet o = some true := by
    rw [Bitmap.isSet_eq (by rw [h.enabled]; exact ho), ht]
  rw [TableBlock.getEntry, h.start, decodeId_eq (id_lt hb ho), div_id ho, mod_id ho]
  simp only [Option.bind_eq_bind, Option.bind_some, if_true, hset, row, h.start]

end TableBlock

namespace TBlockIter

variable {block : TableBlock} {b esize : ℕ}

/-- The rows from a position on, at which there is an enabled component. -/
lemma remains (h : block.Shaped b esize) (hb : b + 1 < numBlocks) {l : List ℕ} {p : ℕ}
    (hl : block.placesFrom p = l) (hp : p ≤ tableBlockSize)
    (htest : p < tableBlockSize → block.enabled.test p = true) :
    (TBlockIter.mk (some block) p).Remains (l.map block.row) := by
  induction l generalizing p with
  | nil =>
      have hend : ¬ p < tableBlockSize := fun hlt => by
        rw [TableBlock.placesFrom_cons hlt (htest hlt)] at hl
        cases hl
      simp [Remains, hasNext, hend]
  | cons o l ih =>
      have hlt : p < tableBlockSize := by
        by_contra hge
        rw [TableBlock.placesFrom, Nat.sub_eq_zero_of_le (not_lt.mp hge)] at hl
        cases hl
      rw [TableBlock.placesFrom_cons hlt (htest hlt)] at hl
      obtain ⟨rfl, hrest⟩ := List.cons.inj hl
      obtain ⟨q, hskip, -, hq, hplaces, htest'⟩ :=
        TableBlock.skip_spec h hb (r := tableBlockSize - (p + 1)) (p := p + 1) (by omega)
      refine ⟨by simp [hasNext, hlt], ⟨some block, q⟩, ?_, ih (hplaces.symm.trans hrest) hq htest'⟩
      simp only [next, Option.bind_eq_bind, Option.bind_some, h.getEntry hb hlt (htest hlt), hskip]

/-- In the last block there is always a next one. -/
lemma not_remains_last (h : block.Shaped b esize) (hb : b + 1 = numBlocks) {l : List TableEntry} {p : ℕ}
    (hp : p + 1 < tableBlockSize) : ¬ (TBlockIter.mk (some block) p).Remains l := by
  induction l generalizing p with
  | nil =>
      intro hno
      have hhas : (TBlockIter.mk (some block) p).hasNext = true := by
        simp [hasNext, Nat.lt_of_succ_lt hp]
      rw [Remains, hhas] at hno
      cases hno
  | cons e l ih =>
      rintro ⟨-, iter', hnext, hrest⟩
      obtain ⟨entry, -, hnext⟩ := Option.bind_eq_some_iff.mp hnext
      obtain ⟨q, hskip, hnext⟩ := Option.bind_eq_some_iff.mp hnext
      obtain ⟨-, rfl⟩ := Prod.mk.inj (Option.some.inj hnext)
      exact ih (TableBlock.skip_last h hb (Nat.add_sub_cancel' hp.le) hp hskip) hrest

/-- **An iteration over one block**, with any of its components enabled. -/
theorem iterates_iff (h : block.Shaped b esize) (hb : b < numBlocks) :
    (∃ iter l, init (some block) = some iter ∧ iter.Remains l ∧ block.Rows l) ↔ b + 1 < numBlocks := by
  constructor
  · rintro ⟨iter, l, hinit, hremains, -⟩
    by_contra hlast
    obtain ⟨q, hskip, hinit⟩ := Option.bind_eq_some_iff.mp hinit
    obtain rfl := Option.some.inj hinit
    have hb' : b + 1 = numBlocks := by omega
    exact not_remains_last h hb' (TableBlock.skip_last h hb' (Nat.zero_add _) (by decide) hskip) hremains
  · intro hb
    obtain ⟨q, hskip, -, hq, hplaces, htest⟩ :=
      TableBlock.skip_spec h hb (r := tableBlockSize) (p := 0) (by omega)
    refine ⟨⟨some block, q⟩, _, ?_, remains h hb hplaces.symm hq htest, block.rows_placesFrom⟩
    simp only [init, hskip, Option.bind_eq_bind, Option.bind_some]

end TBlockIter

/-! ### The blocks of a table -/

/-- The block with other components enabled. -/
def TableBlock.withEnabled (block : TableBlock) (enabled : Bitmap) : TableBlock :=
  { block with enabled := enabled }

/-- **The iterator gives the enabled components**, in every run of a table and for the block of every
valid id, whichever of its components are enabled, if and only if it is not the last block. -/
theorem tblock_iterates {t t' : Table} {hist : History} {id : ℕ} {ptr : Address} {block : TableBlock}
    (h : TableRun (fun _ _ => True) t hist) (hid : id < invalidId)
    (hcreate : t.createComponent id = some (t', ptr))
    (hblock : t'.blockAt (id / tableBlockSize) = some block) {enabled : Bitmap}
    (hlen : enabled.bits.length = tableBlockSize) :
    (∃ iter l, TBlockIter.init (some (block.withEnabled enabled)) = some iter ∧ iter.Remains l
      ∧ (block.withEnabled enabled).Rows l) ↔ id < 0xffffff00 := by
  obtain ⟨⟨M, hM⟩, -⟩ := h.keeps
  obtain ⟨t₁, M', b, b', heq, hM', -⟩ := hM.create hid
  obtain ⟨rfl, -⟩ := Prod.mk.inj (Option.some.inj (heq.symm.trans hcreate))
  obtain ⟨hshaped, hlt⟩ := hM'.shaped hblock
  have hshaped' : (block.withEnabled enabled).Shaped _ _ :=
    ⟨hshaped.start, hshaped.esize, hshaped.existing, hlen⟩
  rw [TBlockIter.iterates_iff hshaped' hlt]
  have h₁ : numBlocks = 16777216 := by norm_num
  have h₂ : tableBlockSize = 256 := rfl
  rw [h₁, h₂]
  omega

/-- A block of a new table. -/
lemma exists_created {id : ℕ} (hid : id < invalidId) : ∃ t t' ptr block hist,
    TableRun (fun _ _ => True) t hist ∧ t.createComponent id = some (t', ptr)
      ∧ t'.blockAt (id / tableBlockSize) = some block := by
  have h : TableRun (fun _ _ => True) (Table.init 8 false fun _ => 0) ⟨∅, 0⟩ := TableRun.init 8 false _
  obtain ⟨t', M', block, block', heq, -, hchanges, -⟩ := (Table.Sound.init 8 false fun _ => 0).create hid
  exact ⟨_, t', _, block', _, h, heq, by rw [hchanges.blockAt, Function.update_self]⟩

/-- The component 5 alone is enabled. -/
theorem tblock_iterates_five : ∃ (block : TableBlock) (iter : TBlockIter) (l : List TableEntry),
    TBlockIter.init (some block) = some iter ∧ iter.Remains l ∧ block.Rows l
      ∧ block.enabled.bits = (List.replicate 256 false).set 5 true := by
  obtain ⟨t, t', ptr, block, hist, h, hcreate, hblock⟩ := exists_created (by decide : 5 < invalidId)
  let enabled : Bitmap := ⟨(List.replicate 256 false).set 5 true, 1, by decide +kernel⟩
  have hlen : enabled.bits.length = tableBlockSize := by decide +kernel
  obtain ⟨iter, l, hinit, hremains, hrows⟩ := (tblock_iterates h (by decide) hcreate hblock hlen).mpr (by decide)
  exact ⟨_, iter, l, hinit, hremains, hrows, rfl⟩

/-- **The block of the last ids** is not iterated, even if none of its components is enabled. -/
theorem not_tblock_iterates : ∃ t t' ptr block hist, TableRun (fun _ _ => True) t hist
    ∧ t.createComponent 0xffffff00 = some (t', ptr) ∧ t'.blockAt (0xffffff00 / tableBlockSize) = some block
    ∧ ¬ ∃ iter l, TBlockIter.init (some block) = some iter ∧ iter.Remains l ∧ block.Rows l := by
  obtain ⟨t, t', ptr, block, hist, h, hcreate, hblock⟩ := exists_created (by decide : 0xffffff00 < invalidId)
  obtain ⟨⟨M, hM⟩, -⟩ := h.keeps
  obtain ⟨t₁, M', b, b', heq, hM', -⟩ := hM.create (by decide : 0xffffff00 < invalidId)
  obtain ⟨rfl, -⟩ := Prod.mk.inj (Option.some.inj (heq.symm.trans hcreate))
  obtain ⟨hshaped, hlt⟩ := hM'.shaped hblock
  refine ⟨t, t₁, ptr, block, hist, h, hcreate, hblock, fun hall => ?_⟩
  have hlast := (TBlockIter.iterates_iff hshaped hlt).mp hall
  exact absurd hlast (by decide)

end Furious
