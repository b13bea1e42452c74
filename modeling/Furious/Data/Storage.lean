import Furious.Data.Slots
import Furious.Data.Database
import Furious.Memory.StackAllocator

/-!
The storage that users get.

The data of a block of components are a block of a pool, cut out of a chunk of 64 KiB; globals are
cut out of pages of 4 KiB by a stack allocator. That they fit is checked by assertions only, and a
release build has none.

* `PoolAlloc.Within`, `Table.Carved`: what lies inside of the chunks of a pool, and the invariant of a
  table; `Carved.step`: **it is kept**;
* `StackAlloc.allocRelease`: `fdb_stack_alloc_alloc` without its assertions; `StackAlloc.Current`,
  `allocRelease_spec`: where its allocations are;
* `Globals`, `Globals.createGlobal`, `GlobalRun`: the globals of a database, and their histories;
* `storage_fits`: **what fits**: components of at most 128 bytes, and globals of at most a page.

The destructors are left out. Between two calls anything may be written to the memory.
-/

namespace Furious

/-! ### Chunks of a pool -/

namespace PoolAlloc

variable {p q : PoolAlloc} {n : ℕ} {a : Address}

/-- The `n` bytes from `a` on lie in a chunk of the pool. -/
def Within (p : PoolAlloc) (n : ℕ) (a : Address) : Prop := a.page < p.pages ∧ a.offset + n ≤ p.pageSize

instance : Decidable (p.Within n a) := inferInstanceAs (Decidable (_ ∧ _))

lemma Within.mono (h : p.Within n a) (hpages : p.pages ≤ q.pages) (hsize : q.pageSize = p.pageSize) :
    q.Within n a := ⟨h.1.trans_le hpages, hsize ▸ h.2⟩

/-- Chunks that are large enough for a block are enough for every block. -/
lemma Within.alloc (hconf : p.Configured) (hfreed : ∀ a ∈ p.freed, p.Within p.blockSize a)
    (h : p.alloc = (a, q)) : q.Within p.blockSize a ∧ p.pages ≤ q.pages ∧ q.pageSize = p.pageSize
      ∧ q.blockSize = p.blockSize ∧ q.growOffset = p.growOffset
      ∧ ∀ b ∈ q.freed, q.Within p.blockSize b := by
  obtain ⟨blockSize, pageSize, growOffset, nextFree, pages, freed⟩ := p
  have hconf' : growOffset + blockSize ≤ pageSize := hconf
  cases freed with
  | cons b freed =>
      obtain ⟨rfl, rfl⟩ := Prod.mk.inj h
      exact ⟨hfreed _ List.mem_cons_self, le_rfl, rfl, rfl, rfl,
        fun c hc => hfreed c (List.mem_cons_of_mem _ hc)⟩
  | nil =>
      rw [PoolAlloc.alloc] at h
      dsimp only at h
      by_cases hp : pages = 0
      · -- the first chunk
        rw [if_pos hp] at h
        dsimp only at h
        rw [if_pos hconf'] at h
        obtain ⟨rfl, rfl⟩ := Prod.mk.inj h
        exact ⟨⟨Nat.one_pos, hconf'⟩, hp ▸ Nat.zero_le 1, rfl, rfl, rfl,
          fun b hb => absurd hb List.not_mem_nil⟩
      · rw [if_neg hp] at h
        by_cases hroom : nextFree + blockSize ≤ pageSize
        · rw [if_pos hroom] at h
          obtain ⟨rfl, rfl⟩ := Prod.mk.inj h
          exact ⟨⟨Nat.sub_lt (Nat.pos_of_ne_zero hp) Nat.one_pos, hroom⟩, le_rfl, rfl, rfl, rfl,
            fun b hb => absurd hb List.not_mem_nil⟩
        · rw [if_neg hroom] at h
          obtain ⟨rfl, rfl⟩ := Prod.mk.inj h
          exact ⟨⟨Nat.lt_succ_self _, hconf'⟩, Nat.le_succ _, rfl, rfl, rfl,
            fun b hb => absurd hb List.not_mem_nil⟩

end PoolAlloc

namespace Table

/-- The data of the blocks lie in chunks of the pool, and so do those that were given back. -/
structure Carved (t : Table) : Prop where
  configured : t.dataAllocator.Configured
  le : t.esize * tableBlockSize ≤ t.dataAllocator.blockSize
  freed : ∀ a ∈ t.dataAllocator.freed, t.dataAllocator.Within t.dataAllocator.blockSize a
  data : ∀ p block, t.tblockAllocator.get p = some block →
    t.dataAllocator.Within t.dataAllocator.blockSize block.data

end Table

namespace TableBlock

variable {block block' : TableBlock} {o : ℕ}

lemma create_data (h : block.create o = some block') : block'.data = block.data := by
  obtain ⟨isSet, -, h⟩ := Option.bind_eq_some_iff.mp h
  obtain ⟨existing, -, h⟩ := Option.bind_eq_some_iff.mp h
  obtain ⟨enabled, -, h⟩ := Option.bind_eq_some_iff.mp h
  rw [← Option.some.inj h]

lemma destroy_data (h : block.destroy o = some block') : block'.data = block.data := by
  obtain ⟨isSet, -, h⟩ := Option.bind_eq_some_iff.mp h
  obtain ⟨existing, -, h⟩ := Option.bind_eq_some_iff.mp h
  obtain ⟨enabled, -, h⟩ := Option.bind_eq_some_iff.mp h
  rw [← Option.some.inj h]

lemma enable_data (h : block.enable o = some block') : block'.data = block.data := by
  obtain ⟨enabled, -, h⟩ := Option.bind_eq_some_iff.mp h
  rw [← Option.some.inj h]

lemma disable_data (h : block.disable o = some block') : block'.data = block.data := by
  obtain ⟨enabled, -, h⟩ := Option.bind_eq_some_iff.mp h
  rw [← Option.some.inj h]

end TableBlock

namespace Table.Carved

variable {t t' : Table} {id esize : ℕ} {a : Address}

lemma init (h : Fits esize) (destructor : Bool) (memory : Address → UInt8) :
    (Table.init esize destructor memory).Carved := by
  have halloc : (Table.init esize destructor memory).dataAllocator = PoolAlloc.init
      tableBlockDataAlignment (esize * tableBlockSize) tableBlockDataPageSize := by
    rw [Table.init, Nat.mod_eq_of_lt h.lt]
  refine ⟨halloc ▸ h, ?_, fun a ha => absurd ha List.not_mem_nil, fun p block hp => ?_⟩
  · rw [halloc]
    exact PoolAlloc.le_blockSize _
  · rw [Table.init, Pool.get_empty] at hp
    cases hp

/-- A block changes, and its data stay where they are. -/
lemma put (h : t.Carved) {p : ℕ} {block block' : TableBlock} (hget : t.tblockAllocator.get p = some block)
    (hdata : block'.data = block.data) {tblockAllocator : Pool TableBlock}
    (hput : t.tblockAllocator.put p block' = some tblockAllocator) (hesize : t'.esize = t.esize)
    (hdataAllocator : t'.dataAllocator = t.dataAllocator) (ht' : t'.tblockAllocator = tblockAllocator) :
    t'.Carved := by
  obtain ⟨pool, hpool, hupdate⟩ := Pool.get_put hget block'
  obtain rfl := Option.some.inj (hpool.symm.trans hput)
  refine ⟨hdataAllocator ▸ h.configured, hesize ▸ hdataAllocator ▸ h.le, hdataAllocator ▸ h.freed,
    fun q b hq => ?_⟩
  rw [ht', hupdate] at hq
  rw [hdataAllocator]
  by_cases hqp : q = p
  · rw [hqp, Function.update_self] at hq
    rw [← Option.some.inj hq, hdata]
    exact h.data p block hget
  · rw [Function.update_of_ne hqp] at hq
    exact h.data q b hq

/-- A missing block is created. -/
lemma createBlock (h : t.Carved) {blockId p : ℕ} (hcall : t.createBlock blockId = some (t', p)) :
    t'.Carved := by
  obtain ⟨found, hget, hcall⟩ := Option.bind_eq_some_iff.mp hcall
  cases found with
  | some q =>
      obtain rfl := (Prod.mk.inj (Option.some.inj hcall)).1
      exact h
  | none =>
      obtain ⟨⟨data, q⟩, hdata⟩ : ∃ r, t.dataAllocator.alloc = r := ⟨_, rfl⟩
      obtain ⟨hwithin, hpages, hpage, hsize, hgrow, hfreed⟩ := PoolAlloc.Within.alloc h.configured h.freed hdata
      obtain ⟨a, pool, hpool, -, hupdate⟩ :=
        t.tblockAllocator.get_alloc (TableBlock.init data (blockId * tableBlockSize) t.esize)
      simp only [hdata, hpool] at hcall
      obtain ⟨⟨blocks, ins⟩, -, hcall⟩ := Option.bind_eq_some_iff.mp hcall
      obtain rfl := (Prod.mk.inj (Option.some.inj hcall)).1
      refine ⟨?_, hsize ▸ h.le, hsize ▸ hfreed, fun c block hc => ?_⟩
      · have hconf : t.dataAllocator.growOffset + t.dataAllocator.blockSize ≤ t.dataAllocator.pageSize :=
          h.configured
        rwa [← hgrow, ← hsize, ← hpage] at hconf
      · dsimp only at hc ⊢
        rw [hupdate] at hc
        rw [hsize]
        by_cases hca : c = a
        · rw [hca, Function.update_self] at hc
          rw [← Option.some.inj hc]
          exact hwithin
        · rw [Function.update_of_ne hca] at hc
          exact (h.data c block hc).mono hpages hpage

/-- **A slot** lies in a chunk. -/
lemma slot (h : t.Carved) {p o : ℕ} {block : TableBlock} (hget : t.tblockAllocator.get p = some block)
    (ho : o < tableBlockSize) : t.dataAllocator.Within t.esize (block.data.add (o * t.esize)) := by
  obtain ⟨hpage, hroom⟩ := h.data p block hget
  refine ⟨hpage, ?_⟩
  have hle := h.le
  have hlast : (o + 1) * t.esize ≤ tableBlockSize * t.esize := Nat.mul_le_mul_right _ ho
  rw [Nat.succ_mul] at hlast
  rw [Nat.mul_comm] at hle
  rw [Address.add]
  dsimp only
  omega

/-- **`fdb_table_create_component`**: the slot lies in a chunk. -/
theorem create (h : t.Carved) (hcall : t.createComponent id = some (t', a)) :
    t'.Carved ∧ t'.dataAllocator.Within t'.esize a := by
  obtain ⟨⟨b, o⟩, hdecode, hcall⟩ := Option.bind_eq_some_iff.mp hcall
  obtain ⟨⟨t₁, p⟩, hcreate, hcall⟩ := Option.bind_eq_some_iff.mp hcall
  obtain ⟨block, hget, hcall⟩ := Option.bind_eq_some_iff.mp hcall
  obtain ⟨isSet, -, hcall⟩ := Option.bind_eq_some_iff.mp hcall
  obtain ⟨block', hblock, hcall⟩ := Option.bind_eq_some_iff.mp hcall
  obtain ⟨pool, hput, hcall⟩ := Option.bind_eq_some_iff.mp hcall
  obtain ⟨rfl, rfl⟩ := Prod.mk.inj (Option.some.inj hcall)
  have h₁ : t₁.Carved := h.createBlock hcreate
  have hdata : block'.data = block.data := TableBlock.create_data hblock
  refine ⟨h₁.put hget hdata hput rfl rfl rfl, ?_⟩
  have ho : o < tableBlockSize := by
    rw [decodeId] at hdecode
    split at hdecode
    · rw [← (Prod.mk.inj (Option.some.inj hdecode)).2]
      exact offset_lt id
    · cases hdecode
  rw [hdata]
  exact h₁.slot hget ho

/-- A change of a block. -/
lemma changeBlock (h : t.Carved) {change : TableBlock → ℕ → Option TableBlock}
    (hchange : ∀ block o block', change block o = some block' → block'.data = block.data)
    (hcall : t.changeBlock id change = some t') : t'.Carved := by
  obtain ⟨⟨b, o⟩, -, hcall⟩ := Option.bind_eq_some_iff.mp hcall
  obtain ⟨found, -, hcall⟩ := Option.bind_eq_some_iff.mp hcall
  cases found with
  | none =>
      obtain rfl := Option.some.inj hcall
      exact h
  | some p =>
      obtain ⟨block, hget, hcall⟩ := Option.bind_eq_some_iff.mp hcall
      obtain ⟨block', hblock, hcall⟩ := Option.bind_eq_some_iff.mp hcall
      obtain ⟨pool, hput, hcall⟩ := Option.bind_eq_some_iff.mp hcall
      obtain rfl := Option.some.inj hcall
      exact h.put hget (hchange _ _ _ hblock) hput rfl rfl rfl

lemma destroy (h : t.Carved) (hcall : t.destroyComponent id = some t') : t'.Carved := by
  obtain ⟨⟨b, o⟩, -, hcall⟩ := Option.bind_eq_some_iff.mp hcall
  obtain ⟨found, -, hcall⟩ := Option.bind_eq_some_iff.mp hcall
  cases found with
  | none =>
      obtain rfl := Option.some.inj hcall
      exact h
  | some p =>
      obtain ⟨block, hget, hcall⟩ := Option.bind_eq_some_iff.mp hcall
      obtain ⟨isSet, -, hcall⟩ := Option.bind_eq_some_iff.mp hcall
      obtain ⟨block', hblock, hcall⟩ := Option.bind_eq_some_iff.mp hcall
      obtain ⟨pool, hput, hcall⟩ := Option.bind_eq_some_iff.mp hcall
      obtain rfl := Option.some.inj hcall
      exact h.put hget (TableBlock.destroy_data hblock) hput rfl rfl rfl

/-- A block that is given back. -/
lemma releaseBlock (h : t.Carved) {p : ℕ} (hcall : t.releaseBlock p = some t') : t'.Carved := by
  obtain ⟨block, hget, hcall⟩ := Option.bind_eq_some_iff.mp hcall
  obtain ⟨calls, hcall⟩ : ∃ calls, ((t.tblockAllocator.release p).bind fun tblockAllocator =>
      some { t with
        tblockAllocator := tblockAllocator
        dataAllocator := t.dataAllocator.free block.data
        destroyed := t.destroyed ++ calls }) = some t' := by
    dsimp only at hcall
    by_cases hd : t.destructor = true
    · rw [if_pos hd] at hcall
      obtain ⟨calls, -, hcall⟩ := Option.bind_eq_some_iff.mp hcall
      exact ⟨calls, hcall⟩
    · rw [if_neg hd] at hcall
      exact ⟨[], hcall⟩
  obtain ⟨pool, hrelease, hcall⟩ := Option.bind_eq_some_iff.mp hcall
  obtain ⟨pool', hpool, hupdate⟩ := Pool.get_release hget
  obtain rfl := Option.some.inj (hpool.symm.trans hrelease)
  obtain rfl := Option.some.inj hcall
  refine ⟨h.configured, h.le, List.forall_mem_cons.mpr ⟨h.data p block hget, h.freed⟩, fun q b hq => ?_⟩
  dsimp only at hq
  rw [hupdate] at hq
  by_cases hqp : q = p
  · rw [hqp, Function.update_self] at hq
    cases hq
  · rw [Function.update_of_ne hqp] at hq
    exact h.data q b hq

lemma clearBlocks {fuel : ℕ} {iter : TableIter} (h : t.Carved)
    (hcall : clearBlocks fuel t iter = some t') : t'.Carved := by
  induction fuel generalizing t iter with
  | zero => cases hcall
  | succ fuel ih =>
      obtain ⟨⟨more, iter₁⟩, -, hcall⟩ := Option.bind_eq_some_iff.mp hcall
      cases more with
      | false =>
          obtain rfl := Option.some.inj hcall
          exact h
      | true =>
          obtain ⟨⟨next, iter₂⟩, -, hcall⟩ := Option.bind_eq_some_iff.mp hcall
          obtain ⟨p, -, hcall⟩ := Option.bind_eq_some_iff.mp hcall
          obtain ⟨t₁, hrelease, hcall⟩ := Option.bind_eq_some_iff.mp hcall
          exact ih (h.releaseBlock hrelease) hcall

lemma clear (h : t.Carved) (hcall : t.clear = some t') : t'.Carved := by
  obtain ⟨iter, -, hcall⟩ := Option.bind_eq_some_iff.mp hcall
  obtain ⟨t₁, hclear, hcall⟩ := Option.bind_eq_some_iff.mp hcall
  obtain ⟨blocks, -, hcall⟩ := Option.bind_eq_some_iff.mp hcall
  obtain rfl := Option.some.inj hcall
  have h₁ := h.clearBlocks hclear
  exact ⟨h₁.configured, h₁.le, h₁.freed, h₁.data⟩

/-- **Every operation** keeps the data in the chunks. -/
theorem step (h : t.Carved) {op : TableOp} {ptr : Option Address} (hcall : op.call t = some (t', ptr)) :
    t'.Carved := by
  cases op with
  | create id =>
      obtain ⟨⟨t₁, ptr⟩, hcreate, heq⟩ := Option.map_eq_some_iff.mp hcall
      obtain rfl := (Prod.mk.inj heq).1
      exact (h.create hcreate).1
  | destroy id =>
      obtain ⟨t₁, hdestroy, heq⟩ := Option.map_eq_some_iff.mp hcall
      obtain rfl := (Prod.mk.inj heq).1
      exact h.destroy hdestroy
  | enable id =>
      obtain ⟨t₁, henable, heq⟩ := Option.map_eq_some_iff.mp hcall
      obtain rfl := (Prod.mk.inj heq).1
      exact h.changeBlock (fun _ _ _ => TableBlock.enable_data) henable
  | disable id =>
      obtain ⟨t₁, hdisable, heq⟩ := Option.map_eq_some_iff.mp hcall
      obtain rfl := (Prod.mk.inj heq).1
      exact h.changeBlock (fun _ _ _ => TableBlock.disable_data) hdisable
  | clear =>
      obtain ⟨t₁, hclear, heq⟩ := Option.map_eq_some_iff.mp hcall
      obtain rfl := (Prod.mk.inj heq).1
      exact h.clear hclear

end Table.Carved

namespace Table

/-- The blocks of a size fit the pool up to half of a chunk: the other half is lost to its header. -/
lemma fits_iff {esize : ℕ} : Fits esize ↔ esize ≤ 128 := by
  have halign : (if tableBlockDataAlignment > minAlignment then tableBlockDataAlignment else minAlignment)
      = 64 := by decide
  rw [Fits, PoolAlloc.Configured, PoolAlloc.init, halign]
  dsimp only [headerSize, tableBlockSize, tableBlockDataPageSize]
  split_ifs <;> omega

/-- The slots of a table with components of `esize` bytes lie in the chunks of its pool. -/
def SlotsFit (esize : ℕ) : Prop :=
  ∀ t hist, TableRun (fun _ _ => True) t hist → t.esize = esize → ∀ id < invalidId,
    ∃ t' a, t.createComponent id = some (t', a) ∧ t'.dataAllocator.Within esize a

lemma carved {t : Table} {hist : History} (h : TableRun (fun _ _ => True) t hist) (hfits : Fits t.esize) :
    t.Carved := by
  induction h with
  | init esize destructor memory => exact Carved.init hfits destructor memory
  | step h op valid _ hcall ih =>
      obtain ⟨⟨M, hsound⟩, -⟩ := h.keeps
      obtain ⟨-, hstep⟩ := hsound.step valid hcall
      rw [hstep.fixed.1] at hfits
      exact (ih hfits).step hcall

/-- The header is at least as large as a block. -/
lemma roundUp_init (n : ℕ) :
    n ≤ (PoolAlloc.init tableBlockDataAlignment n tableBlockDataPageSize).growOffset := by
  have halign : (if tableBlockDataAlignment > minAlignment then tableBlockDataAlignment else minAlignment)
      = 64 := by decide
  rw [PoolAlloc.init, halign]
  dsimp only [headerSize]
  split_ifs <;> omega

/-- The first block of a pool comes behind the header of a chunk. -/
lemma alloc_first {p : PoolAlloc} (hfreed : p.freed = []) (hpages : p.pages = 0) :
    p.alloc.1.offset = p.growOffset ∧ p.alloc.2.pageSize = p.pageSize := by
  obtain ⟨blockSize, pageSize, growOffset, nextFree, pages, freed⟩ := p
  obtain rfl : freed = [] := hfreed
  obtain rfl : pages = 0 := hpages
  rw [PoolAlloc.alloc]
  dsimp only
  rw [if_pos rfl]
  dsimp only
  split <;> exact ⟨rfl, rfl⟩

/-- The last slot of the first block does not fit if the components are too large. -/
lemma slot_over {esize : ℕ} (h : 128 < esize) : ∃ t' a,
    (Table.init esize false fun _ => 0).createComponent 255 = some (t', a)
      ∧ ¬ t'.dataAllocator.Within esize a := by
  obtain ⟨t', M, block, block', hcreate, -, -, -, hold, -⟩ :=
    (Sound.init esize false fun _ => 0).create (by decide : 255 < invalidId)
  refine ⟨t', _, hcreate, fun hwithin => ?_⟩
  have hnone : (Table.init esize false fun _ => 0).blockAt (255 / tableBlockSize) = none := by
    rw [(Sound.init esize false fun _ => 0).blockAt_eq, Finmap.lookup_empty]
    rfl
  rcases hold with ⟨hb, -⟩ | ⟨-, rfl, hdata⟩
  · rw [hnone] at hb
    cases hb
  · obtain ⟨q, hq⟩ : ∃ q, PoolAlloc.init tableBlockDataAlignment (esize * tableBlockSize % 2 ^ 32)
      tableBlockDataPageSize = q := ⟨_, rfl⟩
    have hgrow := roundUp_init (esize * tableBlockSize % 2 ^ 32)
    have hsize : q.pageSize = tableBlockDataPageSize := hq ▸ rfl
    obtain ⟨hoffset, hpage⟩ : q.alloc.1.offset = q.growOffset ∧ q.alloc.2.pageSize = q.pageSize :=
      alloc_first (hq ▸ rfl) (hq ▸ rfl)
    have hend : q.alloc.1.offset + 255 % tableBlockSize * esize + esize ≤ q.alloc.2.pageSize := by
      rw [← hq]
      exact (hdata ▸ hwithin).2
    rw [hoffset, hpage, hsize] at hend
    rw [hq] at hgrow
    dsimp only [tableBlockSize, tableBlockDataPageSize] at hend hgrow
    omega

/-- **The slots of a table** lie in the chunks of its pool if the components are of at most 128 bytes. -/
theorem slotsFit_iff (esize : ℕ) : SlotsFit esize ↔ esize ≤ 128 := by
  constructor
  · intro h
    by_contra hlt
    obtain ⟨t', a, hcreate, hout⟩ := slot_over (not_le.mp hlt)
    obtain ⟨t₁, b, hcreate', hwithin⟩ := h _ _ (.init esize false fun _ => 0) rfl 255 (by decide)
    obtain ⟨rfl, rfl⟩ := Prod.mk.inj (Option.some.inj (hcreate.symm.trans hcreate'))
    exact hout hwithin
  · intro h t hist hrun hesize id hid
    obtain ⟨⟨M, hsound⟩, -⟩ := hrun.keeps
    obtain ⟨t', M', block, block', hcreate, -, hc, -⟩ := hsound.create hid
    have hwithin := ((carved hrun (hesize ▸ fits_iff.mpr h)).create hcreate).2
    rw [hc.esize, hesize] at hwithin
    rw [hesize] at hcreate
    exact ⟨t', _, hcreate, hwithin⟩

end Table

/-! ### The stack allocator in a release build -/

namespace StackAlloc

/-- A new data page. -/
def takePage (c : StackAlloc) : List ℕ → Option (StackAlloc × List ℕ)
  | [] => none
  | page :: parent => some ({ c with nextPage := page, nextOffset := 0 }, parent)

/-- The data page of the next allocation, and what is left out before it. -/
def roomRelease (c : StackAlloc) (parent : List ℕ) (alignment size : ℕ) :
    Option (StackAlloc × ℕ × List ℕ) :=
  let slack := c.slack alignment
  if c.pageSize ≤ add32 (add32 c.nextOffset slack) size ∨ c.nextPage = 0 then do
    let (c, parent) ← c.takePage parent
    some (c, 0, parent)
  else some (c, slack, parent)

/-- A data page that has been filled up is followed by a new one. -/
def turnRelease (c : StackAlloc) (parent : List ℕ) : Option (StackAlloc × List ℕ) :=
  if c.nextOffset = c.pageSize then c.takePage parent else some (c, parent)

/-- `fdb_stack_alloc_alloc` without its assertions: the size is cut off at 32 bits. -/
def allocRelease (c : StackAlloc) (m : Mem) (parent : List ℕ) (alignment size : ℕ) :
    Option (ℕ × StackAlloc × Mem × List ℕ) := do
  let size := size % 2 ^ 32
  let (c, slack, parent) ← c.roomRelease parent alignment size
  let (c, m, parent) ← c.frame m parent
  let addr := c.nextPage + c.nextOffset + slack
  let m := c.record m addr
  let c := { c with nextOffset := add32 c.nextOffset (add32 slack size) }
  let (c, parent) ← c.turnRelease parent
  some (addr, c, m, parent)

variable {c c' : StackAlloc} {m m' : Mem} {held rest parent : List ℕ} {alignment size addr slack : ℕ}

/-- The next allocation comes in a page that is held, and before its end. -/
structure Current (c : StackAlloc) (held : List ℕ) : Prop where
  small : c.pageSize ≤ 2 ^ 30
  page : c.nextPage = 0 ∨ c.nextPage ∈ held
  offset : c.nextOffset < c.pageSize

/-- The `size` bytes from `addr` on lie in one of the pages. -/
def Inside (pageSize : ℕ) (held : List ℕ) (addr size : ℕ) : Prop :=
  ∃ page ∈ held, page ≤ addr ∧ addr + size ≤ page + pageSize

lemma Inside.mono {pageSize : ℕ} {held' : List ℕ} (h : Inside pageSize held addr size)
    (hsub : held ⊆ held') : Inside pageSize held' addr size := by
  obtain ⟨page, hpage, hroom⟩ := h
  exact ⟨page, hsub hpage, hroom⟩

/-- Less is left out than what the alignment asks for. -/
lemma slack_lt (c : StackAlloc) (hal : alignment ≤ 2 ^ 30) : c.slack alignment < 2 ^ 30 := by
  have hleast : 0 < (if alignment > minAlignment then alignment else minAlignment)
      ∧ (if alignment > minAlignment then alignment else minAlignment) ≤ 2 ^ 30 := by
    dsimp only [minAlignment]
    split <;> omega
  obtain ⟨least, hl⟩ : ∃ least, (if alignment > minAlignment then alignment else minAlignment) = least :=
    ⟨_, rfl⟩
  rw [hl] at hleast
  have hmod : ((c.nextPage + c.nextOffset) &&& (least - 1)) % 2 ^ 32 ≤ least - 1 :=
    (Nat.mod_le _ _).trans Nat.and_le_right
  rw [slack, hl]
  split_ifs with hzero
  · rw [sub32]
    omega
  · norm_num

/-- A new data page. -/
lemma takePage_spec (held : List ℕ) (h : c.takePage parent = some (c', rest))
    (hsmall : c.pageSize ≤ 2 ^ 30) (hpos : 0 < c.pageSize) : ∃ taken, parent = taken ++ rest
      ∧ c'.Current (held ++ taken) ∧ c'.pageSize = c.pageSize ∧ c'.nextOffset = 0
      ∧ c'.nextPage ∈ held ++ taken := by
  cases parent with
  | nil => cases h
  | cons page parent =>
      obtain ⟨rfl, rfl⟩ := Prod.mk.inj (Option.some.inj h)
      have hmem : page ∈ held ++ [page] := List.mem_append_right _ List.mem_cons_self
      exact ⟨[page], rfl, ⟨hsmall, Or.inr hmem, hpos⟩, rfl, rfl, hmem⟩

/-- **The room of an allocation** of at most a page. -/
lemma Current.room (h : c.Current held) (hal : alignment ≤ 2 ^ 30) (hsize : size ≤ c.pageSize)
    (hroom : c.roomRelease parent alignment size = some (c', slack, rest)) : ∃ taken,
      parent = taken ++ rest ∧ c'.pageSize = c.pageSize ∧ c'.nextPage ∈ held ++ taken
      ∧ c'.nextOffset + slack + size ≤ c.pageSize := by
  have hsmall := h.small
  have hoff := h.offset
  have hslack := c.slack_lt hal
  rw [roomRelease] at hroom
  dsimp only at hroom
  by_cases hnew : c.pageSize ≤ add32 (add32 c.nextOffset (c.slack alignment)) size ∨ c.nextPage = 0
  · rw [if_pos hnew] at hroom
    obtain ⟨⟨c₁, rest₁⟩, htake, hroom⟩ := Option.bind_eq_some_iff.mp hroom
    obtain ⟨rfl, hpair⟩ := Prod.mk.inj (Option.some.inj hroom)
    obtain ⟨rfl, rfl⟩ := Prod.mk.inj hpair
    obtain ⟨taken, rfl, -, hp, ho, hmem⟩ := takePage_spec held htake hsmall (by omega)
    have hfits : c₁.nextOffset + 0 + size ≤ c.pageSize := by
      rw [ho]
      omega
    exact ⟨taken, rfl, hp, hmem, hfits⟩
  · rw [if_neg hnew] at hroom
    obtain ⟨rfl, hpair⟩ := Prod.mk.inj (Option.some.inj hroom)
    obtain ⟨rfl, rfl⟩ := Prod.mk.inj hpair
    rw [not_or, add32, add32] at hnew
    refine ⟨[], rfl, rfl, ?_, by omega⟩
    rw [List.append_nil]
    exact h.page.resolve_left hnew.2

/-- The frames come in pages of their own. -/
lemma frame_spec (h : c.frame m parent = some (c', m', rest)) : ∃ taken, parent = taken ++ rest
    ∧ c'.pageSize = c.pageSize ∧ c'.nextPage = c.nextPage ∧ c'.nextOffset = c.nextOffset := by
  unfold frame at h
  by_cases hnew : c.lastFrame = 0 ∨ Frame.nextFree m c.lastFrame = c.maxFrameOffset
  · rw [if_pos hnew] at h
    cases parent with
    | nil => cases h
    | cons newFrame parent =>
        obtain ⟨rfl, hpair⟩ := Prod.mk.inj (Option.some.inj h)
        obtain ⟨-, rfl⟩ := Prod.mk.inj hpair
        exact ⟨[newFrame], rfl, rfl, rfl, rfl⟩
  · rw [if_neg hnew] at h
    obtain ⟨rfl, hpair⟩ := Prod.mk.inj (Option.some.inj h)
    obtain ⟨-, rfl⟩ := Prod.mk.inj hpair
    exact ⟨[], rfl, rfl, rfl, rfl⟩

/-- **`fdb_stack_alloc_alloc`** gives memory inside of a page, if no more than a page is asked for. -/
theorem Current.allocRelease (h : c.Current held) (hal : alignment ≤ 2 ^ 30) (hsize : size ≤ c.pageSize)
    (halloc : c.allocRelease m parent alignment size = some (addr, c', m', rest)) : ∃ taken,
      parent = taken ++ rest ∧ c'.Current (held ++ taken) ∧ c'.pageSize = c.pageSize
      ∧ Inside c.pageSize (held ++ taken) addr size := by
  have hsmall := h.small
  have hoff := h.offset
  have hmod : size % 2 ^ 32 = size := Nat.mod_eq_of_lt (by omega)
  rw [StackAlloc.allocRelease, hmod] at halloc
  obtain ⟨⟨c₁, slack, rest₁⟩, hroom, halloc⟩ := Option.bind_eq_some_iff.mp halloc
  obtain ⟨⟨c₂, m₂, rest₂⟩, hframe, halloc⟩ := Option.bind_eq_some_iff.mp halloc
  obtain ⟨⟨c₃, rest₃⟩, hturn, halloc⟩ := Option.bind_eq_some_iff.mp halloc
  obtain ⟨rfl, hrest⟩ := Prod.mk.inj (Option.some.inj halloc)
  obtain ⟨rfl, hlast⟩ := Prod.mk.inj hrest
  obtain ⟨-, rfl⟩ := Prod.mk.inj hlast
  obtain ⟨taken₁, rfl, hsize₁, hpage₁, hfits⟩ := h.room hal hsize hroom
  obtain ⟨taken₂, rfl, hsize₂, hpage₂, hoffset₂⟩ := frame_spec hframe
  have hadd : add32 c₂.nextOffset (add32 slack size) = c₁.nextOffset + slack + size := by
    rw [hoffset₂, add32, add32]
    omega
  have hinside : Inside c.pageSize (held ++ taken₁) (c₂.nextPage + c₂.nextOffset + slack) size := by
    refine ⟨c₁.nextPage, hpage₁, ?_, ?_⟩
    · omega
    · omega
  rw [turnRelease] at hturn
  dsimp only at hturn
  rw [hadd, hsize₂, hsize₁] at hturn
  by_cases hfull : c₁.nextOffset + slack + size = c.pageSize
  · rw [if_pos hfull] at hturn
    obtain ⟨taken₃, rfl, hcurrent, hp, -, -⟩ := takePage_spec (held ++ (taken₁ ++ taken₂))
      hturn hsmall (Nat.zero_lt_of_lt hoff)
    rw [List.append_assoc held] at hcurrent
    refine ⟨taken₁ ++ taken₂ ++ taken₃, by simp, hcurrent, by omega, hinside.mono ?_⟩
    rw [List.append_assoc taken₁, ← List.append_assoc held]
    exact List.subset_append_left _ _
  · rw [if_neg hfull] at hturn
    obtain ⟨rfl, rfl⟩ := Prod.mk.inj (Option.some.inj hturn)
    refine ⟨taken₁ ++ taken₂, (List.append_assoc _ _ _).symm,
      ⟨hsmall, Or.inr ?_, lt_of_le_of_ne hfits hfull⟩, rfl, hinside.mono ?_⟩
    · rw [hpage₂, ← List.append_assoc]
      exact List.mem_append_left _ hpage₁
    · rw [← List.append_assoc]
      exact List.subset_append_left _ _

end StackAlloc

/-! ### Globals -/

/-- `FDB_DATABASE_GLOBAL_PAGE_SIZE`. -/
abbrev databaseGlobalPageSize : ℕ := 4 * 1024

/-- The size and the alignment of `fdb_global_info_t`. -/
abbrev globalInfoSize : ℕ := 64

/-- `fdb_database_t`, of which the globals, with the memory. -/
structure Globals where
  globals : BTree ℕ
  globalAllocator : StackAlloc
  mem : Mem

namespace Globals

/-- `fdb_database_init`. -/
def init (mem : Mem) : Globals where
  globals := BTree.init
  globalAllocator := StackAlloc.init databaseGlobalPageSize
  mem := mem

/-- What `fdb_database_create_global` and `fdb_database_find_or_create_global` do if they find no
global: the address of the global, and the pages of the parent that have not been taken. -/
def newGlobal (db : Globals) (name : CString) (gsize dstr : ℕ) (parent : List ℕ) :
    Option (Globals × ℕ × List ℕ) := do
  let hashValue := getTableId name
  let (info, alloc, mem, parent) ← db.globalAllocator.allocRelease db.mem parent 64 globalInfoSize
  let (addr, alloc, mem, parent) ← alloc.allocRelease mem parent 64 gsize
  let mem := storeWord (storeWord mem info addr) (info + 8) dstr
  let (globals, _) ← db.globals.insert hashValue info
  some ({ globals := globals, globalAllocator := alloc, mem := mem }, addr, parent)

/-- `fdb_database_create_global`: a null pointer if there is a global. -/
def createGlobal (db : Globals) (name : CString) (gsize dstr : ℕ) (parent : List ℕ) :
    Option (Globals × Option ℕ × List ℕ) := do
  match ← db.globals.get (getTableId name) with
  | some _ => some (db, none, parent)
  | none => do
      let (db, addr, parent) ← db.newGlobal name gsize dstr parent
      some (db, some addr, parent)

/-- `fdb_database_find_or_create_global`. -/
def findOrCreateGlobal (db : Globals) (name : CString) (gsize dstr : ℕ) (parent : List ℕ) :
    Option (Globals × ℕ × List ℕ) := do
  match ← db.globals.get (getTableId name) with
  | some info => some (db, loadWord db.mem info, parent)
  | none => db.newGlobal name gsize dstr parent

/-- `fdb_database_remove_global`: `fdb_stack_alloc_free` does nothing. -/
def removeGlobal (db : Globals) (name : CString) : Option Globals := do
  match ← db.globals.get (getTableId name) with
  | none => some db
  | some _ => do
      let (globals, _) ← db.globals.remove (getTableId name)
      some { db with globals := globals }

/-- The globals in `fdb_database_clear`. -/
def clear (db : Globals) : Option Globals := do
  let globals ← db.globals.clear
  some { db with globals := globals }

end Globals

/-- The histories of the globals of a database, with the pages that the allocator has obtained, and the
addresses and sizes of the globals that were created. The pages of the parent are any. -/
inductive GlobalRun : Globals → List ℕ → List (ℕ × ℕ) → Prop
  | init (mem : Mem) : GlobalRun (Globals.init mem) [] []
  | create {db db' : Globals} {held taken : List ℕ} {made : List (ℕ × ℕ)} {name : CString} {gsize dstr : ℕ}
      {ptr : Option ℕ} (h : GlobalRun db held made)
      (hcall : db.createGlobal name gsize dstr taken = some (db', ptr, [])) :
      GlobalRun db' (held ++ taken) ((ptr.map fun addr => (addr, gsize)).toList ++ made)
  | findOrCreate {db db' : Globals} {held taken : List ℕ} {made : List (ℕ × ℕ)} {name : CString}
      {gsize dstr addr : ℕ} {found : Option ℕ} (h : GlobalRun db held made)
      (hfound : db.globals.get (getTableId name) = some found)
      (hcall : db.findOrCreateGlobal name gsize dstr taken = some (db', addr, [])) :
      GlobalRun db' (held ++ taken) ((if found = none then [(addr, gsize)] else []) ++ made)
  | remove {db db' : Globals} {held : List ℕ} {made : List (ℕ × ℕ)} {name : CString}
      (h : GlobalRun db held made) (hcall : db.removeGlobal name = some db') : GlobalRun db' held made
  | clear {db db' : Globals} {held : List ℕ} {made : List (ℕ × ℕ)} (h : GlobalRun db held made)
      (hcall : db.clear = some db') : GlobalRun db' held made
  | write {db : Globals} {held : List ℕ} {made : List (ℕ × ℕ)} (h : GlobalRun db held made) (mem : Mem) :
      GlobalRun { db with mem := mem } held made

/-- Every global that was created lies in a page that the allocator has obtained. -/
def GlobalsFit (held : List ℕ) (made : List (ℕ × ℕ)) : Prop :=
  ∀ r ∈ made, StackAlloc.Inside databaseGlobalPageSize held r.1 r.2

namespace Globals

variable {db db' : Globals} {held rest parent : List ℕ} {made : List (ℕ × ℕ)} {name : CString}
  {gsize dstr addr : ℕ}

/-- The next global comes in a page that is held. -/
structure Ready (db : Globals) (held : List ℕ) : Prop where
  current : db.globalAllocator.Current held
  pageSize : db.globalAllocator.pageSize = databaseGlobalPageSize

/-- **A new global** of at most a page. -/
theorem Ready.newGlobal (h : db.Ready held) (hsize : gsize ≤ databaseGlobalPageSize)
    (hcall : db.newGlobal name gsize dstr parent = some (db', addr, rest)) : ∃ taken,
      parent = taken ++ rest ∧ db'.Ready (held ++ taken)
      ∧ StackAlloc.Inside databaseGlobalPageSize (held ++ taken) addr gsize := by
  obtain ⟨⟨info, alloc₁, mem₁, rest₁⟩, hinfo, hcall⟩ := Option.bind_eq_some_iff.mp hcall
  obtain ⟨⟨addr₂, alloc₂, mem₂, rest₂⟩, haddr, hcall⟩ := Option.bind_eq_some_iff.mp hcall
  obtain ⟨⟨globals, ins⟩, -, hcall⟩ := Option.bind_eq_some_iff.mp hcall
  obtain ⟨rfl, hpair⟩ := Prod.mk.inj (Option.some.inj hcall)
  obtain ⟨rfl, rfl⟩ := Prod.mk.inj hpair
  have hpage := h.pageSize
  obtain ⟨taken₁, rfl, hcurrent₁, hpage₁, -⟩ := h.current.allocRelease (by norm_num)
    (by rw [hpage]; decide) hinfo
  obtain ⟨taken₂, rfl, hcurrent₂, hpage₂, hinside⟩ := hcurrent₁.allocRelease (by norm_num)
    (by rw [hpage₁, hpage]; exact hsize) haddr
  rw [hpage₁, hpage, List.append_assoc] at hinside
  rw [List.append_assoc] at hcurrent₂
  exact ⟨taken₁ ++ taken₂, (List.append_assoc _ _ _).symm, ⟨hcurrent₂, hpage₂.trans (hpage₁.trans hpage)⟩,
    hinside⟩

/-- `fdb_database_create_global`. -/
lemma Ready.createGlobal {ptr : Option ℕ} (h : db.Ready held)
    (hsize : ∀ addr, ptr = some addr → gsize ≤ databaseGlobalPageSize)
    (hcall : db.createGlobal name gsize dstr parent = some (db', ptr, rest)) : ∃ taken,
      parent = taken ++ rest ∧ db'.Ready (held ++ taken) ∧ ∀ addr, ptr = some addr →
        StackAlloc.Inside databaseGlobalPageSize (held ++ taken) addr gsize := by
  obtain ⟨found, -, hcall⟩ := Option.bind_eq_some_iff.mp hcall
  cases found with
  | some info =>
      obtain ⟨rfl, hpair⟩ := Prod.mk.inj (Option.some.inj hcall)
      obtain ⟨rfl, rfl⟩ := Prod.mk.inj hpair
      refine ⟨[], rfl, ?_, fun addr haddr => ?_⟩
      · rw [List.append_nil]
        exact h
      · cases haddr
  | none =>
      obtain ⟨⟨db₁, addr₁, rest₁⟩, hnew, hcall⟩ := Option.bind_eq_some_iff.mp hcall
      obtain ⟨rfl, hpair⟩ := Prod.mk.inj (Option.some.inj hcall)
      obtain ⟨rfl, rfl⟩ := Prod.mk.inj hpair
      obtain ⟨taken, htaken, hready, hinside⟩ := h.newGlobal (hsize addr₁ rfl) hnew
      exact ⟨taken, htaken, hready, fun addr haddr => Option.some.inj haddr ▸ hinside⟩

/-- `fdb_database_find_or_create_global`. -/
lemma Ready.findOrCreateGlobal {found : Option ℕ} (h : db.Ready held)
    (hfound : db.globals.get (getTableId name) = some found)
    (hsize : found = none → gsize ≤ databaseGlobalPageSize)
    (hcall : db.findOrCreateGlobal name gsize dstr parent = some (db', addr, rest)) : ∃ taken,
      parent = taken ++ rest ∧ db'.Ready (held ++ taken) ∧ (found = none →
        StackAlloc.Inside databaseGlobalPageSize (held ++ taken) addr gsize) := by
  rw [Globals.findOrCreateGlobal, hfound] at hcall
  cases found with
  | some info =>
      obtain ⟨rfl, hpair⟩ := Prod.mk.inj (Option.some.inj hcall)
      obtain ⟨-, rfl⟩ := Prod.mk.inj hpair
      refine ⟨[], rfl, ?_, fun hnone => ?_⟩
      · rw [List.append_nil]
        exact h
      · cases hnone
  | none =>
      obtain ⟨taken, htaken, hready, hinside⟩ := h.newGlobal (hsize rfl) hcall
      exact ⟨taken, htaken, hready, fun _ => hinside⟩

end Globals

/-- More pages are obtained, and more globals are created. -/
lemma GlobalsFit.append {held taken : List ℕ} {made new : List (ℕ × ℕ)} (h : GlobalsFit held made)
    (hnew : ∀ r ∈ new, StackAlloc.Inside databaseGlobalPageSize (held ++ taken) r.1 r.2) :
    GlobalsFit (held ++ taken) (new ++ made) := fun r hr => by
  rcases List.mem_append.mp hr with hr | hr
  · exact hnew r hr
  · exact (h r hr).mono (List.subset_append_left _ _)

/-- **In every run** whose globals are not larger than a page, they lie in pages. -/
theorem GlobalRun.fit {db : Globals} {held : List ℕ} {made : List (ℕ × ℕ)} (h : GlobalRun db held made)
    (hsize : ∀ r ∈ made, r.2 ≤ databaseGlobalPageSize) : db.Ready held ∧ GlobalsFit held made := by
  induction h with
  | init mem =>
      refine ⟨⟨⟨?_, Or.inl rfl, ?_⟩, rfl⟩, fun r hr => absurd hr List.not_mem_nil⟩
      · exact (by decide : databaseGlobalPageSize ≤ 2 ^ 30)
      · exact (by decide : 0 < databaseGlobalPageSize)
  | @create db db' held taken made name gsize dstr ptr _ hcall ih =>
      obtain ⟨hready, hfit⟩ := ih fun r hr => hsize r (List.mem_append_right _ hr)
      obtain ⟨taken', htaken, hready', hinside⟩ := hready.createGlobal (fun addr haddr =>
        hsize (addr, gsize) (List.mem_append_left _ (by rw [haddr]; exact List.mem_cons_self))) hcall
      rw [List.append_nil] at htaken
      subst htaken
      refine ⟨hready', hfit.append fun r hr => ?_⟩
      obtain ⟨addr, haddr, rfl⟩ := Option.map_eq_some_iff.mp (Option.mem_toList.mp hr)
      exact hinside addr haddr
  | @findOrCreate db db' held taken made name gsize dstr addr found _ hfound hcall ih =>
      obtain ⟨hready, hfit⟩ := ih fun r hr => hsize r (List.mem_append_right _ hr)
      obtain ⟨taken', htaken, hready', hinside⟩ := hready.findOrCreateGlobal hfound (fun hnone =>
        hsize (addr, gsize) (List.mem_append_left _ (by rw [if_pos hnone]; exact List.mem_cons_self))) hcall
      rw [List.append_nil] at htaken
      subst htaken
      refine ⟨hready', hfit.append fun r hr => ?_⟩
      by_cases hnone : found = none
      · rw [if_pos hnone] at hr
        rw [List.mem_singleton.mp hr]
        exact hinside hnone
      · rw [if_neg hnone] at hr
        exact absurd hr List.not_mem_nil
  | @remove db db' held made name _ hcall ih =>
      obtain ⟨hready, hfit⟩ := ih hsize
      obtain ⟨found, -, hcall⟩ := Option.bind_eq_some_iff.mp hcall
      cases found with
      | none =>
          obtain rfl := Option.some.inj hcall
          exact ⟨hready, hfit⟩
      | some info =>
          obtain ⟨⟨globals, value⟩, -, hcall⟩ := Option.bind_eq_some_iff.mp hcall
          obtain rfl := Option.some.inj hcall
          exact ⟨⟨hready.current, hready.pageSize⟩, hfit⟩
  | clear _ hcall ih =>
      obtain ⟨hready, hfit⟩ := ih hsize
      obtain ⟨globals, -, hcall⟩ := Option.bind_eq_some_iff.mp hcall
      obtain rfl := Option.some.inj hcall
      exact ⟨⟨hready.current, hready.pageSize⟩, hfit⟩
  | write _ mem ih =>
      obtain ⟨hready, hfit⟩ := ih hsize
      exact ⟨⟨hready.current, hready.pageSize⟩, hfit⟩

/-- What lies in a page is not larger than a page. -/
lemma GlobalsFit.size_le {held : List ℕ} {made : List (ℕ × ℕ)} (h : GlobalsFit held made) :
    ∀ r ∈ made, r.2 ≤ databaseGlobalPageSize := fun r hr => by
  obtain ⟨page, -, hle, hend⟩ := h r hr
  omega

/-- A run with one global. -/
lemma GlobalRun.one (name : CString) (gsize addr : ℕ) (taken : List ℕ)
    (h : ((Globals.init fun _ => 0).createGlobal name gsize 0 taken).map Prod.snd = some (some addr, [])) :
    ∃ db, GlobalRun db taken [(addr, gsize)] := by
  obtain ⟨⟨db, ptr, rest⟩, hcall, heq⟩ := Option.map_eq_some_iff.mp h
  obtain ⟨rfl, rfl⟩ := Prod.mk.inj heq
  exact ⟨db, (GlobalRun.init fun _ => 0).create hcall⟩

/-- **What fits**: in a release build the slots of a table lie in the chunks of its pool if and only if
its components have at most 128 bytes, and the globals of a database lie in the pages of their allocator
if and only if none of them is larger than a page. -/
theorem storage_fits (esize : ℕ) {db : Globals} {held : List ℕ} {made : List (ℕ × ℕ)}
    (h : GlobalRun db held made) : (Table.SlotsFit esize ↔ esize ≤ 128)
      ∧ (GlobalsFit held made ↔ ∀ r ∈ made, r.2 ≤ databaseGlobalPageSize) :=
  ⟨Table.slotsFit_iff esize, GlobalsFit.size_le, fun hsize => (h.fit hsize).2⟩

/-- Components of 128 bytes, and a global of 100 bytes behind its record. -/
theorem storage_fits_small : Table.SlotsFit 128
    ∧ ∃ db, GlobalRun db [0x1000, 0x2000] [(0x1040, 100)] ∧ GlobalsFit [0x1000, 0x2000] [(0x1040, 100)] := by
  obtain ⟨db, hrun⟩ := GlobalRun.one ⟨[103], by decide⟩ 100 0x1040 [0x1000, 0x2000] (by decide +kernel)
  obtain ⟨htable, hglobal⟩ := storage_fits 128 hrun
  exact ⟨htable.mpr le_rfl, db, hrun, hglobal.mpr (by decide)⟩

/-- Components of 129 bytes and globals of 4097 bytes are accepted and do not fit. -/
theorem not_storage_fits : (∃ t' a, (Table.init 129 false fun _ => 0).createComponent 255 = some (t', a)
      ∧ ¬ t'.dataAllocator.Within 129 a)
    ∧ ∃ db, GlobalRun db [0x1000, 0x2000, 0x3000] [(0x3000, 4097)]
      ∧ ¬ GlobalsFit [0x1000, 0x2000, 0x3000] [(0x3000, 4097)] := by
  refine ⟨Table.slot_over (by decide), ?_⟩
  obtain ⟨db, hrun⟩ := GlobalRun.one ⟨[103], by decide⟩ 4097 0x3000 [0x1000, 0x2000, 0x3000]
    (by decide +kernel)
  exact ⟨db, hrun, fun hfit => absurd (hfit.size_le _ List.mem_cons_self) (by decide)⟩

end Furious
