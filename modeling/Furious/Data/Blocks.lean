import Furious.Data.Table

/-!
The blocks of a table.

Operations on a component change one bit of the block of its id, and perhaps create
this block.

* `TableBlock.Shaped`: the fields of a block that never change;
* `TableBlock.Sets`: a change of the bits of one place, `TableBlock.create_spec` and its like;
* `Table.blockAt`, `Table.Sound`: the blocks of a table, and the invariant of a table;
* `Table.Changes`: an operation on the block of an id;
* `Sound.create`, `Sound.destroy`, `Sound.enable`, `Sound.disable`: **the operations**.
-/

namespace Furious

/-- The number of blocks that ids can name. -/
abbrev numBlocks : ℕ := 2 ^ 24

/-! ### One block -/

namespace TableBlock

/-- The block `b` of a table with components of `esize` bytes. -/
structure Shaped (block : TableBlock) (b esize : ℕ) : Prop where
  start : block.start = b * tableBlockSize
  esize : block.esize = esize
  existing : block.existing.bits.length = tableBlockSize
  enabled : block.enabled.bits.length = tableBlockSize

/-- The bits at `o` become `e` and `d`. -/
structure Sets (block block' : TableBlock) (o : ℕ) (e d : Bool) : Prop where
  data : block'.data = block.data
  existing : block'.existing.test = Function.update block.existing.test o e
  enabled : block'.enabled.test = Function.update block.enabled.test o d
  numExisting : block'.existing.numSet + (block.existing.test o).toNat
    = block.existing.numSet + e.toNat
  numEnabled : block'.enabled.numSet + (block.enabled.test o).toNat
    = block.enabled.numSet + d.toNat

variable {block : TableBlock} {b esize o : ℕ}

lemma shaped_init (data : Address) (b esize : ℕ) :
    (init data (b * tableBlockSize) esize).Shaped b esize :=
  ⟨rfl, rfl, Bitmap.length_init _, Bitmap.length_init _⟩

lemma Shaped.isSet (h : block.Shaped b esize) (ho : o < tableBlockSize) :
    block.existing.isSet o = some (block.existing.test o) :=
  Bitmap.isSet_eq (by rw [h.existing]; exact ho)

/-- `fdb_table_create_component`, on the block. -/
lemma create_spec (h : block.Shaped b esize) (ho : o < tableBlockSize) :
    ∃ block', block.create o = some block' ∧ block'.Shaped b esize ∧ block.Sets block' o true true
      ∧ block'.numComponents
        = (if block.existing.test o then block.numComponents else increment block.numComponents)
      ∧ block'.numEnabledComponents = (if block.existing.test o then block.numEnabledComponents
          else increment block.numEnabledComponents) := by
  obtain ⟨e, he, hel, het, hen⟩ := Bitmap.setBit_spec (h.existing ▸ ho) true
  obtain ⟨d, hd, hdl, hdt, hdn⟩ := Bitmap.setBit_spec (h.enabled ▸ ho) true
  have hset := h.isSet ho
  have heq : block.create o = some { block with
      numComponents := if block.existing.test o then block.numComponents else increment block.numComponents
      numEnabledComponents := if block.existing.test o then block.numEnabledComponents
        else increment block.numEnabledComponents
      existing := e
      enabled := d } := by
    simp only [create, hset, Bitmap.set, he, hd, Option.bind_eq_bind, Option.bind_some]
  exact ⟨_, heq, ⟨h.start, h.esize, hel.trans h.existing, hdl.trans h.enabled⟩,
    ⟨rfl, het, hdt, hen, hdn⟩, rfl, rfl⟩

/-- `fdb_table_destroy_component`, on the block. -/
lemma destroy_spec (h : block.Shaped b esize) (ho : o < tableBlockSize) :
    ∃ block', block.destroy o = some block' ∧ block'.Shaped b esize ∧ block.Sets block' o false false
      ∧ block'.numComponents
        = (if block.existing.test o then decrement block.numComponents else block.numComponents)
      ∧ block'.numEnabledComponents = (if block.existing.test o
          then decrement block.numEnabledComponents else block.numEnabledComponents) := by
  obtain ⟨e, he, hel, het, hen⟩ := Bitmap.setBit_spec (h.existing ▸ ho) false
  obtain ⟨d, hd, hdl, hdt, hdn⟩ := Bitmap.setBit_spec (h.enabled ▸ ho) false
  have hset := h.isSet ho
  have heq : block.destroy o = some { block with
      numComponents := if block.existing.test o then decrement block.numComponents else block.numComponents
      numEnabledComponents := if block.existing.test o then decrement block.numEnabledComponents
        else block.numEnabledComponents
      existing := e
      enabled := d } := by
    simp only [destroy, hset, Bitmap.unset, he, hd, Option.bind_eq_bind, Option.bind_some]
  exact ⟨_, heq, ⟨h.start, h.esize, hel.trans h.existing, hdl.trans h.enabled⟩,
    ⟨rfl, het, hdt, hen, hdn⟩, rfl, rfl⟩

/-- `fdb_table_enable_component`, on the block. -/
lemma enable_spec (h : block.Shaped b esize) (ho : o < tableBlockSize) :
    ∃ block', block.enable o = some block' ∧ block'.Shaped b esize
      ∧ block.Sets block' o (block.existing.test o) true
      ∧ block'.numComponents = block.numComponents
      ∧ block'.numEnabledComponents = increment block.numEnabledComponents := by
  obtain ⟨d, hd, hdl, hdt, hdn⟩ := Bitmap.setBit_spec (h.enabled ▸ ho) true
  have heq : block.enable o = some { block with
      numEnabledComponents := increment block.numEnabledComponents
      enabled := d } := by
    simp only [enable, Bitmap.set, hd, Option.bind_eq_bind, Option.bind_some]
  exact ⟨_, heq, ⟨h.start, h.esize, h.existing, hdl.trans h.enabled⟩,
    ⟨rfl, (Function.update_eq_self _ _).symm, hdt, rfl, hdn⟩, rfl, rfl⟩

/-- `fdb_table_disable_component`, on the block. -/
lemma disable_spec (h : block.Shaped b esize) (ho : o < tableBlockSize) :
    ∃ block', block.disable o = some block' ∧ block'.Shaped b esize
      ∧ block.Sets block' o (block.existing.test o) false
      ∧ block'.numComponents = block.numComponents
      ∧ block'.numEnabledComponents = decrement block.numEnabledComponents := by
  obtain ⟨d, hd, hdl, hdt, hdn⟩ := Bitmap.setBit_spec (h.enabled ▸ ho) false
  have heq : block.disable o = some { block with
      numEnabledComponents := decrement block.numEnabledComponents
      enabled := d } := by
    simp only [disable, Bitmap.unset, hd, Option.bind_eq_bind, Option.bind_some]
  exact ⟨_, heq, ⟨h.start, h.esize, h.existing, hdl.trans h.enabled⟩,
    ⟨rfl, (Function.update_eq_self _ _).symm, hdt, rfl, hdn⟩, rfl, rfl⟩

end TableBlock

/-! ### The blocks of a table -/

/-- The block with a number. -/
def Table.blockAt (t : Table) (b : ℕ) : Option TableBlock := do
  let p ← (← t.blocks.get b)
  t.tblockAllocator.get p

/-- The B-tree of the table shows `M`, which gives different blocks for different numbers. -/
structure Table.Sound (t : Table) (M : KeyMap ℕ) : Prop where
  shows : Shows t.blocks M
  block : ∀ b p, M.lookup b = some p → ∃ block, t.tblockAllocator.get p = some block
    ∧ block.Shaped b t.esize
  inj : ∀ b b' p, M.lookup b = some p → M.lookup b' = some p → b = b'
  lt : ∀ b ∈ M, b < numBlocks

namespace Table.Sound

variable {t : Table} {M : KeyMap ℕ} {b p : ℕ}

lemma init (esize : ℕ) (destructor : Bool) (memory : Address → UInt8) :
    (Table.init esize destructor memory).Sound ∅ where
  shows := Shows.init
  block b p h := by
    rw [Finmap.lookup_empty] at h
    cases h
  inj b b' p h := by
    rw [Finmap.lookup_empty] at h
    cases h
  lt b h := absurd h Finmap.notMem_empty

lemma blockAt_eq (h : t.Sound M) (b : ℕ) :
    t.blockAt b = (M.lookup b).bind t.tblockAllocator.get := by
  rw [blockAt, h.shows.get]
  cases M.lookup b <;> rfl

/-- A number either has no block or the one that the B-tree leads to. -/
lemma cases (h : t.Sound M) (b : ℕ) : (M.lookup b = none ∧ t.blockAt b = none)
    ∨ ∃ p block, M.lookup b = some p ∧ t.tblockAllocator.get p = some block
      ∧ t.blockAt b = some block ∧ block.Shaped b t.esize := by
  rw [h.blockAt_eq]
  cases hp : M.lookup b with
  | none => exact Or.inl ⟨rfl, rfl⟩
  | some p =>
      obtain ⟨block, hget, hshaped⟩ := h.block b p hp
      exact Or.inr ⟨p, block, rfl, hget, hget, hshaped⟩

lemma shaped (h : t.Sound M) {block : TableBlock} (hb : t.blockAt b = some block) :
    block.Shaped b t.esize ∧ b < numBlocks := by
  rcases h.cases b with ⟨-, hnone⟩ | ⟨p, block', hp, -, hb', hshaped⟩
  · rw [hb] at hnone
    cases hnone
  · obtain rfl := Option.some.inj (hb.symm.trans hb')
    exact ⟨hshaped, h.lt b (Finmap.mem_of_lookup_eq_some hp)⟩

/-- **A block is changed.** -/
lemma put (h : t.Sound M) (hp : M.lookup b = some p) {block : TableBlock}
    (hs : block.Shaped b t.esize) : ∃ a, t.tblockAllocator.put p block = some a
      ∧ ∀ t' : Table, t'.blocks = t.blocks → t'.esize = t.esize → t'.tblockAllocator = a →
        t'.Sound M ∧ t'.blockAt = Function.update t.blockAt b (some block) := by
  obtain ⟨old, hget, -⟩ := h.block b p hp
  obtain ⟨a, hput, ha⟩ := Pool.get_put hget block
  refine ⟨a, hput, fun t' hblocks hesize halloc => ?_⟩
  have hsound : t'.Sound M := by
    refine ⟨by rw [hblocks]; exact h.shows, fun b' p' hp' => ?_, h.inj, h.lt⟩
    rw [halloc, ha, hesize]
    by_cases hpp : p' = p
    · rw [hpp] at hp' ⊢
      obtain rfl := h.inj b b' p hp hp'
      exact ⟨block, Function.update_self _ _ _, hs⟩
    · rw [Function.update_of_ne hpp]
      exact h.block b' p' hp'
  refine ⟨hsound, funext fun b' => ?_⟩
  rw [hsound.blockAt_eq, halloc, ha]
  by_cases hbb : b' = b
  · rw [hbb, Function.update_self, hp, Option.bind_some, Function.update_self]
  · rw [Function.update_of_ne hbb, h.blockAt_eq]
    cases hp' : M.lookup b' with
    | none => rfl
    | some p' =>
        have hne : p' ≠ p := fun e => hbb (h.inj b' b p (e ▸ hp') hp)
        rw [Option.bind_some, Option.bind_some, Function.update_of_ne hne]

/-- The block that is there is taken. -/
lemma createBlock_old (h : t.Sound M) (hp : M.lookup b = some p) :
    t.createBlock b = some (t, p) := by
  simp only [createBlock, h.shows.get, hp, Option.bind_eq_bind, Option.bind_some]

/-- **A block is created.** -/
lemma createBlock_new (h : t.Sound M) (hb : M.lookup b = none) (hlt : b < numBlocks) :
    ∃ p blocks a, t.createBlock b = some ({ t with
        blocks := blocks
        tblockAllocator := a
        dataAllocator := t.dataAllocator.alloc.2 }, p)
      ∧ ∀ t' : Table, t'.blocks = blocks → t'.esize = t.esize → t'.tblockAllocator = a →
        t'.Sound (M.insert b p) ∧ t'.blockAt = Function.update t.blockAt b
          (some (TableBlock.init t.dataAllocator.alloc.1 (b * tableBlockSize) t.esize)) := by
  obtain ⟨p, a, halloc, hvac, ha⟩ := t.tblockAllocator.get_alloc
    (TableBlock.init t.dataAllocator.alloc.1 (b * tableBlockSize) t.esize)
  have hmem : b ∉ M := Finmap.lookup_eq_none.mp hb
  obtain ⟨blocks, ins, hins, -, -, hshows⟩ := h.shows.insert hmem p
  have hold : ∀ b' p', M.lookup b' = some p' → p' ≠ p := by
    rintro b' p' hp' rfl
    obtain ⟨block, hget, -⟩ := h.block b' p' hp'
    rw [hvac] at hget
    cases hget
  refine ⟨p, blocks, a, ?_, fun t' hblocks hesize hta => ?_⟩
  · simp only [createBlock, h.shows.get, hb, Option.bind_eq_bind, Option.bind_some, halloc, hins]
  have hlookup : ∀ b', b' ≠ b → (M.insert b p).lookup b' = M.lookup b' := fun b' hbb =>
    Finmap.lookup_insert_of_ne _ hbb
  have hsound : t'.Sound (M.insert b p) := by
    refine ⟨by rw [hblocks]; exact hshows, fun b' p' hp' => ?_, fun b₁ b₂ p' h₁ h₂ => ?_, fun b' hb' => ?_⟩
    · rw [hta, ha, hesize]
      by_cases hbb : b' = b
      · rw [hbb, Finmap.lookup_insert] at hp'
        obtain rfl := Option.some.inj hp'
        exact ⟨_, Function.update_self _ _ _, hbb ▸ TableBlock.shaped_init _ _ _⟩
      · rw [hlookup b' hbb] at hp'
        rw [Function.update_of_ne (hold b' p' hp')]
        exact h.block b' p' hp'
    · by_cases h₁b : b₁ = b
      · by_cases h₂b : b₂ = b
        · rw [h₁b, h₂b]
        · rw [h₁b, Finmap.lookup_insert] at h₁
          rw [hlookup b₂ h₂b] at h₂
          exact absurd (Option.some.inj h₁).symm (hold b₂ p' h₂)
      · by_cases h₂b : b₂ = b
        · rw [h₂b, Finmap.lookup_insert] at h₂
          rw [hlookup b₁ h₁b] at h₁
          exact absurd (Option.some.inj h₂).symm (hold b₁ p' h₁)
        · rw [hlookup b₁ h₁b] at h₁
          rw [hlookup b₂ h₂b] at h₂
          exact h.inj b₁ b₂ p' h₁ h₂
    · rcases Finmap.mem_insert.mp hb' with rfl | hb'
      · exact hlt
      · exact h.lt b' hb'
  refine ⟨hsound, funext fun b' => ?_⟩
  rw [hsound.blockAt_eq, hta, ha]
  by_cases hbb : b' = b
  · rw [hbb, Finmap.lookup_insert, Option.bind_some, Function.update_self, Function.update_self]
  · rw [hlookup b' hbb, Function.update_of_ne hbb, h.blockAt_eq]
    cases hp' : M.lookup b' with
    | none => rfl
    | some p' => rw [Option.bind_some, Option.bind_some, Function.update_of_ne (hold b' p' hp')]

end Table.Sound

/-! ### The operations -/

/-- An operation on the component `id`, whose block `block` becomes `block'`. -/
structure Table.Changes (t t' : Table) (id : ℕ) (block block' : TableBlock) : Prop where
  esize : t'.esize = t.esize
  destructor : t'.destructor = t.destructor
  shaped : block.Shaped (id / tableBlockSize) t.esize
  blockAt : t'.blockAt = Function.update t.blockAt (id / tableBlockSize) (some block')

lemma decodeId_eq {id : ℕ} (h : id < invalidId) :
    decodeId id = some (id / tableBlockSize, id % tableBlockSize) := if_pos h.ne

lemma block_lt {id : ℕ} (h : id < invalidId) : id / tableBlockSize < numBlocks := by
  rw [Nat.div_lt_iff_lt_mul (by decide)]
  exact lt_of_lt_of_le h (by decide)

lemma offset_lt (id : ℕ) : id % tableBlockSize < tableBlockSize := Nat.mod_lt _ (by decide)

namespace Table.Sound

variable {t : Table} {M : KeyMap ℕ} {id : ℕ}

/-- **`fdb_table_create_component`**: the block of the id is there, or is created. -/
theorem create (h : t.Sound M) (hid : id < invalidId) : ∃ t' M' block block',
    t.createComponent id = some (t', block.data.add (id % tableBlockSize * t.esize))
    ∧ t'.Sound M' ∧ t.Changes t' id block block'
    ∧ block.create (id % tableBlockSize) = some block'
    ∧ (t.blockAt (id / tableBlockSize) = some block ∧ t'.dataAllocator = t.dataAllocator
      ∨ t.blockAt (id / tableBlockSize) = none
        ∧ block = TableBlock.init t.dataAllocator.alloc.1 (id / tableBlockSize * tableBlockSize) t.esize
        ∧ t'.dataAllocator = t.dataAllocator.alloc.2)
    ∧ t'.numComponents = (if block.existing.test (id % tableBlockSize) then t.numComponents
        else increment t.numComponents)
    ∧ t'.memory = t.memory ∧ t'.destroyed = t.destroyed := by
  -- what is left to do once the block is there
  have hrest : ∀ (t₁ : Table) (M₁ : KeyMap ℕ) (p : ℕ) (block : TableBlock), t₁.Sound M₁ →
      t.createBlock (id / tableBlockSize) = some (t₁, p) → M₁.lookup (id / tableBlockSize) = some p →
      t₁.blockAt (id / tableBlockSize) = some block → ∃ block' a,
        block.create (id % tableBlockSize) = some block' ∧ block.Shaped (id / tableBlockSize) t₁.esize
        ∧ t.createComponent id = some ({ t₁ with
            numComponents := if block.existing.test (id % tableBlockSize) then t₁.numComponents
              else increment t₁.numComponents
            tblockAllocator := a }, block'.data.add (id % tableBlockSize * t₁.esize))
        ∧ block'.data = block.data
        ∧ ∀ t' : Table, t'.blocks = t₁.blocks → t'.esize = t₁.esize → t'.tblockAllocator = a →
          t'.Sound M₁ ∧ t'.blockAt = Function.update t₁.blockAt (id / tableBlockSize) (some block') := by
    intro t₁ M₁ p block h₁ hcreate hp hb
    obtain ⟨hshaped, -⟩ := h₁.shaped hb
    obtain ⟨block', heq, hshaped', hsets, -, -⟩ := TableBlock.create_spec hshaped (offset_lt id)
    obtain ⟨a, hput, hsound⟩ := h₁.put hp hshaped'
    have hget : t₁.tblockAllocator.get p = some block := by
      rw [h₁.blockAt_eq, hp, Option.bind_some] at hb
      exact hb
    refine ⟨block', a, heq, hshaped, ?_, hsets.data, hsound⟩
    simp only [createComponent, decodeId_eq hid, Option.bind_eq_bind, Option.bind_some, hcreate, hget,
      hshaped.isSet (offset_lt id), heq, hput]
  rcases h.cases (id / tableBlockSize) with ⟨hp, hb⟩ | ⟨p, block, hp, hget, hb, hshaped⟩
  · obtain ⟨p, blocks, a, hcreate, hsound⟩ := h.createBlock_new hp (block_lt hid)
    obtain ⟨h₁, hb₁⟩ := hsound { t with
      blocks := blocks
      tblockAllocator := a
      dataAllocator := t.dataAllocator.alloc.2 } rfl rfl rfl
    obtain ⟨block', a', heq, hshaped, hcomp, hdata, hsound'⟩ := hrest _ _ p _ h₁ hcreate
      (Finmap.lookup_insert _) (by rw [hb₁, Function.update_self])
    obtain ⟨h', hb'⟩ := hsound' { t with
      blocks := blocks
      tblockAllocator := a'
      dataAllocator := t.dataAllocator.alloc.2
      numComponents := if (TableBlock.init t.dataAllocator.alloc.1 (id / tableBlockSize * tableBlockSize)
          t.esize).existing.test (id % tableBlockSize) then t.numComponents
        else increment t.numComponents } rfl rfl rfl
    rw [hb₁, Function.update_idem] at hb'
    rw [hdata] at hcomp
    exact ⟨_, _, _, block', hcomp, h', ⟨rfl, rfl, hshaped, hb'⟩, heq, Or.inr ⟨hb, rfl, rfl⟩, rfl, rfl, rfl⟩
  · obtain ⟨block', a', heq, hshaped, hcomp, hdata, hsound'⟩ :=
      hrest t M p block h (h.createBlock_old hp) hp hb
    obtain ⟨h', hb'⟩ := hsound' { t with
      tblockAllocator := a'
      numComponents := if block.existing.test (id % tableBlockSize) then t.numComponents
        else increment t.numComponents } rfl rfl rfl
    rw [hdata] at hcomp
    exact ⟨_, _, _, block', hcomp, h', ⟨rfl, rfl, hshaped, hb'⟩, heq, Or.inl ⟨hb, rfl⟩, rfl, rfl, rfl⟩

/-- **`fdb_table_destroy_component`**: nothing happens without a block. -/
theorem destroy (h : t.Sound M) (hid : id < invalidId) :
    (t.blockAt (id / tableBlockSize) = none ∧ t.destroyComponent id = some t)
    ∨ ∃ t' block block', t.blockAt (id / tableBlockSize) = some block
      ∧ t.destroyComponent id = some t' ∧ t'.Sound M ∧ t.Changes t' id block block'
      ∧ block.destroy (id % tableBlockSize) = some block'
      ∧ t'.dataAllocator = t.dataAllocator
      ∧ t'.numComponents = (if block.existing.test (id % tableBlockSize) then decrement t.numComponents
          else t.numComponents)
      ∧ t'.memory = memset t.memory (block.data.add (id % tableBlockSize * t.esize)) t.esize
      ∧ t'.destroyed = (if t.destructor
          then t.destroyed ++ [block.data.add (id % tableBlockSize * t.esize)] else t.destroyed) := by
  rcases h.cases (id / tableBlockSize) with ⟨hp, hb⟩ | ⟨p, block, hp, hget, hb, hshaped⟩
  · refine Or.inl ⟨hb, ?_⟩
    simp only [destroyComponent, decodeId_eq hid, Option.bind_eq_bind, Option.bind_some, h.shows.get, hp]
  · obtain ⟨block', heq, hshaped', hsets, -, -⟩ := TableBlock.destroy_spec hshaped (offset_lt id)
    obtain ⟨a, hput, hsound⟩ := h.put hp hshaped'
    have hcomp : t.destroyComponent id = some { t with
        numComponents := if block.existing.test (id % tableBlockSize) then decrement t.numComponents
          else t.numComponents
        tblockAllocator := a
        memory := memset t.memory (block.data.add (id % tableBlockSize * t.esize)) t.esize
        destroyed := if t.destructor
          then t.destroyed ++ [block.data.add (id % tableBlockSize * t.esize)] else t.destroyed } := by
      simp only [destroyComponent, decodeId_eq hid, Option.bind_eq_bind, Option.bind_some, h.shows.get,
        hp, hget, hshaped.isSet (offset_lt id), heq, hput, hsets.data]
    refine Or.inr ⟨_, block, block', hb, hcomp, ?_, ⟨rfl, rfl, hshaped, ?_⟩, heq, rfl, rfl, rfl, rfl⟩
    · refine (hsound _ ?_ ?_ ?_).1 <;> rfl
    · refine (hsound _ ?_ ?_ ?_).2 <;> rfl

/-- What enabling and disabling have in common. -/
lemma changeBlock (h : t.Sound M) (hid : id < invalidId) {change : TableBlock → ℕ → Option TableBlock}
    (hchange : ∀ block : TableBlock, block.Shaped (id / tableBlockSize) t.esize →
      ∃ block', change block (id % tableBlockSize) = some block'
        ∧ block'.Shaped (id / tableBlockSize) t.esize) :
    (t.blockAt (id / tableBlockSize) = none ∧ t.changeBlock id change = some t)
    ∨ ∃ a block block', t.blockAt (id / tableBlockSize) = some block
      ∧ t.changeBlock id change = some { t with tblockAllocator := a }
      ∧ Table.Sound { t with tblockAllocator := a } M
      ∧ t.Changes { t with tblockAllocator := a } id block block'
      ∧ change block (id % tableBlockSize) = some block' := by
  rcases h.cases (id / tableBlockSize) with ⟨hp, hb⟩ | ⟨p, block, hp, hget, hb, hshaped⟩
  · refine Or.inl ⟨hb, ?_⟩
    simp only [Table.changeBlock, decodeId_eq hid, Option.bind_eq_bind, Option.bind_some, h.shows.get, hp]
  · obtain ⟨block', heq, hshaped'⟩ := hchange block hshaped
    obtain ⟨a, hput, hsound⟩ := h.put hp hshaped'
    obtain ⟨h', hb'⟩ := hsound { t with tblockAllocator := a } rfl rfl rfl
    refine Or.inr ⟨a, block, block', hb, ?_, h', ⟨rfl, rfl, hshaped, hb'⟩, heq⟩
    simp only [Table.changeBlock, decodeId_eq hid, Option.bind_eq_bind, Option.bind_some, h.shows.get,
      hp, hget, heq, hput]

/-- **`fdb_table_enable_component`.** -/
theorem enable (h : t.Sound M) (hid : id < invalidId) :
    (t.blockAt (id / tableBlockSize) = none ∧ t.enableComponent id = some t)
    ∨ ∃ a block block', t.blockAt (id / tableBlockSize) = some block
      ∧ t.enableComponent id = some { t with tblockAllocator := a }
      ∧ Table.Sound { t with tblockAllocator := a } M
      ∧ t.Changes { t with tblockAllocator := a } id block block'
      ∧ block.enable (id % tableBlockSize) = some block' :=
  h.changeBlock hid fun _ hs => by
    obtain ⟨block', heq, hshaped', -⟩ := TableBlock.enable_spec hs (offset_lt id)
    exact ⟨block', heq, hshaped'⟩

/-- **`fdb_table_disable_component`.** -/
theorem disable (h : t.Sound M) (hid : id < invalidId) :
    (t.blockAt (id / tableBlockSize) = none ∧ t.disableComponent id = some t)
    ∨ ∃ a block block', t.blockAt (id / tableBlockSize) = some block
      ∧ t.disableComponent id = some { t with tblockAllocator := a }
      ∧ Table.Sound { t with tblockAllocator := a } M
      ∧ t.Changes { t with tblockAllocator := a } id block block'
      ∧ block.disable (id % tableBlockSize) = some block' :=
  h.changeBlock hid fun _ hs => by
    obtain ⟨block', heq, hshaped', -⟩ := TableBlock.disable_spec hs (offset_lt id)
    exact ⟨block', heq, hshaped'⟩

end Table.Sound

end Furious
