import Furious.Data.Runs

/-!
The slots of components.

A table is a map from ids to places in memory: the data of different blocks are
different blocks of the pool, which do not overlap, and the slots of a block lie one after
the other.

* `Table.Fits`: the blocks of components of some size fit the pool;
* `Table.dataAt`, `Table.Housed`: where the data of the blocks are;
* `Housed.apart`: the slots of different ids do not overlap;
* `contents_map`: **the contents of a table form a map**, and the operations on an id
  leave the others alone.
-/

namespace Furious

namespace Table

/-- The pool accepts the size of a block. -/
def Fits (esize : ℕ) : Prop :=
  (PoolAlloc.init tableBlockDataAlignment (esize * tableBlockSize) tableBlockDataPageSize).Configured

instance (esize : ℕ) : Decidable (Fits esize) := inferInstanceAs (Decidable (PoolAlloc.Configured _))

variable {t t' : Table} {M : KeyMap ℕ} {hist : History} {id : ℕ} {block block' : TableBlock}

/-- The data of a block. -/
def dataAt (t : Table) (b : ℕ) : Option Address := (t.blockAt b).map TableBlock.data

/-- The data of the blocks are different blocks of the pool, with room for all components. -/
structure Housed (t : Table) : Prop where
  hands : t.dataAllocator.Hands {a | ∃ b, t.dataAt b = some a}
  inj : ∀ b b' a, t.dataAt b = some a → t.dataAt b' = some a → b = b'
  fits : t.esize * tableBlockSize ≤ t.dataAllocator.blockSize

/-- A size that fits is not cut off at 32 bits. -/
lemma Fits.lt {esize : ℕ} (h : Fits esize) : esize * tableBlockSize < 2 ^ 32 := by
  have hpage : (PoolAlloc.init tableBlockDataAlignment (esize * tableBlockSize)
      tableBlockDataPageSize).blockSize ≤ tableBlockDataPageSize :=
    le_trans (Nat.le_add_left _ _) h
  have hblock : esize * tableBlockSize ≤ tableBlockDataPageSize :=
    (PoolAlloc.le_blockSize _).trans hpage
  exact lt_of_le_of_lt hblock (by decide)

namespace Housed

lemma init {esize : ℕ} (h : Fits esize) (destructor : Bool) (memory : Address → UInt8) :
    (Table.init esize destructor memory).Housed := by
  have hnone : ∀ b, (Table.init esize destructor memory).dataAt b = none := by
    intro b
    rw [dataAt, (Sound.init esize destructor memory).blockAt_eq, Finmap.lookup_empty]
    rfl
  have halloc : (Table.init esize destructor memory).dataAllocator = PoolAlloc.init
      tableBlockDataAlignment (esize * tableBlockSize) tableBlockDataPageSize := by
    rw [Table.init, Nat.mod_eq_of_lt h.lt]
  refine ⟨?_, fun b b' a hb => ?_, ?_⟩
  · have hset : {a | ∃ b, (Table.init esize destructor memory).dataAt b = some a} = (∅ : Set Address) := by
      ext a
      simp [hnone]
    rw [hset, halloc]
    exact PoolAlloc.Hands.init h
  · rw [hnone] at hb
    cases hb
  · rw [halloc]
    exact PoolAlloc.le_blockSize _

/-- The data stay where they are. -/
lemma same (h : t.Housed) (hdata : t'.dataAt = t.dataAt) (halloc : t'.dataAllocator = t.dataAllocator)
    (hesize : t'.esize = t.esize) : t'.Housed where
  hands := by
    rw [halloc, hdata]
    exact h.hands
  inj := by
    rw [hdata]
    exact h.inj
  fits := by
    rw [halloc, hesize]
    exact h.fits

/-- A change of a block that is there. -/
lemma changes (h : t.Housed) (hc : t.Changes t' id block block') (hdata : block'.data = block.data)
    (hb : t.blockAt (id / tableBlockSize) = some block)
    (halloc : t'.dataAllocator = t.dataAllocator) : t'.Housed := by
  refine h.same (funext fun b => ?_) halloc hc.esize
  rw [dataAt, dataAt, hc.blockAt]
  by_cases hbb : b = id / tableBlockSize
  · rw [hbb, Function.update_self, hb, Option.map_some, Option.map_some, hdata]
  · rw [Function.update_of_ne hbb]

/-- A new block. -/
lemma creates (h : t.Housed) (hc : t.Changes t' id block block')
    (hdata : block'.data = t.dataAllocator.alloc.1)
    (hb : t.blockAt (id / tableBlockSize) = none)
    (halloc : t'.dataAllocator = t.dataAllocator.alloc.2) : t'.Housed := by
  obtain ⟨a, q, heq, hnew, hhands, hsize, -⟩ := h.hands.alloc
  rw [heq] at hdata halloc
  have hat : t'.dataAt = Function.update t.dataAt (id / tableBlockSize) (some a) := by
    funext b
    rw [dataAt, hc.blockAt]
    by_cases hbb : b = id / tableBlockSize
    · rw [hbb, Function.update_self, Function.update_self, Option.map_some, hdata]
    · rw [Function.update_of_ne hbb, Function.update_of_ne hbb, dataAt]
  have hnone : t.dataAt (id / tableBlockSize) = none := by rw [dataAt, hb]; rfl
  refine ⟨?_, fun b b' x hx hx' => ?_, ?_⟩
  · have hset : {x | ∃ b, t'.dataAt b = some x} = insert a {x | ∃ b, t.dataAt b = some x} := by
      ext x
      simp only [Set.mem_ofPred_eq, Set.mem_insert_iff, hat]
      constructor
      · rintro ⟨b, hx⟩
        by_cases hbb : b = id / tableBlockSize
        · rw [hbb, Function.update_self] at hx
          exact Or.inl (Option.some.inj hx).symm
        · rw [Function.update_of_ne hbb] at hx
          exact Or.inr ⟨b, hx⟩
      · rintro (rfl | ⟨b, hx⟩)
        · exact ⟨_, Function.update_self _ _ _⟩
        · have hbb : b ≠ id / tableBlockSize := by
            rintro rfl
            rw [hnone] at hx
            cases hx
          exact ⟨b, by rw [Function.update_of_ne hbb, hx]⟩
    rw [hset, halloc]
    exact hhands
  · rw [hat] at hx hx'
    by_cases hbb : b = id / tableBlockSize
    · by_cases hbb' : b' = id / tableBlockSize
      · rw [hbb, hbb']
      · rw [hbb, Function.update_self] at hx
        rw [Function.update_of_ne hbb', ← Option.some.inj hx] at hx'
        exact absurd ⟨b', hx'⟩ hnew
    · by_cases hbb' : b' = id / tableBlockSize
      · rw [hbb', Function.update_self] at hx'
        rw [Function.update_of_ne hbb, ← Option.some.inj hx'] at hx
        exact absurd ⟨b, hx⟩ hnew
      · rw [Function.update_of_ne hbb] at hx
        rw [Function.update_of_ne hbb'] at hx'
        exact h.inj b b' x hx hx'
  · rw [halloc, hsize, hc.esize]
    exact h.fits

/-- **A step** keeps the data of the blocks apart. -/
theorem step (h : t.Housed) (hsound : t.Sound M) {op : TableOp} (valid : op.Valid)
    (hok : op ≠ .clear) {ptr : Option Address} (hcall : op.call t = some (t', ptr)) : t'.Housed := by
  cases op with
  | create id =>
      obtain ⟨t₁, M', block, block', heq, -, hc, hcreate, hold, -⟩ := hsound.create valid
      rw [TableOp.call, heq] at hcall
      obtain rfl : t₁ = t' := (Prod.mk.inj (Option.some.inj hcall)).1
      obtain ⟨block'', heq', -, hsets, -⟩ := TableBlock.create_spec hc.shaped (offset_lt id)
      rw [hcreate] at heq'
      obtain rfl := Option.some.inj heq'
      rcases hold with ⟨hb, halloc⟩ | ⟨hb, rfl, halloc⟩
      · exact h.changes hc hsets.data hb halloc
      · exact h.creates hc hsets.data hb halloc
  | destroy id =>
      rcases hsound.destroy valid with ⟨-, heq⟩ | ⟨t₁, block, block', hb, heq, -, hc, hdes, halloc, -⟩
      · rw [TableOp.call, heq] at hcall
        obtain rfl : t = t' := (Prod.mk.inj (Option.some.inj hcall)).1
        exact h
      · rw [TableOp.call, heq] at hcall
        obtain rfl : t₁ = t' := (Prod.mk.inj (Option.some.inj hcall)).1
        obtain ⟨block'', heq', -, hsets, -⟩ := TableBlock.destroy_spec hc.shaped (offset_lt id)
        rw [hdes] at heq'
        obtain rfl := Option.some.inj heq'
        exact h.changes hc hsets.data hb halloc
  | enable id =>
      rcases hsound.enable valid with ⟨-, heq⟩ | ⟨a, block, block', hb, heq, -, hc, hen⟩
      · rw [TableOp.call, heq] at hcall
        obtain rfl : t = t' := (Prod.mk.inj (Option.some.inj hcall)).1
        exact h
      · rw [TableOp.call, heq] at hcall
        obtain rfl : { t with tblockAllocator := a } = t' := (Prod.mk.inj (Option.some.inj hcall)).1
        obtain ⟨block'', heq', -, hsets, -⟩ := TableBlock.enable_spec hc.shaped (offset_lt id)
        rw [hen] at heq'
        obtain rfl := Option.some.inj heq'
        exact h.changes hc hsets.data hb rfl
  | disable id =>
      rcases hsound.disable valid with ⟨-, heq⟩ | ⟨a, block, block', hb, heq, -, hc, hdis⟩
      · rw [TableOp.call, heq] at hcall
        obtain rfl : t = t' := (Prod.mk.inj (Option.some.inj hcall)).1
        exact h
      · rw [TableOp.call, heq] at hcall
        obtain rfl : { t with tblockAllocator := a } = t' := (Prod.mk.inj (Option.some.inj hcall)).1
        obtain ⟨block'', heq', -, hsets, -⟩ := TableBlock.disable_spec hc.shaped (offset_lt id)
        rw [hdis] at heq'
        obtain rfl := Option.some.inj heq'
        exact h.changes hc hsets.data hb rfl
  | clear => exact absurd rfl hok

/-- The bytes of a slot are bytes of the data of its block. -/
lemma bytes_subset (h : t.Housed) {o : ℕ} (ho : o < tableBlockSize) (data : Address) :
    (data.add (o * t.esize)).bytes t.esize ⊆ data.bytes t.dataAllocator.blockSize := by
  have hend : o * t.esize + t.esize ≤ t.dataAllocator.blockSize := by
    calc o * t.esize + t.esize = (o + 1) * t.esize := (Nat.succ_mul o t.esize).symm
      _ ≤ tableBlockSize * t.esize := Nat.mul_le_mul_right _ ho
      _ = t.esize * tableBlockSize := Nat.mul_comm _ _
      _ ≤ t.dataAllocator.blockSize := h.fits
  rintro x ⟨hpage, hlo, hhi⟩
  refine ⟨hpage, le_trans (Nat.le_add_right _ _) hlo, lt_of_lt_of_le hhi ?_⟩
  rw [Address.add, Nat.add_assoc]
  exact Nat.add_le_add_left hend _

/-- **The slots of different ids** do not overlap. -/
theorem apart (h : t.Housed) {i j : ℕ} {a b : Address} (hij : i ≠ j) (ha : t.place i = some a)
    (hb : t.place j = some b) : Disjoint (a.bytes t.esize) (b.bytes t.esize) := by
  obtain ⟨block, hblock, rfl⟩ := Option.map_eq_some_iff.mp ha
  obtain ⟨block', hblock', rfl⟩ := Option.map_eq_some_iff.mp hb
  by_cases hd : i / tableBlockSize = j / tableBlockSize
  · -- two places of one block
    rw [hd, hblock'] at hblock
    obtain rfl := Option.some.inj hblock
    have hm : i % tableBlockSize ≠ j % tableBlockSize := fun hm => hij (id_ext hd hm)
    rw [Set.disjoint_left]
    rintro x ⟨-, hli, hui⟩ ⟨-, hlj, huj⟩
    rw [Address.add] at hli hui hlj huj
    rcases lt_or_gt_of_ne hm with hlt | hgt
    · have hmul := Nat.mul_le_mul_right t.esize (Nat.succ_le_of_lt hlt)
      rw [Nat.succ_mul] at hmul
      dsimp only at hui hlj
      omega
    · have hmul := Nat.mul_le_mul_right t.esize (Nat.succ_le_of_lt hgt)
      rw [Nat.succ_mul] at hmul
      dsimp only at hli huj
      omega
  · -- two blocks of the pool
    have hdata : t.dataAt (i / tableBlockSize) = some block.data := by rw [dataAt, hblock]; rfl
    have hdata' : t.dataAt (j / tableBlockSize) = some block'.data := by rw [dataAt, hblock']; rfl
    have hne : block.data ≠ block'.data := fun heq => hd (h.inj _ _ _ hdata (heq ▸ hdata'))
    exact (h.hands.apart ⟨_, hdata⟩ ⟨_, hdata'⟩ hne).mono (h.bytes_subset (offset_lt i) _)
      (h.bytes_subset (offset_lt j) _)

end Housed

/-- A slot is a place. -/
lemma place_of_slot {a : Address} (h : t.slot id = some a) : t.place id = some a := by
  rw [slot] at h
  by_cases he : t.existsAt id = true
  · rwa [if_pos he] at h
  · rw [if_neg he] at h
    cases h

/-- Clearing a component leaves the other places alone. -/
lemma memset_of_notMem {memory : Address → UInt8} {ptr x : Address} {n : ℕ} (h : x ∉ ptr.bytes n) :
    memset memory ptr n x = memory x := if_neg h

/-- The bytes of the components of other ids do not change. -/
structure Leaves (t t' : Table) (i : ℕ) : Prop where
  getComponent : t'.getComponent i = t.getComponent i
  isEnabled : t'.isEnabled i = t.isEnabled i
  memory : ∀ a, t.getComponent i = some (some a) → ∀ x ∈ a.bytes t.esize, t'.memory x = t.memory x

/-- An update of one id leaves the others alone. -/
lemma Updates.leaves {e d : Bool} (hup : t.Updates t' id e d) (hsound : t.Sound M) {M' : KeyMap ℕ}
    (hsound' : t'.Sound M') {i : ℕ} (hi : i < invalidId) (hne : i ≠ id)
    (hmem : ∀ a, t.place i = some a → ∀ x ∈ a.bytes t.esize, t'.memory x = t.memory x) :
    t.Leaves t' i where
  getComponent := by rw [hsound.getComponent hi, hsound'.getComponent hi, hup.slot_of_ne hne]
  isEnabled := by
    rw [hsound.isEnabled hi, hsound'.isEnabled hi, hup.enabledAt, Function.update_of_ne hne]
  memory a ha := by
    rw [hsound.getComponent hi] at ha
    exact hmem a (place_of_slot (Option.some.inj ha))

end Table

/-- The id that an operation is about. -/
def TableOp.target : TableOp → Option ℕ
  | create id => some id
  | destroy id => some id
  | enable id => some id
  | disable id => some id
  | clear => none

/-- **An operation on an id** leaves the other ids alone. -/
theorem Table.Housed.leaves {t t' : Table} {M : KeyMap ℕ} (h : t.Housed) (hsound : t.Sound M)
    {op : TableOp} (valid : op.Valid) {ptr : Option Address} (hcall : op.call t = some (t', ptr))
    {id i : ℕ} (hid : op.target = some id) (hi : i < invalidId) (hne : i ≠ id) : t.Leaves t' i := by
  obtain ⟨⟨M', hsound'⟩, hstep⟩ := hsound.step valid hcall
  cases hstep with
  | create _ hup _ hmem =>
      obtain rfl := Option.some.inj hid
      exact hup.leaves hsound hsound' hi hne fun _ _ _ _ => by rw [hmem]
  | @destroy id _ hup hmem =>
      obtain rfl := Option.some.inj hid
      refine hup.leaves hsound hsound' hi hne fun a ha x hx => ?_
      rw [hmem]
      cases hplace : t.place id with
      | none => rfl
      | some ptr =>
          have hdisj := h.apart hne ha hplace
          exact Table.memset_of_notMem (Set.disjoint_left.mp hdisj hx)
  | enable hup hmem =>
      obtain rfl := Option.some.inj hid
      exact hup.leaves hsound hsound' hi hne fun _ _ _ _ => by rw [hmem]
  | disable hup hmem =>
      obtain rfl := Option.some.inj hid
      exact hup.leaves hsound hsound' hi hne fun _ _ _ _ => by rw [hmem]
  | clear => cases hid

/-- The data of the blocks stay apart. -/
lemma TableRun.housed {t : Table} {hist : History} (h : TableRun (fun _ op => op ≠ .clear) t hist)
    (hfits : Table.Fits t.esize) : t.Housed := by
  induction h with
  | init esize destructor memory => exact Table.Housed.init hfits destructor memory
  | step h op valid hok hcall ih =>
      obtain ⟨⟨M, hsound⟩, -⟩ := h.keeps
      obtain ⟨-, hstep⟩ := hsound.step valid hcall
      rw [hstep.fixed.1] at hfits
      exact (ih hfits).step hsound valid hok hcall

/-- **The contents of a table form a map**: a component that was created is found at its
address until it is destroyed, slots of different ids do not overlap, and an operation on an
id never fails and leaves the other ids alone. -/
theorem contents_map {t : Table} {hist : History} (h : TableRun (fun _ op => op ≠ .clear) t hist)
    (hfits : Table.Fits t.esize) :
    (∀ id < invalidId, t.getComponent id = some (hist.live.lookup id))
    ∧ (∀ i j a b, i ≠ j → hist.live.lookup i = some a → hist.live.lookup j = some b →
      Disjoint (a.bytes t.esize) (b.bytes t.esize))
    ∧ ∀ (op : TableOp) (id : ℕ), op.target = some id → op.Valid →
      ∃ t' ptr, op.call t = some (t', ptr) ∧ ∀ i < invalidId, i ≠ id → t.Leaves t' i := by
  have hhoused := h.housed hfits
  obtain ⟨⟨M, hsound⟩, hkeeps⟩ := h.keeps
  have hplace : ∀ i a, hist.live.lookup i = some a → t.place i = some a := by
    intro i a ha
    rw [hkeeps.slot i (hkeeps.lt i (Finmap.mem_of_lookup_eq_some ha))] at ha
    exact Table.place_of_slot ha
  refine ⟨fun id hid => by rw [hsound.getComponent hid, hkeeps.slot id hid],
    fun i j a b hij ha hb => hhoused.apart hij (hplace i a ha) (hplace j b hb), ?_⟩
  intro op id hid valid
  obtain ⟨⟨t', ptr⟩, hcall⟩ := h.progress valid fun hclear => by rw [hclear] at hid; cases hid
  exact ⟨t', ptr, hcall, fun i hi hne => hhoused.leaves hsound valid hcall hid hi hne⟩

theorem contents_map_two : ∃ t hist, TableRun (fun _ op => op ≠ .clear) t hist ∧ Table.Fits t.esize
    ∧ (hist.live.lookup 300 = some ⟨0, 2048 + 44 * 8⟩ ∧ hist.live.lookup 7 = some ⟨0, 4096 + 7 * 8⟩)
    ∧ (∀ id < invalidId, t.getComponent id = some (hist.live.lookup id))
    ∧ ∃ t' ptr, TableOp.call t (.destroy 300) = some (t', ptr)
      ∧ ∀ i < invalidId, i ≠ 300 → t.Leaves t' i := by
  obtain ⟨t, hist, h, hM⟩ := TableRun.exists_of_map (fun _ op => op ≠ .clear)
    [.create 300, .create 7, .disable 7, .create 8, .destroy 8, .create 7]
    (f := fun r => (r.1.esize, r.2.live.lookup 300, r.2.live.lookup 7))
    (x := (8, some ⟨0, 2048 + 44 * 8⟩, some ⟨0, 4096 + 7 * 8⟩)) (by decide +kernel)
  obtain ⟨hesize, hlookups⟩ := Prod.mk.inj hM
  have hfits : Table.Fits t.esize := by
    rw [show t.esize = 8 from hesize]
    decide
  obtain ⟨hget, -, hops⟩ := contents_map h hfits
  exact ⟨t, hist, h, hfits, Prod.mk.inj hlookups, hget, hops (.destroy 300) 300 rfl (by decide)⟩

end Furious
