import Furious.Data.Runs

/-!
The counters of a table.

A block counts its components and those that are enabled, next to the bitmaps that say
which these are; the table counts the components of all blocks. Enabling and disabling
count without looking at the bit, and destroying takes a component for enabled, so the
counters agree with the bitmaps in the runs where what is not looked at is so.

* `TableBlock.Counted`, `Table.Counted`: the counters agree with the bitmaps;
* `Counting`: the operations that keep it so;
* `TableRun.numComponents_eq`: the counter of the table alone is right in every run;
* `counters_agree`: **in runs of these the counters agree**, `not_counters_agree`: a
  component that is disabled twice.
-/

namespace Furious

/-! ### Blocks -/

lemma increment_eq {n : ℕ} (h : n + 1 < 2 ^ 64) : increment n = n + 1 := Nat.mod_eq_of_lt h

lemma decrement_eq {n : ℕ} (h : 0 < n) (hn : n < 2 ^ 64) : decrement n = n - 1 := by
  rw [decrement]
  omega

namespace TableBlock

/-- The counters of a block are the numbers of set bits, and only what exists is enabled. -/
structure Counted (block : TableBlock) : Prop where
  components : block.numComponents = block.existing.numSet
  enabledComponents : block.numEnabledComponents = block.enabled.numSet
  subset : ∀ o, block.enabled.test o = true → block.existing.test o = true

variable {block block' : TableBlock} {b esize o : ℕ} {e d : Bool}

lemma counted_init (data : Address) (start esize : ℕ) : (init data start esize).Counted :=
  ⟨rfl, rfl, fun o ho => by
    have hoff : (init data start esize).enabled.test o = false := Bitmap.test_init _ _
    rw [hoff] at ho
    cases ho⟩

lemma Shaped.numSet_le (h : block.Shaped b esize) :
    block.existing.numSet ≤ tableBlockSize ∧ block.enabled.numSet ≤ tableBlockSize :=
  ⟨h.existing ▸ block.existing.numSet_le, h.enabled ▸ block.enabled.numSet_le⟩

/-- The bits and the counters change together. -/
lemma Counted.sets (h : block.Counted) (hs : block.Sets block' o e d) (hde : d = true → e = true)
    (hn : block'.numComponents + (block.existing.test o).toNat = block.numComponents + e.toNat)
    (hen : block'.numEnabledComponents + (block.enabled.test o).toNat
      = block.numEnabledComponents + d.toNat) : block'.Counted where
  components := by
    have h₁ := h.components
    have h₂ := hs.numExisting
    omega
  enabledComponents := by
    have h₁ := h.enabledComponents
    have h₂ := hs.numEnabled
    omega
  subset i hi := by
    rw [hs.existing]
    rw [hs.enabled] at hi
    by_cases hio : i = o
    · rw [hio, Function.update_self] at hi ⊢
      exact hde hi
    · rw [Function.update_of_ne hio] at hi ⊢
      exact h.subset i hi

/-- A creation, where what exists is enabled. -/
lemma Counted.create (h : block.Counted) (hshaped : block.Shaped b esize) (ho : o < tableBlockSize)
    (hok : block.existing.test o = true → block.enabled.test o = true)
    (heq : block.create o = some block') :
    block'.Counted ∧ block'.numComponents + (block.existing.test o).toNat = block.numComponents + 1 := by
  obtain ⟨block'', heq', -, hsets, hn, hen⟩ := create_spec hshaped ho
  rw [heq] at heq'
  obtain rfl := Option.some.inj heq'
  have hle := hshaped.numSet_le
  rw [← h.components, ← h.enabledComponents] at hle
  have h₂ : tableBlockSize = 256 := rfl
  cases he : block.existing.test o with
  | true =>
      rw [he, if_pos rfl] at hn hen
      have hn' : block'.numComponents + (block.existing.test o).toNat
          = block.numComponents + true.toNat := by rw [hn, he]
      have hen' : block'.numEnabledComponents + (block.enabled.test o).toNat
          = block.numEnabledComponents + true.toNat := by rw [hen, hok he]
      exact ⟨h.sets hsets (fun _ => rfl) hn' hen', by rw [he] at hn'; exact hn'⟩
  | false =>
      have hd : block.enabled.test o = false := by
        by_contra hne
        rw [h.subset o (eq_true_of_ne_false hne)] at he
        cases he
      rw [he, if_neg Bool.false_ne_true] at hn hen
      rw [increment_eq (by omega)] at hn hen
      have hn' : block'.numComponents + (block.existing.test o).toNat
          = block.numComponents + true.toNat := by rw [hn, he]; rfl
      have hen' : block'.numEnabledComponents + (block.enabled.test o).toNat
          = block.numEnabledComponents + true.toNat := by rw [hen, hd]; rfl
      exact ⟨h.sets hsets (fun _ => rfl) hn' hen', by rw [he] at hn'; exact hn'⟩

/-- A destruction, where what exists is enabled. -/
lemma Counted.destroy (h : block.Counted) (hshaped : block.Shaped b esize) (ho : o < tableBlockSize)
    (hok : block.existing.test o = true → block.enabled.test o = true)
    (heq : block.destroy o = some block') :
    block'.Counted ∧ block'.numComponents + (block.existing.test o).toNat = block.numComponents := by
  obtain ⟨block'', heq', -, hsets, hn, hen⟩ := destroy_spec hshaped ho
  rw [heq] at heq'
  obtain rfl := Option.some.inj heq'
  have hle := hshaped.numSet_le
  rw [← h.components, ← h.enabledComponents] at hle
  have h₂ : tableBlockSize = 256 := rfl
  cases he : block.existing.test o with
  | true =>
      have hpos := Bitmap.numSet_pos he
      have hpos' := Bitmap.numSet_pos (hok he)
      rw [← h.components] at hpos
      rw [← h.enabledComponents] at hpos'
      rw [he, if_pos rfl] at hn hen
      rw [decrement_eq hpos (by omega)] at hn
      rw [decrement_eq hpos' (by omega)] at hen
      have hn' : block'.numComponents + (block.existing.test o).toNat
          = block.numComponents + false.toNat := by rw [hn, he]; exact Nat.sub_add_cancel hpos
      have hen' : block'.numEnabledComponents + (block.enabled.test o).toNat
          = block.numEnabledComponents + false.toNat := by
        rw [hen, hok he]
        exact Nat.sub_add_cancel hpos'
      exact ⟨h.sets hsets (fun hd => by cases hd) hn' hen', by rw [he] at hn'; exact hn'⟩
  | false =>
      have hd : block.enabled.test o = false := by
        by_contra hne
        rw [h.subset o (eq_true_of_ne_false hne)] at he
        cases he
      rw [he, if_neg Bool.false_ne_true] at hn hen
      have hn' : block'.numComponents + (block.existing.test o).toNat
          = block.numComponents + false.toNat := by rw [hn, he]
      have hen' : block'.numEnabledComponents + (block.enabled.test o).toNat
          = block.numEnabledComponents + false.toNat := by rw [hen, hd]
      exact ⟨h.sets hsets (fun hd => by cases hd) hn' hen', by rw [he] at hn'; exact hn'⟩

/-- A component that exists and is not enabled is enabled. -/
lemma Counted.enable (h : block.Counted) (hshaped : block.Shaped b esize) (ho : o < tableBlockSize)
    (he : block.existing.test o = true) (hd : block.enabled.test o = false)
    (heq : block.enable o = some block') :
    block'.Counted ∧ block'.numComponents = block.numComponents := by
  obtain ⟨block'', heq', -, hsets, hn, hen⟩ := enable_spec hshaped ho
  rw [heq] at heq'
  obtain rfl := Option.some.inj heq'
  have hle := hshaped.numSet_le
  rw [← h.components, ← h.enabledComponents] at hle
  have h₂ : tableBlockSize = 256 := rfl
  rw [increment_eq (by omega)] at hen
  exact ⟨h.sets hsets (fun _ => he) (by rw [hn]) (by rw [hen, hd]; rfl), hn⟩

/-- A component that is enabled is disabled. -/
lemma Counted.disable (h : block.Counted) (hshaped : block.Shaped b esize) (ho : o < tableBlockSize)
    (hd : block.enabled.test o = true) (heq : block.disable o = some block') :
    block'.Counted ∧ block'.numComponents = block.numComponents := by
  obtain ⟨block'', heq', -, hsets, hn, hen⟩ := disable_spec hshaped ho
  rw [heq] at heq'
  obtain rfl := Option.some.inj heq'
  have hle := hshaped.numSet_le
  rw [← h.components, ← h.enabledComponents] at hle
  have h₂ : tableBlockSize = 256 := rfl
  have hpos := Bitmap.numSet_pos hd
  rw [← h.enabledComponents] at hpos
  rw [decrement_eq hpos (by omega)] at hen
  refine ⟨h.sets hsets (fun hd => by cases hd) (by rw [hn]) ?_, hn⟩
  rw [hen, hd]
  exact Nat.sub_add_cancel hpos

end TableBlock

/-! ### Tables -/

namespace Table

/-- The number of components that a block counts. -/
def numAt (t : Table) (b : ℕ) : ℕ := (t.blockAt b).elim 0 TableBlock.numComponents

/-- All counters agree with the bitmaps. -/
structure Counted (t : Table) : Prop where
  block : ∀ b block, t.blockAt b = some block → block.Counted
  total : t.numComponents = ∑ b ∈ Finset.range numBlocks, t.numAt b

variable {t t' : Table} {M : KeyMap ℕ} {id : ℕ} {block block' : TableBlock}

lemma Counted.init (esize : ℕ) (destructor : Bool) (memory : Address → UInt8) :
    (Table.init esize destructor memory).Counted := by
  have hnone : ∀ b, (Table.init esize destructor memory).blockAt b = none := by
    intro b
    rw [(Sound.init esize destructor memory).blockAt_eq, Finmap.lookup_empty]
    rfl
  refine ⟨fun b block hb => ?_, ?_⟩
  · rw [hnone] at hb
    cases hb
  · refine (Finset.sum_eq_zero fun b _ => ?_).symm
    rw [numAt, hnone]
    rfl

/-- One block changes. -/
lemma Counted.changes (h : t.Counted) (hc : t.Changes t' id block block') (hid : id < invalidId)
    (hcounted : block'.Counted)
    (hn : t'.numComponents + t.numAt (id / tableBlockSize)
      = t.numComponents + block'.numComponents) : t'.Counted where
  block b old hb := by
    rw [hc.blockAt] at hb
    by_cases hbb : b = id / tableBlockSize
    · rw [hbb, Function.update_self] at hb
      rw [← Option.some.inj hb]
      exact hcounted
    · rw [Function.update_of_ne hbb] at hb
      exact h.block b old hb
  total := by
    have hat : t'.numAt = Function.update t.numAt (id / tableBlockSize) block'.numComponents := by
      funext b
      rw [numAt, hc.blockAt]
      by_cases hbb : b = id / tableBlockSize
      · rw [hbb, Function.update_self, Function.update_self, Option.elim_some]
      · rw [Function.update_of_ne hbb, Function.update_of_ne hbb, numAt]
    have hmem : id / tableBlockSize ∈ Finset.range numBlocks := Finset.mem_range.mpr (block_lt hid)
    have hsum := Finset.sum_update_of_mem hmem t.numAt block'.numComponents
    have hrest := Finset.add_sum_erase _ t.numAt hmem
    rw [Finset.sdiff_singleton_eq_erase] at hsum
    rw [hat, hsum]
    have htotal := h.total
    omega

/-- The counter of the table does not wrap around. -/
lemma Counted.le (h : t.Counted) (hsound : t.Sound M) {i : ℕ} :
    t.numAt (i / tableBlockSize) ≤ tableBlockSize ∧ t.numComponents ≤ 2 ^ 32 := by
  have hat : ∀ b, t.numAt b ≤ tableBlockSize := by
    intro b
    rw [numAt]
    cases hb : t.blockAt b with
    | none => exact Nat.zero_le _
    | some block =>
        rw [Option.elim_some, (h.block b block hb).components]
        exact (hsound.shaped hb).1.numSet_le.1
  refine ⟨hat _, ?_⟩
  rw [h.total]
  refine (Finset.sum_le_card_nsmul _ _ tableBlockSize fun b _ => hat b).trans ?_
  rw [Finset.card_range]
  norm_num

/-- Enabling and disabling touch one block and no other counter. -/
lemma Counted.changeBlock (h : t.Counted) {a : Pool TableBlock}
    (hc : t.Changes { t with tblockAllocator := a } id block block') (hid : id < invalidId)
    (hb : t.blockAt (id / tableBlockSize) = some block)
    (hcounted : block'.Counted ∧ block'.numComponents = block.numComponents) :
    Table.Counted { t with tblockAllocator := a } := by
  refine h.changes hc hid hcounted.1 ?_
  rw [hcounted.2, numAt, hb, Option.elim_some]

end Table

/-! ### Runs -/

/-- The operations that look at what they count: only enabled components are created again
or destroyed, only what exists and is not enabled is enabled, and only what is enabled is
disabled. Without a block nothing happens. -/
def Counting (t : Table) : TableOp → Prop
  | .create id => t.getComponent id = some none ∨ t.isEnabled id = some true
  | .destroy id => t.getComponent id = some none ∨ t.isEnabled id = some true
  | .enable id => t.getBlock (id / tableBlockSize) = some none
      ∨ (t.getComponent id ≠ some none ∧ t.isEnabled id = some false)
  | .disable id => t.getBlock (id / tableBlockSize) = some none ∨ t.isEnabled id = some true
  | .clear => True

instance (t : Table) : (op : TableOp) → Decidable (Counting t op)
  | .create id => inferInstanceAs (Decidable (t.getComponent id = some none ∨ t.isEnabled id = some true))
  | .destroy id => inferInstanceAs (Decidable (t.getComponent id = some none ∨ t.isEnabled id = some true))
  | .enable id => inferInstanceAs (Decidable (t.getBlock (id / tableBlockSize) = some none
      ∨ (t.getComponent id ≠ some none ∧ t.isEnabled id = some false)))
  | .disable id => inferInstanceAs (Decidable (t.getBlock (id / tableBlockSize) = some none
      ∨ t.isEnabled id = some true))
  | .clear => isTrue trivial

namespace Table

variable {t : Table} {M : KeyMap ℕ} {id : ℕ} {block : TableBlock}

/-- A component that does not exist, or is enabled, in terms of its block. -/
lemma Sound.enabled_of_exists (h : t.Sound M) (hid : id < invalidId)
    (hok : t.getComponent id = some none ∨ t.isEnabled id = some true)
    (hb : t.blockAt (id / tableBlockSize) = some block)
    (he : block.existing.test (id % tableBlockSize) = true) :
    block.enabled.test (id % tableBlockSize) = true := by
  rw [h.getComponent hid, h.isEnabled hid, slot, existsAt_eq hb, he, if_pos rfl, place_eq hb,
    enabledAt_eq hb] at hok
  rcases hok with hnone | henabled
  · cases hnone
  · exact Option.some.inj henabled

/-- **A step** keeps the counters. -/
theorem Counted.step (h : t.Counted) (hsound : t.Sound M) {op : TableOp} (valid : op.Valid)
    (hok : Counting t op) {t' : Table} {ptr : Option Address} (hcall : op.call t = some (t', ptr)) :
    t'.Counted := by
  cases op with
  | create id =>
      obtain ⟨t₁, M', block, block', heq, -, hc, hcreate, hold, hnum, -⟩ := hsound.create valid
      rw [TableOp.call, heq] at hcall
      obtain rfl : t₁ = t' := (Prod.mk.inj (Option.some.inj hcall)).1
      have hle := h.le hsound (i := id)
      -- the block before, which may be a new one
      have hblock : block.Counted ∧ block.numComponents = t.numAt (id / tableBlockSize)
          ∧ (block.existing.test (id % tableBlockSize) = true →
            block.enabled.test (id % tableBlockSize) = true) := by
        rcases hold with ⟨hb, -⟩ | ⟨hb, rfl, -⟩
        · exact ⟨h.block _ _ hb, by rw [numAt, hb]; rfl, hsound.enabled_of_exists valid hok hb⟩
        · refine ⟨TableBlock.counted_init _ _ _, by rw [numAt, hb]; rfl, fun he => ?_⟩
          have hoff : (TableBlock.init t.dataAllocator.alloc.1 (id / tableBlockSize * tableBlockSize)
            t.esize).existing.test (id % tableBlockSize) = false := Bitmap.test_init _ _
          rw [hoff] at he
          cases he
      obtain ⟨hcounted, hn⟩ := hblock.1.create hc.shaped (offset_lt id) hblock.2.2 hcreate
      refine h.changes hc valid hcounted ?_
      rw [hblock.2.1] at hn
      have h₂ : tableBlockSize = 256 := rfl
      cases he : block.existing.test (id % tableBlockSize) with
      | true =>
          rw [he, if_pos rfl] at hnum
          rw [he] at hn
          have hone : true.toNat = 1 := rfl
          omega
      | false =>
          rw [he, if_neg Bool.false_ne_true, increment_eq (by omega)] at hnum
          rw [he] at hn
          have hzero : false.toNat = 0 := rfl
          omega
  | destroy id =>
      rcases hsound.destroy valid with ⟨-, heq⟩ | ⟨t₁, block, block', hb, heq, -, hc, hdes, -, hnum, -⟩
      · rw [TableOp.call, heq] at hcall
        obtain ⟨rfl, -⟩ := Prod.mk.inj (Option.some.inj hcall)
        exact h
      · rw [TableOp.call, heq] at hcall
        obtain ⟨rfl, -⟩ := Prod.mk.inj (Option.some.inj hcall)
        have hle := h.le hsound (i := id)
        obtain ⟨hcounted, hn⟩ := (h.block _ _ hb).destroy hc.shaped (offset_lt id)
          (hsound.enabled_of_exists valid hok hb) hdes
        refine h.changes hc valid hcounted ?_
        have hat : t.numAt (id / tableBlockSize) = block.numComponents := by rw [numAt, hb]; rfl
        cases he : block.existing.test (id % tableBlockSize) with
        | true =>
            rw [he, if_pos rfl] at hnum
            rw [he] at hn
            have hone : true.toNat = 1 := rfl
            have hpos : t.numAt (id / tableBlockSize) ≤ t.numComponents := by
              rw [h.total]
              exact Finset.single_le_sum (fun _ _ => Nat.zero_le _) (Finset.mem_range.mpr (block_lt valid))
            rw [decrement_eq (by omega) (by omega)] at hnum
            omega
        | false =>
            rw [he, if_neg Bool.false_ne_true] at hnum
            rw [he] at hn
            have hzero : false.toNat = 0 := rfl
            omega
  | enable id =>
      rcases hsound.enable valid with ⟨-, heq⟩ | ⟨a, block, block', hb, heq, -, hc, hen⟩
      · rw [TableOp.call, heq] at hcall
        obtain ⟨rfl, -⟩ := Prod.mk.inj (Option.some.inj hcall)
        exact h
      · rw [TableOp.call, heq] at hcall
        obtain ⟨rfl, -⟩ := Prod.mk.inj (Option.some.inj hcall)
        have hbits : block.existing.test (id % tableBlockSize) = true
            ∧ block.enabled.test (id % tableBlockSize) = false := by
          rcases hok with hnone | ⟨he, hd⟩
          · rw [(hsound.getBlock_none _).mp hnone] at hb
            cases hb
          · rw [hsound.getComponent valid, slot, existsAt_eq hb] at he
            rw [hsound.isEnabled valid, enabledAt_eq hb] at hd
            refine ⟨?_, Option.some.inj hd⟩
            by_contra hne
            exact he (by rw [if_neg hne])
        exact h.changeBlock hc valid hb
          ((h.block _ _ hb).enable hc.shaped (offset_lt id) hbits.1 hbits.2 hen)
  | disable id =>
      rcases hsound.disable valid with ⟨-, heq⟩ | ⟨a, block, block', hb, heq, -, hc, hdis⟩
      · rw [TableOp.call, heq] at hcall
        obtain ⟨rfl, -⟩ := Prod.mk.inj (Option.some.inj hcall)
        exact h
      · rw [TableOp.call, heq] at hcall
        obtain ⟨rfl, -⟩ := Prod.mk.inj (Option.some.inj hcall)
        have hd : block.enabled.test (id % tableBlockSize) = true := by
          rcases hok with hnone | hd
          · rw [(hsound.getBlock_none _).mp hnone] at hb
            cases hb
          · rw [hsound.isEnabled valid, enabledAt_eq hb] at hd
            exact Option.some.inj hd
        exact h.changeBlock hc valid hb ((h.block _ _ hb).disable hc.shaped (offset_lt id) hd hdis)
  | clear =>
      have hlast : t.destructor = true → numBlocks - 1 ∉ M := by
        intro hd hlast
        rw [TableOp.call, hsound.clear_last hd hlast] at hcall
        cases hcall
      obtain ⟨l, t₁, -, heq, hsound', -, -, hnum, -⟩ := hsound.clear hlast
      rw [TableOp.call, heq] at hcall
      obtain ⟨rfl, -⟩ := Prod.mk.inj (Option.some.inj hcall)
      have hnone : ∀ b, t₁.blockAt b = none := by
        intro b
        rw [hsound'.blockAt_eq, Finmap.lookup_empty]
        rfl
      refine ⟨fun b block hb => ?_, ?_⟩
      · rw [hnone] at hb
        cases hb
      · rw [hnum]
        refine (Finset.sum_eq_zero fun b _ => ?_).symm
        rw [numAt, hnone]
        rfl

end Table

/-! ### The components of a table -/

namespace Table

variable {t t' : Table} {hist : History} {M : KeyMap ℕ} {id : ℕ}

/-- What is live exists. -/
lemma Keeps.mem_iff (h : t.Keeps hist) (hid : id < invalidId) :
    id ∈ hist.live ↔ t.existsAt id = true := by
  rw [Finmap.mem_iff, h.slot id hid, Table.slot]
  cases he : t.existsAt id with
  | false => simp
  | true =>
      cases hb : t.blockAt (id / tableBlockSize) with
      | none =>
          rw [(bits_of_none hb).1] at he
          cases he
      | some block => simp [place_eq hb]

lemma Keeps.card_le (h : t.Keeps hist) : hist.live.keys.card ≤ invalidId := by
  have hsub : hist.live.keys ⊆ Finset.range invalidId := fun id hid =>
    Finset.mem_range.mpr (h.lt id (Finmap.mem_keys.mp hid))
  calc hist.live.keys.card ≤ (Finset.range invalidId).card := Finset.card_le_card hsub
    _ = invalidId := Finset.card_range _

/-- The counter of the table after an operation: it looks at the bit of the component. -/
def tally (t : Table) : TableOp → ℕ
  | .create id => if t.existsAt id then t.numComponents else increment t.numComponents
  | .destroy id => if t.existsAt id then decrement t.numComponents else t.numComponents
  | .enable _ => t.numComponents
  | .disable _ => t.numComponents
  | .clear => 0

lemma Sound.tally (h : t.Sound M) {op : TableOp} (valid : op.Valid) {ptr : Option Address}
    (hcall : op.call t = some (t', ptr)) : t'.numComponents = t.tally op := by
  cases op with
  | create id =>
      obtain ⟨t₁, M', block, block', heq, -, -, -, hold, hnum, -⟩ := h.create valid
      rw [TableOp.call, heq] at hcall
      obtain rfl : t₁ = t' := (Prod.mk.inj (Option.some.inj hcall)).1
      have hexists : t.existsAt id = block.existing.test (id % tableBlockSize) := by
        rcases hold with ⟨hb, -⟩ | ⟨hb, rfl, -⟩
        · exact existsAt_eq hb
        · rw [(bits_of_none hb).1]
          exact (Bitmap.test_init _ _).symm
      rw [Table.tally, hexists, hnum]
  | destroy id =>
      rcases h.destroy valid with ⟨hb, heq⟩ | ⟨t₁, block, block', hb, heq, -, -, -, -, hnum, -⟩
      · rw [TableOp.call, heq] at hcall
        obtain ⟨rfl, -⟩ := Prod.mk.inj (Option.some.inj hcall)
        rw [Table.tally, (bits_of_none hb).1, if_neg Bool.false_ne_true]
      · rw [TableOp.call, heq] at hcall
        obtain ⟨rfl, -⟩ := Prod.mk.inj (Option.some.inj hcall)
        rw [Table.tally, existsAt_eq hb, hnum]
  | enable id =>
      rcases h.enable valid with ⟨-, heq⟩ | ⟨a, block, block', -, heq, -⟩
      all_goals
        rw [TableOp.call, heq] at hcall
        obtain ⟨rfl, -⟩ := Prod.mk.inj (Option.some.inj hcall)
        rfl
  | disable id =>
      rcases h.disable valid with ⟨-, heq⟩ | ⟨a, block, block', -, heq, -⟩
      all_goals
        rw [TableOp.call, heq] at hcall
        obtain ⟨rfl, -⟩ := Prod.mk.inj (Option.some.inj hcall)
        rfl
  | clear =>
      obtain ⟨t₁, hclear, hr⟩ := Option.map_eq_some_iff.mp hcall
      obtain rfl := (Prod.mk.inj hr).1
      obtain ⟨iter, -, hclear⟩ := Option.bind_eq_some_iff.mp hclear
      obtain ⟨t₂, -, hclear⟩ := Option.bind_eq_some_iff.mp hclear
      obtain ⟨blocks, -, hclear⟩ := Option.bind_eq_some_iff.mp hclear
      rw [← Option.some.inj hclear, Table.tally]

end Table

/-- **In every run a table counts the components that are live**, however these are enabled and
disabled. -/
theorem TableRun.numComponents_eq {ok : Table → TableOp → Prop} {t : Table} {hist : History}
    (h : TableRun ok t hist) : t.numComponents = hist.live.keys.card := by
  induction h with
  | init esize destructor memory => rfl
  | @step t t' hist ptr h op valid _ hcall ih =>
      obtain ⟨⟨M, hsound⟩, hkeeps⟩ := h.keeps
      have hle : hist.live.keys.card ≤ 0xffffffff := hkeeps.card_le
      rw [hsound.tally valid hcall]
      cases op with
      | create id =>
          obtain ⟨r, -, hr⟩ := Option.map_eq_some_iff.mp hcall
          obtain ⟨-, rfl⟩ := Prod.mk.inj hr
          rw [Table.tally, TableOp.act, ih]
          by_cases hlive : id ∈ hist.live
          · rw [if_pos ((hkeeps.mem_iff valid).mp hlive), if_pos hlive]
          · rw [if_neg fun he => hlive ((hkeeps.mem_iff valid).mpr he), if_neg hlive, Option.elim_some,
              increment_eq (by omega)]
            have hkeys : (hist.live.insert id r.2).keys = insert id hist.live.keys := by
              ext i
              simp [Finmap.mem_keys, Finmap.mem_insert]
            rw [hkeys, Finset.card_insert_of_notMem (by rwa [Finmap.mem_keys])]
      | destroy id =>
          rw [Table.tally, TableOp.act, ih, Finmap.keys_erase]
          by_cases hlive : id ∈ hist.live
          · have hmem : id ∈ hist.live.keys := Finmap.mem_keys.mpr hlive
            have hpos := Finset.card_pos.mpr ⟨id, hmem⟩
            rw [if_pos ((hkeeps.mem_iff valid).mp hlive), decrement_eq hpos (by omega),
              Finset.card_erase_of_mem hmem]
          · rw [if_neg fun he => hlive ((hkeeps.mem_iff valid).mpr he),
              Finset.erase_eq_of_notMem (by rwa [Finmap.mem_keys])]
      | enable id => exact ih
      | disable id => exact ih
      | clear => rfl

/-- **In the runs that look at what they count the counters agree with the bitmaps**, and
what has no component is neither enabled nor disabled. -/
theorem counters_agree {t : Table} {hist : History} (h : TableRun Counting t hist) :
    t.Counted ∧ ∀ id < invalidId, t.getComponent id = some none →
      (Counting t (.enable id) → t.enableComponent id = some t)
      ∧ (Counting t (.disable id) → t.disableComponent id = some t) := by
  have hcounted : t.Counted := by
    induction h with
    | init esize destructor memory => exact Table.Counted.init esize destructor memory
    | step h op valid hok hcall ih =>
        obtain ⟨⟨M, hsound⟩, -⟩ := h.keeps
        exact ih.step hsound valid hok hcall
  obtain ⟨⟨M, hsound⟩, -⟩ := h.keeps
  refine ⟨hcounted, fun id hid hnone => ⟨fun hok => ?_, fun hok => ?_⟩⟩
  · rcases hsound.enable hid with ⟨-, heq⟩ | ⟨a, block, block', hb, -⟩
    · exact heq
    · rcases hok with hblock | ⟨he, -⟩
      · rw [(hsound.getBlock_none _).mp hblock] at hb
        cases hb
      · exact absurd hnone he
  · rcases hsound.disable hid with ⟨-, heq⟩ | ⟨a, block, block', hb, -⟩
    · exact heq
    · rcases hok with hblock | hd
      · rw [(hsound.getBlock_none _).mp hblock] at hb
        cases hb
      · -- what is enabled exists
        have hex := (hcounted.block _ _ hb).subset (id % tableBlockSize)
        rw [hsound.isEnabled hid, Table.enabledAt_eq hb] at hd
        rw [hsound.getComponent hid, Table.slot, Table.existsAt_eq hb, hex (Option.some.inj hd), if_pos rfl,
          Table.place_eq hb] at hnone
        cases hnone

theorem counters_agree_mixed : ∃ t hist, TableRun Counting t hist
    ∧ (t.numComponents = 2 ∧ t.isEnabled 3 = some false)
    ∧ t.Counted ∧ ∀ id < invalidId, t.getComponent id = some none →
      (Counting t (.enable id) → t.enableComponent id = some t)
      ∧ (Counting t (.disable id) → t.disableComponent id = some t) := by
  obtain ⟨t, hist, h, hM⟩ := TableRun.exists_of_map Counting
    [.create 3, .create 4, .disable 3, .enable 700, .create 1000, .destroy 4, .create 4, .destroy 1000]
    (f := fun r => (r.1.numComponents, r.1.isEnabled 3)) (x := (2, some false)) (by decide +kernel)
  exact ⟨t, hist, h, Prod.mk.inj hM, counters_agree h⟩

/-- A component is disabled twice, and the counter of the enabled ones falls below zero. -/
theorem not_counters_agree : ¬ ∀ t hist, TableRun (fun _ _ => True) t hist →
    t.Counted ∧ ∀ id < invalidId, t.getComponent id = some none →
      t.enableComponent id = some t ∧ t.disableComponent id = some t := by
  intro hall
  obtain ⟨t, hist, h, hM⟩ := TableRun.exists_of_map (fun _ _ => True)
    [.create 0, .disable 0, .disable 0]
    (f := fun r => (r.1.blockAt 0).map fun block => (block.numEnabledComponents, block.enabled.numSet))
    (x := some (2 ^ 64 - 1, 0)) (by decide +kernel)
  obtain ⟨block, hb, hcounts⟩ := Option.map_eq_some_iff.mp hM
  have hcounted := ((hall t hist h).1.block 0 block hb).enabledComponents
  obtain ⟨h₁, h₂⟩ := Prod.mk.inj hcounts
  rw [h₁, h₂] at hcounted
  cases hcounted

end Furious
