import Furious.Data.TableIter

/-!
Clearing a table.

To clear a table is to go through its blocks, to call the destructor on the enabled
components of each, and to release it.

* `TableBlock.components_eq`: the iterator of a block finds its enabled components,
  `TableBlock.components_last`: but in the last block it meets the invalid id;
* `Table.calls`: the calls of the destructor for a block;
* `clearBlocks_spec` and `clearBlocks_none`: the loop over the blocks;
* `Sound.clear`, `Sound.release`: **the operations**, and `Sound.clear_last`: where they fail.
-/

namespace Furious

/-! ### The components of a block -/

namespace TableBlock

variable {block : TableBlock} {b esize : ℕ}

/-- The places of the enabled components from a position on. -/
def placesFrom (block : TableBlock) (position : ℕ) : List ℕ :=
  (List.range' position (tableBlockSize - position)).filter block.enabled.test

/-- The pointers to the enabled components from a position on. -/
def listed (block : TableBlock) (position : ℕ) : List Address :=
  ((List.range' position (tableBlockSize - position)).filter block.enabled.test).map
    fun offset => block.data.add (offset * block.esize)

lemma listed_eq (block : TableBlock) (p : ℕ) :
    block.listed p = (block.placesFrom p).map fun offset => block.data.add (offset * block.esize) := rfl

/-- The first place is that of an enabled component. -/
lemma placesFrom_cons {p : ℕ} (hp : p < tableBlockSize) (ht : block.enabled.test p = true) :
    block.placesFrom p = p :: block.placesFrom (p + 1) := by
  have hsub : tableBlockSize - p = (tableBlockSize - (p + 1)) + 1 := by omega
  rw [placesFrom, hsub, List.range'_succ, List.filter_cons_of_pos ht, placesFrom]

/-- Ids of all blocks but the last are valid. -/
lemma id_lt (hb : b + 1 < numBlocks) {o : ℕ} (ho : o < tableBlockSize) :
    b * tableBlockSize + o < invalidId := by
  have h₁ : numBlocks = 16777216 := by norm_num
  have h₂ : tableBlockSize = 256 := rfl
  have h₃ : invalidId = 4294967295 := rfl
  rw [h₁] at hb
  rw [h₂] at ho ⊢
  rw [h₃]
  omega

lemma div_id {o : ℕ} (ho : o < tableBlockSize) :
    (b * tableBlockSize + o) / tableBlockSize = b := by
  rw [Nat.mul_comm, Nat.mul_add_div (by decide), Nat.div_eq_of_lt ho, Nat.add_zero]

lemma mod_id {o : ℕ} (ho : o < tableBlockSize) :
    (b * tableBlockSize + o) % tableBlockSize = o := by
  rw [Nat.mul_comm, Nat.mul_add_mod, Nat.mod_eq_of_lt ho]

/-- A component of the block. -/
lemma Shaped.getComponent (h : block.Shaped b esize) {o : ℕ} (ho : o < tableBlockSize)
    (hid : b * tableBlockSize + o < invalidId) :
    block.getComponent (block.start + o)
      = some (if block.enabled.test o then some (block.data.add (o * block.esize)) else none) := by
  have hset : block.enabled.isSet o = some (block.enabled.test o) :=
    Bitmap.isSet_eq (by rw [h.enabled]; exact ho)
  rw [TableBlock.getComponent, h.start, decodeId_eq hid, div_id ho, mod_id ho]
  simp only [Option.bind_eq_bind, Option.bind_some, if_true, hset]

lemma Shaped.hasComponent (h : block.Shaped b esize) {o : ℕ} (ho : o < tableBlockSize)
    (hid : b * tableBlockSize + o < invalidId) :
    block.hasComponent (block.start + o) = some (block.enabled.test o) := by
  rw [TableBlock.hasComponent, h.getComponent ho hid]
  cases block.enabled.test o <;> rfl

/-- Positions without an enabled component add nothing. -/
lemma placesFrom_skip {p q : ℕ} (hpq : p ≤ q) (hq : q ≤ tableBlockSize)
    (hoff : ∀ o, p ≤ o → o < q → block.enabled.test o = false) :
    block.placesFrom p = block.placesFrom q := by
  have hsplit : List.range' p (tableBlockSize - p)
      = List.range' p (q - p) ++ List.range' q (tableBlockSize - q) := by
    have happend := List.range'_append_1 (s := p) (m := q - p) (n := tableBlockSize - q)
    rw [Nat.add_sub_cancel' hpq] at happend
    rw [happend]
    congr 1
    omega
  have hnone : (List.range' p (q - p)).filter block.enabled.test = [] := by
    rw [List.filter_eq_nil_iff]
    intro o ho
    rw [List.mem_range'_1] at ho
    rw [hoff o ho.1 (by omega)]
    exact Bool.false_ne_true
  rw [placesFrom, placesFrom, hsplit, List.filter_append, hnone, List.nil_append]

/-- The next position of an enabled component, or the end. -/
lemma skip_spec (h : block.Shaped b esize) (hb : b + 1 < numBlocks) {r p : ℕ}
    (hr : p + r = tableBlockSize) : ∃ q, block.skip r p = some q ∧ p ≤ q ∧ q ≤ tableBlockSize
      ∧ block.placesFrom p = block.placesFrom q ∧ (q < tableBlockSize → block.enabled.test q = true) := by
  induction r generalizing p with
  | zero => exact ⟨p, rfl, le_rfl, by omega, rfl, fun hlt => by omega⟩
  | succ r ih =>
      have hp : p < tableBlockSize := by omega
      have hhas := h.hasComponent hp (id_lt hb hp)
      cases ht : block.enabled.test p with
      | true =>
          refine ⟨p, ?_, le_rfl, hp.le, rfl, fun _ => ht⟩
          rw [skip, hhas, ht]
          rfl
      | false =>
          obtain ⟨q, heq, hpq, hq, hlist, htest⟩ := ih (p := p + 1) (by omega)
          refine ⟨q, ?_, by omega, hq, ?_, htest⟩
          · rw [skip, hhas, ht, ← heq]
            rfl
          · rw [← hlist]
            refine placesFrom_skip (Nat.le_succ p) hp fun o hle hlt => ?_
            rw [show o = p by omega, ht]

/-- The components from a position on at which there is one. -/
lemma componentsFrom_spec (h : block.Shaped b esize) (hb : b + 1 < numBlocks) {fuel p : ℕ}
    (hp : p ≤ tableBlockSize) (hfuel : tableBlockSize - p < fuel)
    (htest : p < tableBlockSize → block.enabled.test p = true) :
    block.componentsFrom fuel p = some (block.listed p) := by
  induction fuel generalizing p with
  | zero => omega
  | succ fuel ih =>
      rw [componentsFrom]
      by_cases hlt : p < tableBlockSize
      · obtain ⟨q, heq, hpq, hq, hlist, htest'⟩ :=
          skip_spec h hb (r := tableBlockSize - (p + 1)) (p := p + 1) (by omega)
        have hrest := ih hq (by omega) htest'
        rw [if_pos hlt, h.getComponent hlt (id_lt hb hlt), htest hlt, listed_eq,
          placesFrom_cons hlt (htest hlt), List.map_cons, hlist, ← listed_eq]
        simp only [if_true, Option.join_some, Option.bind_eq_bind, Option.bind_some, heq, hrest]
      · have hend : p = tableBlockSize := by omega
        rw [if_neg hlt, hend]
        rfl

/-- **The iterator of a block** finds its enabled components. -/
theorem components_eq (h : block.Shaped b esize) (hb : b + 1 < numBlocks) :
    block.components = some (block.listed 0) := by
  obtain ⟨q, heq, -, hq, hlist, htest⟩ := skip_spec h hb (r := tableBlockSize) (p := 0) (by omega)
  rw [components, heq, Option.bind_eq_bind, Option.bind_some, componentsFrom_spec h hb hq (by omega) htest,
    listed_eq, listed_eq, hlist]

/-! The last block: the id of its last position is the invalid one. -/

lemma getComponent_last (h : block.Shaped b esize) (hb : b + 1 = numBlocks) :
    block.getComponent (block.start + 255) = none := by
  have hid : block.start + 255 = invalidId := by
    have h₁ : numBlocks = 16777216 := by norm_num
    have h₂ : tableBlockSize = 256 := rfl
    have h₃ : invalidId = 4294967295 := rfl
    rw [h.start, h₂, h₃]
    omega
  rw [TableBlock.getComponent, hid]
  rfl

lemma skip_last (h : block.Shaped b esize) (hb : b + 1 = numBlocks) {r p q : ℕ}
    (hr : p + r = tableBlockSize) (hp : p < tableBlockSize) (hskip : block.skip r p = some q) :
    q + 1 < tableBlockSize := by
  induction r generalizing p with
  | zero => omega
  | succ r ih =>
      rw [skip] at hskip
      obtain ⟨found, hfound, hskip⟩ := Option.bind_eq_some_iff.mp hskip
      by_cases hlast : p = 255
      · rw [hlast, hasComponent, getComponent_last h hb] at hfound
        cases hfound
      · have hlt : p + 1 < tableBlockSize := by
          have h₂ : tableBlockSize = 256 := rfl
          omega
        cases found with
        | true =>
            obtain rfl := Option.some.inj hskip
            exact hlt
        | false => exact ih (by omega) hlt hskip

/-- **In the last block** the iterator meets the invalid id. -/
theorem components_last (h : block.Shaped b esize) (hb : b + 1 = numBlocks) :
    block.components = none := by
  have hfrom : ∀ fuel p, p + 1 < tableBlockSize → block.componentsFrom fuel p = none := by
    intro fuel
    induction fuel with
    | zero => exact fun _ _ => rfl
    | succ fuel ih =>
        intro p hp
        by_contra hne
        obtain ⟨l, hl⟩ := Option.ne_none_iff_exists'.mp hne
        rw [componentsFrom, if_pos (Nat.lt_of_succ_lt hp)] at hl
        obtain ⟨ptr, -, hl⟩ := Option.bind_eq_some_iff.mp hl
        obtain ⟨q, hq, hl⟩ := Option.bind_eq_some_iff.mp hl
        rw [ih q (skip_last h hb (Nat.add_sub_cancel' hp.le) hp hq)] at hl
        cases hl
  by_contra hne
  obtain ⟨l, hl⟩ := Option.ne_none_iff_exists'.mp hne
  obtain ⟨q, hq, hl⟩ := Option.bind_eq_some_iff.mp hl
  rw [hfrom _ q (skip_last h hb (Nat.zero_add _) (by decide) hq)] at hl
  cases hl

end TableBlock

/-! ### The blocks of a table -/

namespace Table

variable {t : Table}

/-- The calls of the destructor for a block that is released. -/
def calls (t : Table) (block : TableBlock) : Option (List Address) :=
  if t.destructor then block.components else some []

lemma releaseBlock_eq {p : ℕ} {block : TableBlock} {cs : List Address}
    (hget : t.tblockAllocator.get p = some block) (hcalls : t.calls block = some cs) :
    ∃ a, t.releaseBlock p = some { t with
        tblockAllocator := a
        dataAllocator := t.dataAllocator.free block.data
        destroyed := t.destroyed ++ cs }
      ∧ a.get = Function.update t.tblockAllocator.get p none := by
  obtain ⟨a, hrel, ha⟩ := Pool.get_release hget
  refine ⟨a, ?_, ha⟩
  cases hd : t.destructor with
  | true =>
      rw [calls, hd, if_pos rfl] at hcalls
      simp only [releaseBlock, hget, Option.bind_eq_bind, Option.bind_some, hd, if_true, hcalls, hrel]
  | false =>
      rw [calls, hd, if_neg Bool.false_ne_true] at hcalls
      obtain rfl := Option.some.inj hcalls
      simp only [releaseBlock, hget, Option.bind_eq_bind, Option.bind_some, hd, Bool.false_eq_true,
        if_false, hrel]

lemma releaseBlock_none {p : ℕ} {block : TableBlock} (hget : t.tblockAllocator.get p = some block)
    (hcalls : t.calls block = none) : t.releaseBlock p = none := by
  cases hd : t.destructor with
  | true =>
      rw [calls, hd, if_pos rfl] at hcalls
      simp only [releaseBlock, hget, Option.bind_eq_bind, Option.bind_some, hd, if_true, hcalls,
        Option.bind_none]
  | false =>
      rw [calls, hd, if_neg Bool.false_ne_true] at hcalls
      cases hcalls

/-- A step of the loop of `fdb_table_clear`. -/
lemma clearBlocks_cons {iter : TableIter} {l : List (ℕ × ℕ)} {L : List ℕ} {p : ℕ} (fuel : ℕ)
    (h : iter.Awaits t l (p :: L)) (hl : l.length ≤ t.blocks.size) :
    ∃ iter' l', l' <:+ l ∧ (∀ t' : Table, t'.blocks = t.blocks → iter'.Awaits t' l' L)
      ∧ clearBlocks (fuel + 1) t iter
        = (t.releaseBlock p).bind fun t' => clearBlocks fuel t' iter' := by
  obtain ⟨iter₁, l₁, heq, haw, hsuf, hnext⟩ := TableIter.hasNext_spec h (Nat.lt_succ_of_le hl)
  have hpending := haw.pending
  rw [hnext, List.head?_cons, Option.toList_some, List.singleton_append, List.cons.injEq] at hpending
  refine ⟨{ iter₁ with next := none }, l₁, hsuf, fun t' ht' => ⟨?_, hpending.2⟩, ?_⟩
  · rw [ht']
    exact haw.remains
  · rw [clearBlocks, heq]
    simp only [Option.bind_eq_bind, Option.bind_some, List.head?_cons, Option.isSome_some, if_true,
      TableIter.nextBlock_pending hnext]

/-- **The loop of `fdb_table_clear`** releases the blocks before the iterator. -/
theorem clearBlocks_spec {iter : TableIter} {l : List (ℕ × ℕ)} {L : List ℕ} {fuel : ℕ}
    (cs : ℕ → List Address) (h : iter.Awaits t l L) (hL : L.Nodup)
    (hcalls : ∀ p ∈ L, ∃ block, t.tblockAllocator.get p = some block ∧ t.calls block = some (cs p))
    (hl : l.length ≤ t.blocks.size) (hfuel : L.length < fuel) :
    ∃ a d, clearBlocks fuel t iter = some { t with
      tblockAllocator := a
      dataAllocator := d
      destroyed := t.destroyed ++ L.flatMap cs } := by
  induction fuel generalizing t iter l L with
  | zero => omega
  | succ fuel ih =>
      cases L with
      | nil =>
          obtain ⟨iter₁, l₁, heq, -⟩ := TableIter.hasNext_spec h (Nat.lt_succ_of_le hl)
          refine ⟨t.tblockAllocator, t.dataAllocator, ?_⟩
          rw [clearBlocks, heq, List.flatMap_nil, List.append_nil]
          rfl
      | cons p L =>
          obtain ⟨hp, hnd⟩ := List.nodup_cons.mp hL
          obtain ⟨block, hget, hcs⟩ := hcalls p List.mem_cons_self
          obtain ⟨a, hrel, ha⟩ := releaseBlock_eq hget hcs
          obtain ⟨iter', l', hsuf, haw, heq⟩ := clearBlocks_cons fuel h hl
          have hcalls' : ∀ q ∈ L, ∃ block, a.get q = some block ∧ t.calls block = some (cs q) := by
            intro q hq
            obtain ⟨block', hget', hcs'⟩ := hcalls q (List.mem_cons_of_mem _ hq)
            have hqp : q ≠ p := fun e => hp (e ▸ hq)
            exact ⟨block', by rw [ha, Function.update_of_ne hqp, hget'], hcs'⟩
          obtain ⟨a', d', hrest⟩ := ih (haw { t with
              tblockAllocator := a
              dataAllocator := t.dataAllocator.free block.data
              destroyed := t.destroyed ++ cs p } rfl) hnd hcalls' (hsuf.length_le.trans hl)
            (Nat.lt_of_succ_lt_succ hfuel)
          refine ⟨a', d', ?_⟩
          rw [List.append_assoc, ← List.flatMap_cons] at hrest
          rw [heq, hrel, Option.bind_some, hrest]

/-- **The loop fails** at a block for which the calls of the destructor fail. -/
theorem clearBlocks_none {iter : TableIter} {l : List (ℕ × ℕ)} {L : List ℕ} (fuel : ℕ)
    (h : iter.Awaits t l L) (hL : L.Nodup) (hl : l.length ≤ t.blocks.size) {p : ℕ} (hp : p ∈ L)
    {block : TableBlock} (hget : t.tblockAllocator.get p = some block) (hcalls : t.calls block = none) :
    clearBlocks fuel t iter = none := by
  induction fuel generalizing t iter l L with
  | zero => rfl
  | succ fuel ih =>
      cases L with
      | nil => cases hp
      | cons q L =>
          obtain ⟨hq, hnd⟩ := List.nodup_cons.mp hL
          obtain ⟨iter', l', hsuf, haw, heq⟩ := clearBlocks_cons fuel h hl
          rw [heq]
          cases hq' : t.tblockAllocator.get q with
          | none => rw [releaseBlock, hq']; rfl
          | some block' =>
              cases hcs : t.calls block' with
              | none => rw [releaseBlock_none hq' hcs, Option.bind_none]
              | some cs =>
                  obtain ⟨a, hrel, ha⟩ := releaseBlock_eq hq' hcs
                  have hpq : p ≠ q := by
                    rintro rfl
                    rw [hget] at hq'
                    rw [Option.some.inj hq', hcs] at hcalls
                    cases hcalls
                  have hp' : p ∈ L := (List.mem_cons.mp hp).resolve_left hpq
                  have hget' : a.get p = some block := by rw [ha, Function.update_of_ne hpq, hget]
                  rw [hrel, Option.bind_some]
                  exact ih (haw _ rfl) hnd (hsuf.length_le.trans hl) hp' hget' hcalls

/-- The calls of the destructor for the block of a number. -/
def callsAt (t : Table) (b : ℕ) : List Address :=
  if t.destructor then ((t.blockAt b).elim [] fun block => block.listed 0) else []

namespace Sound

variable {M : KeyMap ℕ}

/-- The blocks of a table in ascending order. -/
lemma leads (h : t.Sound M) {l : List (ℕ × ℕ)} (hl : Lists l M) :
    TableIter.Leads t l ∧ (∀ e ∈ l, e.1 < numBlocks) ∧ (l.map Prod.snd).Nodup
      ∧ l.length = t.blocks.size := by
  have hlookup : ∀ e ∈ l, M.lookup e.1 = some e.2 := fun e he => (hl.mem e.1 e.2).mp he
  have hlt : ∀ e ∈ l, e.1 < numBlocks := fun e he =>
    h.lt e.1 (Finmap.mem_of_lookup_eq_some (hlookup e he))
  refine ⟨fun e he => ?_, hlt, ?_, ?_⟩
  · obtain ⟨block, hget, hshaped⟩ := h.block e.1 e.2 (hlookup e he)
    exact ⟨block, hget, hshaped.start⟩
  · refine List.Nodup.map_on (fun e he f hf hef => ?_) (hl.sorted.imp fun hlt heq => ?_)
    · have hfst := h.inj e.1 f.1 e.2 (hlookup e he) (hef ▸ hlookup f hf)
      exact Prod.ext hfst hef
    · rw [heq] at hlt
      exact lt_irrefl _ hlt
  · have hcard : M.keys.card ≤ (Finset.range numBlocks).card := by
      refine Finset.card_le_card fun b hb => ?_
      exact Finset.mem_range.mpr (h.lt b (Finmap.mem_keys.mp hb))
    rw [Finset.card_range] at hcard
    rw [← hl.card, h.shows.size]
    have hnum : numBlocks < 2 ^ 32 := by norm_num
    exact (Nat.mod_eq_of_lt (lt_of_le_of_lt hcard hnum)).symm

/-- A new iterator over some of the blocks. -/
lemma iterInit (h : t.Sound M) : ∃ l, Lists l M ∧ ∀ chunkSize offset stride, offset < stride →
    stride ≤ 2 ^ 31 → ∃ iter, TableIter.init t chunkSize offset stride = some iter
      ∧ iter.Awaits t l ((routed l chunkSize stride offset).map Prod.snd) := by
  obtain ⟨l, it, hl, hinit, hremains⟩ := h.shows.iterInit
  refine ⟨l, hl, fun chunkSize offset stride ho hs => ?_⟩
  refine ⟨⟨it, chunkSize, offset, stride, none⟩, ?_, hremains, ?_⟩
  · rw [TableIter.init, hinit]
    rfl
  · rw [Option.toList_none, List.nil_append, routed]
    congr 1
    refine List.filter_congr fun e he => ?_
    have hiff : isSelected e.1 chunkSize offset stride = true
        ↔ blockGetOffset e.1 chunkSize stride = offset := isSelected_iff ((h.leads hl).2.1 e he) ho hs
    rw [TableIter.selects, Bool.eq_iff_iff, decide_eq_true_iff]
    exact hiff.symm

/-- **A table with its last block cannot be cleared** if it has a destructor. -/
theorem clear_last (h : t.Sound M) (hd : t.destructor = true) (hlast : numBlocks - 1 ∈ M) :
    t.clear = none := by
  obtain ⟨l, hl, hinit⟩ := h.iterInit
  obtain ⟨iter, hiter, haw⟩ := hinit 1 0 1 Nat.one_pos (by decide)
  obtain ⟨-, -, hnd, hlen⟩ := h.leads hl
  rw [routed_one] at haw
  obtain ⟨p, hlookup⟩ := Finmap.mem_iff.mp hlast
  obtain ⟨block, hget, hshaped⟩ := h.block _ p hlookup
  have hp : p ∈ l.map Prod.snd := List.mem_map.mpr ⟨_, (hl.mem _ p).mpr hlookup, rfl⟩
  have hcalls : t.calls block = none := by
    rw [calls, hd, if_pos rfl, TableBlock.components_last hshaped (by decide)]
  rw [Table.clear, hiter, Option.bind_eq_bind, Option.bind_some,
    clearBlocks_none _ haw hnd hlen.le hp hget hcalls]
  rfl

/-- **`fdb_table_clear`** calls the destructor on the enabled components. -/
theorem clear (h : t.Sound M) (hlast : t.destructor = true → numBlocks - 1 ∉ M) :
    ∃ l t', Lists l M ∧ t.clear = some t' ∧ t'.Sound ∅ ∧ t'.esize = t.esize
      ∧ t'.destructor = t.destructor ∧ t'.numComponents = 0 ∧ t'.memory = t.memory
      ∧ t'.destroyed = t.destroyed ++ l.flatMap fun e => t.callsAt e.1 := by
  obtain ⟨l, hl, hinit⟩ := h.iterInit
  obtain ⟨iter, hiter, haw⟩ := hinit 1 0 1 Nat.one_pos (by decide)
  obtain ⟨hleads, hlt, hnd, hlen⟩ := h.leads hl
  rw [routed_one] at haw
  -- the calls, by the pointers to the blocks
  have hcalls : ∀ e ∈ l, ∃ block, t.tblockAllocator.get e.2 = some block
      ∧ t.calls block = some (t.callsAt e.1)
      ∧ t.callsAt e.1 = if t.destructor then block.listed 0 else [] := by
    intro e he
    have hlookup := (hl.mem e.1 e.2).mp he
    obtain ⟨block, hget, hshaped⟩ := h.block e.1 e.2 hlookup
    have hb : t.blockAt e.1 = some block := by
      rw [h.blockAt_eq, hlookup, Option.bind_some, hget]
    have hat : t.callsAt e.1 = if t.destructor then block.listed 0 else [] := by
      rw [callsAt, hb]
      rfl
    refine ⟨block, hget, ?_, hat⟩
    rw [hat, calls]
    cases hd : t.destructor with
    | true =>
        have hne : e.1 ≠ numBlocks - 1 := fun heq =>
          hlast hd (heq ▸ Finmap.mem_of_lookup_eq_some hlookup)
        have hlt' := hlt e he
        rw [if_pos rfl, if_pos rfl, TableBlock.components_eq hshaped (by omega)]
    | false => rw [if_neg Bool.false_ne_true, if_neg Bool.false_ne_true]
  have hflat : ((l.map Prod.snd).flatMap fun p => if t.destructor
      then ((t.tblockAllocator.get p).elim [] fun block => block.listed 0) else [])
        = l.flatMap fun e => t.callsAt e.1 := by
    rw [List.flatMap_map]
    refine List.flatMap_congr fun e he => ?_
    obtain ⟨block, hget, -, hat⟩ := hcalls e he
    rw [hget, hat]
    rfl
  have hfuel : (l.map Prod.snd).length < t.blocks.size + 1 := by
    rw [List.length_map, hlen]
    exact Nat.lt_succ_self _
  obtain ⟨a, d, hloop⟩ := clearBlocks_spec (fun p => if t.destructor
      then ((t.tblockAllocator.get p).elim [] fun block => block.listed 0) else [])
    haw hnd (fun p hp => by
      obtain ⟨e, he, rfl⟩ := List.mem_map.mp hp
      obtain ⟨block, hget, hcs, hat⟩ := hcalls e he
      exact ⟨block, hget, by rw [hcs, hat, hget]; rfl⟩)
    hlen.le hfuel
  obtain ⟨blocks, hclear, hshows⟩ := h.shows.clear
  rw [hflat] at hloop
  have heq : t.clear = some { t with
      blocks := blocks
      tblockAllocator := a
      dataAllocator := d
      numComponents := 0
      destroyed := t.destroyed ++ l.flatMap fun e => t.callsAt e.1 } := by
    simp only [Table.clear, hiter, Option.bind_eq_bind, Option.bind_some, hloop, hclear]
  refine ⟨l, _, hl, heq, ⟨hshows, fun b p hp => ?_, fun b b' p hp => ?_, fun b hb => ?_⟩, rfl, rfl, rfl, rfl,
    rfl⟩
  · rw [Finmap.lookup_empty] at hp
    cases hp
  · rw [Finmap.lookup_empty] at hp
    cases hp
  · exact absurd hb Finmap.notMem_empty

/-- **`fdb_table_release`.** -/
theorem release (h : t.Sound M) (hlast : t.destructor = true → numBlocks - 1 ∉ M) :
    ∃ l, Lists l M
      ∧ t.release = some (t.destroyed ++ l.flatMap fun e => t.callsAt e.1) := by
  obtain ⟨l, t', hl, heq, hsound, -, -, -, -, hdestroyed⟩ := h.clear hlast
  obtain ⟨nodes, hnodes⟩ := hsound.shows.release
  refine ⟨l, hl, ?_⟩
  simp only [Table.release, heq, Option.bind_eq_bind, Option.bind_some, hnodes, hdestroyed]

end Sound

end Table

end Furious
