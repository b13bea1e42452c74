import Furious.Data.Blocks

/-!
Iteration over the blocks of a table.

The iterator of a table goes through the iterator of its B-tree and takes the blocks
whose chunk belongs to its offset. It may have read one block ahead.

* `isSelected_iff`: an iterator and `block_get_offset` agree about a block;
* `TableIter.Awaits`: what an iterator has before it, `hasNext_spec` and
  `nextBlock_spec`: the two steps;
* `TableIter.alternate`, `TableIter.calls`: the two ways to use an iterator,
  `Awaits.alternate_eq` and `Awaits.calls_eq`: **they give the same blocks**;
* `TableIter.forEach`: a loop over the blocks, and `Awaits.forEach_eq`;
* `routed`, `routed_perm`: the iterators of all offsets share the blocks.
-/

namespace Furious

/-- The 32 bit arithmetic does not wrap around, and finds the offset of the block. -/
lemma isSelected_iff {blockId chunkSize offset stride : ℕ} (hb : blockId < numBlocks)
    (ho : offset < stride) (hs : stride ≤ 2 ^ 31) :
    isSelected blockId chunkSize offset stride = true
      ↔ blockGetOffset blockId chunkSize stride = offset := by
  have hq : blockId / chunkSize < 2 ^ 24 := lt_of_le_of_lt (Nat.div_le_self _ _) hb
  have hsub : (stride + 2 ^ 32 - offset) % 2 ^ 32 = stride - offset := by omega
  have hsum : (blockId / chunkSize + (stride - offset)) % 2 ^ 32
      = blockId / chunkSize + (stride - offset) := Nat.mod_eq_of_lt (by omega)
  rw [isSelected, blockGetOffset, hsub, hsum, beq_iff_eq]
  generalize blockId / chunkSize = q
  have hmod := Nat.mod_lt q (Nat.zero_lt_of_lt ho)
  have hsplit : (q + (stride - offset)) % stride = (q % stride + (stride - offset)) % stride :=
    (Nat.mod_add_mod _ _ _).symm
  rw [hsplit]
  constructor
  · intro h
    by_contra hne
    rcases lt_or_gt_of_ne hne with hlt | hgt
    · rw [Nat.mod_eq_of_lt (by omega)] at h
      omega
    · rw [Nat.mod_eq_sub_mod (by omega), Nat.mod_eq_of_lt (by omega)] at h
      omega
  · rintro rfl
    rw [Nat.add_sub_cancel' hmod.le, Nat.mod_self]

namespace TableIter

variable {t : Table} {iter : TableIter} {l : List (ℕ × ℕ)} {L : List ℕ} {fuel : ℕ}

/-- The entries that an iterator takes. -/
def selects (iter : TableIter) (e : ℕ × ℕ) : Bool :=
  isSelected e.1 iter.chunkSize iter.offset iter.stride

/-- The entries `l` are left in the B-tree, and the blocks `L` are before the iterator. -/
structure Awaits (t : Table) (iter : TableIter) (l : List (ℕ × ℕ)) (L : List ℕ) : Prop where
  remains : iter.it.Remains t.blocks.nodes l
  pending : L = iter.next.toList ++ (l.filter iter.selects).map Prod.snd

/-- With a block read ahead there is one, whatever is left. -/
lemma hasNext_pending (h : iter.it.Remains t.blocks.nodes l) {p : ℕ} (hp : iter.next = some p) :
    iter.hasNext t (fuel + 1) = some (true, iter) := by
  have hmore : ∃ more, iter.it.hasNext t.blocks.nodes = some more := by
    cases l with
    | nil => exact ⟨_, h.1⟩
    | cons e l => exact ⟨_, h.1⟩
  obtain ⟨more, hmore⟩ := hmore
  simp only [hasNext, hmore, Option.bind_eq_bind, Option.bind_some, hp, reduceCtorEq, and_false,
    if_false, Option.isSome_some]

lemma nextBlock_pending {p : ℕ} (hp : iter.next = some p) :
    iter.nextBlock t fuel = some (some p, { iter with next := none }) := by
  rw [nextBlock, hp]

/-- A step of the loop of `fdb_table_iter_has_next`. -/
lemma hasNext_step {e : ℕ × ℕ} {it : Iter} (hmore : iter.it.hasNext t.blocks.nodes = some true)
    (hn : iter.next = none) (hnext : iter.it.next t.blocks.nodes = some ((e.1, some e.2), it)) :
    iter.hasNext t (fuel + 1) = if iter.selects e = true
      then some (true, { iter with it := it, next := some e.2 })
      else hasNext t fuel { iter with it := it, next := none } := by
  generalize hg : hasNext t fuel = g
  rw [selects, hasNext, hg, hmore, Option.bind_eq_bind, Option.bind_some, if_pos ⟨rfl, hn⟩, hnext]
  rw [Option.bind_eq_bind, Option.bind_some]
  dsimp only
  -- the 32 bit arithmetic must not be evaluated
  generalize isSelected e.1 iter.chunkSize iter.offset iter.stride = b
  rfl

/-- A step of the loop of `fdb_table_iter_next`. -/
lemma scan_step {e : ℕ × ℕ} {it : Iter} {block : TableBlock}
    (hnext : iter.it.next t.blocks.nodes = some ((e.1, some e.2), it))
    (hget : t.tblockAllocator.get e.2 = some block) (hstart : block.start = e.1 * tableBlockSize) :
    iter.scan t (fuel + 1) = if iter.selects e = true then some (some e.2, { iter with it := it })
      else scan t fuel { iter with it := it } := by
  have hkey : block.start / tableBlockSize = e.1 := by
    rw [hstart, Nat.mul_div_cancel _ (by decide)]
  generalize hg : scan t fuel = g
  rw [selects, scan, hg, hnext, Option.bind_eq_bind, Option.bind_some]
  dsimp only
  rw [hget, Option.bind_eq_bind, Option.bind_some, hkey]

/-- **`fdb_table_iter_has_next`** reads ahead up to the first block. -/
theorem hasNext_spec (h : iter.Awaits t l L) (hfuel : l.length < fuel) :
    ∃ iter' l', iter.hasNext t fuel = some (L.head?.isSome, iter') ∧ iter'.Awaits t l' L
      ∧ l' <:+ l ∧ iter'.next = L.head? := by
  induction fuel generalizing iter l with
  | zero => omega
  | succ fuel ih =>
      cases hn : iter.next with
      | some p =>
          have hL : L.head? = some p := by rw [h.pending, hn]; rfl
          exact ⟨iter, l, by rw [hasNext_pending h.remains hn, hL]; rfl, h, List.suffix_refl l,
            hn.trans hL.symm⟩
      | none =>
          cases l with
          | nil =>
              have hL : L = [] := by rw [h.pending, hn]; rfl
              refine ⟨iter, [], ?_, h, List.suffix_refl _, by rw [hL, hn]; rfl⟩
              simp only [hasNext, h.remains.1, Option.bind_eq_bind, Option.bind_some, Bool.false_eq_true,
                false_and, if_false, hn, hL, List.head?_nil]
          | cons e l =>
              obtain ⟨hmore, it, hnext, hrest⟩ := h.remains
              have hpending := h.pending
              rw [hn, Option.toList_none, List.nil_append] at hpending
              by_cases hsel : iter.selects e = true
              · rw [List.filter_cons_of_pos hsel, List.map_cons] at hpending
                refine ⟨{ iter with it := it, next := some e.2 }, l, ?_, ⟨hrest, hpending⟩,
                  List.suffix_cons e l, by rw [hpending]; rfl⟩
                rw [hasNext_step hmore hn hnext, if_pos hsel, hpending]
                rfl
              · rw [List.filter_cons_of_neg hsel] at hpending
                have haw : Awaits t { iter with it := it, next := none } l L := ⟨hrest, hpending⟩
                obtain ⟨iter', l', heq, haw', hsuf, hhead⟩ := ih haw (Nat.lt_of_succ_lt_succ hfuel)
                refine ⟨iter', l', ?_, haw', hsuf.trans (List.suffix_cons e l), hhead⟩
                rw [hasNext_step hmore hn hnext, if_neg hsel, heq]

/-- The entries lead to the blocks of their keys. -/
def Leads (t : Table) (l : List (ℕ × ℕ)) : Prop :=
  ∀ e ∈ l, ∃ block, t.tblockAllocator.get e.2 = some block ∧ block.start = e.1 * tableBlockSize

/-- The loop of **`fdb_table_iter_next`** stops at the first block, or at the end. -/
lemma scan_spec (h : iter.Awaits t l L) (hn : iter.next = none) (hl : Leads t l)
    (hfuel : l.length < fuel) :
    ∃ iter' l', iter.scan t fuel = some (L.head?, iter') ∧ iter'.Awaits t l' L.tail ∧ l' <:+ l := by
  induction fuel generalizing iter l with
  | zero => omega
  | succ fuel ih =>
      have hpending := h.pending
      rw [hn, Option.toList_none, List.nil_append] at hpending
      cases l with
      | nil =>
          refine ⟨iter, [], ?_, ⟨h.remains, by rw [hn, hpending]; rfl⟩, List.suffix_refl _⟩
          rw [hpending]
          simp only [scan, h.remains.2, Option.bind_eq_bind, Option.bind_some]
          rfl
      | cons e l =>
          obtain ⟨-, it, hnext, hrest⟩ := h.remains
          obtain ⟨block, hget, hstart⟩ := hl e List.mem_cons_self
          by_cases hsel : iter.selects e = true
          · rw [List.filter_cons_of_pos hsel, List.map_cons] at hpending
            refine ⟨{ iter with it := it }, l, ?_, ⟨hrest, ?_⟩, List.suffix_cons e l⟩
            · rw [scan_step hnext hget hstart, if_pos hsel, hpending]
              rfl
            · rw [hpending, hn]
              rfl
          · rw [List.filter_cons_of_neg hsel] at hpending
            have haw : Awaits t { iter with it := it } l L := ⟨hrest, by rw [hn]; exact hpending⟩
            obtain ⟨iter', l', heq, haw', hsuf⟩ := ih haw hn
              (fun f hf => hl f (List.mem_cons_of_mem _ hf)) (Nat.lt_of_succ_lt_succ hfuel)
            refine ⟨iter', l', ?_, haw', hsuf.trans (List.suffix_cons e l)⟩
            rw [scan_step hnext hget hstart, if_neg hsel, heq]

/-- **`fdb_table_iter_next`** gives the first block, with or without reading ahead. -/
theorem nextBlock_spec (h : iter.Awaits t l L) (hl : Leads t l) (hfuel : l.length < fuel) :
    ∃ iter' l', iter.nextBlock t fuel = some (L.head?, iter') ∧ iter'.Awaits t l' L.tail
      ∧ l' <:+ l := by
  cases hn : iter.next with
  | none =>
      obtain ⟨iter', l', heq, haw, hsuf⟩ := scan_spec h hn hl hfuel
      exact ⟨iter', l', by rw [nextBlock, hn, heq], haw, hsuf⟩
  | some p =>
      have hpending := h.pending
      rw [hn, Option.toList_some, List.singleton_append] at hpending
      refine ⟨{ iter with next := none }, l, ?_, ⟨h.remains, ?_⟩, List.suffix_refl l⟩
      · rw [nextBlock_pending hn, hpending]
        rfl
      · rw [hpending]
        rfl

/-! ### Whole iterations -/

/-- The blocks that alternating calls of `fdb_table_iter_has_next` and
`fdb_table_iter_next` give, with `fuel` for each loop. -/
def alternate (t : Table) (fuel : ℕ) : ℕ → TableIter → Option (List (Option ℕ))
  | 0, _ => none
  | n + 1, iter => do
      let (more, iter) ← iter.hasNext t fuel
      if more = true then do
        let (p, iter) ← iter.nextBlock t fuel
        let ps ← alternate t fuel n iter
        some (p :: ps)
      else some []

/-- The results of `n` calls of `fdb_table_iter_next`. -/
def calls (t : Table) (fuel : ℕ) : ℕ → TableIter → Option (List (Option ℕ))
  | 0, _ => some []
  | n + 1, iter => do
      let (p, iter) ← iter.nextBlock t fuel
      let ps ← calls t fuel n iter
      some (p :: ps)

/-- **Alternating calls** give the blocks. -/
theorem Awaits.alternate_eq {n : ℕ} (h : iter.Awaits t l L) (hl : Leads t l) (hfuel : l.length < fuel)
    (hn : L.length < n) : iter.alternate t fuel n = some (L.map some) := by
  induction n generalizing iter l L with
  | zero => omega
  | succ n ih =>
      obtain ⟨iter₁, l₁, heq₁, haw₁, hsuf₁, -⟩ := hasNext_spec h hfuel
      have hlen₁ := hsuf₁.length_le
      have hl₁ : Leads t l₁ := fun e he => hl e (hsuf₁.mem he)
      obtain ⟨iter₂, l₂, heq₂, haw₂, hsuf₂⟩ := nextBlock_spec haw₁ hl₁ (lt_of_le_of_lt hlen₁ hfuel)
      have hlen₂ := hsuf₂.length_le
      cases L with
      | nil =>
          simp only [alternate, heq₁, Option.bind_eq_bind, Option.bind_some, List.head?_nil,
            Option.isSome_none, Bool.false_eq_true, if_false, List.map_nil]
      | cons p L =>
          have hrest := ih haw₂ (fun e he => hl₁ e (hsuf₂.mem he)) (by omega)
            (by rw [List.length_cons] at hn; exact Nat.lt_of_succ_lt_succ hn)
          simp only [alternate, heq₁, heq₂, Option.bind_eq_bind, Option.bind_some, List.head?_cons,
            Option.isSome_some, if_true, hrest, List.tail_cons, List.map_cons]

/-- **Calls of `fdb_table_iter_next` alone** give the blocks, and null after the end. -/
theorem Awaits.calls_eq (h : iter.Awaits t l L) (hl : Leads t l) (hfuel : l.length < fuel) (n : ℕ) :
    iter.calls t fuel n = some ((List.range n).map fun i => L[i]?) := by
  induction n generalizing iter l L with
  | zero => rfl
  | succ n ih =>
      obtain ⟨iter', l', heq, haw, hsuf⟩ := nextBlock_spec h hl hfuel
      have hrest := ih haw (fun e he => hl e (hsuf.mem he)) (lt_of_le_of_lt hsuf.length_le hfuel)
      have htail : ∀ i, L.tail[i]? = L[i + 1]? := fun i => by cases L <;> rfl
      have hhead : L.head? = L[0]? := by cases L <;> rfl
      simp only [calls, heq, Option.bind_eq_bind, Option.bind_some, hrest, List.range_succ_eq_map,
        List.map_cons, List.map_map, hhead, htail]
      rfl

/-- A loop over the blocks: while `fdb_table_iter_has_next`, the body for what `fdb_table_iter_next`
gives, with `fuel` for each of their loops. -/
def forEach {σ : Type} (t : Table) (fuel : ℕ) (body : σ → ℕ → Option σ) : ℕ → TableIter → σ → Option σ
  | 0, _, _ => none
  | n + 1, iter, s => do
      let (more, iter) ← iter.hasNext t fuel
      if more = true then do
        let (p, iter) ← iter.nextBlock t fuel
        let p ← p
        let s ← body s p
        forEach t fuel body n iter s
      else some s

/-- **A loop over the blocks** is a loop over the list of them. -/
theorem Awaits.forEach_eq {σ : Type} {n : ℕ} (h : iter.Awaits t l L) (hl : Leads t l)
    (hfuel : l.length < fuel) (hn : L.length < n) (body : σ → ℕ → Option σ) (s : σ) :
    iter.forEach t fuel body n s = L.foldlM body s := by
  induction n generalizing iter l L s with
  | zero => omega
  | succ n ih =>
      obtain ⟨iter₁, l₁, heq₁, haw₁, hsuf₁, -⟩ := hasNext_spec h hfuel
      have hlen₁ := hsuf₁.length_le
      have hl₁ : Leads t l₁ := fun e he => hl e (hsuf₁.mem he)
      obtain ⟨iter₂, l₂, heq₂, haw₂, hsuf₂⟩ := nextBlock_spec haw₁ hl₁ (lt_of_le_of_lt hlen₁ hfuel)
      have hlen₂ := hsuf₂.length_le
      cases L with
      | nil =>
          simp only [forEach, heq₁, Option.bind_eq_bind, Option.bind_some, List.head?_nil,
            Option.isSome_none, Bool.false_eq_true, if_false, List.foldlM_nil, Option.pure_def]
      | cons p L =>
          rw [List.length_cons] at hn
          have hrest (s : σ) := ih haw₂ (fun e he => hl₁ e (hsuf₂.mem he)) (by omega)
            (Nat.lt_of_succ_lt_succ hn) s
          simp only [forEach, heq₁, heq₂, Option.bind_eq_bind, Option.bind_some, List.head?_cons,
            Option.isSome_some, if_true, List.foldlM_cons, hrest, List.tail_cons]

end TableIter

/-! ### The iterators of all offsets -/

/-- The blocks of `l` that `block_get_offset` sends to the offset. -/
def routed (l : List (ℕ × ℕ)) (chunkSize stride offset : ℕ) : List (ℕ × ℕ) :=
  l.filter fun e => blockGetOffset e.1 chunkSize stride = offset

/-- A single iterator gets all blocks. -/
@[simp] lemma routed_one (l : List (ℕ × ℕ)) : routed l 1 1 0 = l := by
  refine List.filter_eq_self.mpr fun e _ => decide_eq_true ?_
  rw [blockGetOffset, Nat.mod_one]

/-- What a function sorts into parts is in the parts together. -/
lemma perm_parts {α : Type} [DecidableEq α] (l : List α) (f : α → ℕ) {n : ℕ} (hf : ∀ a, f a < n) :
    ((List.range n).flatMap fun i => l.filter fun a => f a = i).Perm l := by
  rw [List.perm_iff_count]
  intro a
  have hcount : ∀ i, (l.filter fun a => f a = i).count a = if i = f a then l.count a else 0 := by
    intro i
    split
    next heq => exact List.count_filter (by simp [heq])
    next hne =>
      refine List.count_eq_zero_of_not_mem fun hmem => hne ?_
      have hof := (List.mem_filter.mp hmem).2
      exact (of_decide_eq_true hof).symm
  have hsum := List.sum_toFinset (fun i => (l.filter fun a => f a = i).count a) (List.nodup_range (n := n))
  rw [List.count_flatMap]
  refine hsum.symm.trans ?_
  rw [List.toFinset_range, Finset.sum_congr rfl fun i _ => hcount i, Finset.sum_ite_eq',
    if_pos (Finset.mem_range.mpr (hf a))]

/-- Each block is sent to one offset. -/
lemma routed_perm (l : List (ℕ × ℕ)) (chunkSize : ℕ) {stride : ℕ} (hs : 1 ≤ stride) :
    ((List.range stride).flatMap (routed l chunkSize stride)).Perm l :=
  perm_parts l (fun e => blockGetOffset e.1 chunkSize stride) fun _ => Nat.mod_lt _ hs

end Furious
