import Furious.Tx.Collect

/-!
The operations on one reference, on chains in memory.

* `alloc_spec`: a fresh root with one version;
* `pushBlock_spec`, `store_spec`, `discard_spec`: a new block in front of the
  chain, a store into the newest version, and the release of the data of one;
* `ptr_reader_spec`, `ptr_writer_eq`, `ptr_writer_spec`: what an access finds and
  leaves;
* `free_spec`: what freeing leaves.
-/

namespace Furious

variable {α : Type}

/-! ### Single steps -/

/-- The newest version of a chain in memory. -/
def newestVer (root : Ver α) (vs : List (Ver α)) : Ver α := vs.head?.getD root

lemma newest_chainOf (root : Ver α) (vs : List (Ver α)) :
    (chainOf root vs).newest = (newestVer root vs).content := by
  cases vs <;> rfl

/-- The newest version, found as the code finds it. -/
lemma newestVer_addr (root : Ver α) (vs : List (Ver α)) :
    (newestVer root vs).addr = (startOf vs none).getD root.addr := by
  cases vs <;> rfl

/-- The block of the newest version. -/
lemma Held.newestBlock {p : Txpool α} {root : Ver α} {vs : List (Ver α)}
    (h : Held p.mem (root :: vs) none) :
    p.blockPalloc.get (newestVer root vs).addr
      = some ((newestVer root vs).block (startOf vs.tail none)) := by
  cases vs with
  | nil => exact h.block
  | cons v vs => exact h.2.2.block

/-- The data of the newest version. -/
lemma Held.newestData {p : Txpool α} {root : Ver α} {vs : List (Ver α)}
    (h : Held p.mem (root :: vs) none) {d : ℕ} {x : α}
    (hd : (newestVer root vs).data = some (d, x)) : p.dataPalloc.get d = some x := by
  cases vs with
  | nil => exact h.data hd
  | cons v vs => exact h.2.2.data hd

/-- **A new block in front of the chain.** Its data, if any, has been allocated. -/
lemma pushBlock_spec {p : Txpool α} {root : Ver α} {vs : List (Ver α)} (ts : ℕ)
    (data : Option (ℕ × α)) (h : Held p.mem (root :: vs) none)
    (hnd : (cellsOf (root :: vs)).Nodup)
    (hdata : ∀ d x, data = some (d, x) → p.mem (.inr d) = some (.inr x)
      ∧ .inr d ∉ cellsOf (root :: vs)) :
    ∃ new q q', p.blockPalloc.alloc ⟨ts, data.map Prod.fst, startOf vs none⟩ = (new, q)
      ∧ q.get root.addr = some (root.block (startOf vs none))
      ∧ q.put root.addr (root.block (some new)) = some q'
      ∧ Held (⟨p.dataPalloc, q'⟩ : Txpool α).mem (root :: ⟨new, ts, data⟩ :: vs) none
      ∧ (cellsOf (root :: ⟨new, ts, data⟩ :: vs)).Nodup
      ∧ Frame p.mem (⟨p.dataPalloc, q'⟩ : Txpool α).mem
          (footprint (root :: vs) ∪ {k | ∃ d x, data = some (d, x) ∧ k = .inr d})
          (footprint (root :: ⟨new, ts, data⟩ :: vs)) := by
  obtain ⟨new, q, halloc, hvac, hq⟩ :=
    p.blockPalloc.get_alloc ⟨ts, data.map Prod.fst, startOf vs none⟩
  have hmemnew : p.mem (.inl new) = none := by simp [Txpool.mem, hvac]
  have hnew : ∀ k ∈ cellsOf (root :: vs), k ≠ .inl new := by
    rintro k hk rfl
    exact h.live hk hmemnew
  have hrootmem : Sum.inl root.addr ∈ cellsOf (root :: vs) := addr_mem_cellsOf List.mem_cons_self
  have hne : root.addr ≠ new := fun e => hnew _ hrootmem (by rw [e])
  have hr : q.get root.addr = some (root.block (startOf vs none)) := by
    rw [hq, Function.update_of_ne hne, h.block]
  obtain ⟨q', hput, hq'⟩ := Pool.get_put hr (root.block (some new))
  have hmem : (⟨p.dataPalloc, q'⟩ : Txpool α).mem = Function.update
      (Function.update p.mem (.inl new)
        (some (.inl ⟨ts, data.map Prod.fst, startOf vs none⟩)))
      (.inl root.addr) (some (.inl (root.block (some new)))) := by
    rw [mem_of_block (p := ⟨p.dataPalloc, q⟩) hq', mem_of_block hq]
    rfl
  have hold : ∀ k, k ≠ .inl new → k ≠ .inl root.addr →
      (⟨p.dataPalloc, q'⟩ : Txpool α).mem k = p.mem k := by
    intro k h₁ h₂
    rw [hmem, Function.update_of_ne h₂, Function.update_of_ne h₁]
  rw [cellsOf_cons, List.nodup_append] at hnd
  obtain ⟨hndr, hndvs, hdisj⟩ := hnd
  have hvsroot : ∀ k ∈ cellsOf vs, k ≠ .inl root.addr := by
    rintro k hk rfl
    exact hdisj _ (Ver.mem_cells.mpr (Or.inl rfl)) _ hk rfl
  have hrest : ∀ k ∈ cellsOf vs, k ≠ .inl new := fun k hk =>
    hnew k (by rw [cellsOf_cons]; exact List.mem_append_right _ hk)
  refine ⟨new, q, q', halloc, hr, hput, ⟨?_, fun d x hd => ?_, ?_, fun d x hd => ?_, ?_⟩, ?_, ?_⟩
  · rw [hmem, Function.update_self]
    rfl
  · rw [hold _ (by simp) (by simp)]
    exact h.2.1 d x hd
  · rw [hmem, Function.update_of_ne (by simpa using hne.symm), Function.update_self]
    rfl
  · rw [hold _ (by simp) (by simp)]
    exact (hdata d x hd).1
  · exact h.2.2.congr fun k hk => hold k (hrest k hk) (hvsroot k hk)
  · have hcells : ∀ k ∈ (⟨new, ts, data⟩ : Ver α).cells, k ∉ cellsOf (root :: vs) := by
      intro k hk hk'
      rcases Ver.mem_cells.mp hk with rfl | ⟨d, x, hd, rfl⟩
      · exact hnew _ hk' rfl
      · exact (hdata d x hd).2 hk'
    rw [cellsOf_cons, cellsOf_cons]
    refine List.nodup_append.mpr ⟨hndr, List.nodup_append.mpr ⟨?_, hndvs, ?_⟩, ?_⟩
    · rcases data with _ | ⟨d, x⟩ <;> simp [Ver.cells]
    · rintro k hk _ hk' rfl
      exact hcells k hk (by simp [hk'])
    · rintro k hk _ hk' rfl
      rcases List.mem_append.mp hk' with hk' | hk'
      · exact hcells k hk' (by simp [hk])
      · exact hdisj k hk k hk' rfl
  · have hfp : footprint (root :: ⟨new, ts, data⟩ :: vs) = insert (.inl new)
        (footprint (root :: vs) ∪ {k | ∃ d x, data = some (d, x) ∧ k = .inr d}) := by
      ext k
      rcases data with _ | ⟨d, x⟩ <;> simp <;> tauto
    rw [hfp, hmem]
    refine (Frame.alloc hmemnew _ _).trans (Frame.write ?_ _)
    simp [Ver.mem_cells]

/-- **A store into the newest version.** -/
lemma store_spec {p : Txpool α} {root : Ver α} {vs : List (Ver α)} {a ts d : ℕ} {x : α}
    (h : Held p.mem (root :: ⟨a, ts, some (d, x)⟩ :: vs) none)
    (hnd : (cellsOf (root :: ⟨a, ts, some (d, x)⟩ :: vs)).Nodup) (y : α) :
    ∃ dp, p.dataPalloc.put d y = some dp
      ∧ Held (⟨dp, p.blockPalloc⟩ : Txpool α).mem (root :: ⟨a, ts, some (d, y)⟩ :: vs) none
      ∧ (cellsOf (root :: ⟨a, ts, some (d, y)⟩ :: vs)).Nodup
      ∧ Frame p.mem (⟨dp, p.blockPalloc⟩ : Txpool α).mem
          (footprint (root :: ⟨a, ts, some (d, x)⟩ :: vs))
          (footprint (root :: ⟨a, ts, some (d, y)⟩ :: vs)) := by
  obtain ⟨dp, hput, hget⟩ := Pool.get_put (h.2.2.data rfl) y
  have hmem := mem_of_data hget
  have hcells : cellsOf (root :: ⟨a, ts, some (d, y)⟩ :: vs)
      = cellsOf (root :: ⟨a, ts, some (d, x)⟩ :: vs) := rfl
  have hnd' : (root.cells ++ (([Sum.inl a, Sum.inr d] : List (ℕ ⊕ ℕ)) ++ cellsOf vs)).Nodup := hnd
  rw [List.nodup_append] at hnd'
  obtain ⟨-, hnd₂, hdisj⟩ := hnd'
  have hroot : ∀ k ∈ root.cells, k ≠ .inr d := by
    rintro k hk rfl
    exact hdisj _ hk (.inr d) (by simp) rfl
  have hvs : ∀ k ∈ cellsOf vs, k ≠ .inr d := by
    rintro k hk rfl
    exact (List.nodup_append.mp hnd₂).2.2 (.inr d) (by simp) _ hk rfl
  refine ⟨dp, hput, ⟨?_, fun d' x' hd => ?_, ?_, fun d' x' hd => ?_, ?_⟩, hcells ▸ hnd, ?_⟩
  · rw [hmem, Function.update_of_ne (by simp)]
    exact h.1
  · rw [hmem, Function.update_of_ne (hroot _ (Ver.mem_cells.mpr (Or.inr ⟨d', x', hd, rfl⟩)))]
    exact h.2.1 d' x' hd
  · rw [hmem, Function.update_of_ne (by simp)]
    exact h.2.2.1
  · obtain ⟨rfl, rfl⟩ : d = d' ∧ y = x' := by simpa using hd
    rw [hmem, Function.update_self]
    rfl
  · refine h.2.2.2.2.congr fun k hk => ?_
    rw [hmem, Function.update_of_ne (hvs k hk)]
  · have hfp : footprint (root :: ⟨a, ts, some (d, y)⟩ :: vs)
        = footprint (root :: ⟨a, ts, some (d, x)⟩ :: vs) := by
      ext k
      rw [mem_footprint, mem_footprint, hcells]
    rw [hmem, hfp]
    exact Frame.write (by simp [Ver.mem_cells]) _

/-- **The release of the data of a version.** -/
lemma discard_spec {p : Txpool α} (us : List (Ver α)) {vs : List (Ver α)} {a ts d : ℕ} {x : α}
    (h : Held p.mem (us ++ ⟨a, ts, some (d, x)⟩ :: vs) none)
    (hnd : (cellsOf (us ++ ⟨a, ts, some (d, x)⟩ :: vs)).Nodup) :
    ∃ dp bp, p.dataPalloc.release d = some dp
      ∧ p.blockPalloc.put a ⟨ts, none, startOf vs none⟩ = some bp
      ∧ Held (⟨dp, bp⟩ : Txpool α).mem (us ++ ⟨a, ts, none⟩ :: vs) none
      ∧ (cellsOf (us ++ (⟨a, ts, none⟩ : Ver α) :: vs)).Nodup
      ∧ Frame p.mem (⟨dp, bp⟩ : Txpool α).mem (footprint (us ++ ⟨a, ts, some (d, x)⟩ :: vs))
          (footprint (us ++ ⟨a, ts, none⟩ :: vs)) := by
  obtain ⟨hus, hv⟩ := (held_append us).mp h
  obtain ⟨dp, hrel, hget⟩ := Pool.get_release (hv.data rfl)
  obtain ⟨bp, hput, hget'⟩ := Pool.get_put hv.block ⟨ts, none, startOf vs none⟩
  have hmem : (⟨dp, bp⟩ : Txpool α).mem = Function.update (Function.update p.mem (.inl a)
      (some (.inl ⟨ts, none, startOf vs none⟩))) (.inr d) none := by
    rw [mem_of_data (p := ⟨p.dataPalloc, bp⟩) hget, mem_of_block hget']
    rfl
  rw [cellsOf_append] at hnd
  have hnd' : (cellsOf us ++ (([Sum.inl a, Sum.inr d] : List (ℕ ⊕ ℕ)) ++ cellsOf vs)).Nodup := hnd
  have hnd'' := hnd'
  rw [List.nodup_append] at hnd'
  obtain ⟨-, hnd₂, hdisj⟩ := hnd'
  have hfront : ∀ k ∈ cellsOf us, k ≠ .inr d ∧ k ≠ .inl a := by
    intro k hk
    exact ⟨hdisj k hk (.inr d) (by simp), hdisj k hk (.inl a) (by simp)⟩
  have hvs : ∀ k ∈ cellsOf vs, k ≠ .inr d ∧ k ≠ .inl a := by
    intro k hk
    have hd := (List.nodup_append.mp hnd₂).2.2
    exact ⟨(hd (.inr d) (by simp) k hk).symm, (hd (.inl a) (by simp) k hk).symm⟩
  have hold : ∀ k, k ≠ .inr d ∧ k ≠ .inl a → (⟨dp, bp⟩ : Txpool α).mem k = p.mem k := by
    rintro k ⟨h₁, h₂⟩
    rw [hmem, Function.update_of_ne h₁, Function.update_of_ne h₂]
  refine ⟨dp, bp, hrel, hput, (held_append us).mpr ⟨?_, ?_, by simp, ?_⟩, ?_, ?_⟩
  · exact hus.congr fun k hk => hold k (hfront k hk)
  · rw [hmem, Function.update_of_ne (by simp), Function.update_self]
    rfl
  · exact hv.2.2.congr fun k hk => hold k (hvs k hk)
  · rw [cellsOf_append]
    refine hnd''.sublist ?_
    refine List.Sublist.append_left (List.Sublist.append_right ?_ _) _
    simp [Ver.cells]
  · have hfp : footprint (us ++ ⟨a, ts, some (d, x)⟩ :: vs)
        = insert (.inr d) (footprint (us ++ ⟨a, ts, none⟩ :: vs)) := by
      ext k
      simp
      tauto
    have hnot : Sum.inr d ∉ footprint (us ++ (⟨a, ts, none⟩ : Ver α) :: vs) := by
      intro hk
      simp only [mem_footprint, cellsOf_append, cellsOf_cons, List.mem_append] at hk
      rcases hk with hk | hk | hk
      · exact (hfront _ hk).1 rfl
      · simp [Ver.mem_cells] at hk
      · exact (hvs _ hk).1 rfl
    rw [hmem, hfp]
    refine (Frame.write ?_ _).trans (Frame.free hnot _)
    simp [Ver.mem_cells]

/-! ### Allocation -/

/-- **Allocation** of a reference: a root without data, and one version. -/
theorem alloc_spec (p : Txpool α) (t : Tx) (x : α) :
    ∃ p' root v, p.alloc t x = some (p', root.addr) ∧ Held p'.mem [root, v] none
      ∧ (cellsOf [root, v]).Nodup ∧ root.content = (0, none) ∧ v.content = (t.txversion, some x)
      ∧ Frame p.mem p'.mem ∅ (footprint [root, v]) := by
  obtain ⟨main, bp, hmain, hmvac, hbp⟩ := p.blockPalloc.get_alloc ⟨0, none, none⟩
  obtain ⟨d, dp, hdata, hdvac, hdp⟩ := p.dataPalloc.get_alloc x
  set q : Txpool α := ⟨dp, bp⟩ with hq
  have hmem : q.mem = Function.update (Function.update p.mem (.inl main)
      (some (.inl ⟨0, none, none⟩))) (.inr d) (some (.inr x)) := by
    rw [hq, mem_of_data (p := ⟨p.dataPalloc, bp⟩) hdp, mem_of_block hbp]
    rfl
  set root : Ver α := ⟨main, 0, none⟩ with hroot
  have hheld : Held q.mem [root] none := by
    refine ⟨?_, by simp [hroot], trivial⟩
    rw [hmem, Function.update_of_ne (by simp), Function.update_self]
    rfl
  obtain ⟨new, bq, bq', halloc, -, hput, hheld', hnd', hframe⟩ :=
    pushBlock_spec t.txversion (some (d, x)) hheld (by simp [hroot, Ver.cells])
      (by
        intro d' x' hd
        obtain ⟨rfl, rfl⟩ : d = d' ∧ x = x' := by simpa using hd
        exact ⟨by rw [hmem, Function.update_self], by simp [hroot]⟩)
  refine ⟨⟨dp, bq'⟩, root, ⟨new, t.txversion, some (d, x)⟩, ?_, hheld', hnd', rfl, rfl, ?_⟩
  · have hput' : bq.put main ⟨0, none, some new⟩ = some bq' := hput
    have halloc' : bp.alloc ⟨t.txversion, some d, none⟩ = (new, bq) := halloc
    simp only [Txpool.alloc, hmain, hdata, halloc', hput', Option.bind_eq_bind, Option.bind_some]
    rfl
  · have hf : Frame p.mem q.mem ∅ (insert (.inr d) (insert (.inl main) ∅)) := by
      rw [hmem]
      refine (Frame.alloc (by simp [Txpool.mem, hmvac]) _ _).trans (Frame.alloc ?_ _ _)
      rw [Function.update_of_ne (by simp)]
      simp [Txpool.mem, hdvac]
    have hfp : footprint [root] ∪ {k | ∃ d' x', some (d, x) = some (d', x') ∧ k = .inr d'}
        = insert (.inr d) (insert (.inl main) ∅) := by
      ext k
      simp [hroot]
    rw [hfp] at hframe
    exact hf.trans hframe

/-! ### Access -/

/-- The block of any held version. -/
lemma Held.block_of_mem {p : Txpool α} {vs : List (Ver α)} {next : Option ℕ}
    (h : Held p.mem vs next) {v : Ver α} (hv : v ∈ vs) :
    ∃ nx, p.blockPalloc.get v.addr = some (v.block nx) := by
  induction vs with
  | nil => simp at hv
  | cons w vs ih =>
      rcases List.mem_cons.mp hv with rfl | hv
      · exact ⟨_, h.block⟩
      · exact ih h.2.2 hv

/-- The data of any held version. -/
lemma Held.data_of_mem {p : Txpool α} {vs : List (Ver α)} {next : Option ℕ}
    (h : Held p.mem vs next) {v : Ver α} (hv : v ∈ vs) {d : ℕ} {x : α}
    (hd : v.data = some (d, x)) : p.dataPalloc.get d = some x := by
  induction vs with
  | nil => simp at hv
  | cons w vs ih =>
      rcases List.mem_cons.mp hv with rfl | hv
      · exact h.data hd
      · exact ih h.2.2 hv

/-- What a transaction sees, as a version in memory. -/
lemma lookup_chainOf (root : Ver α) (vs : List (Ver α)) (v : ℕ) :
    (chainOf root vs).lookup v
      = ((vs.find? fun w => w.ts ≤ v).getD root).data.map Prod.snd := by
  rw [Chain.lookup, chainOf, List.find?_map]
  cases h : vs.find? fun w => decide (w.ts ≤ v) with
  | none =>
      have h' : vs.find? ((fun u : ℕ × Option α => decide (u.1 ≤ v)) ∘ Ver.content) = none := h
      rw [h']
      rfl
  | some w =>
      have h' : vs.find? ((fun u : ℕ × Option α => decide (u.1 ≤ v)) ∘ Ver.content) = some w := h
      rw [h']
      rfl

/-- **A reader** finds the contents of its version and changes nothing. -/
theorem ptr_reader_spec {p : Txpool α} {t : Tx} (ctx : Ctx) {root : Ver α} {vs : List (Ver α)}
    (write : Bool) (ht : t.txType = .readOnly) (h : Held p.mem (root :: vs) none)
    (hnd : (cellsOf (root :: vs)).Nodup) :
    ∃ data, p.ptr t ctx root.addr write = some (p, ctx, data.map Prod.fst)
      ∧ data.map Prod.snd = (chainOf root vs).lookup t.txversion
      ∧ ∀ d x, data = some (d, x) → p.dataPalloc.get d = some x := by
  have hlen : vs.length ≤ p.fuel := by
    have := h.length_le_fuel hnd
    simp at this
    omega
  have hfind := findVersion_spec t.txversion h.2.2 hlen
  set c := (vs.find? fun w => decide (w.ts ≤ t.txversion)).getD root with hc
  have hcmem : c ∈ root :: vs := by
    rw [hc]
    cases hf : vs.find? fun w => decide (w.ts ≤ t.txversion) with
    | none => simp
    | some w => simp [List.mem_of_find?_eq_some hf]
  have hcaddr : ((vs.find? fun w => decide (w.ts ≤ t.txversion)).map Ver.addr).getD root.addr
      = c.addr := by
    rw [hc]
    cases vs.find? fun w => decide (w.ts ≤ t.txversion) <;> rfl
  obtain ⟨nx, hb⟩ := h.block_of_mem hcmem
  refine ⟨c.data, ?_, (lookup_chainOf root vs t.txversion).symm, fun d x hd =>
    h.data_of_mem hcmem hd⟩
  rw [Txpool.ptr]
  simp only [ht, Option.bind_eq_bind, Option.bind_some, h.block, reduceCtorEq, if_false, false_and]
  simp only [Ver.block, hfind, Option.bind_some, hcaddr, hb]

/-- The newest version is the first one up to a version that bounds them all. -/
lemma find?_newestVer (root : Ver α) {vs : List (Ver α)} {w : ℕ} (h : ∀ v ∈ vs, v.ts ≤ w) :
    ((vs.find? fun v => v.ts ≤ w).map Ver.addr).getD root.addr = (newestVer root vs).addr := by
  cases vs with
  | nil => rfl
  | cons v vs => simp [h v List.mem_cons_self, newestVer]

/-- **What a writer does after the collector has run**: it finds the newest version, and
a write access puts a copy of an older one in front. -/
lemma ptr_writer_eq {p q : Txpool α} {t : Tx} {ctx ctx' : Ctx} {gced : Bool} {root : Ver α}
    {vs : List (Ver α)} (write : Bool) (ht : t.txType = .readWrite)
    (hgc : p.gc ctx t.ortxversion root.addr false = some (q, ctx', gced))
    (h : Held q.mem (root :: vs) none) (hnd : (cellsOf (root :: vs)).Nodup)
    (hts : ∀ v ∈ vs, v.ts ≤ t.txversion) :
    p.ptr t ctx root.addr write = if write = true ∧ (newestVer root vs).ts < t.txversion
      then do
        let data ← (newestVer root vs).data.map Prod.fst
        let x ← q.dataPalloc.get data
        let (newData, dataPalloc) := q.dataPalloc.alloc x
        let (newBlock, blockPalloc) := q.blockPalloc.alloc
          ⟨t.txversion, some newData,
            if (newestVer root vs).addr ≠ root.addr then some (newestVer root vs).addr else none⟩
        let r ← blockPalloc.get root.addr
        let blockPalloc ← blockPalloc.put root.addr { r with nextVersion := some newBlock }
        some (⟨dataPalloc, blockPalloc⟩, ctx', some newData)
      else some (q, ctx', (newestVer root vs).data.map Prod.fst) := by
  have hlen : vs.length ≤ q.fuel := by
    have := h.length_le_fuel hnd
    simp at this
    omega
  have hfind := findVersion_spec t.txversion h.2.2 hlen
  have hcand := find?_newestVer root hts
  have hb := h.block
  have hnb := h.newestBlock
  simp only [Txpool.ptr, ht, if_true, hgc, Option.bind_eq_bind, Option.bind_some, hb, true_and]
  simp only [Ver.block, hfind, Option.bind_some, hcand, hnb]

/-- **A writer** runs the collector first; it finds the newest version, and a write
access puts a copy of it in front unless it is the writer's own. -/
theorem ptr_writer_spec {p : Txpool α} {t : Tx} {ctx : Ctx} {l : List (ℕ × ℕ)} {root : Ver α}
    {vs : List (Ver α)} (write : Bool) (ht : t.txType = .readWrite)
    (h : Held p.mem (root :: vs) none) (hnd : (cellsOf (root :: vs)).Nodup) (hctx : CtxHeld ctx l)
    (hsafe : (chainOf root vs).GcSafe t.ortxversion)
    (hcoll : ¬ (chainOf root vs).Collectable t.ortxversion)
    (hts : ∀ u ∈ (chainOf root vs).versions, u.1 ≤ t.txversion)
    (hwrite : write = true → (chainOf root vs).newest.1 < t.txversion →
      (chainOf root vs).newest.2 ≠ none) :
    ∃ p' ctx' root' vs' ret new,
      p.ptr t ctx root.addr write = some (p', ctx', (newestVer root' vs').data.map Prod.fst)
      ∧ OpResult p l root vs p' ctx' (root' :: vs') ret new ∧ root'.addr = root.addr
      ∧ chainOf root' vs' = if write = true
          then ((chainOf root vs).gc t.ortxversion).touch t.txversion
          else (chainOf root vs).gc t.ortxversion := by
  obtain ⟨q, ctx', gced, kept, ret, new, hgc, hres, -⟩ := gc_spec h hnd hctx hsafe
  have hgced : gced = false := by
    rw [Bool.eq_false_iff, Ne, hres.gced_iff]
    exact hcoll
  subst hgced
  obtain ⟨root', vs', rfl, haddr, hchain⟩ := hres.kept_cons rfl
  have hop := hres.toOpResult
  have hheld := hop.held
  have hnd' : (cellsOf (root' :: vs')).Nodup := by
    have := hop.nodup
    rw [cellsOf_append] at this
    exact (List.nodup_append.mp this).1
  have hts' : ∀ v ∈ vs', v.ts ≤ t.txversion := by
    intro v hv
    refine hts v.content ((Chain.versions_gc_sublist _ t.ortxversion).subset ?_)
    rw [← hchain]
    exact List.mem_map_of_mem hv
  have hnewest : (chainOf root' vs').newest = (chainOf root vs).newest := by
    rw [hchain, Chain.newest_gc]
  have hptr := ptr_writer_eq write ht (haddr.symm ▸ hgc) hheld hnd' hts'
  rw [haddr] at hptr
  by_cases hcopy : write = true ∧ (newestVer root' vs').ts < t.txversion
  · rw [hptr, if_pos hcopy]
    obtain ⟨hw, hlt⟩ := hcopy
    -- the newest version has contents, which are copied
    obtain ⟨⟨d, x⟩, hd⟩ : ∃ dx, (newestVer root' vs').data = some dx := by
      rw [← hnewest, newest_chainOf] at hwrite
      refine Option.ne_none_iff_exists'.mp fun hnone => hwrite hw hlt ?_
      simp [hnone]
    have hx := hheld.newestData hd
    obtain ⟨nd, dp, hda, hdvac, hdp⟩ := q.dataPalloc.get_alloc x
    have hmem := mem_of_data hdp
    have hvac : q.mem (.inr nd) = none := by simp [Txpool.mem, hdvac]
    have hnotin : Sum.inr nd ∉ cellsOf (root' :: vs') := fun hk => hheld.live hk hvac
    have hheld₁ : Held (⟨dp, q.blockPalloc⟩ : Txpool α).mem (root' :: vs') none :=
      hheld.congr fun k hk => by
        rw [hmem, Function.update_of_ne]
        rintro rfl
        exact hnotin hk
    obtain ⟨nb, bq, bq', hba, hbr, hput, hheld₂, hnd₂, hframe₂⟩ :=
      pushBlock_spec t.txversion (some (nd, x)) hheld₁ hnd' (by
        intro d' x' hd'
        obtain ⟨rfl, rfl⟩ : nd = d' ∧ x = x' := by simpa using hd'
        exact ⟨by rw [hmem, Function.update_self]; rfl, hnotin⟩)
    have hnext : (if (newestVer root' vs').addr ≠ root'.addr then some (newestVer root' vs').addr
        else none) = startOf vs' none := by
      cases vs' with
      | nil => simp [newestVer, startOf]
      | cons v vs' =>
          have hne : v.addr ≠ root'.addr := by
            intro e
            rw [cellsOf_cons, List.nodup_append] at hnd'
            exact hnd'.2.2 (.inl root'.addr) (Ver.mem_cells.mpr (Or.inl rfl)) (.inl v.addr)
              (addr_mem_cellsOf List.mem_cons_self) (by rw [e])
          simp [newestVer, startOf, hne]
    have hframe : Frame q.mem (⟨dp, bq'⟩ : Txpool α).mem (footprint (root' :: vs'))
        (footprint (root' :: ⟨nb, t.txversion, some (nd, x)⟩ :: vs')) := by
      have hdata : Frame q.mem (⟨dp, q.blockPalloc⟩ : Txpool α).mem (footprint (root' :: vs'))
          (insert (.inr nd) (footprint (root' :: vs'))) := by
        rw [hmem]
        exact Frame.alloc hvac _ _
      refine hdata.trans ?_
      · have hfp : footprint (root' :: vs')
            ∪ {k | ∃ d' x', some (nd, x) = some (d', x') ∧ k = .inr d'}
            = insert (.inr nd) (footprint (root' :: vs')) := by
          ext k
          simp
        rw [hfp] at hframe₂
        exact hframe₂
    refine ⟨⟨dp, bq'⟩, ctx', root', ⟨nb, t.txversion, some (nd, x)⟩ :: vs', ret, new, ?_,
      hop.step hheld₂ hnd₂ hframe, haddr, ?_⟩
    · rw [← haddr, hnext]
      simp only [Option.map_some] at hba
      simp only [hd, Option.map_some, hx, hda, hba, hbr, Option.bind_eq_bind, Option.bind_some]
      simp only [Ver.block] at hput ⊢
      simp only [hput, Option.bind_some]
      rfl
    · rw [if_pos hw, ← hchain, Chain.touch, newest_chainOf, Ver.content_fst, if_pos hlt,
        Ver.content_snd, hd]
      rfl
  · rw [hptr, if_neg hcopy]
    refine ⟨q, ctx', root', vs', ret, new, rfl, hop, haddr, ?_⟩
    by_cases hw : write = true
    · have hlt : ¬ (newestVer root' vs').ts < t.txversion := fun hlt => hcopy ⟨hw, hlt⟩
      rw [if_pos hw, ← hchain, Chain.touch, newest_chainOf, Ver.content_fst, if_neg hlt]
    · rw [if_neg hw, hchain]

/-! ### Freeing -/

/-- **A free** runs the collector first. An old newest version gets a version
without contents in front, a newer one loses its contents; the root becomes
garbage. -/
theorem free_spec {p : Txpool α} {t : Tx} {ctx : Ctx} {l : List (ℕ × ℕ)} {root : Ver α}
    {vs : List (Ver α)} (h : Held p.mem (root :: vs) none) (hnd : (cellsOf (root :: vs)).Nodup)
    (hctx : CtxHeld ctx l) (hread : (chainOf root vs).newest.2 ≠ none) :
    ∃ p' ctx₁ ctx' root' vs' ret new e, p.free t ctx root.addr = some (p', ctx')
      ∧ OpResult p l root vs p' ctx₁ (root' :: vs') ret new
      ∧ CtxHeld ctx' ((e, root.addr) :: (new ++ l)) ∧ root'.addr = root.addr
      ∧ chainOf root' vs'
        = ((chainOf root vs).gc t.ortxversion).free t.ortxversion t.txversion := by
  obtain ⟨hsafe, hcoll⟩ := Chain.gc_of_present hread t.ortxversion
  obtain ⟨q, ctx₁, gced, kept, ret, new, hgc, hres, -⟩ := gc_spec h hnd hctx hsafe
  have hgced : gced = false := by
    rw [Bool.eq_false_iff, Ne, hres.gced_iff]
    exact hcoll
  subst hgced
  obtain ⟨root', vs', rfl, haddr, hchain⟩ := hres.kept_cons rfl
  have hop := hres.toOpResult
  have hheld := hop.held
  have hnd' : (cellsOf (root' :: vs')).Nodup := by
    have := hop.nodup
    rw [cellsOf_append] at this
    exact (List.nodup_append.mp this).1
  obtain ⟨ctx', e, hadd, hctx'⟩ := addEntry_spec hop.ctx root.addr
  have hb := hheld.block
  have hnewest : (newestVer root' vs').content = (chainOf root vs).newest := by
    rw [← newest_chainOf, hchain, Chain.newest_gc]
  rw [← hnewest] at hread
  by_cases hold : (newestVer root' vs').ts ≤ t.ortxversion
  · -- nothing newer than the cut-off is left: the newest version is the root
    have hvs : vs' = [] := by
      have hv : (chainOf root' vs').versions = [] := by
        rw [hchain]
        refine Chain.versions_gc_of_le fun u hu => ?_
        have hts : (newestVer root' vs').content.1 ≤ t.ortxversion := hold
        rw [hnewest, Chain.newest, hu] at hts
        exact hts
      simpa [chainOf] using hv
    subst hvs
    obtain ⟨nb, bq, bq', hba, hbr, hput, hheld₂, hnd₂, hframe₂⟩ :=
      pushBlock_spec t.txversion none hheld hnd' (by simp)
    have hfp : footprint [root'] ∪ {k | ∃ d x, (none : Option (ℕ × α)) = some (d, x) ∧ k = .inr d}
        = footprint [root'] := by
      ext k
      simp
    rw [hfp] at hframe₂
    refine ⟨⟨q.dataPalloc, bq'⟩, ctx₁, ctx', root', [⟨nb, t.txversion, none⟩], ret, new, e, ?_,
      hop.step hheld₂ hnd₂ hframe₂, hctx', haddr, ?_⟩
    · have hts : root'.ts ≤ t.ortxversion := hold
      rw [← haddr] at hgc hadd ⊢
      simp only [startOf, Option.map_none] at hba hb hbr
      simp only [Txpool.free, hgc, Option.bind_eq_bind, Option.bind_some, hb]
      simp only [Ver.block] at hbr hput ⊢
      simp only [Option.getD_none, hb, Option.bind_some, Ver.block, hts, if_true, ne_eq,
        not_true_eq_false, if_false, hba, hbr, hput, hadd]
    · have hle : (chainOf root' []).newest.1 ≤ t.ortxversion := hold
      rw [← hchain, Chain.free, if_pos hle]
      rfl
  · -- the newest version loses its contents where it is
    obtain ⟨⟨d, x⟩, hd⟩ : ∃ dx, (newestVer root' vs').data = some dx := by
      refine Option.ne_none_iff_exists'.mp fun hnone => hread ?_
      rw [Ver.content_snd, hnone]
      rfl
    have hfree : (chainOf root' vs').free t.ortxversion t.txversion
        = (chainOf root' vs').overwrite none := by
      rw [Chain.free, newest_chainOf]
      exact if_neg hold
    rw [← hchain, hfree]
    cases vs' with
    | nil =>
        obtain ⟨a, ts, data⟩ := root'
        obtain rfl : data = some (d, x) := hd
        obtain ⟨dp, bp, hrel, hput, hheld₂, hnd₂, hframe₂⟩ := discard_spec [] hheld hnd'
        refine ⟨⟨dp, bp⟩, ctx₁, ctx', ⟨a, ts, none⟩, [], ret, new, e, ?_,
          hop.step hheld₂ hnd₂ hframe₂, hctx', haddr, rfl⟩
        have hts : ¬ ts ≤ t.ortxversion := hold
        rw [← haddr] at hgc hadd ⊢
        simp only [Ver.block, startOf] at hb hput
        simp only [Txpool.free, hgc, Option.bind_eq_bind, Option.bind_some, hb, Option.getD_none, hts,
          if_false, Option.map_some, hrel, hput, hadd]
    | cons v vs'' =>
        obtain ⟨a, ts, data⟩ := v
        obtain rfl : data = some (d, x) := hd
        obtain ⟨dp, bp, hrel, hput, hheld₂, hnd₂, hframe₂⟩ := discard_spec [root'] hheld hnd'
        refine ⟨⟨dp, bp⟩, ctx₁, ctx', root', ⟨a, ts, none⟩ :: vs'', ret, new, e, ?_,
          hop.step hheld₂ hnd₂ hframe₂, hctx', haddr, rfl⟩
        have hts : ¬ ts ≤ t.ortxversion := hold
        have hab := hheld.2.2.block
        rw [← haddr] at hgc hadd ⊢
        simp only [Txpool.free, hgc, Option.bind_eq_bind, Option.bind_some, hb]
        simp only [Ver.block, startOf, Option.getD_some] at hab hput ⊢
        simp only [hab, Option.bind_some, hts, if_false, Option.map_some, hrel, hput, hadd]

end Furious
