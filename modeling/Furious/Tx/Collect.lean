import Furious.Tx.Context
import Furious.Tx.Versions

/-!
The collector, on chains in memory.

* `chainOf`: the chain of a root and its versions, `folded`: the version that is folded into it;
* `foldData_spec`, `foldYoungest_spec`: folding a lone old version into the root;
* `gc_spec`: **one run of the collector on a root**: what is left is the collected
  chain, a folded block becomes garbage, and nothing else is touched;
* `gcForce_spec`: a forced run releases the whole chain.
-/

namespace Furious

variable {α : Type}

/-- The chain of a root and its versions. -/
def chainOf (root : Ver α) (vs : List (Ver α)) : Chain α :=
  ⟨root.content, vs.map Ver.content⟩

/-- The version that is folded into the root: the newest one, if it is old. -/
def folded (orv : ℕ) : List (Ver α) → List (Ver α)
  | [] => []
  | y :: _ => if y.ts ≤ orv then [y] else []

lemma folded_sublist (orv : ℕ) (vs : List (Ver α)) : (folded orv vs).Sublist vs := by
  cases vs with
  | nil => exact List.Sublist.refl _
  | cons y vs =>
      rw [folded]
      split
      · exact (List.nil_sublist vs).cons_cons y
      · exact List.nil_sublist _

/-! ### Folding -/

/-- **The data of the root after a fold**: its contents are those of the version,
it lies outside the version, and the rest of the two versions stays. -/
lemma foldData_spec {p : Txpool α} {root y : Ver α} {next : Option ℕ}
    (hroot : Held p.mem [root] next) (hy : Held p.mem [y] none)
    (hnd : (cellsOf [root, y]).Nodup) (hsafe : y.data = none → root.data ≠ none) :
    ∃ data dp, p.foldData (root.data.map Prod.fst) (y.data.map Prod.fst)
        = some (data.map Prod.fst, dp)
      ∧ data.map Prod.snd = y.data.map Prod.snd
      ∧ (∀ d x, data = some (d, x) → (⟨dp, p.blockPalloc⟩ : Txpool α).mem (.inr d) = some (.inr x)
          ∧ .inr d ∉ y.cells)
      ∧ (∀ k ∈ y.cells, (⟨dp, p.blockPalloc⟩ : Txpool α).mem k = p.mem k)
      ∧ Frame p.mem (⟨dp, p.blockPalloc⟩ : Txpool α).mem (footprint [root, y])
          (footprint [⟨root.addr, y.ts, data⟩, y]) := by
  have hdisj : ∀ k ∈ root.cells, k ∉ y.cells := by
    simp only [cellsOf_cons, List.nodup_append] at hnd
    exact fun k hk hk' => hnd.2.2 k hk k (by simp [hk']) rfl
  have hother : ∀ {rd : ℕ} {v : Option α} {dp : Pool α},
      dp.get = Function.update p.dataPalloc.get rd v → .inr rd ∉ y.cells →
      ∀ k ∈ y.cells, (⟨dp, p.blockPalloc⟩ : Txpool α).mem k = p.mem k := by
    intro rd v dp hget hrd k hk
    rw [mem_of_data hget, Function.update_of_ne]
    rintro rfl
    exact hrd hk
  rcases hyd : y.data with _ | ⟨yd, x⟩
  · -- the version was freed: the data of the root is released
    obtain ⟨⟨rd, x⟩, hrd⟩ := Option.ne_none_iff_exists'.mp (hsafe hyd)
    have hrc : Sum.inr rd ∈ root.cells := Ver.mem_cells.mpr (Or.inr ⟨rd, x, hrd, rfl⟩)
    obtain ⟨dp, hrel, hget⟩ := Pool.get_release (hroot.data hrd)
    refine ⟨none, dp, by simp [Txpool.foldData, hrd, hrel], rfl, by simp,
      hother hget (hdisj _ hrc), ?_⟩
    have hfp : footprint [root, y]
        = insert (.inr rd) (footprint [(⟨root.addr, y.ts, none⟩ : Ver α), y]) := by
      ext k
      simp [Ver.mem_cells, hrd]
      tauto
    rw [mem_of_data hget, hfp]
    refine Frame.free (fun hk => ?_) _
    exact hdisj _ hrc (by simpa [Ver.mem_cells] using hk)
  · have hx : p.dataPalloc.get yd = some x := hy.data hyd
    rcases hrd : root.data with _ | ⟨rd, x₀⟩
    · -- the root gets a data block
      obtain ⟨rd, dp, halloc, hvac, hget⟩ := p.dataPalloc.get_alloc x
      have hmem : p.mem (.inr rd) = none := by simp [Txpool.mem, hvac]
      obtain ⟨dp', hput, hget'⟩ := Pool.get_put (p := dp) (a := rd) (u := x) (by simp [hget]) x
      have hget'' : dp'.get = Function.update p.dataPalloc.get rd (some x) := by
        rw [hget', hget, Function.update_idem]
      have hrdy : Sum.inr rd ∉ y.cells := fun hk => hy.live (by simp [hk]) hmem
      refine ⟨some (rd, x), dp', by simp [Txpool.foldData, hx, halloc, hput], rfl, ?_,
        hother hget'' hrdy, ?_⟩
      · intro d x' hd
        obtain ⟨rfl, rfl⟩ : rd = d ∧ x = x' := by simpa using hd
        exact ⟨by rw [mem_of_data hget'', Function.update_self]; rfl, hrdy⟩
      · have hfp : footprint [(⟨root.addr, y.ts, some (rd, x)⟩ : Ver α), y]
            = insert (.inr rd) (footprint [root, y]) := by
          ext k
          simp [Ver.mem_cells, hrd]
          tauto
        rw [mem_of_data hget'', hfp]
        exact Frame.alloc hmem _ _
    · -- the data of the root is overwritten
      have hrc : Sum.inr rd ∈ root.cells := Ver.mem_cells.mpr (Or.inr ⟨rd, x₀, hrd, rfl⟩)
      obtain ⟨dp', hput, hget⟩ := Pool.get_put (hroot.data hrd) x
      refine ⟨some (rd, x), dp', by simp [Txpool.foldData, hx, hput], rfl, ?_,
        hother hget (hdisj _ hrc), ?_⟩
      · intro d x' hd
        obtain ⟨rfl, rfl⟩ : rd = d ∧ x = x' := by simpa using hd
        exact ⟨by rw [mem_of_data hget, Function.update_self]; rfl, hdisj _ hrc⟩
      · have hfp : footprint [(⟨root.addr, y.ts, some (rd, x)⟩ : Ver α), y]
            = footprint [root, y] := by
          ext k
          simp [Ver.mem_cells, hrd]
        rw [mem_of_data hget, hfp]
        exact Frame.write (by simp [hrc]) _

/-- **Folding a lone version into the root.** -/
theorem foldYoungest_spec {p : Txpool α} {ctx : Ctx} {l : List (ℕ × ℕ)} {root y : Ver α}
    {orv : ℕ} (h : Held p.mem [root, y] none) (hnd : (cellsOf [root, y]).Nodup)
    (hctx : CtxHeld ctx l) (hts : y.ts ≤ orv) (hsafe : y.data = none → root.data ≠ none) :
    ∃ p' ctx' e root', p.foldYoungest ctx orv root.addr = some (p', ctx')
      ∧ CtxHeld ctx' ((e, y.addr) :: l) ∧ root'.addr = root.addr ∧ root'.content = y.content
      ∧ Held p'.mem [root'] none ∧ Held p'.mem [y] none ∧ (cellsOf [root', y]).Nodup
      ∧ Frame p.mem p'.mem (footprint [root, y]) (footprint [root', y]) := by
  obtain ⟨hroot, hy⟩ := (held_append [root]).mp h
  obtain ⟨ctx', e, hadd, hctx'⟩ := addEntry_spec hctx y.addr
  obtain ⟨data, dp, hdata, hcontent, hdmem, hymem, hframe⟩ := foldData_spec hroot hy hnd hsafe
  have hrb : p.blockPalloc.get root.addr = some (root.block (some y.addr)) := h.block
  have hyb : p.blockPalloc.get y.addr = some (y.block none) := hy.block
  obtain ⟨bp, hput, hget⟩ := Pool.get_put hrb ⟨y.ts, data.map Prod.fst, none⟩
  have hmem := mem_of_block (p := ⟨dp, p.blockPalloc⟩) hget
  have hnd' : (root.cells ++ y.cells).Nodup := by simpa using hnd
  obtain ⟨-, hndy, hdisj⟩ := List.nodup_append.mp hnd'
  have hray : Sum.inl root.addr ∉ y.cells := fun hk =>
    hdisj _ (Ver.mem_cells.mpr (Or.inl rfl)) _ hk rfl
  refine ⟨⟨dp, bp⟩, ctx', e, ⟨root.addr, y.ts, data⟩, ?_, hctx', rfl, ?_, ⟨?_, ?_, trivial⟩, ?_, ?_,
    ?_⟩
  · rw [Txpool.foldYoungest, hrb, Option.bind_eq_bind, Option.bind_some]
    simp only [Ver.block, hyb, hdata, hput, hadd, Option.bind_eq_bind, Option.bind_some, true_and,
      if_pos hts]
  · rw [Ver.content, hcontent]
    rfl
  · rw [hmem, Function.update_self]
    rfl
  · intro d x hd
    rw [hmem, Function.update_of_ne (by simp)]
    exact (hdmem d x hd).1
  · refine hy.congr fun k hk => ?_
    have hk' : k ∈ y.cells := by simpa using hk
    rw [hmem, Function.update_of_ne, hymem k hk']
    rintro rfl
    exact hray hk'
  · rw [cellsOf_cons, cellsOf_cons, cellsOf_nil, List.append_nil, List.nodup_append]
    refine ⟨?_, hndy, fun k hk k' hk' e => ?_⟩
    · rcases data with _ | ⟨d, x⟩ <;> simp [Ver.cells]
    · subst e
      rcases Ver.mem_cells.mp hk with rfl | ⟨d, x, hd, rfl⟩
      · exact hray hk'
      · exact (hdmem d x hd).2 hk'
  · rw [hmem]
    exact hframe.trans (Frame.write (by simp [Ver.mem_cells]) _)

/-! ### One run of the collector -/

/-- The root goes exactly when nothing is left in it and it is old. -/
lemma collectRoot_spec {p : Txpool α} {root : Ver α} {vs : List (Ver α)} {orv : ℕ}
    (h : Held p.mem (root :: vs) none) :
    (¬ (root.data = none ∧ vs = [] ∧ root.ts < orv) ∧ p.collectRoot orv root.addr = some (p, false))
      ∨ ((root.data = none ∧ vs = [] ∧ root.ts < orv) ∧ ∃ p', p.collectRoot orv root.addr
          = some (p', true) ∧ p'.mem = Function.update p.mem (.inl root.addr) none) := by
  have hstart : startOf vs none = none ↔ vs = [] := by cases vs <;> simp [startOf]
  by_cases hc : root.data = none ∧ vs = [] ∧ root.ts < orv
  · obtain ⟨hd, rfl, hts⟩ := hc
    obtain ⟨bp, hrel, hget⟩ := Pool.get_release h.block
    refine Or.inr ⟨⟨hd, rfl, hts⟩, ⟨p.dataPalloc, bp⟩, ?_, mem_of_block hget⟩
    rw [Txpool.collectRoot, h.block]
    simp [Ver.block, hd, startOf, hts, hrel]
  · refine Or.inl ⟨hc, ?_⟩
    rw [Txpool.collectRoot, h.block]
    have : ¬ ((root.block (startOf vs none)).data = none
        ∧ (root.block (startOf vs none)).nextVersion = none
        ∧ (root.block (startOf vs none)).ts < orv) := by
      simpa [Ver.block, hstart] using hc
    simp only [Option.bind_eq_bind, Option.bind_some, if_neg this]

/-- What an operation on one reference leaves: the versions `kept` of the chain,
a folded version `ret` if there is one, which is listed as garbage now, and no
other cell of the chain. -/
structure OpResult (p : Txpool α) (l : List (ℕ × ℕ)) (root : Ver α) (vs : List (Ver α))
    (p' : Txpool α) (ctx' : Ctx) (kept ret : List (Ver α)) (new : List (ℕ × ℕ)) : Prop where
  ctx : CtxHeld ctx' (new ++ l)
  listed : new.map Prod.snd = ret.map Ver.addr
  held : Held p'.mem kept none
  held_ret : ∀ y ∈ ret, Held p'.mem [y] none
  nodup : (cellsOf (kept ++ ret)).Nodup
  frame : Frame p.mem p'.mem (footprint (root :: vs)) (footprint (kept ++ ret))
  length_ret : ret.length ≤ 1
  mem_ret : ∀ y ∈ ret, y ∈ vs

/-- A further step on the versions kept. -/
lemma OpResult.step {p q q' : Txpool α} {l : List (ℕ × ℕ)} {root : Ver α} {vs : List (Ver α)}
    {ctx : Ctx} {kept kept' ret : List (Ver α)} {new : List (ℕ × ℕ)}
    (h : OpResult p l root vs q ctx kept ret new) (hheld : Held q'.mem kept' none)
    (hnd : (cellsOf kept').Nodup) (hframe : Frame q.mem q'.mem (footprint kept) (footprint kept')) :
    OpResult p l root vs q' ctx kept' ret new := by
  have hndup := h.nodup
  rw [cellsOf_append, List.nodup_append] at hndup
  obtain ⟨-, hndret, hdisj⟩ := hndup
  have hlive : ∀ y ∈ ret, ∀ k ∈ y.cells, k ∉ footprint kept ∧ q.mem k ≠ none := by
    intro y hy k hk
    refine ⟨fun hk' => hdisj k hk' k (List.mem_flatMap.mpr ⟨y, hy, hk⟩) rfl, ?_⟩
    exact (h.held_ret y hy).live (by simpa using hk)
  refine ⟨h.ctx, h.listed, hheld, fun y hy => ?_, ?_, ?_, h.length_ret, h.mem_ret⟩
  · refine (h.held_ret y hy).congr fun k hk => ?_
    obtain ⟨hk₁, hk₂⟩ := hlive y hy k (by simpa using hk)
    exact hframe.eq_of_live hk₁ hk₂
  · rw [cellsOf_append, List.nodup_append]
    refine ⟨hnd, hndret, ?_⟩
    rintro k hk _ hk' rfl
    obtain ⟨y, hy, hky⟩ := List.mem_flatMap.mp hk'
    obtain ⟨hk₁, hk₂⟩ := hlive y hy k hky
    exact hframe.not_mem_of_live hk₁ hk₂ hk
  · have := hframe.extend (footprint ret)
    rw [← footprint_append, ← footprint_append] at this
    exact h.frame.trans this

/-- What a run of the collector leaves: nothing of the chain if the root went, and
the collected chain otherwise. -/
structure GcResult (p : Txpool α) (l : List (ℕ × ℕ)) (root : Ver α) (vs : List (Ver α)) (orv : ℕ)
    (p' : Txpool α) (ctx' : Ctx) (gced : Bool) (kept ret : List (Ver α))
    (new : List (ℕ × ℕ)) : Prop extends OpResult p l root vs p' ctx' kept ret new where
  gced_iff : gced = true ↔ (chainOf root vs).Collectable orv
  kept_nil : gced = true → kept = []
  kept_cons : gced = false → ∃ root' vs', kept = root' :: vs' ∧ root'.addr = root.addr
    ∧ chainOf root' vs' = (chainOf root vs).gc orv

/-- After cutting and folding: the collected chain, and perhaps a folded
version. -/
lemma cut_fold_spec {p : Txpool α} {ctx : Ctx} {l : List (ℕ × ℕ)} {root : Ver α}
    {vs : List (Ver α)} {orv : ℕ} (h : Held p.mem (root :: vs) none)
    (hnd : (cellsOf (root :: vs)).Nodup) (hctx : CtxHeld ctx l)
    (hsafe : (chainOf root vs).GcSafe orv) :
    ∃ p₁ p₂ ctx' root' vs' ret new, p.cutVersions orv root.addr = some p₁
      ∧ p₁.foldYoungest ctx orv root.addr = some (p₂, ctx')
      ∧ OpResult p l root vs p₂ ctx' (root' :: vs') ret new
      ∧ root'.addr = root.addr ∧ chainOf root' vs' = (chainOf root vs).gc orv ∧ ret = folded orv vs := by
  obtain ⟨p₁, kept, dropped, hcut, rfl, hmap, hheld, hframe⟩ := cutVersions_spec orv h hnd
  have hnd₁ : (cellsOf (root :: kept)).Nodup := by
    refine hnd.sublist ?_
    rw [← List.cons_append, cellsOf_append]
    exact List.sublist_append_left _ _
  by_cases hfold : ∃ y, kept = [y] ∧ y.ts ≤ orv
  · obtain ⟨y, rfl, hts⟩ := hfold
    have hcuty : Chain.cut orv (chainOf root ([y] ++ dropped)).versions = [y.content] := by
      rw [← List.map_singleton, hmap]
      rfl
    have hd : y.data = none → root.data ≠ none := by
      intro hy
      have := hsafe y.content hcuty hts (by simp [hy])
      simpa [chainOf] using this
    obtain ⟨p₂, ctx', e, root', hf, hctx', haddr, hcontent, hroot', hy', hnd₂, hframe₂⟩ :=
      foldYoungest_spec hheld hnd₁ hctx hts hd
    refine ⟨p₁, p₂, ctx', root', [], [y], [(e, y.addr)], hcut, hf, ⟨hctx', rfl, hroot', by simpa,
      hnd₂, hframe.trans hframe₂, le_rfl, by simp⟩, haddr, ?_, (if_pos hts).symm⟩
    rw [Chain.gc, hcuty]
    simp [chainOf, hcontent, hts]
  · have hf : p₁.foldYoungest ctx orv root.addr = some (p₁, ctx) := by
      rw [Txpool.foldYoungest, hheld.block, Option.bind_eq_bind, Option.bind_some]
      cases kept with
      | nil => simp [Ver.block, startOf]
      | cons y kept =>
          have hyb := hheld.2.2.block
          have hno : ¬ (startOf kept none = none ∧ y.ts ≤ orv) := by
            rintro ⟨hs, hts⟩
            cases kept with
            | nil => exact hfold ⟨y, rfl, hts⟩
            | cons z kept => simp [startOf] at hs
          have hs : startOf (y :: kept) none = some y.addr := rfl
          simp [Ver.block, hs, hyb]
          exact fun h₁ h₂ => absurd ⟨h₁, h₂⟩ hno
    refine ⟨p₁, p₁, ctx, root, kept, [], [], hcut, hf, ⟨hctx, rfl, hheld, by simp, ?_, ?_, by simp,
      by simp⟩, rfl, ?_, ?_⟩
    · simpa using hnd₁
    · simpa using hframe
    · have hcutk : Chain.cut orv (chainOf root (kept ++ dropped)).versions
          = kept.map Ver.content := hmap.symm
      rw [Chain.gc, hcutk]
      split
      · next u hu =>
          obtain ⟨y, rfl, rfl⟩ : ∃ y, kept = [y] ∧ y.content = u := by simpa using hu
          have hts : ¬ y.ts ≤ orv := fun hts => hfold ⟨y, rfl, hts⟩
          simp [chainOf, hts]
      · rfl
    · -- an old newest version would have been left alone
      cases hvs : kept ++ dropped with
      | nil => rfl
      | cons y vs =>
          refine (if_neg fun hts => ?_).symm
          have hone : kept.map Ver.content = [y.content] := by
            rw [hmap, hvs]
            exact if_pos hts
          obtain ⟨z, rfl, -⟩ := List.map_eq_singleton_iff.mp hone
          obtain ⟨rfl, -⟩ := List.cons.inj hvs
          exact hfold ⟨z, rfl, hts⟩

/-- **One run of the collector on a root.** -/
theorem gc_spec {p : Txpool α} {ctx : Ctx} {l : List (ℕ × ℕ)} {root : Ver α}
    {vs : List (Ver α)} {orv : ℕ} (h : Held p.mem (root :: vs) none)
    (hnd : (cellsOf (root :: vs)).Nodup) (hctx : CtxHeld ctx l)
    (hsafe : (chainOf root vs).GcSafe orv) :
    ∃ p' ctx' gced kept ret new, p.gc ctx orv root.addr false = some (p', ctx', gced)
      ∧ GcResult p l root vs orv p' ctx' gced kept ret new ∧ ret = folded orv vs := by
  obtain ⟨p₁, p₂, ctx', root', vs', ret, new, hcut, hfold, hop, haddr, hchain, hret⟩ :=
    cut_fold_spec h hnd hctx hsafe
  have hcoll : (chainOf root vs).Collectable orv
      ↔ root'.data = none ∧ vs' = [] ∧ root'.ts < orv := by
    rw [Chain.Collectable, ← hchain]
    simp [chainOf]
    tauto
  have hgc : ∀ {p' gced}, p₂.collectRoot orv root'.addr = some (p', gced) →
      p.gc ctx orv root.addr false = some (p', ctx', gced) := by
    intro p' gced hc
    rw [haddr] at hc
    rw [Txpool.gc, if_neg (by simp)]
    simp only [hcut, hfold, hc, Option.bind_eq_bind, Option.bind_some]
  rcases collectRoot_spec hop.held with ⟨hno, hc⟩ | ⟨hyes, p', hc, hmem'⟩
  · exact ⟨p₂, ctx', false, root' :: vs', ret, new, hgc hc, ⟨hop, by simp [hcoll, hno], by simp,
      fun _ => ⟨root', vs', rfl, haddr, hchain⟩⟩, hret⟩
  · obtain ⟨hd, rfl, hts⟩ := hyes
    have hfp : footprint [root'] = insert (.inl root'.addr) ∅ := by
      ext k
      simp [Ver.mem_cells, hd]
    refine ⟨p', ctx', true, [], ret, new, hgc hc, ⟨hop.step trivial (by simp) ?_,
      by simp [hcoll, hd, hts], fun _ => rfl, by simp⟩, hret⟩
    have hempty : footprint ([] : List (Ver α)) = ∅ := by ext k; simp
    rw [hmem', hfp, hempty]
    exact Frame.free (Set.notMem_empty _) _

/-- A run on a lone block: it stays as it is, or goes if it is empty and old. -/
lemma gc_single_spec {p : Txpool α} (ctx : Ctx) (orv : ℕ) {y : Ver α} (h : Held p.mem [y] none) :
    (¬ (y.data = none ∧ y.ts < orv) ∧ p.gc ctx orv y.addr false = some (p, ctx, false))
      ∨ (y.data = none ∧ y.ts < orv) ∧ ∃ p', p.gc ctx orv y.addr false = some (p', ctx, true)
        ∧ Frame p.mem p'.mem (footprint [y]) ∅ := by
  have hb : p.blockPalloc.get y.addr = some (y.block none) := h.block
  have hcut : p.cutVersions orv y.addr = some p := by
    rw [Txpool.cutVersions, hb]
    rfl
  have hfold : p.foldYoungest ctx orv y.addr = some (p, ctx) := by
    rw [Txpool.foldYoungest, hb]
    rfl
  have hgc : ∀ {p' gced}, p.collectRoot orv y.addr = some (p', gced) →
      p.gc ctx orv y.addr false = some (p', ctx, gced) := by
    intro p' gced hc
    rw [Txpool.gc, if_neg (by simp)]
    simp only [hcut, hfold, hc, Option.bind_eq_bind, Option.bind_some]
  rcases collectRoot_spec h with ⟨hno, hc⟩ | ⟨⟨hd, -, hts⟩, p', hc, hmem⟩
  · exact Or.inl ⟨fun hy => hno ⟨hy.1, rfl, hy.2⟩, hgc hc⟩
  · refine Or.inr ⟨⟨hd, hts⟩, p', hgc hc, ?_⟩
    have hfp : footprint [y] = insert (.inl y.addr) ∅ := by
      ext k
      simp [Ver.mem_cells, hd]
    rw [hmem, hfp]
    exact Frame.free (Set.notMem_empty _) _

/-- **A forced run** releases the whole chain. -/
theorem gcForce_spec {p : Txpool α} (ctx : Ctx) (orv : ℕ) {root : Ver α} {vs : List (Ver α)}
    (h : Held p.mem (root :: vs) none) (hnd : (cellsOf (root :: vs)).Nodup) :
    ∃ p', p.gc ctx orv root.addr true = some (p', ctx, true)
      ∧ Frame p.mem p'.mem (footprint (root :: vs)) ∅ := by
  obtain ⟨p', hp', hvac⟩ := freeVersions_spec h hnd (h.length_le_fuel hnd)
  refine ⟨p', ?_, hvac.frame⟩
  rw [startOf] at hp'
  rw [Txpool.gc, if_pos rfl, hp']
  rfl

end Furious
