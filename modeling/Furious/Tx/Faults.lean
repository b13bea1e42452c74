import Furious.Tx.Sweep

/-!
What is known of a call that has succeeded.

The collector releases a null pointer when it folds a version without data into a
root without data, and an access goes astray when the collector has released the
root. Such calls have no result; here their absence is read off from a result.

* `gcSafe_of_gc`: the collector has found data to release;
* `ptr_writer_of_eq`: **an access of a writer that has succeeded**;
* `gcSafe_of_gcLoop`: **a collection of a thread context that has succeeded**.
-/

namespace Furious

variable {α : Type}

/-! ### One reference -/

/-- There is nothing to fold a version without data into. -/
lemma foldData_eq_none {p : Txpool α} : p.foldData none none = none := rfl

/-- **A run of the collector that has succeeded** has found data to release. -/
theorem gcSafe_of_gc {p : Txpool α} {ctx : Ctx} {root : Ver α} {vs : List (Ver α)} {orv : ℕ}
    {r : Txpool α × Ctx × Bool} (h : Held p.mem (root :: vs) none)
    (hnd : (cellsOf (root :: vs)).Nodup) (hgc : p.gc ctx orv root.addr false = some r) :
    (chainOf root vs).GcSafe orv := by
  intro u hu hts hd hroot
  obtain ⟨p₁, kept, dropped, hcut, rfl, hmap, hheld, -⟩ := cutVersions_spec orv h hnd
  have hkept : kept.map Ver.content = [u] := hmap.trans hu
  obtain ⟨y, rfl, rfl⟩ := List.map_eq_singleton_iff.mp hkept
  have hrd : root.data = none := Option.map_eq_none_iff.mp hroot
  have hyd : y.data = none := Option.map_eq_none_iff.mp hd
  have hrb : p₁.blockPalloc.get root.addr = some ⟨root.ts, none, some y.addr⟩ := by
    rw [hheld.block, Ver.block, hrd]
    rfl
  have hyb : p₁.blockPalloc.get y.addr = some ⟨y.ts, none, none⟩ := by
    rw [hheld.2.2.block, Ver.block, hyd]
    rfl
  have hfold : p₁.foldYoungest ctx orv root.addr = none := by
    have hle : y.ts ≤ orv := hts
    simp only [Txpool.foldYoungest, hrb, hyb, Option.bind_eq_bind, Option.bind_some, true_and, if_pos hle,
      foldData_eq_none, Option.bind_none]
  rw [Txpool.gc, if_neg Bool.false_ne_true] at hgc
  simp only [hcut, hfold, Option.bind_eq_bind, Option.bind_some, Option.bind_none] at hgc
  cases hgc

/-- The root of a chain that the collector has released is vacant. -/
lemma GcResult.vacant {p p' : Txpool α} {l : List (ℕ × ℕ)} {root : Ver α} {vs : List (Ver α)} {orv : ℕ}
    {ctx' : Ctx} {kept ret : List (Ver α)} {new : List (ℕ × ℕ)}
    (h : GcResult p l root vs orv p' ctx' true kept ret new) (hnd : (cellsOf (root :: vs)).Nodup) :
    p'.blockPalloc.get root.addr = none := by
  have hkept := h.kept_nil rfl
  have hroot : Sum.inl root.addr ∈ footprint (root :: vs) := addr_mem_cellsOf List.mem_cons_self
  have hnot : Sum.inl root.addr ∉ footprint (kept ++ ret) := by
    rw [hkept, List.nil_append, mem_footprint, cellsOf, List.mem_flatMap]
    rintro ⟨y, hy, hmem⟩
    rcases Ver.mem_cells.mp hmem with haddr | ⟨d, x, -, hd⟩
    · exact addr_ne_root hnd (h.mem_ret y hy) (Sum.inl.inj haddr).symm
    · cases hd
  have hvac := h.frame.dropped _ hroot hnot
  simpa [Txpool.mem] using hvac

/-- An access of a reader leaves everything as it is, whatever it meets. -/
lemma ptr_reader_eq {p p' : Txpool α} {t : Tx} {ctx ctx' : Ctx} {main : ℕ} {write : Bool}
    {data : Option ℕ} (ht : t.txType = .readOnly)
    (hptr : p.ptr t ctx main write = some (p', ctx', data)) : p' = p ∧ ctx' = ctx := by
  have hno : t.txType ≠ .readWrite := by
    rw [ht]
    decide
  simp only [Txpool.ptr, hno, false_and, if_false, Option.bind_eq_bind, Option.bind_some,
    Option.bind_eq_some_iff, Option.some.injEq, Prod.mk.injEq] at hptr
  obtain ⟨r, -, found, -, b, -, rfl, rfl, -⟩ := hptr
  exact ⟨rfl, rfl⟩

/-- **An access of a writer that has succeeded**, as `ptr_writer_spec` describes it. -/
theorem ptr_writer_of_eq {p : Txpool α} {t : Tx} {ctx : Ctx} {l : List (ℕ × ℕ)} {root : Ver α}
    {vs : List (Ver α)} {write : Bool} {r : Txpool α × Ctx × Option ℕ} (ht : t.txType = .readWrite)
    (h : Held p.mem (root :: vs) none) (hnd : (cellsOf (root :: vs)).Nodup) (hctx : CtxHeld ctx l)
    (hts : ∀ u ∈ (chainOf root vs).versions, u.1 ≤ t.txversion)
    (hptr : p.ptr t ctx root.addr write = some r) :
    (chainOf root vs).GcSafe t.ortxversion ∧ ¬ (chainOf root vs).Collectable t.ortxversion
      ∧ (write = true → (chainOf root vs).newest.1 < t.txversion → (chainOf root vs).newest.2 ≠ none) := by
  -- the collector has a result
  obtain ⟨g, hg⟩ : ∃ g, p.gc ctx t.ortxversion root.addr false = some g := by
    rw [Txpool.ptr, if_pos ht] at hptr
    obtain ⟨g, hg, -⟩ := Option.bind_eq_some_iff.mp hptr
    exact ⟨g, hg⟩
  have hsafe := gcSafe_of_gc h hnd hg
  obtain ⟨q, ctx', gced, kept, ret, new, hgc, hres, -⟩ := gc_spec h hnd hctx hsafe
  have hrest := hptr
  rw [Txpool.ptr, if_pos ht, hgc, Option.bind_eq_bind, Option.bind_some] at hrest
  obtain ⟨b, hb, -⟩ := Option.bind_eq_some_iff.mp hrest
  have hgced : gced = false := by
    cases gced with
    | false => rfl
    | true =>
        rw [hres.vacant hnd] at hb
        cases hb
  subst hgced
  refine ⟨hsafe, fun hcoll => Bool.false_ne_true (hres.gced_iff.mpr hcoll), fun hw hlt hnone => ?_⟩
  obtain ⟨root', vs', rfl, haddr, hchain⟩ := hres.kept_cons rfl
  have hnewest : (newestVer root' vs').content = (chainOf root vs).newest := by
    rw [← newest_chainOf, hchain, Chain.newest_gc]
  have hts' : ∀ v ∈ vs', v.ts ≤ t.txversion := by
    intro v hv
    refine hts v.content ((Chain.versions_gc_sublist _ t.ortxversion).subset ?_)
    rw [← hchain]
    exact List.mem_map_of_mem hv
  have hnd' := hres.nodup
  rw [cellsOf_append] at hnd'
  rw [← hnewest] at hlt hnone
  have hdata : (newestVer root' vs').data = none := Option.map_eq_none_iff.mp hnone
  rw [← haddr, ptr_writer_eq write ht (haddr.symm ▸ hgc) hres.held (List.nodup_append.mp hnd').1 hts',
    if_pos ⟨hw, hlt⟩, hdata] at hptr
  cases hptr

/-! ### A thread context -/

namespace Tx

variable {s : State α} {own : ℕ ⊕ ℕ → List (Ver α)} {garbage : ℕ → List (ℕ × ℕ)} {c orv : ℕ}
  {force : Bool}

/-- **A collection of a context that has succeeded** has found data to release in all of the
roots that its entries name. -/
theorem gcSafe_of_gcLoop : ∀ {post l : List (ℕ × ℕ)} {fuel : ℕ} {f : Bool} {s : State α}
    {own : ℕ ⊕ ℕ → List (Ver α)} {garbage : ℕ → List (ℕ × ℕ)} {res : Txpool α × Ctx × Bool},
    HeapHeld s own garbage → Listed own garbage → garbage c = l ++ post → post.length ≤ fuel →
    Ctx.gcLoop orv force fuel (post.map Prod.fst).head? s.pool (s.ctxs c) f = some res →
    force = false → ∀ b ∈ post.map Prod.snd, ∀ r root vs, own (.inl r) = root :: vs →
      root.addr = b → (chainOf root vs).GcSafe orv := by
  intro post
  induction post with
  | nil =>
      intro l fuel f s own garbage res _ _ _ _ _ _ b hb
      exact absurd hb List.not_mem_nil
  | cons x post ih =>
      intro pre fuel flag s own garbage res h hl hg hlen hrun hforce b' hb' r root vs ho haddr
      obtain ⟨e, b⟩ := x
      obtain ⟨fuel, rfl⟩ : ∃ f, fuel = f + 1 := ⟨fuel - 1, by simp at hlen; omega⟩
      have hctx₀ := h.ctx c
      rw [hg] at hctx₀
      simp only [List.map_cons, List.head?_cons, Ctx.gcLoop, hctx₀.entry, Option.bind_eq_bind,
        Option.bind_some] at hrun
      obtain ⟨g, hgc₀, hrun⟩ := Option.bind_eq_some_iff.mp hrun
      -- the first entry
      have hfirst : ∀ r root vs, own (.inl r) = root :: vs → root.addr = b →
          (chainOf root vs).GcSafe orv := by
        intro r root vs ho haddr
        have hheld := h.mem.held (.inl r)
        have hnd := h.mem.nodup (.inl r)
        rw [ho] at hheld hnd
        rw [hforce, ← haddr] at hgc₀
        exact gcSafe_of_gc hheld hnd hgc₀
      rcases List.mem_cons.mp hb' with rfl | hrest
      · exact hfirst r root vs ho haddr
      · -- the others are not touched by it
        obtain ⟨p, ctx, gced, own₁, ctx', new, l, hgc, hctx, hremove, hl', hheap, hlisted, hcoll, -⟩ :=
          gc_entry_spec h hl hg fun _ => hfirst
        obtain rfl := Option.some.inj (hgc₀.symm.trans hgc)
        have hpost : b ∉ post.map Prod.snd := by
          intro hmem
          obtain ⟨⟨e', b'⟩, hin, hb⟩ := List.mem_map.mp hmem
          obtain rfl : b = b' := hb.symm
          have hin' : (e', b) ∈ Function.update garbage c (pre ++ post) c := by
            rw [Function.update_self]
            exact List.mem_append_right _ hin
          exact hl.not_mem_rest h hg hin'
        have hne : root.addr ∉ [b] := by
          rw [List.mem_singleton, haddr]
          rintro rfl
          exact hpost hrest
        have hnext : Ctx.gcLoop orv force fuel (post.map Prod.fst).head? (s.setPool p c ctx').pool
            ((s.setPool p c ctx').ctxs c) (if gced = true then flag else false) = some res := by
          simp only [State.setPool, Function.update_self]
          simp only [hctx.entry, Option.bind_some] at hrun
          cases hgced : gced with
          | true =>
              simp only [hgced, if_true] at hremove hrun ⊢
              rw [hremove, Option.bind_some] at hrun
              exact hrun
          | false =>
              simp only [hgced, Bool.false_eq_true, if_false, Option.some_inj] at hremove hrun ⊢
              rw [← hremove]
              exact hrun
        exact ih hheap hlisted (by rw [Function.update_self, hl']) (by simpa using hlen) hnext hforce b' hrest
          r root vs (hcoll.other r root vs ho hne) haddr

/-- The same for all of its entries. -/
lemma gcSafe_of_ctx_gc (h : HeapHeld s own garbage) (hl : Listed own garbage)
    {res : Txpool α × Ctx × Bool} (hrun : (s.ctxs c).gc s.pool orv force = some res)
    (hforce : force = false) : ∀ b ∈ (garbage c).map Prod.snd, ∀ r root vs,
      own (.inl r) = root :: vs → root.addr = b → (chainOf root vs).GcSafe orv := by
  rw [Ctx.gc, (h.ctx c).first] at hrun
  exact gcSafe_of_gcLoop (l := []) h hl rfl ((h.ctx c).length_le.trans (Nat.le_succ _)) hrun hforce

end Tx

end Furious
