import Furious.Tx.Trail

/-!
What the transactional memory hands back to its pools.

* `Txpool.Reaches`: the blocks that can be reached from one, and `TrailInv.reaches`: those reached
  from a live reference or a garbage entry are allocated;
* `Trail.Foldable`: no collection folds a version without data into a root without data;
* `Trail.Releases`: a call releases only blocks that are allocated;
* `releases_allocated`: **so does every call of a run** without such a collection, if no writer accesses a
  reference whose root is gone;
* `not_releases_allocated`: a collection that releases a null pointer.
-/

namespace Furious

variable {α : Type}

/-! ### What is reached -/

/-- The blocks that are reached from the block `a`, along the versions and to their data. -/
inductive Txpool.Reaches (p : Txpool α) (a : ℕ) : ℕ ⊕ ℕ → Prop
  | start : Reaches p a (.inl a)
  | next {b c : ℕ} {blk : Block} (h : Reaches p a (.inl b)) (hb : p.blockPalloc.get b = some blk)
      (hc : blk.nextVersion = some c) : Reaches p a (.inl c)
  | data {b d : ℕ} {blk : Block} (h : Reaches p a (.inl b)) (hb : p.blockPalloc.get b = some blk)
      (hd : blk.data = some d) : Reaches p a (.inr d)

/-- The links of a version that is held lead to another one. -/
lemma Held.linked {p : Txpool α} {vs : List (Ver α)} (h : Held p.mem vs none) {v : Ver α} (hv : v ∈ vs) :
    ∃ next, p.blockPalloc.get v.addr = some (v.block next) ∧ ∀ a, next = some a → ∃ w ∈ vs, w.addr = a := by
  induction vs with
  | nil => exact absurd hv List.not_mem_nil
  | cons u vs ih =>
      rcases List.mem_cons.mp hv with rfl | hv
      · refine ⟨_, h.block, fun a ha => ?_⟩
        cases vs with
        | nil => cases ha
        | cons w vs => exact ⟨w, by simp, Option.some.inj ha⟩
      · obtain ⟨next, hb, hnext⟩ := ih h.2.2 hv
        refine ⟨next, hb, fun a ha => ?_⟩
        obtain ⟨w, hw, haddr⟩ := hnext a ha
        exact ⟨w, List.mem_cons_of_mem u hw, haddr⟩

/-- **What is reached from a chain** are its cells. -/
lemma Held.reaches {p : Txpool α} {root : Ver α} {vs : List (Ver α)} (h : Held p.mem (root :: vs) none)
    {k : ℕ ⊕ ℕ} (hk : p.Reaches root.addr k) :
    ∃ v ∈ root :: vs, k ∈ v.cells ∧ ∀ b, k = .inl b → v.addr = b := by
  induction hk with
  | start => exact ⟨root, List.mem_cons_self, Ver.mem_cells.mpr (Or.inl rfl), fun b hb => Sum.inl.inj hb⟩
  | next _ hb hc ih =>
      obtain ⟨v, hv, -, haddr⟩ := ih
      obtain ⟨next, hblock, hnext⟩ := h.linked hv
      rw [haddr _ rfl] at hblock
      obtain rfl := Option.some.inj (hb.symm.trans hblock)
      obtain ⟨w, hw, rfl⟩ := hnext _ hc
      exact ⟨w, hw, Ver.mem_cells.mpr (Or.inl rfl), fun b hb => Sum.inl.inj hb⟩
  | data _ hb hd ih =>
      obtain ⟨v, hv, -, haddr⟩ := ih
      obtain ⟨next, hblock, -⟩ := h.linked hv
      rw [haddr _ rfl] at hblock
      obtain rfl := Option.some.inj (hb.symm.trans hblock)
      obtain ⟨⟨d, x⟩, hdx, rfl⟩ := Option.map_eq_some_iff.mp hd
      exact ⟨v, hv, Ver.mem_cells.mpr (Or.inr ⟨d, x, hdx, rfl⟩), fun b hb => by cases hb⟩

namespace Tx

namespace Trail

/-- Whoever accesses a freed reference began no later than the transaction that freed it. -/
def Early (x : Trail α) : Step α → Prop
  | .read tx _ r _ => ∀ t ∈ x.state.manager.txs tx, ∀ w ∈ x.freed r, t.id ≤ w
  | .write tx _ r _ => ∀ t ∈ x.state.manager.txs tx, ∀ w ∈ x.freed r, t.id ≤ w
  | _ => True

/-- No collection folds a version without data into a root without data. -/
def Foldable (x : Trail α) : Step α → Prop
  | .gc c false => ∀ orv ∈ x.state.manager.oldestRunningVersion, ∀ b ∈ (x.state.ctxs c).blocks,
      x.state.FoldSafe orv b
  | _ => True

/-- The call releases only blocks that are allocated: the collector that a writer runs, the free
and the collection of the context do not fail. -/
def Releases (x : Trail α) : Step α → Prop
  | .read tx c r _ => ∀ t ∈ x.state.manager.txs tx, t.txType = .readWrite → ∀ main ∈ x.state.refs r,
      x.state.pool.gc (x.state.ctxs c) t.ortxversion main false ≠ none
  | .write tx c r _ => ∀ t ∈ x.state.manager.txs tx, t.txType = .readWrite → ∀ main ∈ x.state.refs r,
      x.state.pool.gc (x.state.ctxs c) t.ortxversion main false ≠ none
  | .free tx c r => ∀ t ∈ x.state.manager.txs tx, ∀ main ∈ x.state.refs r,
      x.state.pool.free t (x.state.ctxs c) main ≠ none
  | .gc c force => ∀ orv ∈ x.state.manager.oldestRunningVersion,
      (x.state.ctxs c).gc x.state.pool orv force ≠ none
  | _ => True

/-- The calls of a run: no transaction accesses what an earlier one has freed, no writer accesses a
reference whose root is gone, and collections fold into data. -/
def Proper (x : Trail α) (st : Step α) : Prop := x.Early st ∧ x.Live st ∧ x.Foldable st

instance decidableEarly (x : Trail α) (st : Step α) : Decidable (x.Early st) :=
  match st with
  | .begin _ _ => isTrue trivial
  | .commit _ => isTrue trivial
  | .alloc _ _ _ => isTrue trivial
  | .read _ _ _ _ => inferInstanceAs (Decidable (∀ _ ∈ _, _))
  | .write _ _ _ _ => inferInstanceAs (Decidable (∀ _ ∈ _, _))
  | .free _ _ _ => isTrue trivial
  | .gc _ _ => isTrue trivial

instance decidableFoldable (x : Trail α) (st : Step α) : Decidable (x.Foldable st) :=
  match st with
  | .begin _ _ => isTrue trivial
  | .commit _ => isTrue trivial
  | .alloc _ _ _ => isTrue trivial
  | .read _ _ _ _ => isTrue trivial
  | .write _ _ _ _ => isTrue trivial
  | .free _ _ _ => isTrue trivial
  | .gc _ false => inferInstanceAs (Decidable (∀ _ ∈ _, _))
  | .gc _ true => isTrue trivial

instance decidableProper (x : Trail α) (st : Step α) : Decidable (x.Proper st) :=
  inferInstanceAs (Decidable (_ ∧ _ ∧ _))

end Trail

variable {x : Trail α} {own : ℕ ⊕ ℕ → List (Ver α)} {garbage : ℕ → List (ℕ × ℕ)} {tx c r : ℕ}

/-- A writer that may access a reference runs the collector safely. -/
lemma TrailInv.collector (h : TrailInv x own garbage) (htx : tx ∈ x.running) {t : Tx}
    (ht : x.state.manager.txs tx = some t) (hty : t.txType = .readWrite) (hlive : x.released r = false)
    (hearly : ∀ w ∈ x.freed r, t.id ≤ w) {main : ℕ} (hmain : x.state.refs r = some main) :
    x.state.pool.gc (x.state.ctxs c) t.ortxversion main false ≠ none := by
  cases ho : own (.inl r) with
  | nil =>
      rcases (h.live r).mp ho with hr | hr
      · rw [hmain] at hr
        cases hr
      · rw [hlive] at hr
        cases hr
  | cons root vs =>
      obtain rfl := Option.some.inj (hmain.symm.trans (h.heap.root r root vs ho))
      have hheld := h.heap.mem.held (.inl r)
      have hnd := h.heap.mem.nodup (.inl r)
      rw [ho] at hheld hnd
      have hsafe : (chainOf root vs).GcSafe t.ortxversion := by
        cases hfr : x.freed r with
        | none => exact (Chain.gc_of_present (h.present r root vs ho hfr) _).1
        | some w =>
            -- the writer itself has freed the reference, which is too new to be folded
            obtain ⟨t', ht', hinv⟩ := h.mgr.tx tx htx
            obtain rfl := Option.some.inj (ht.symm.trans ht')
            have hid := (hinv.writer hty).1
            have hver := h.writer tx htx t ht hty
            have hle := h.freed r w hfr
            have hw := hearly w (Option.mem_def.mpr hfr)
            have hkept := h.kept r root vs ho w hfr tx htx t ht hty (by omega)
            refine Chain.gcSafe_of_newest fun u hu hts _ => ?_
            rw [Chain.newest, hu, Option.getD_some] at hkept
            omega
      obtain ⟨p, ctx, gced, kept, ret, new, hgc, -⟩ := gc_spec hheld hnd (h.heap.ctx c) hsafe
      rw [hgc]
      exact Option.some_ne_none _

/-- **Which calls release only blocks that are allocated**: among those that access nothing that
is gone, the ones that fold into data. -/
lemma TrailInv.releases_iff (h : TrailInv x own garbage) {st : Step α} (hl : x.Legal st) (hearly : x.Early st)
    (hlive : x.Live st) : x.Releases st ↔ x.Foldable st := by
  cases st with
  | begin tx txtype => exact Iff.rfl
  | commit tx => exact Iff.rfl
  | alloc tx r d => exact Iff.rfl
  | read tx c r write =>
      refine iff_of_true (fun t ht hty main hmain => ?_) trivial
      have hw : x.Writer tx := by
        rw [Trail.Writer, Option.mem_def.mp ht, Option.map_some, hty]
      exact h.collector hl ht hty (hlive hw) (hearly t ht) hmain
  | write tx c r f =>
      refine iff_of_true (fun t ht hty main hmain => ?_) trivial
      have hw : x.Writer tx := by
        rw [Trail.Writer, Option.mem_def.mp ht, Option.map_some, hty]
      exact h.collector hl ht hty (hlive hw) (hearly t ht) hmain
  | free tx c r =>
      refine iff_of_true (fun t ht main hmain => ?_) trivial
      cases ho : own (.inl r) with
      | nil =>
          rcases (h.live r).mp ho with hr | hr
          · rw [Option.mem_def.mp hmain] at hr
            cases hr
          · exact absurd hl.2.2 (h.released r hr).2
      | cons root vs =>
          obtain rfl := Option.some.inj ((Option.mem_def.mp hmain).symm.trans (h.heap.root r root vs ho))
          have hheld := h.heap.mem.held (.inl r)
          have hnd := h.heap.mem.nodup (.inl r)
          rw [ho] at hheld hnd
          obtain ⟨p, ctx₁, ctx, root', vs', ret, new, e, hfree, -⟩ :=
            free_spec (t := t) hheld hnd (h.heap.ctx c) (h.present r root vs ho hl.2.2)
          rw [hfree]
          exact Option.some_ne_none _
  | gc c force =>
      have hspec := ctx_gc_spec h.heap h.listed c
      cases force with
      | true =>
          refine iff_of_true (fun orv _ => ?_) trivial
          obtain ⟨p, ctx, all, own', garbage', hgc, -⟩ := hspec orv true fun hf => absurd hf.symm Bool.false_ne_true
          rw [hgc]
          exact Option.some_ne_none _
      | false =>
          refine forall₂_congr fun orv _ => ⟨fun hne b hb => ?_, fun hfold => ?_⟩
          · obtain ⟨res, hrun⟩ := Option.ne_none_iff_exists'.mp hne
            have hsafe := gcSafe_of_ctx_gc h.heap h.listed hrun rfl
            rw [(h.heap.ctx c).blocks] at hb
            obtain ⟨⟨e, b⟩, hin, rfl⟩ := List.mem_map.mp hb
            rcases h.listed.block c e b hin with ⟨y, hy⟩ | ⟨r, root, vs, ho, rfl, -⟩
            · -- a retired block has no versions
              obtain ⟨-, rfl⟩ := h.heap.addr_eq (a := b) (y := y) (by simp [hy])
              exact h.heap.foldSafe hy fun u hu => absurd hu (List.cons_ne_nil u []).symm
            · exact h.heap.foldSafe ho (hsafe root.addr hb r root vs ho rfl)
          · obtain ⟨p, ctx, all, own', garbage', hgc, -⟩ := hspec orv false fun _ b hb r root vs ho haddr => by
              rw [← (h.heap.ctx c).blocks] at hb
              exact h.heap.gcSafe ho (haddr ▸ hfold b hb)
            rw [hgc]
            exact Option.some_ne_none _

/-- A collection of a context that has succeeded has folded into data. -/
lemma TrailInv.foldable_of_step (h : TrailInv x own garbage) {c : ℕ} {force : Bool} {r : State α × Output α}
    (hstep : Tx.step x.state (.gc c force) = some r) : x.Foldable (.gc c force) := by
  cases force with
  | true => trivial
  | false =>
      have hlegal : x.Legal (.gc c false) := fun hf => absurd hf Bool.false_ne_true
      refine (h.releases_iff hlegal trivial trivial).mp fun orv horv hnone => ?_
      rw [Tx.step, Option.mem_def.mp horv, Option.bind_eq_bind, Option.bind_some, hnone] at hstep
      cases hstep

/-- **What is reached is allocated**, from the owner of a chain. -/
lemma TrailInv.reaches (h : TrailInv x own garbage) {i : ℕ ⊕ ℕ} {root : Ver α} {vs : List (Ver α)}
    (ho : own i = root :: vs) {k : ℕ ⊕ ℕ} (hk : x.state.pool.Reaches root.addr k) :
    x.state.pool.mem k ≠ none := by
  have hheld := h.heap.mem.held i
  rw [ho] at hheld
  obtain ⟨v, hv, hcell, -⟩ := hheld.reaches hk
  exact hheld.live (List.mem_flatMap.mpr ⟨v, hv, hcell⟩)

/-- **No wild release**: in a run in which no collection folds a version without data into a root
without data, and no writer accesses a reference whose root is gone, every call releases only blocks
that are allocated, up to the first collection of that kind, which does not. What is reached from a
live reference or from a garbage entry has not been released. -/
theorem releases_allocated {x : Trail α}
    (h : Relation.ReflTransGen (Trail.Call Trail.Proper) Trail.init x) :
    (∀ st, x.Legal st → x.Early st → x.Live st → (x.Releases st ↔ x.Foldable st))
    ∧ (∀ r main, x.state.refs r = some main → x.released r = false →
      ∀ k, x.state.pool.Reaches main k → x.state.pool.mem k ≠ none)
    ∧ ∀ c, ∀ b ∈ (x.state.ctxs c).blocks, ∀ k, x.state.pool.Reaches b k → x.state.pool.mem k ≠ none := by
  obtain ⟨own, garbage, hinv, -⟩ := trailInv_init.run (fun _ _ hok => hok.2.1) h
  refine ⟨fun st hl hearly hlive => hinv.releases_iff hl hearly hlive, fun r main hmain hr k hk => ?_,
    fun c b hb k hk => ?_⟩
  · cases ho : own (.inl r) with
    | nil =>
        rcases (hinv.live r).mp ho with hnone | hrel
        · rw [hmain] at hnone
          cases hnone
        · rw [hr] at hrel
          cases hrel
    | cons root vs =>
        obtain rfl := Option.some.inj (hmain.symm.trans (hinv.heap.root r root vs ho))
        exact hinv.reaches ho hk
  · rw [(hinv.heap.ctx c).blocks] at hb
    obtain ⟨⟨e, b⟩, hin, rfl⟩ := List.mem_map.mp hb
    rcases hinv.listed.block c e b hin with ⟨y, hy⟩ | ⟨r, root, vs, ho, rfl, -⟩
    · obtain ⟨-, rfl⟩ := hinv.heap.addr_eq (a := b) (y := y) (by simp [hy])
      exact hinv.reaches hy hk
    · exact hinv.reaches ho hk

/-- A version and the freed root that it is folded into, while a reader runs and after it. -/
theorem releases_allocated_after_reader :
    ∃ x : Trail ℕ, Relation.ReflTransGen (Trail.Call Trail.Proper) Trail.init x ∧ x.Releases (.gc 0 false)
      ∧ ∀ b ∈ (x.state.ctxs 0).blocks, x.state.pool.mem (.inl b) ≠ none := by
  obtain ⟨x, -, hx, -, hf⟩ := Trail.exists_of_calls Trail.Proper [.begin 1 .readWrite, .alloc 1 0 7, .commit 1,
    .begin 2 .readWrite, .write 2 0 0 (· + 1), .commit 2, .begin 3 .readOnly, .begin 4 .readWrite,
    .free 4 0 0, .commit 4, .read 3 1 0 false, .gc 0 false, .commit 3] []
    (f := fun x _ : Trail ℕ => decide (x.Legal (.gc 0 false) ∧ x.Proper (.gc 0 false))) (v := true)
    (by decide +kernel)
  obtain ⟨hl, hearly, hlive, hfold⟩ := of_decide_eq_true hf
  obtain ⟨hrel, -, hblocks⟩ := releases_allocated hx
  exact ⟨x, hx, (hrel _ hl hearly hlive).mpr hfold, fun b hb => hblocks 0 b hb _ .start⟩

/-- **A null pointer is released**: a writer allocates the reference 0 and frees it, and the collection
of its context folds the version without data into the root, which has none. -/
theorem not_releases_allocated :
    ∃ x : Trail ℕ, Relation.ReflTransGen (Trail.Call fun x st => x.Early st ∧ x.Live st) Trail.init x
      ∧ x.Legal (.gc 0 false) ∧ x.Early (.gc 0 false) ∧ ¬ x.Releases (.gc 0 false) := by
  obtain ⟨x, -, hx, -, hf⟩ := Trail.exists_of_calls (fun x st => x.Early st ∧ x.Live st) [.begin 0 .readWrite,
    .alloc 0 0 7, .free 0 0 0] []
    (f := fun x _ : Trail ℕ => (decide (x.Legal (.gc 0 false)), x.state.manager.oldestRunningVersion,
      ((x.state.ctxs 0).gc x.state.pool 1 false).isNone)) (v := (true, some 1, true)) (by decide +kernel)
  obtain ⟨hl, hf⟩ := Prod.mk.inj hf
  obtain ⟨horv, hgc⟩ := Prod.mk.inj hf
  exact ⟨x, hx, of_decide_eq_true hl, trivial, fun hrel => hrel 1 horv (Option.isNone_iff_eq_none.mp hgc)⟩

end Tx

end Furious
