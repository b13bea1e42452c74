import Furious.Tx.Releases

/-!
What the collection of a thread context reports.

The collector keeps a block whose newest version is young or has contents. It reports whether it
has met no such block. The versions that it folds are in the list as well by then, behind its
back.

* `State.keeps`, `State.folds`: the blocks that are kept, and the versions that are folded;
* `Trail.Collects`: the list that a collection leaves, and the flag that says whether it is empty;
* `Trail.Exact`: the condition on the listed blocks under which the flag does so;
* `collects_exact`: **after every run a collection does what it has to exactly under this
  condition**;
* `not_collects`: a collection that reports an empty list and leaves an entry.
-/

namespace Furious

variable {α : Type}

namespace Tx

/-! ### The blocks, as the code finds them -/

namespace State

/-- The collector keeps the block `b`. -/
def keeps (s : State α) (orv : ℕ) (force : Bool) (b : ℕ) : Bool := !force && decide (s.Keeps orv b)

/-- The versions that are folded into the block `b`: the newest one, if it is old. -/
def folds (s : State α) (orv : ℕ) (force : Bool) (b : ℕ) : List ℕ :=
  if force = true then []
  else ((s.pool.blockPalloc.get b).bind Block.nextVersion).toList.filter fun y =>
    (s.pool.blockPalloc.get y).any fun v => decide (v.ts ≤ orv)

end State

variable {s : State α} {own : ℕ ⊕ ℕ → List (Ver α)} {garbage : ℕ → List (ℕ × ℕ)} {c orv : ℕ} {force : Bool}

/-- The code decides by the newest version. -/
lemma HeapHeld.verdict (h : HeapHeld s own garbage) {i : ℕ ⊕ ℕ} {root : Ver α} {vs : List (Ver α)}
    (ho : own i = root :: vs) (orv : ℕ) (force : Bool) :
    Verdict own orv force root.addr (!s.keeps orv force root.addr) (s.folds orv force root.addr) := by
  refine Verdict.of_owner h.mem ho ?_ ?_
  · rw [State.keeps, Bool.not_and, Bool.not_not, Bool.or_eq_true, Bool.not_eq_true', decide_eq_false_iff_not,
      h.keeps_iff ho, not_not]
  · have hheld := h.mem.held i
    rw [ho] at hheld
    rw [State.folds, hheld.block]
    cases vs with
    | nil => rfl
    | cons y vs =>
        have hnext : (root.block (startOf (y :: vs) none)).nextVersion = some y.addr := rfl
        have hy := hheld.2.2.block
        rw [Option.bind_some, hnext, Option.toList_some, List.filter_singleton, hy]
        by_cases hts : y.ts ≤ orv <;> simp [folded, Ver.block, hts]

/-- The verdict about the listed blocks. -/
lemma Listed.verdict (hl : Listed own garbage) (h : HeapHeld s own garbage) (orv : ℕ) (force : Bool) {b : ℕ}
    (hb : b ∈ (garbage c).map Prod.snd) : Verdict own orv force b (!s.keeps orv force b) (s.folds orv force b) := by
  obtain ⟨⟨e, b⟩, hin, rfl⟩ := List.mem_map.mp hb
  rcases hl.block c e b hin with ⟨y, hy⟩ | ⟨r, root, vs, ho, rfl, -⟩
  · obtain ⟨-, rfl⟩ := h.addr_eq (a := b) (y := y) (by simp [hy])
    exact h.verdict hy orv force
  · exact h.verdict ho orv force

/-! ### The list and the flag -/

namespace Trail

/-- The collection of the context `c` leaves the entries that are not collected, and those of the
versions that it folds, and returns true exactly when these are none. -/
def Collects (x : Trail α) (c : ℕ) (force : Bool) : Prop :=
  ∃ orv s all l added, x.state.manager.oldestRunningVersion = some orv
    ∧ Tx.step x.state (.gc c force) = some (s, .collected all)
    ∧ CtxHeld (x.state.ctxs c) l
    ∧ CtxHeld (s.ctxs c) (added ++ l.filter fun e => x.state.keeps orv force e.2)
    ∧ added.map Prod.snd = (l.map Prod.snd).reverse.flatMap (x.state.folds orv force)
    ∧ (all = true ↔ (s.ctxs c).first = none)

/-- The collection folds into data, and if it folds any version, then it keeps a block as well. -/
def Exact (x : Trail α) (c : ℕ) (force : Bool) : Prop :=
  x.Foldable (.gc c force) ∧ ∀ orv ∈ x.state.manager.oldestRunningVersion,
    (∀ b ∈ (x.state.ctxs c).blocks, x.state.folds orv force b = [])
      ∨ ∃ b ∈ (x.state.ctxs c).blocks, x.state.keeps orv force b = true

instance (x : Trail α) (c : ℕ) (force : Bool) : Decidable (x.Exact c force) :=
  inferInstanceAs (Decidable (_ ∧ ∀ orv ∈ _, _))

end Trail

/-- **The collection of a context**: the list it leaves, and what its flag says. -/
lemma TrailInv.collection {x : Trail α} (h : TrailInv x own garbage)
    (horv : x.state.manager.oldestRunningVersion = some orv) (hfold : x.Foldable (.gc c force)) :
    ∃ s added, Tx.step x.state (.gc c force)
        = some (s, .collected ((garbage c).all fun e => !x.state.keeps orv force e.2))
      ∧ CtxHeld (s.ctxs c) (added ++ (garbage c).filter fun e => x.state.keeps orv force e.2)
      ∧ added.map Prod.snd = ((garbage c).map Prod.snd).reverse.flatMap (x.state.folds orv force) := by
  obtain ⟨p, ctx, own', added, l, hgc, hl, hadded, hheap, -⟩ := ctx_gc_lists h.heap h.listed c orv force
    (fun hf b hb r root vs ho haddr => by
      subst hf haddr
      rw [← (h.heap.ctx c).blocks] at hb
      exact h.heap.gcSafe ho (hfold orv horv root.addr hb))
    fun b hb => h.listed.verdict h.heap orv force hb
  refine ⟨x.state.setPool p c ctx, added, ?_, ?_, hadded⟩
  · simp only [Tx.step, horv, hgc, Option.bind_eq_bind, Option.bind_some]
  · have hctx := hheap.ctx c
    rwa [Function.update_self, hl] at hctx

/-- **What a collection reports**, after every run in which no writer accesses a reference whose root is
gone: the collection of a context, forced or not, leaves the entries that it has not collected and those
of the versions it has folded, and returns true exactly when these are none, if and only if it folds into
data and, where it folds a version, it keeps a block as well. -/
theorem collects_exact {x : Trail α} (h : Relation.ReflTransGen (Trail.Call Trail.Live) Trail.init x) (c : ℕ)
    (force : Bool) : x.Collects c force ↔ x.Exact c force := by
  obtain ⟨own, garbage, hinv, -⟩ := trailInv_init.run (fun _ _ hok => hok) h
  obtain ⟨orv, horv, -⟩ := hinv.mgr.oldest
  have hblocks := (hinv.heap.ctx c).blocks
  -- the flag says that no block is kept, and the list is empty if no version is folded either
  have hflag : ∀ added : List (ℕ × ℕ),
      added.map Prod.snd = ((garbage c).map Prod.snd).reverse.flatMap (x.state.folds orv force) →
      ((((garbage c).all fun e => !x.state.keeps orv force e.2) = true
          ↔ added ++ (garbage c).filter (fun e => x.state.keeps orv force e.2) = [])
        ↔ (∀ b ∈ (x.state.ctxs c).blocks, x.state.folds orv force b = [])
          ∨ ∃ b ∈ (x.state.ctxs c).blocks, x.state.keeps orv force b = true) := by
    intro added hadded
    have hkept : (∃ b ∈ (x.state.ctxs c).blocks, x.state.keeps orv force b = true)
        ↔ ¬ (garbage c).filter (fun e => x.state.keeps orv force e.2) = [] := by
      rw [hblocks, List.filter_eq_nil_iff]
      simp only [List.mem_map, exists_exists_and_eq_and, not_forall, not_not, exists_prop]
    have hall : ((garbage c).all fun e => !x.state.keeps orv force e.2) = true
        ↔ (garbage c).filter (fun e => x.state.keeps orv force e.2) = [] := by
      rw [List.all_eq_true, List.filter_eq_nil_iff]
      simp
    have hnone : (∀ b ∈ (x.state.ctxs c).blocks, x.state.folds orv force b = []) ↔ added = [] := by
      rw [← List.map_eq_nil_iff (f := Prod.snd), hadded, hblocks, List.flatMap_eq_nil_iff]
      simp only [List.mem_reverse]
    rw [List.append_eq_nil_iff, hall, hkept, hnone]
    by_cases hl : (garbage c).filter (fun e => x.state.keeps orv force e.2) = [] <;> simp [hl]
  constructor
  · rintro ⟨orv', s, all, l, added, horv', hstep, hl, -, -, hall⟩
    obtain rfl := Option.some.inj (horv.symm.trans horv')
    have hfold := hinv.foldable_of_step hstep
    refine ⟨hfold, fun orv' horv' => ?_⟩
    obtain rfl := Option.some.inj (horv.symm.trans horv')
    obtain ⟨s', added, hstep', hctx, hadded⟩ := hinv.collection horv hfold
    obtain ⟨rfl, rfl⟩ : s' = s ∧ _ = all := by
      simpa using hstep'.symm.trans hstep
    rw [hctx.first_eq_none] at hall
    exact (hflag added hadded).mp hall
  · rintro ⟨hfold, hex⟩
    obtain ⟨s, added, hstep, hctx, hadded⟩ := hinv.collection horv hfold
    refine ⟨orv, s, _, garbage c, added, horv, hstep, hinv.heap.ctx c, hctx, hadded, ?_⟩
    rw [hctx.first_eq_none]
    exact (hflag added hadded).mpr (hex orv horv)

/-- A freed reference, while its writer is the last one that has committed: the version is folded and
the root is kept. -/
theorem collects_exact_after_free :
    ∃ x : Trail ℕ, Relation.ReflTransGen (Trail.Call Trail.Live) Trail.init x ∧ (x.state.ctxs 0).blocks = [0]
      ∧ x.state.folds 2 false 0 = [2] ∧ x.Collects 0 false := by
  obtain ⟨x, -, hx, -, hf⟩ := Trail.exists_of_calls Trail.Live [.begin 1 .readWrite, .alloc 1 0 7, .commit 1,
    .begin 2 .readWrite, .read 2 1 0 false, .free 2 0 0, .commit 2] []
    (f := fun x _ : Trail ℕ => ((x.state.ctxs 0).blocks, x.state.folds 2 false 0, decide (x.Exact 0 false)))
    (v := ([0], [2], true)) (by decide +kernel)
  obtain ⟨hblocks, hf⟩ := Prod.mk.inj hf
  obtain ⟨hfolds, hex⟩ := Prod.mk.inj hf
  exact ⟨x, hx, hblocks, hfolds, (collects_exact hx 0 false).mpr (of_decide_eq_true hex)⟩

/-- **An entry is left behind**: once another writer has committed, the collection folds the version of the
freed reference, releases the root, and returns true; the list has the entry of the version. -/
theorem not_collects :
    ∃ x : Trail ℕ, Relation.ReflTransGen (Trail.Call Trail.Live) Trail.init x ∧ ¬ x.Collects 0 false := by
  obtain ⟨x, -, hx, -, hf⟩ := Trail.exists_of_calls Trail.Live [.begin 1 .readWrite, .alloc 1 0 7, .commit 1,
    .begin 2 .readWrite, .read 2 1 0 false, .free 2 0 0, .commit 2, .begin 3 .readWrite, .commit 3] []
    (f := fun x _ : Trail ℕ => (Tx.step x.state (.gc 0 false)).map fun r => (r.2, (r.1.ctxs 0).first))
    (v := some (.collected true, some 1)) (by decide +kernel)
  obtain ⟨⟨s, o⟩, hstep, ho⟩ := Option.map_eq_some_iff.mp hf
  obtain ⟨rfl, hfirst⟩ := Prod.mk.inj ho
  refine ⟨x, hx, ?_⟩
  rintro ⟨orv, s', all, l, added, -, hstep', -, -, -, hall⟩
  obtain ⟨rfl, rfl⟩ : s = s' ∧ true = all := by
    simpa using hstep.symm.trans hstep'
  rw [hall.mp rfl] at hfirst
  cases hfirst

end Tx

end Furious
