import Furious.Tx.Sweep

/-!
Where collection and freeing go wrong.

The collector, and a free, work as intended under conditions on the state that the
code does not check. They are stated on the memory as the code finds it.

* `State.newest`, `Ctx.blocks`: the newest version behind a root, and the blocks
  that a garbage list names;
* `State.FoldSafe`: the collector does not release a null pointer;
* `State.Guarded`: the condition on one call: a free finds a newest version that
  is old enough to be left to the readers, or the writer's own; collection neither
  releases a null pointer nor folds an uncommitted version; no access is made to
  memory that has been released;
* `State.releases`: the references whose root a call releases.
-/

namespace Furious

variable {α : Type}

/-- The blocks of the entries from `entry` on. -/
def Ctx.walk (ctx : Ctx) : ℕ → Option ℕ → List ℕ
  | 0, _ => []
  | fuel + 1, entry =>
      match entry.bind ctx.palloc.get with
      | none => []
      | some g => g.block :: ctx.walk fuel g.next

/-- The blocks that the garbage list names. -/
def Ctx.blocks (ctx : Ctx) : List ℕ := ctx.walk ctx.palloc.cells.length ctx.first

lemma CtxHeld.walk {ctx : Ctx} : ∀ {l₂ l : List (ℕ × ℕ)} {fuel : ℕ}, CtxHeld ctx (l ++ l₂) →
    l₂.length ≤ fuel → ctx.walk fuel (l₂.map Prod.fst).head? = l₂.map Prod.snd := by
  intro l₂
  induction l₂ with
  | nil =>
      intro l fuel _ _
      cases fuel <;> rfl
  | cons x l₂ ih =>
      intro l fuel h hlen
      obtain ⟨fuel, rfl⟩ : ∃ f, fuel = f + 1 := ⟨fuel - 1, by simp at hlen; omega⟩
      obtain ⟨e, b⟩ := x
      have htail := ih (l := l ++ [(e, b)]) (by simpa using h) (by simpa using hlen)
      simp only [List.map_cons, List.head?_cons, Ctx.walk, Option.bind_some, h.entry, htail]

/-- The walk finds the list that the context holds. -/
lemma CtxHeld.blocks {ctx : Ctx} {l : List (ℕ × ℕ)} (h : CtxHeld ctx l) :
    ctx.blocks = l.map Prod.snd := by
  rw [Ctx.blocks, h.first]
  exact h.walk (l := []) h.length_le

namespace Tx

namespace State

/-- The newest version behind the root `main`. -/
def newest (s : State α) (main : ℕ) : Option Block := do
  let r ← s.pool.blockPalloc.get main
  s.pool.blockPalloc.get (r.nextVersion.getD main)

/-- The newest version has contents. -/
def Present (s : State α) (main : ℕ) : Prop := ∀ b ∈ s.newest main, b.data ≠ none

/-- The collector does not fold a version without data into a root without data,
whose null pointer it would release. -/
def FoldSafe (s : State α) (orv main : ℕ) : Prop :=
  ∀ r ∈ s.pool.blockPalloc.get main, ∀ b ∈ s.newest main,
    r.nextVersion ≠ none → b.ts ≤ orv → b.data = none → r.data ≠ none

/-- The collector does not release the root. -/
def Keeps (s : State α) (orv main : ℕ) : Prop := ∀ b ∈ s.newest main, b.data = none → orv ≤ b.ts

/-- A version that hangs off the root is not an uncommitted one of the oldest
running transaction. -/
def Committed (s : State α) (main : ℕ) : Prop :=
  ∀ r ∈ s.pool.blockPalloc.get main, r.nextVersion ≠ none →
    ∀ f ∈ s.manager.first, ∀ t ∈ s.manager.txs f, t.txType = .readWrite →
      ∀ b ∈ s.newest main, b.ts ≠ t.txversion

instance (s : State α) (main : ℕ) : Decidable (s.Present main) :=
  inferInstanceAs (Decidable (∀ b ∈ s.newest main, b.data ≠ none))

instance (s : State α) (orv main : ℕ) : Decidable (s.FoldSafe orv main) :=
  inferInstanceAs (Decidable (∀ r ∈ s.pool.blockPalloc.get main, ∀ b ∈ s.newest main,
    r.nextVersion ≠ none → b.ts ≤ orv → b.data = none → r.data ≠ none))

instance (s : State α) (orv main : ℕ) : Decidable (s.Keeps orv main) :=
  inferInstanceAs (Decidable (∀ b ∈ s.newest main, b.data = none → orv ≤ b.ts))

instance (s : State α) (main : ℕ) : Decidable (s.Committed main) :=
  inferInstanceAs (Decidable (∀ r ∈ s.pool.blockPalloc.get main, r.nextVersion ≠ none →
    ∀ f ∈ s.manager.first, ∀ t ∈ s.manager.txs f, t.txType = .readWrite →
      ∀ b ∈ s.newest main, b.ts ≠ t.txversion))

/-- **The condition on a call**, in a state in which the roots of the references
`released` have been released. -/
def Guarded (s : State α) (released : ℕ → Bool) : Step α → Prop
  | .read tx _ r write => released r = false ∧
      ∀ t ∈ s.manager.txs tx, t.txType = .readWrite → ∀ main ∈ s.refs r,
        s.Present main
          ∨ write = false ∧ s.FoldSafe t.ortxversion main ∧ s.Keeps t.ortxversion main
  | .write _ _ r _ => released r = false ∧ ∀ main ∈ s.refs r, s.Present main
  | .free tx _ r => ∀ t ∈ s.manager.txs tx, ∀ main ∈ s.refs r, ∀ b ∈ s.newest main,
      b.ts ≤ t.ortxversion ∨ b.ts = t.txversion
  | .gc ctx false => ∀ orv ∈ s.manager.oldestRunningVersion, ∀ b ∈ (s.ctxs ctx).blocks,
      s.FoldSafe orv b ∧ s.Committed b
  | _ => True

instance decidableGuarded (s : State α) (released : ℕ → Bool) (st : Step α) :
    Decidable (s.Guarded released st) :=
  match st with
  | .begin _ _ => isTrue trivial
  | .commit _ => isTrue trivial
  | .alloc _ _ _ => isTrue trivial
  | .read _ _ _ _ => inferInstanceAs (Decidable (_ ∧ _))
  | .write _ _ _ _ => inferInstanceAs (Decidable (_ ∧ _))
  | .free _ _ _ => inferInstanceAs (Decidable (∀ _ ∈ _, _))
  | .gc _ false => inferInstanceAs (Decidable (∀ _ ∈ _, _))
  | .gc _ true => isTrue trivial

/-- Whether a call releases the root of `r`. -/
def releases (s : State α) : Step α → ℕ → Bool
  | .gc ctx force, r =>
      match s.refs r, s.manager.oldestRunningVersion with
      | some main, some orv => decide (main ∈ (s.ctxs ctx).blocks)
          && (force || (s.newest main).any fun b => decide (b.data = none ∧ b.ts < orv))
      | _, _ => false
  | _, _ => false

end State

variable {s : State α} {own : ℕ ⊕ ℕ → List (Ver α)} {garbage : ℕ → List (ℕ × ℕ)} {i : ℕ ⊕ ℕ}
  {root : Ver α} {vs : List (Ver α)}

/-- The newest version of a chain, as the code finds it. -/
lemma HeapHeld.newest (h : HeapHeld s own garbage) (ho : own i = root :: vs) :
    s.newest root.addr = some ((newestVer root vs).block (startOf vs.tail none)) := by
  have hheld := h.mem.held i
  rw [ho] at hheld
  rw [State.newest, hheld.block, Option.bind_eq_bind, Option.bind_some]
  change s.pool.blockPalloc.get ((startOf vs none).getD root.addr) = _
  rw [← newestVer_addr, hheld.newestBlock]

lemma HeapHeld.present_iff (h : HeapHeld s own garbage) (ho : own i = root :: vs) :
    s.Present root.addr ↔ (chainOf root vs).newest.2 ≠ none := by
  rw [State.Present, h.newest ho, newest_chainOf]
  simp [Ver.block]

lemma HeapHeld.keeps_iff (h : HeapHeld s own garbage) (ho : own i = root :: vs) {orv : ℕ} :
    s.Keeps orv root.addr ↔ ¬ (chainOf root vs).Collectable orv := by
  rw [State.Keeps, h.newest ho, Chain.collectable_iff, newest_chainOf]
  simp [Ver.block]

/-- Folding is safe on the chain. -/
lemma HeapHeld.gcSafe (h : HeapHeld s own garbage) (ho : own i = root :: vs) {orv : ℕ}
    (hsafe : s.FoldSafe orv root.addr) : (chainOf root vs).GcSafe orv := by
  have hheld := h.mem.held i
  rw [ho] at hheld
  rw [State.FoldSafe, h.newest ho, hheld.block] at hsafe
  refine Chain.gcSafe_of_newest fun u hu hts hd => ?_
  cases vs with
  | nil => simp [chainOf] at hu
  | cons v vs =>
      obtain rfl : v.content = u := by simpa [chainOf] using hu
      have := hsafe _ rfl _ rfl (by simp [Ver.block, startOf]) hts
        (by simpa [Ver.block, newestVer] using hd)
      simpa [Ver.block, chainOf] using this

/-- And on the memory as well. -/
lemma HeapHeld.foldSafe (h : HeapHeld s own garbage) (ho : own i = root :: vs) {orv : ℕ}
    (hsafe : (chainOf root vs).GcSafe orv) : s.FoldSafe orv root.addr := by
  have hheld := h.mem.held i
  rw [ho] at hheld
  rw [State.FoldSafe, h.newest ho, hheld.block]
  intro b hb b' hb' hnext hts hd
  obtain rfl := Option.some.inj hb
  obtain rfl := Option.some.inj hb'
  cases vs with
  | nil => exact absurd rfl hnext
  | cons v vs =>
      have hts' : v.content.1 ≤ orv := hts
      have hcut : Chain.cut orv (chainOf root (v :: vs)).versions = [v.content] := if_pos hts'
      have := hsafe v.content hcut hts' (by simpa [Ver.block, newestVer] using hd)
      simpa [Ver.block, chainOf] using this

/-- Which roots a collection releases. -/
lemma HeapHeld.releases_iff (h : HeapHeld s own garbage) {c r : ℕ} {force : Bool} {orv : ℕ}
    (horv : s.manager.oldestRunningVersion = some orv) (ho : own (.inl r) = root :: vs) :
    s.releases (.gc c force) r = true ↔ root.addr ∈ (garbage c).map Prod.snd
      ∧ (force = true ∨ (chainOf root vs).Collectable orv) := by
  rw [Chain.collectable_iff, newest_chainOf]
  simp [State.releases, h.root r root vs ho, horv, (h.ctx c).blocks, h.newest ho,
    Ver.block]

end Tx

end Furious
