import Furious.Tx.Running
import Furious.Tx.Guards
import Furious.Tx.Snapshot

/-!
The transactional memory refines the machine of snapshots.

* `ChainInv`: what a chain has to do with the sessions: each running transaction
  finds its view at its version, and the committed contents are found at the
  version of the last committed writer;
* `Sim`: the simulation relation, with the owners of the memory;
* `Sim.step`: **every legal and guarded call succeeds, keeps the relation, and
  reports what the machine of snapshots says**.
-/

namespace Furious

variable {α : Type}

namespace Tx

/-! ### Chains and views -/

/-- The chain `c` of the reference `r`, against the sessions. -/
structure ChainInv (m : Manager) (a : Snapshots α) (r : ℕ) (c : Chain α) : Prop where
  decreasing : c.versions.Pairwise fun u v => v.1 < u.1
  root_le : c.root.1 ≤ m.lastWriteCommittedId
  version : ∀ u ∈ c.versions, u.1 ≤ m.lastWriteCommittedId
    ∨ ∃ w ∈ a.running, ∃ t, m.txs w = some t ∧ t.txType = .readWrite ∧ u.1 = t.txversion
  committed : c.lookup m.lastWriteCommittedId = a.committed r
  view : ∀ tx ∈ a.running, ∀ t, m.txs tx = some t → c.lookup t.txversion = (a.session tx).view r

namespace ChainInv

variable {m m' : Manager} {a : Snapshots α} {r : ℕ} {c c' : Chain α}

/-- While a writer runs, the versions are committed or its own. -/
lemma wf (h : ChainInv m a r c) (hm : MgrInv m a.running) {tx : ℕ} {t : Tx} (htx : tx ∈ a.running)
    (ht : m.txs tx = some t) (hw : t.txType = .readWrite) :
    c.Wf m.lastWriteCommittedId t.txversion where
  decreasing := h.decreasing
  root_le := h.root_le
  version_le u hu := by
    refine (h.version u hu).imp_right ?_
    rintro ⟨w, hwr, t', ht', hw', he⟩
    obtain rfl := hm.one w hwr tx htx t' t ht' ht hw' hw
    obtain rfl : t = t' := by simpa [ht] using ht'
    exact he

/-- While no writer runs, all versions are committed. -/
lemma le_last (h : ChainInv m a r c)
    (hno : ∀ w ∈ a.running, ∀ t, m.txs w = some t → t.txType = .readOnly) :
    ∀ u ∈ c.versions, u.1 ≤ m.lastWriteCommittedId := by
  intro u hu
  refine (h.version u hu).elim (fun hle => hle) ?_
  rintro ⟨w, hwr, t, ht, hw, -⟩
  simp [hno w hwr t ht] at hw

/-- A change that a writer makes at its own version. -/
lemma of_writer (h : ChainInv m a r c) (hm : MgrInv m a.running) {tx : ℕ} {t : Tx}
    (htx : tx ∈ a.running) (ht : m.txs tx = some t) (hw : t.txType = .readWrite)
    (hwf : c'.Wf m.lastWriteCommittedId t.txversion)
    (hold : ∀ v, t.ortxversion ≤ v → v < t.txversion → c'.lookup v = c.lookup v)
    {x : Option α} (hnew : c'.lookup t.txversion = x) : ChainInv m (a.setView tx r x) r c' := by
  obtain ⟨t', ht', hinv⟩ := hm.tx tx htx
  obtain rfl : t = t' := by simpa [ht] using ht'
  obtain ⟨hid, hlast, -, hor⟩ := hinv.writer hw
  rw [← hid] at hlast
  refine ⟨hwf.decreasing, hwf.root_le, fun u hu => ?_, ?_, fun k hk u hu => ?_⟩
  · exact (hwf.version_le u hu).imp_right fun he => ⟨tx, htx, t, ht, hw, he⟩
  · rw [hold _ hor hlast, h.committed]
    rfl
  · rcases eq_or_ne k tx with rfl | hne
    · obtain rfl : t = u := by simpa [ht] using hu
      simpa [Snapshots.setView] using hnew
    · obtain ⟨u', hu', hinv'⟩ := hm.tx k hk
      obtain rfl : u = u' := by simpa [hu] using hu'
      have hro : u.txType = .readOnly := by
        cases hty : u.txType with
        | readOnly => rfl
        | readWrite => exact absurd (hm.one k hk tx htx u t hu ht hty hw) hne
      have hcut := hm.cut tx htx k hk t u ht hu hw hro
      have hlt := (hinv'.reader hro).trans_lt hlast
      rw [hold _ hcut hlt, h.view k hk u hu]
      simp [Snapshots.setView, Function.update_of_ne hne]

/-- A change of another reference. -/
lemma setView_of_ne (h : ChainInv m a r c) {q : ℕ} (hq : r ≠ q) (tx : ℕ) (x : Option α) :
    ChainInv m (a.setView tx q x) r c := by
  refine ⟨h.decreasing, h.root_le, h.version, h.committed, fun k hk t ht => ?_⟩
  rw [h.view k hk t ht]
  rcases eq_or_ne k tx with rfl | hne
  · simp [Snapshots.setView, Function.update_of_ne hq]
  · simp [Snapshots.setView, Function.update_of_ne hne]

/-- A transaction begins: it sees the committed contents. -/
lemma begin (h : ChainInv m a r c) {tx : ℕ} {txtype : TxType} {t : Tx} (htx : tx ∉ a.running)
    (hlast : m'.lastWriteCommittedId = m.lastWriteCommittedId) (ht : m'.txs tx = some t)
    (hver : t.txversion = m.beginVersion txtype) (hid : m.lastWriteCommittedId < m.nextId)
    (hno : txtype = .readWrite → ∀ w ∈ a.running, ∀ u, m.txs w = some u → u.txType = .readOnly)
    (hlive : ∀ k ∈ a.running, m'.txs k ≠ none)
    (hold : ∀ k ∈ a.running, ∀ u', m'.txs k = some u' → ∃ u, m.txs k = some u ∧ Tx.Same u u') :
    ChainInv m' (a.step (.begin tx txtype)) r c := by
  refine ⟨h.decreasing, hlast ▸ h.root_le, fun u hu => ?_, by rw [hlast]; exact h.committed,
    fun k hk u hu => ?_⟩
  · rw [hlast]
    refine (h.version u hu).imp_right ?_
    rintro ⟨w, hwr, t, ht, hw, he⟩
    obtain ⟨t', ht'⟩ := Option.ne_none_iff_exists'.mp (hlive w hwr)
    obtain ⟨t₀, ht₀, hs⟩ := hold w hwr t' ht'
    obtain rfl : t = t₀ := by simpa [ht] using ht₀
    exact ⟨w, List.mem_append_left _ hwr, t', ht', hs.txType.trans hw, he.trans hs.txversion.symm⟩
  · rcases eq_or_ne k tx with rfl | hne
    · obtain rfl : t = u := by simpa [ht] using hu
      have hview : ((a.step (.begin k txtype)).session k).view r = a.committed r := by
        simp [Snapshots.step]
      rw [hview, ← h.committed, hver, Manager.beginVersion]
      split
      · next hty =>
          -- nobody writes, so the newest version is found at any later version
          have hle := h.le_last (hno hty)
          rw [Chain.lookup_eq_newest hle,
            Chain.lookup_eq_newest fun u hu => (hle u hu).trans hid.le]
      · rfl
    · have hk' : k ∈ a.running := by simpa [Snapshots.step, hne] using hk
      obtain ⟨u₀, hu₀, hs⟩ := hold k hk' u hu
      rw [hs.txversion, h.view k hk' u₀ hu₀]
      simp [Snapshots.step, Function.update_of_ne hne]

/-- A transaction commits: if it is a writer, its view becomes the committed
contents. -/
lemma commit (h : ChainInv m a r c) (hm : MgrInv m a.running) {tx : ℕ} {t : Tx}
    (htx : tx ∈ a.running) (ht : m.txs tx = some t) (hty : t.txType = (a.session tx).txType)
    (hlast : m'.lastWriteCommittedId = m.committedBy t)
    (hlive : ∀ k ∈ a.running.erase tx, m'.txs k ≠ none)
    (hold : ∀ k ∈ a.running.erase tx, ∀ u', m'.txs k = some u' →
      ∃ u, m.txs k = some u ∧ Tx.Same u u') :
    ChainInv m' (a.step (.commit tx)) r c := by
  obtain ⟨t', ht', hinv⟩ := hm.tx tx htx
  obtain rfl : t = t' := by simpa [ht] using ht'
  have hsub : ∀ k ∈ a.running.erase tx, k ∈ a.running := fun k hk => List.mem_of_mem_erase hk
  have hview : ∀ k ∈ a.running.erase tx, ∀ u', m'.txs k = some u' →
      c.lookup u'.txversion = ((a.step (.commit tx)).session k).view r := by
    intro k hk u' hu'
    obtain ⟨u, hu, hs⟩ := hold k hk u' hu'
    rw [hs.txversion, h.view k (hsub k hk) u hu]
    rfl
  cases hw : t.txType with
  | readOnly =>
      have hl : m'.lastWriteCommittedId = m.lastWriteCommittedId := by
        rw [hlast, Manager.committedBy, if_neg (by simp [hw])]
      refine ⟨h.decreasing, hl ▸ h.root_le, fun u hu => ?_, ?_, hview⟩
      · rw [hl]
        refine (h.version u hu).imp_right ?_
        rintro ⟨w, hwr, u', hu', hw', he⟩
        have hne : w ≠ tx := by
          rintro rfl
          obtain rfl : t = u' := by simpa [ht] using hu'
          simp [hw] at hw'
        have hmem : w ∈ a.running.erase tx := (List.mem_erase_of_ne hne).mpr hwr
        obtain ⟨t', ht'⟩ := Option.ne_none_iff_exists'.mp (hlive w hmem)
        obtain ⟨t₀, ht₀, hs⟩ := hold w hmem t' ht'
        obtain rfl : u' = t₀ := by simpa [hu'] using ht₀
        exact ⟨w, hmem, t', ht', hs.txType.trans hw', he.trans hs.txversion.symm⟩
      · rw [hl, h.committed]
        simp [Snapshots.step, ← hty, hw]
  | readWrite =>
      obtain ⟨hid, hlt, -, -⟩ := hinv.writer hw
      have hl : m'.lastWriteCommittedId = t.txversion := by
        rw [hlast, Manager.committedBy, if_pos hw, hid]
      rw [← hid] at hlt
      refine ⟨h.decreasing, ?_, fun u hu => Or.inl ?_, ?_, hview⟩
      · rw [hl]
        exact h.root_le.trans hlt.le
      · rw [hl]
        exact ((h.wf hm htx ht hw).version_le u hu).elim (fun hle => hle.trans hlt.le)
          fun he => he.le
      · rw [hl, h.view tx htx t ht]
        simp [Snapshots.step, ← hty, hw]

/-- The collector runs with the cut-off that the manager gives it. -/
lemma collect (h : ChainInv m a r c) (hm : MgrInv m a.running) {orv : ℕ}
    (horv : m.oldestRunningVersion = some orv)
    (hcommitted : c.versions ≠ [] → ∀ f ∈ m.first, ∀ t ∈ m.txs f, t.txType = .readWrite →
      c.newest.1 ≠ t.txversion) : ChainInv m a r (c.gc orv) := by
  obtain ⟨orv', horv', hcases⟩ := hm.oldest
  obtain rfl : orv = orv' := by simpa [horv] using horv'
  -- nothing changes at the versions of interest
  have hlook : (∀ tx ∈ a.running, ∀ t, m.txs tx = some t →
        (c.gc orv).lookup t.txversion = c.lookup t.txversion)
      ∧ (c.gc orv).lookup m.lastWriteCommittedId = c.lookup m.lastWriteCommittedId
      ∧ (c.gc orv).root.1 ≤ m.lastWriteCommittedId := by
    rcases hcases with ⟨hle, hlast⟩ | ⟨w, t, hf, hwr, ht, hw, horv, hge⟩
    · refine ⟨fun tx htx t ht => Chain.lookup_gc c (hle tx htx t ht), Chain.lookup_gc c hlast, ?_⟩
      rcases Chain.root_gc c orv with hr | ⟨-, hr, -⟩
      · rw [hr]
        exact h.root_le
      · exact hr.trans hlast
    · -- the oldest transaction writes, but has no version of this reference yet
      have hwf := h.wf hm hwr ht hw
      have hne : c.newest.1 ≠ t.txversion := by
        cases hv : c.versions with
        | nil =>
            obtain ⟨t', ht', hinv⟩ := hm.tx w hwr
            obtain rfl : t = t' := by simpa [ht] using ht'
            have h₁ := hinv.writer hw
            have h₂ := h.root_le
            rw [Chain.newest, hv, List.head?_nil, Option.getD_none]
            omega
        | cons u us => exact hcommitted (by simp [hv]) w hf t ht hw
      have hall := hwf.le_last hne
      have hgcall : ∀ u ∈ (c.gc orv).versions, u.1 ≤ m.lastWriteCommittedId := fun u hu =>
        hall u ((Chain.versions_gc_sublist c orv).subset hu)
      have heq : ∀ v, m.lastWriteCommittedId ≤ v → (c.gc orv).lookup v = c.lookup v := by
        intro v hv
        rw [Chain.lookup_eq_newest fun u hu => (hgcall u hu).trans hv,
          Chain.lookup_eq_newest fun u hu => (hall u hu).trans hv, Chain.newest_gc]
      exact ⟨fun tx htx t' ht' => heq _ (hge tx htx t' ht'), heq _ le_rfl,
        (hwf.gc (Or.inr hne)).root_le⟩
  refine ⟨h.decreasing.sublist (Chain.versions_gc_sublist c orv), hlook.2.2, fun u hu => ?_, ?_,
    fun tx htx t ht => ?_⟩
  · exact h.version u ((Chain.versions_gc_sublist c orv).subset hu)
  · rw [hlook.2.1, h.committed]
  · rw [hlook.1 tx htx t ht, h.view tx htx t ht]

/-- If the root of a chain may go, nobody sees anything through it. -/
lemma absent (h : ChainInv m a r c) (hv : c.versions = []) (hd : c.root.2 = none) :
    a.committed r = none ∧ ∀ tx ∈ a.running, ∀ t, m.txs tx = some t →
      (a.session tx).view r = none := by
  have hlook : ∀ v, c.lookup v = none := by
    intro v
    rw [Chain.lookup, hv]
    exact hd
  exact ⟨by rw [← h.committed, hlook], fun tx htx t ht => by rw [← h.view tx htx t ht, hlook]⟩

end ChainInv

/-! ### The simulation relation -/

/-- The state `s` stands for `a`: its memory belongs to `own`, its garbage lists are
`garbage`, and the roots of the references `released` are gone. -/
structure Sim (s : State α) (a : Snapshots α) (released : ℕ → Bool) (own : ℕ ⊕ ℕ → List (Ver α))
    (garbage : ℕ → List (ℕ × ℕ)) : Prop where
  heap : HeapHeld s own garbage
  listed : Listed own garbage
  mgr : MgrInv s.manager a.running
  txType : ∀ tx ∈ a.running, ∀ t, s.manager.txs tx = some t → t.txType = (a.session tx).txType
  allocated : ∀ r, a.allocated r = true ↔ s.refs r ≠ none
  live : ∀ r, own (.inl r) = [] ↔ a.allocated r = false ∨ released r = true
  released : ∀ r, released r = true → a.allocated r = true
  absent : ∀ r, own (.inl r) = [] → a.committed r = none ∧ ∀ tx ∈ a.running, (a.session tx).view r = none
  chain : ∀ r root vs, own (.inl r) = root :: vs → ChainInv s.manager a r (chainOf root vs)

lemma sim_init : Sim (State.init : State α) Snapshots.init (fun _ => false) (fun _ => [])
    fun _ => [] where
  heap := heapHeld_init
  listed := listed_init
  mgr := mgrInv_init
  txType := by simp [Snapshots.init]
  allocated := by simp [Snapshots.init, State.init]
  live := by simp [Snapshots.init]
  released := by simp
  absent := by simp [Snapshots.init]
  chain := by simp

namespace Sim

variable {s : State α} {a : Snapshots α} {released : ℕ → Bool} {own own' : ℕ ⊕ ℕ → List (Ver α)}
  {garbage : ℕ → List (ℕ × ℕ)} {tx c r : ℕ}

/-- A running transaction has an object of its type. -/
lemma object (h : Sim s a released own garbage) (htx : tx ∈ a.running) :
    ∃ t, s.manager.txs tx = some t ∧ TxInv s.manager t ∧ t.txType = (a.session tx).txType := by
  obtain ⟨t, ht, hinv⟩ := h.mgr.tx tx htx
  exact ⟨t, ht, hinv, h.txType tx htx t ht⟩

/-- A reference in use has a chain, unless its root is gone. -/
lemma chain_of_live (h : Sim s a released own garbage) (hr : a.allocated r = true)
    (hlive : released r = false) :
    ∃ root vs, own (.inl r) = root :: vs ∧ s.refs r = some root.addr := by
  cases ho : own (.inl r) with
  | nil =>
      have := (h.live r).mp ho
      simp [hr, hlive] at this
  | cons root vs => exact ⟨root, vs, rfl, h.heap.root r root vs ho⟩

/-- What a transaction sees through a reference without a chain. -/
lemma live_of_view (h : Sim s a released own garbage) (htx : tx ∈ a.running)
    (hv : (a.session tx).view r ≠ none) : a.allocated r = true ∧ released r = false := by
  have hne : own (.inl r) ≠ [] := fun ho => hv ((h.absent r ho).2 tx htx)
  rw [Ne, h.live r, not_or] at hne
  simpa using hne

/-! ### Beginning and committing -/

/-- **A begin.** -/
theorem begin (h : Sim s a released own garbage) {txtype : TxType}
    (hl : a.Legal (.begin tx txtype)) :
    ∃ s', Tx.step s (.begin tx txtype) = some (s', .unit)
      ∧ Sim s' (a.step (.begin tx txtype)) released own garbage := by
  obtain ⟨htx, hwl⟩ := hl
  have hno : txtype = .readWrite → ∀ w ∈ a.running, ∀ u, s.manager.txs w = some u →
      u.txType = .readOnly := fun hty w hw u hu => (h.txType w hw u hu).trans (hwl hty w hw)
  have hlock : txtype = .readWrite → s.manager.writeRunning = false := by
    intro hty
    rw [Bool.eq_false_iff, Ne, h.mgr.lock]
    rintro ⟨w, hw, u, hu, hrw⟩
    simp [hno hty w hw u hu] at hrw
  obtain ⟨m', t, hbegin, hmgr, hlast, ht, hty, -, hver, hold⟩ := h.mgr.begin_spec htx hlock
  have hlive : ∀ k ∈ a.running, m'.txs k ≠ none := by
    intro k hk
    obtain ⟨u, hu, -⟩ := hmgr.tx k (List.mem_append_left _ hk)
    simp [hu]
  refine ⟨{ s with manager := m' }, by simp [Tx.step, hbegin], ⟨h.heap.mem, h.heap.root,
    h.heap.retired, h.heap.ctx⟩, h.listed, hmgr, fun k hk u hu => ?_, h.allocated, h.live,
    h.released, fun r ho => ⟨(h.absent r ho).1, fun k hk => ?_⟩, fun r root vs ho => ?_⟩
  · rcases eq_or_ne k tx with rfl | hne
    · obtain rfl : t = u := by simpa [ht] using hu
      simp [Snapshots.step, hty]
    · have hk' : k ∈ a.running := by simpa [Snapshots.step, hne] using hk
      obtain ⟨u₀, hu₀, hs⟩ := hold k hk' u hu
      rw [hs.txType, h.txType k hk' u₀ hu₀]
      simp [Snapshots.step, Function.update_of_ne hne]
  · rcases eq_or_ne k tx with rfl | hne
    · simpa [Snapshots.step] using (h.absent r ho).1
    · have hk' : k ∈ a.running := by simpa [Snapshots.step, hne] using hk
      simpa [Snapshots.step, Function.update_of_ne hne] using (h.absent r ho).2 k hk'
  · exact (h.chain r root vs ho).begin htx hlast ht hver h.mgr.last_lt hno hlive hold

/-- **A commit.** -/
theorem commit (h : Sim s a released own garbage) (hl : a.Legal (.commit tx)) :
    ∃ s', Tx.step s (.commit tx) = some (s', .unit)
      ∧ Sim s' (a.step (.commit tx)) released own garbage := by
  obtain ⟨t, ht, -, hty⟩ := h.object hl
  obtain ⟨m', hcommit, hmgr, hlast, hold⟩ := h.mgr.commit_spec hl ht
  have hlive : ∀ k ∈ a.running.erase tx, m'.txs k ≠ none := by
    intro k hk
    obtain ⟨u, hu, -⟩ := hmgr.tx k hk
    simp [hu]
  refine ⟨{ s with manager := m' }, by simp [Tx.step, hcommit], ⟨h.heap.mem, h.heap.root,
    h.heap.retired, h.heap.ctx⟩, h.listed, hmgr, fun k hk u hu => ?_, h.allocated, h.live,
    h.released, fun r ho => ⟨?_, fun k hk => ?_⟩, fun r root vs ho => ?_⟩
  · obtain ⟨u₀, hu₀, hs⟩ := hold k hk u hu
    exact hs.txType.trans (h.txType k (List.mem_of_mem_erase hk) u₀ hu₀)
  · simp only [Snapshots.step]
    split
    · exact (h.absent r ho).2 tx hl
    · exact (h.absent r ho).1
  · exact (h.absent r ho).2 k (List.mem_of_mem_erase hk)
  · exact (h.chain r root vs ho).commit h.mgr hl ht hty hlast hlive hold

/-! ### Allocation -/

/-- **An allocation.** -/
theorem alloc (h : Sim s a released own garbage) {x : α} (hl : a.Legal (.alloc tx r x)) :
    ∃ s' own', Tx.step s (.alloc tx r x) = some (s', .unit)
      ∧ Sim s' (a.step (.alloc tx r x)) released own' garbage := by
  obtain ⟨⟨htx, hw⟩, hr⟩ := hl
  obtain ⟨t, ht, hinv, hty⟩ := h.object htx
  rw [hw] at hty
  have ho : own (.inl r) = [] := (h.live r).mpr (Or.inl hr)
  have hnr : released r = false := by
    rw [Bool.eq_false_iff]
    intro hc
    simp [h.released r hc] at hr
  obtain ⟨hid, hlast, -, -⟩ := hinv.writer hty
  rw [← hid] at hlast
  obtain ⟨p, root, v, halloc, hheld, hnd, hroot, hv, hf⟩ := alloc_spec s.pool t x
  have hother : ∀ q, q ≠ r →
      Function.update own (.inl r) [root, v] (.inl q) = own (.inl q) := fun q hq =>
    Function.update_of_ne (by simpa using hq) _ _
  refine ⟨_, Function.update own (.inl r) [root, v], by simp [Tx.step, ht, halloc],
    h.heap.alloc ho hheld hnd hf, ⟨fun c e b hmem => ?_, h.listed.once⟩, h.mgr,
    fun k hk u hu => ?_, fun q => ?_, fun q => ?_, fun q hq => ?_, fun q hq => ?_,
    fun q root' vs' hq => ?_⟩
  · rcases h.listed.block c e b hmem with ⟨y, hy⟩ | ⟨q, root', vs', hq, hrest⟩
    · exact Or.inl ⟨y, by rw [Function.update_of_ne (by simp), hy]⟩
    · have hqr : q ≠ r := by
        rintro rfl
        simp [ho] at hq
      exact Or.inr ⟨q, root', vs', (hother q hqr).trans hq, hrest⟩
  · rw [h.txType k hk u hu]
    rcases eq_or_ne k tx with rfl | hne
    · simp [Snapshots.step, Snapshots.setView]
    · simp [Snapshots.step, Snapshots.setView, Function.update_of_ne hne]
  · rcases eq_or_ne q r with rfl | hqr
    · simp [Snapshots.step]
    · simpa [Snapshots.step, Function.update_of_ne hqr, Snapshots.setView] using h.allocated q
  · rcases eq_or_ne q r with rfl | hqr
    · simp [Snapshots.step, hnr]
    · rw [hother q hqr, h.live q]
      simp [Snapshots.step, Function.update_of_ne hqr, Snapshots.setView]
  · rcases eq_or_ne q r with rfl | hqr
    · simp [Snapshots.step]
    · simpa [Snapshots.step, Function.update_of_ne hqr, Snapshots.setView] using h.released q hq
  · have hqr : q ≠ r := by
      rintro rfl
      simp at hq
    rw [hother q hqr] at hq
    refine ⟨(h.absent q hq).1, fun k hk => ?_⟩
    rcases eq_or_ne k tx with rfl | hne
    · simpa [Snapshots.step, Snapshots.setView, Function.update_of_ne hqr]
        using (h.absent q hq).2 k hk
    · simpa [Snapshots.step, Snapshots.setView, Function.update_of_ne hne]
        using (h.absent q hq).2 k hk
  · rcases eq_or_ne q r with rfl | hqr
    · obtain ⟨rfl, rfl⟩ : root = root' ∧ [v] = vs' := by simpa using hq
      have hchain : chainOf root [v] = (⟨(0, none), []⟩ : Chain α).push t.txversion (some x) := by
        simp [chainOf, hroot, hv, Chain.push]
      -- before, there is a chain that shows nothing
      have hbase : ChainInv s.manager a q ⟨(0, none), []⟩ := by
        refine ⟨List.Pairwise.nil, Nat.zero_le _, by simp, ?_, fun k hk u _ => ?_⟩
        · exact (h.absent q ho).1.symm
        · exact ((h.absent q ho).2 k hk).symm
      have hwf := hbase.wf h.mgr htx ht hty
      have hnew := hbase.of_writer h.mgr htx ht hty
        (hwf.push ((Nat.zero_le _).trans_lt hlast) (some x))
        (fun v _ hv => Chain.lookup_push_of_lt _ hv _) (Chain.lookup_push_of_le _ le_rfl _)
      rw [hchain]
      exact ⟨hnew.decreasing, hnew.root_le, hnew.version, hnew.committed, hnew.view⟩
    · rw [hother q hqr] at hq
      have := (h.chain q root' vs' hq).setView_of_ne hqr tx (some x)
      exact ⟨this.decreasing, this.root_le, this.version, this.committed, this.view⟩

/-! ### Accesses -/

/-- **An operation of the writer on one reference** that leaves the chain of `root'`
and `vs'` and shows `x` to the writer. -/
lemma op (h : Sim s a released own garbage) {t : Tx} (htx : tx ∈ a.running)
    (ht : s.manager.txs tx = some t) (hw : t.txType = .readWrite) {root root' : Ver α}
    {vs vs' : List (Ver α)} (ho : own (.inl r) = root :: vs) {p : Txpool α} {ctx ctx' : Ctx}
    {ret : List (Ver α)} {new l : List (ℕ × ℕ)}
    (hop : OpResult s.pool (garbage c) root vs p ctx (root' :: vs') ret new)
    (haddr : root'.addr = root.addr) (hctx : CtxHeld ctx' l)
    (hlisted : ∀ own', Moved own own' r (root' :: vs') ret →
      Listed own' (Function.update garbage c l))
    (hwf : (chainOf root' vs').Wf s.manager.lastWriteCommittedId t.txversion)
    (hold : ∀ v, t.ortxversion ≤ v → v < t.txversion →
      (chainOf root' vs').lookup v = (chainOf root vs).lookup v)
    {x : Option α} (hnew : (chainOf root' vs').lookup t.txversion = x) :
    ∃ own', Sim (s.setPool p c ctx') (a.setView tx r x) released own'
      (Function.update garbage c l) := by
  obtain ⟨own', hheap, hm⟩ := h.heap.op (c := c) ho hop fun root'' vs'' hk => by
    obtain ⟨rfl, -⟩ := List.cons.inj hk
    exact haddr
  have hheap' := hheap.setPool (p := p) (c := c) hheap.mem hctx
    (fun q root' vs' hq => ⟨root', vs', hq, rfl⟩) hheap.retired
  have hnil : ∀ q, own' (.inl q) = [] ↔ own (.inl q) = [] := by
    intro q
    rcases eq_or_ne q r with rfl | hq
    · simp [hm.self, ho]
    · rw [hm.other q hq]
  refine ⟨own', by simpa [State.setPool] using hheap', hlisted own' hm, h.mgr,
    fun k hk u hu => ?_, h.allocated, fun q => (hnil q).trans (h.live q), h.released,
    fun q hq => ⟨(h.absent q ((hnil q).mp hq)).1, fun k hk => ?_⟩, fun q root'' vs'' hq => ?_⟩
  · rw [h.txType k hk u hu]
    rcases eq_or_ne k tx with rfl | hne
    · simp [Snapshots.setView]
    · simp [Snapshots.setView, Function.update_of_ne hne]
  · have hqr : q ≠ r := by
      rintro rfl
      simp [hm.self] at hq
    have := (h.absent q ((hnil q).mp hq)).2 k hk
    rcases eq_or_ne k tx with rfl | hne
    · simpa [Snapshots.setView, Function.update_of_ne hqr] using this
    · simpa [Snapshots.setView, Function.update_of_ne hne] using this
  · rcases eq_or_ne q r with rfl | hqr
    · obtain ⟨rfl, rfl⟩ : root' = root'' ∧ vs' = vs'' := by simpa [hm.self] using hq
      exact (h.chain q root vs ho).of_writer h.mgr htx ht hw hwf hold hnew
    · rw [hm.other q hqr] at hq
      exact (h.chain q root'' vs'' hq).setView_of_ne hqr tx x

/-- A writer's own view of a reference changes nothing. -/
lemma setView_self (a : Snapshots α) (tx r : ℕ) :
    a.setView tx r ((a.session tx).view r) = a := by
  simp [Snapshots.setView]

/-- **A read access.** -/
theorem read (h : Sim s a released own garbage) {write : Bool}
    (hl : a.Legal (.read tx c r write)) (hg : s.Guarded released (.read tx c r write)) :
    ∃ s' own' garbage', Tx.step s (.read tx c r write)
        = some (s', .contents ((a.session tx).view r))
      ∧ Sim s' a released own' garbage' := by
  obtain ⟨htx, hr⟩ := hl
  obtain ⟨hlive, hg⟩ := hg
  obtain ⟨t, ht, hinv, hty⟩ := h.object htx
  obtain ⟨root, vs, ho, href⟩ := h.chain_of_live hr hlive
  have hheld := h.heap.mem.held (.inl r)
  have hnd := h.heap.mem.nodup (.inl r)
  rw [ho] at hheld hnd
  have hchain := h.chain r root vs ho
  cases hw : t.txType with
  | readOnly =>
      obtain ⟨data, hptr, hlook, hdata⟩ := ptr_reader_spec (s.ctxs c) write hw hheld hnd
      have hs : s.setPool s.pool c (s.ctxs c) = s := by simp [State.setPool]
      have hload : s.load (data.map Prod.fst) = some ((a.session tx).view r) := by
        rw [← hchain.view tx htx t ht, ← hlook]
        cases data with
        | none => rfl
        | some dx => simp [State.load, hdata dx.1 dx.2 rfl]
      exact ⟨s, own, garbage, by simp [Tx.step, ht, href, hptr, hs, hload], h⟩
  | readWrite =>
      have hwf := hchain.wf h.mgr htx ht hw
      obtain ⟨hid, hlast, -, hor⟩ := hinv.writer hw
      rw [← hid] at hlast
      -- the collector runs safely and keeps the root
      obtain ⟨hsafe, hkeep, hpres⟩ : (chainOf root vs).GcSafe t.ortxversion
          ∧ ¬ (chainOf root vs).Collectable t.ortxversion
          ∧ (write = true → (chainOf root vs).newest.2 ≠ none) := by
        rcases hg t ht hw root.addr href with hp | ⟨hwf, hs, hk⟩
        · have hp' := (h.heap.present_iff ho).mp hp
          exact ⟨(Chain.gc_of_present hp' _).1, (Chain.gc_of_present hp' _).2, fun _ => hp'⟩
        · exact ⟨h.heap.gcSafe ho hs, (h.heap.keeps_iff ho).mp hk, by simp [hwf]⟩
      obtain ⟨p, ctx, root', vs', ret, new, hptr, hop, haddr, hchain'⟩ :=
        ptr_writer_spec write hw hheld hnd (h.heap.ctx c) hsafe hkeep
          (fun u hu => (hwf.version_le u hu).elim (fun hle => hle.trans hlast.le) fun he => he.le)
          fun hw _ => hpres hw
      have hwf' := hwf.gc (Or.inl hor)
      obtain ⟨hwf'', hlook, hnew⟩ : (chainOf root' vs').Wf s.manager.lastWriteCommittedId t.txversion
          ∧ (∀ v, t.ortxversion ≤ v → v ≤ t.txversion →
            (chainOf root' vs').lookup v = (chainOf root vs).lookup v)
          ∧ (chainOf root' vs').newest.2 = (chainOf root vs).newest.2 := by
        rw [hchain']
        split
        · refine ⟨hwf'.touch, fun v hv hle => ?_, ?_⟩
          · rw [← Chain.lookup_gc (chainOf root vs) hv]
            rcases hle.eq_or_lt with rfl | hlt
            · exact hwf'.lookup_touch hlast
            · exact Chain.Wf.lookup_touch_of_lt _ hlt
          · rw [Chain.newest, hwf'.head?_touch hlast, Chain.newest_gc]
            rfl
        · exact ⟨hwf', fun v hv _ => Chain.lookup_gc _ hv, by rw [Chain.newest_gc]⟩
      have hview : (chainOf root' vs').lookup t.txversion = (a.session tx).view r := by
        rw [hlook _ (hor.trans hlast.le) le_rfl, hchain.view tx htx t ht]
      obtain ⟨own', hsim⟩ := h.op htx ht hw ho hop haddr hop.ctx
        (fun own' hm => h.listed.op h.heap ho hop hm haddr fun hn => hnew.trans hn) hwf''
        (fun v hv hlt => hlook v hv hlt.le) hview
      rw [setView_self] at hsim
      refine ⟨_, own', _, ?_, hsim⟩
      have hload : (s.setPool p c ctx).load ((newestVer root' vs').data.map Prod.fst)
          = some ((a.session tx).view r) := by
        rw [← hview, hwf''.lookup_eq hlast, newest_chainOf]
        cases hd : (newestVer root' vs').data with
        | none => simp [State.load, hd]
        | some dx => simp [State.load, State.setPool, hop.held.newestData hd, hd]
      simp [Tx.step, ht, href, hptr, hload]

/-- **A write access.** -/
theorem write (h : Sim s a released own garbage) {f : α → α}
    (hl : a.Legal (.write tx c r f)) (hg : s.Guarded released (.write tx c r f)) :
    ∃ s' own' garbage', Tx.step s (.write tx c r f)
        = some (s', .contents ((a.session tx).view r))
      ∧ Sim s' (a.step (.write tx c r f)) released own' garbage' := by
  obtain ⟨⟨htx, hw⟩, hr⟩ := hl
  obtain ⟨hlive, hg⟩ := hg
  obtain ⟨t, ht, hinv, hty⟩ := h.object htx
  rw [hw] at hty
  obtain ⟨root, vs, ho, href⟩ := h.chain_of_live hr hlive
  have hheld := h.heap.mem.held (.inl r)
  have hnd := h.heap.mem.nodup (.inl r)
  rw [ho] at hheld hnd
  have hchain := h.chain r root vs ho
  have hwf := hchain.wf h.mgr htx ht hty
  obtain ⟨hid, hlast, -, hor⟩ := hinv.writer hty
  rw [← hid] at hlast
  have hp := (h.heap.present_iff ho).mp (hg root.addr href)
  obtain ⟨hsafe, hkeep⟩ := Chain.gc_of_present hp t.ortxversion
  obtain ⟨p, ctx, root', vs', ret, new, hptr, hop, haddr, hchain'⟩ :=
    ptr_writer_spec true hty hheld hnd (h.heap.ctx c) hsafe hkeep
      (fun u hu => (hwf.version_le u hu).elim (fun hle => hle.trans hlast.le) fun he => he.le)
      fun _ _ => hp
  rw [if_pos rfl] at hchain'
  have hwf' := hwf.gc (Or.inl hor)
  have hhead := hwf'.head?_touch hlast
  rw [← hchain', Chain.newest_gc] at hhead
  -- the writer's own version is in front; its contents are those it sees
  obtain ⟨ad, ts, d, x, vs'', rfl, rfl, hx⟩ : ∃ ad ts d x vs'', vs' = ⟨ad, ts, some (d, x)⟩ :: vs''
      ∧ ts = t.txversion ∧ (chainOf root vs).newest.2 = some x := by
    obtain ⟨v, vs'', rfl⟩ : ∃ v vs'', vs' = v :: vs'' := by
      cases vs' with
      | nil => simp [chainOf] at hhead
      | cons v vs'' => exact ⟨v, vs'', rfl⟩
    obtain ⟨ad, ts, data⟩ := v
    have hv : (ts, data.map Prod.snd) = (t.txversion, (chainOf root vs).newest.2) := by
      simpa [chainOf, Ver.content] using hhead
    obtain ⟨rfl, hd⟩ := Prod.mk.inj hv
    cases data with
    | none => exact absurd hd.symm hp
    | some dx => exact ⟨ad, _, dx.1, dx.2, vs'', rfl, rfl, hd.symm⟩
  have hview : (a.session tx).view r = some x := by
    rw [← hchain.view tx htx t ht, hwf.lookup_eq hlast, hx]
  have hnd' := hop.nodup
  rw [cellsOf_append] at hnd'
  obtain ⟨dp, hput, hheld', hnd'', hframe⟩ :=
    store_spec hop.held (List.nodup_append.mp hnd').1 (f x)
  have hop' := hop.step hheld' hnd'' hframe
  have hover : chainOf root' (⟨ad, t.txversion, some (d, f x)⟩ :: vs'')
      = (chainOf root' (⟨ad, t.txversion, some (d, x)⟩ :: vs'')).overwrite (some (f x)) := rfl
  rw [hchain'] at hover
  have hhead' := hwf'.head?_touch hlast
  obtain ⟨own', hsim⟩ := h.op htx ht hty ho hop' haddr hop'.ctx
    (fun own' hm => h.listed.op h.heap ho hop' hm haddr fun hn => absurd hn hp)
    (by rw [hover]; exact hwf'.touch.overwrite _)
    (fun v hv hlt => by
      rw [hover, Chain.lookup_overwrite_of_lt hhead' hlt, Chain.Wf.lookup_touch_of_lt _ hlt,
        Chain.lookup_gc _ hv])
    (x := some (f x)) (by rw [hover, Chain.lookup_overwrite_of_le hhead' le_rfl])
  have hstep : a.step (.write tx c r f) = a.setView tx r (some (f x)) := by
    simp [Snapshots.step, hview]
  rw [hstep, hview]
  refine ⟨_, own', _, ?_, hsim⟩
  have hd := hop.held.2.2.data rfl
  simp [Tx.step, ht, href, hptr, newestVer, hd, hput]

/-- **A free.** -/
theorem free (h : Sim s a released own garbage) (hl : a.Legal (.free tx c r))
    (hg : s.Guarded released (.free tx c r)) :
    ∃ s' own' garbage', Tx.step s (.free tx c r) = some (s', .unit)
      ∧ Sim s' (a.step (.free tx c r)) released own' garbage' := by
  obtain ⟨⟨htx, hw⟩, hr, hsome⟩ := hl
  obtain ⟨t, ht, hinv, hty⟩ := h.object htx
  rw [hw] at hty
  have hlive := (h.live_of_view htx (Option.isSome_iff_ne_none.mp hsome)).2
  obtain ⟨root, vs, ho, href⟩ := h.chain_of_live hr hlive
  have hheld := h.heap.mem.held (.inl r)
  have hnd := h.heap.mem.nodup (.inl r)
  rw [ho] at hheld hnd
  have hchain := h.chain r root vs ho
  have hwf := hchain.wf h.mgr htx ht hty
  obtain ⟨hid, hlast, -, hor⟩ := hinv.writer hty
  rw [← hid] at hlast
  have hp : (chainOf root vs).newest.2 ≠ none := by
    rw [← hwf.lookup_eq hlast, hchain.view tx htx t ht]
    exact Option.isSome_iff_ne_none.mp hsome
  have hnew : (chainOf root vs).newest.1 ≤ t.ortxversion
      ∨ (chainOf root vs).newest.1 = t.txversion := by
    have := hg t ht root.addr href _ (h.heap.newest ho)
    rwa [newest_chainOf]
  obtain ⟨p, ctx, ctx', root', vs', ret, new, e, hfree, hop, hctx', haddr, hchain'⟩ :=
    free_spec hheld hnd (h.heap.ctx c) hp
  have hwf' := hwf.gc (Or.inl hor)
  have hnew' := hnew
  rw [← Chain.newest_gc _ t.ortxversion] at hnew'
  have hlook : (chainOf root' vs').lookup t.txversion = none := by
    rw [hchain']
    exact hwf'.lookup_free hlast
  have hwf'' : (chainOf root' vs').Wf s.manager.lastWriteCommittedId t.txversion := by
    rw [hchain']
    exact hwf'.free fun hle => hle.trans_lt (hor.trans_lt hlast)
  have hnone : (chainOf root' vs').newest.2 = none := by rw [← hwf''.lookup_eq hlast, hlook]
  obtain ⟨own', hsim⟩ := h.op htx ht hty ho hop haddr hctx'
    (fun own' hm => h.listed.free h.heap ho hop hm haddr hp hnone e) hwf''
    (fun v hv hlt => by
      rw [hchain', hwf'.lookup_free_of_lt hlast hnew' hlt, Chain.lookup_gc _ hv]) hlook
  exact ⟨_, own', _, by simp [Tx.step, ht, href, hfree], hsim⟩

/-! ### Collection -/

/-- The root of a listed reference is that of a freed one. -/
lemma newest_of_listed (h : Sim s a released own garbage) {root : Ver α} {vs : List (Ver α)}
    (ho : own (.inl r) = root :: vs) (hmem : root.addr ∈ (garbage c).map Prod.snd) :
    (chainOf root vs).newest.2 = none := by
  obtain ⟨⟨e, b⟩, hin, rfl⟩ := List.mem_map.mp hmem
  by_contra hp
  exact h.listed.not_mem_root h.heap ho hp c e hin

/-- **A collection of a context.** -/
theorem gc (h : Sim s a released own garbage) {force : Bool} (hl : a.Legal (.gc c force))
    (hg : s.Guarded released (.gc c force)) :
    ∃ s' all own' garbage', Tx.step s (.gc c force) = some (s', .collected all)
      ∧ Sim s' a (fun r => released r || s.releases (.gc c force) r) own' garbage' := by
  obtain ⟨orv, horv, -⟩ := h.mgr.oldest
  have hguard : force = false → ∀ b ∈ (garbage c).map Prod.snd,
      s.FoldSafe orv b ∧ s.Committed b := by
    rintro rfl b hb
    rw [← (h.heap.ctx c).blocks] at hb
    exact hg orv horv b hb
  obtain ⟨p, ctx, all, own', l, hgc, hheap, hlisted, hcoll, -⟩ :=
    ctx_gc_spec h.heap h.listed c orv force fun hf b hb r root vs ho haddr =>
      h.heap.gcSafe ho (haddr ▸ (hguard hf b hb).1)
  -- a root that stays listed and is not released has been collected
  have hinv : ∀ r root vs, own (.inl r) = root :: vs → force = false →
      root.addr ∈ (garbage c).map Prod.snd → ChainInv s.manager a r ((chainOf root vs).gc orv) := by
    intro r root vs ho hf hmem
    refine (h.chain r root vs ho).collect h.mgr horv fun hne f hf' t ht hw => ?_
    have hheld := h.heap.mem.held (.inl r)
    rw [ho] at hheld
    have hnext : (root.block (startOf vs none)).nextVersion ≠ none := by
      cases vs with
      | nil => simp [chainOf] at hne
      | cons v vs => simp [Ver.block, startOf]
    have := (hguard hf _ hmem).2 _ hheld.block hnext f hf' t ht hw _ (h.heap.newest ho)
    rwa [newest_chainOf]
  have hgone : ∀ r root vs, own (.inl r) = root :: vs →
      (own' (.inl r) = [] ↔ s.releases (.gc c force) r = true) := by
    intro r root vs ho
    rw [h.heap.releases_iff horv ho]
    constructor
    · intro hnil
      by_cases hmem : root.addr ∈ (garbage c).map Prod.snd
      · refine ⟨hmem, ?_⟩
        by_contra hc
        obtain ⟨root', vs', ho', -⟩ := hcoll.kept r root vs ho hmem hc
        simp [ho'] at hnil
      · simp [hcoll.other r root vs ho hmem] at hnil
    · rintro ⟨hmem, hc⟩
      exact hcoll.gone r root vs ho hmem hc
  refine ⟨s.setPool p c ctx, all, own', _, by simp [Tx.step, horv, hgc], hheap, hlisted, h.mgr,
    h.txType, h.allocated, fun r => ?_, fun r hr => ?_, fun r hr => ?_, fun r root' vs' hr => ?_⟩
  · cases ho : own (.inl r) with
    | nil =>
        have hlive := (h.live r).mp ho
        simp only [hcoll.empty r ho, true_iff, Bool.or_eq_true]
        tauto
    | cons root vs =>
        have hlive : a.allocated r = true ∧ released r = false := by
          have hne : own (.inl r) ≠ [] := by simp [ho]
          rw [Ne, h.live r, not_or] at hne
          simpa using hne
        simp [hgone r root vs ho, hlive]
  · rw [Bool.or_eq_true] at hr
    refine hr.elim (h.released r) fun hrel => ?_
    rw [h.allocated]
    intro hnone
    simp [State.releases, hnone] at hrel
  · cases ho : own (.inl r) with
    | nil => exact h.absent r ho
    | cons root vs =>
        obtain ⟨hmem, hc⟩ := (h.heap.releases_iff horv ho).mp ((hgone r root vs ho).mp hr)
        cases hf : force with
        | true =>
            -- nothing runs, so everything is committed
            have hrun : a.running = [] := hl hf
            have hchain := h.chain r root vs ho
            refine ⟨?_, by simp [hrun]⟩
            rw [← hchain.committed, Chain.lookup_eq_newest (hchain.le_last (by simp [hrun]))]
            exact h.newest_of_listed ho hmem
        | false =>
            obtain ⟨hv, hd, -⟩ := hc.resolve_left (by simp [hf])
            obtain ⟨hcom, hview⟩ := (hinv r root vs ho hf hmem).absent hv hd
            refine ⟨hcom, fun tx htx => ?_⟩
            obtain ⟨t, ht, -⟩ := h.mgr.tx tx htx
            exact hview tx htx t ht
  · cases ho : own (.inl r) with
    | nil => simp [hcoll.empty r ho] at hr
    | cons root vs =>
        by_cases hmem : root.addr ∈ (garbage c).map Prod.snd
        · by_cases hc : force = true ∨ (chainOf root vs).Collectable orv
          · simp [hcoll.gone r root vs ho hmem hc] at hr
          · obtain ⟨root'', vs'', ho', -, hchain⟩ := hcoll.kept r root vs ho hmem hc
            obtain ⟨rfl, rfl⟩ : root'' = root' ∧ vs'' = vs' := by simpa [ho'] using hr
            rw [hchain]
            exact hinv r root vs ho (by simpa using (not_or.mp hc).1) hmem
        · have := hcoll.other r root vs ho hmem
          obtain ⟨rfl, rfl⟩ : root = root' ∧ vs = vs' := by simpa [this] using hr
          exact h.chain r root vs ho

/-! ### All calls -/

/-- **Every legal and guarded call succeeds, keeps the relation, and reports what the
machine of snapshots says.** -/
theorem step (h : Sim s a released own garbage) {st : Step α} (hl : a.Legal st)
    (hg : s.Guarded released st) :
    ∃ s' o own' garbage', Tx.step s st = some (s', o) ∧ o.answer = a.answer st
      ∧ Sim s' (a.step st) (fun r => released r || s.releases st r) own' garbage' := by
  cases st with
  | begin tx txtype =>
      obtain ⟨s', hs, hsim⟩ := h.begin hl
      exact ⟨s', .unit, own, garbage, hs, rfl, by simpa [State.releases] using hsim⟩
  | commit tx =>
      obtain ⟨s', hs, hsim⟩ := h.commit hl
      exact ⟨s', .unit, own, garbage, hs, rfl, by simpa [State.releases] using hsim⟩
  | alloc tx r x =>
      obtain ⟨s', own', hs, hsim⟩ := h.alloc hl
      exact ⟨s', .unit, own', garbage, hs, rfl, by simpa [State.releases] using hsim⟩
  | read tx c r write =>
      obtain ⟨s', own', garbage', hs, hsim⟩ := h.read hl hg
      exact ⟨s', _, own', garbage', hs, rfl, by simpa [State.releases, Snapshots.step] using hsim⟩
  | write tx c r f =>
      obtain ⟨s', own', garbage', hs, hsim⟩ := h.write hl hg
      exact ⟨s', _, own', garbage', hs, rfl, by simpa [State.releases] using hsim⟩
  | free tx c r =>
      obtain ⟨s', own', garbage', hs, hsim⟩ := h.free hl hg
      exact ⟨s', .unit, own', garbage', hs, rfl, by simpa [State.releases] using hsim⟩
  | gc c force =>
      obtain ⟨s', all, own', garbage', hs, hsim⟩ := h.gc hl hg
      exact ⟨s', .collected all, own', garbage', hs, rfl, hsim⟩

end Sim

end Tx

end Furious
