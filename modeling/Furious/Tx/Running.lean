import Furious.Tx.Manager

/-!
The running transactions of the manager.

* `Tx.Same`: two states of a transaction object that differ in its links;
* `MgrInv`: the invariant of the manager: its list holds the running transactions
  in the order in which they began, and their versions are ordered as the
  collector relies on;
* `MgrInv.oldest`: what the cut-off of a collection is;
* `MgrInv.begin_spec`, `MgrInv.commit_spec`: **both operations succeed and keep
  the invariant**;
* `MgrStep`, `manager_runs`: **the list, the last committed version and the cut-offs
  of writers along a run**.
-/

namespace Furious

/-- Two states of a transaction object with different links at most. -/
structure Tx.Same (t t' : Tx) : Prop where
  id : t'.id = t.id
  txversion : t'.txversion = t.txversion
  ortxversion : t'.ortxversion = t.ortxversion
  txType : t'.txType = t.txType

lemma Tx.Same.refl (t : Tx) : Tx.Same t t := ⟨rfl, rfl, rfl, rfl⟩

/-- What holds of a running transaction by itself. -/
structure TxInv (m : Manager) (t : Tx) : Prop where
  reader : t.txType = .readOnly → t.txversion ≤ m.lastWriteCommittedId
  writer : t.txType = .readWrite → t.txversion = t.id ∧ m.lastWriteCommittedId < t.id
    ∧ t.id < m.nextId ∧ t.ortxversion ≤ m.lastWriteCommittedId

/-- What holds of two running transactions, the first of which began earlier: the
versions of readers are ordered, and a reader that began under a writer reads at
the last committed version. -/
def Ordered (last : ℕ) (t t' : Tx) : Prop :=
  t'.txType = .readOnly → (t.txType = .readOnly → t.txversion ≤ t'.txversion)
    ∧ (t.txType = .readWrite → t'.txversion = last)

/-- **The invariant of the manager.** -/
structure MgrInv (m : Manager) (running : List ℕ) : Prop where
  nodup : running.Nodup
  linked : DLinked m.links running
  first : m.first = running.head?
  last : m.last = running.getLast?
  tx : ∀ h ∈ running, ∃ t, m.txs h = some t ∧ TxInv m t
  lock : m.writeRunning = true ↔ ∃ h ∈ running, ∃ t, m.txs h = some t ∧ t.txType = .readWrite
  one : ∀ h ∈ running, ∀ h' ∈ running, ∀ t t', m.txs h = some t → m.txs h' = some t' →
    t.txType = .readWrite → t'.txType = .readWrite → h = h'
  last_lt : m.lastWriteCommittedId < m.nextId
  ordered : running.Pairwise fun h h' => ∀ t t', m.txs h = some t → m.txs h' = some t' →
    Ordered m.lastWriteCommittedId t t'
  cut : ∀ h ∈ running, ∀ h' ∈ running, ∀ t t', m.txs h = some t → m.txs h' = some t' →
    t.txType = .readWrite → t'.txType = .readOnly → t.ortxversion ≤ t'.txversion

lemma mgrInv_init : MgrInv Manager.init [] where
  nodup := List.nodup_nil
  linked := DLinked.nil _
  first := rfl
  last := rfl
  tx := by simp
  lock := by simp [Manager.init]
  one := by simp
  last_lt := by simp [Manager.init]
  ordered := List.Pairwise.nil
  cut := by simp

namespace MgrInv

variable {m : Manager} {running : List ℕ}

/-- The cut-off of a collection is at most the version of every running
transaction, unless the oldest one is a writer; then every reader reads at the
last committed version. -/
theorem oldest (h : MgrInv m running) : ∃ orv, m.oldestRunningVersion = some orv
    ∧ ((∀ tx ∈ running, ∀ t, m.txs tx = some t → orv ≤ t.txversion)
        ∧ orv ≤ m.lastWriteCommittedId
      ∨ ∃ w t, m.first = some w ∧ w ∈ running ∧ m.txs w = some t ∧ t.txType = .readWrite
        ∧ orv = t.txversion ∧ ∀ tx ∈ running, ∀ t', m.txs tx = some t' →
          m.lastWriteCommittedId ≤ t'.txversion) := by
  rw [Manager.oldestRunningVersion, h.first]
  cases hr : running with
  | nil => exact ⟨_, rfl, Or.inl ⟨by simp, le_rfl⟩⟩
  | cons f rest =>
      obtain ⟨t, ht, hinv⟩ := h.tx f (by simp [hr])
      have hord := h.ordered
      rw [hr, List.pairwise_cons] at hord
      refine ⟨t.txversion, by simp [ht], ?_⟩
      cases hty : t.txType with
      | readOnly =>
          refine Or.inl ⟨fun tx htx t' ht' => ?_, hinv.reader hty⟩
          rcases List.mem_cons.mp htx with rfl | hmem
          · obtain rfl : t = t' := by simpa [ht] using ht'
            exact le_rfl
          · cases hty' : t'.txType with
            | readOnly => exact (hord.1 tx hmem t t' ht ht' hty').1 hty
            | readWrite =>
                obtain ⟨t'', ht'', hinv'⟩ := h.tx tx (by rw [hr]; exact htx)
                obtain rfl : t' = t'' := by simpa [ht'] using ht''
                have h₁ := hinv'.writer hty'
                have h₂ := hinv.reader hty
                omega
      | readWrite =>
          refine Or.inr ⟨f, t, rfl, by simp, ht, hty, rfl, fun tx htx t' ht' => ?_⟩
          rcases List.mem_cons.mp htx with rfl | hmem
          · obtain rfl : t = t' := by simpa [ht] using ht'
            have h₁ := hinv.writer hty
            omega
          · cases hty' : t'.txType with
            | readOnly => exact ((hord.1 tx hmem t t' ht ht' hty').2 hty).ge
            | readWrite =>
                obtain ⟨t'', ht'', hinv'⟩ := h.tx tx (by rw [hr]; exact htx)
                obtain rfl : t' = t'' := by simpa [ht'] using ht''
                have h₁ := hinv'.writer hty'
                omega

end MgrInv

/-! ### The assignments of links -/

/-- What an assignment of `p_next` changes. -/
lemma Manager.setNext_eq {m : Manager} {tx : Option ℕ} (h : ∀ k, tx = some k → m.txs k ≠ none)
    (next : Option ℕ) : m.setNext tx next = some { m with
      txs := fun k => (m.txs k).map fun t => if tx = some k then { t with next := next } else t } := by
  cases tx with
  | none => simp [Manager.setNext]
  | some k =>
      obtain ⟨t, ht⟩ := Option.ne_none_iff_exists'.mp (h k rfl)
      simp only [Manager.setNext, ht, Option.bind_eq_bind, Option.bind_some]
      congr 2
      funext j
      rcases eq_or_ne k j with rfl | hj
      · simp [ht]
      · simp [Function.update_of_ne hj.symm, hj]

/-- What an assignment of `p_prev` changes. -/
lemma Manager.setPrev_eq {m : Manager} {tx : Option ℕ} (h : ∀ k, tx = some k → m.txs k ≠ none)
    (prev : Option ℕ) : m.setPrev tx prev = some { m with
      txs := fun k => (m.txs k).map fun t => if tx = some k then { t with prev := prev } else t } := by
  cases tx with
  | none => simp [Manager.setPrev]
  | some k =>
      obtain ⟨t, ht⟩ := Option.ne_none_iff_exists'.mp (h k rfl)
      simp only [Manager.setPrev, ht, Option.bind_eq_bind, Option.bind_some]
      congr 2
      funext j
      rcases eq_or_ne k j with rfl | hj
      · simp [ht]
      · simp [Function.update_of_ne hj.symm, hj]

/-! ### Beginning -/

/-- The version at which a transaction that begins now reads. -/
def Manager.beginVersion (m : Manager) (txtype : TxType) : ℕ :=
  if txtype = .readWrite then m.nextId else m.lastWriteCommittedId

/-- The objects after a begin: a new one, linked behind the last of the list. -/
def Manager.begunTxs (m : Manager) (running : List ℕ) (tx : ℕ) (txtype : TxType) (orv k : ℕ) :
    Option Tx :=
  if k = tx then some ⟨m.nextId, m.beginVersion txtype, orv, txtype, none, running.getLast?⟩
  else (m.txs k).map fun t =>
    if running.getLast? = some k then { t with next := some tx } else t

/-- What a begin does. -/
lemma MgrInv.begin_eq {m : Manager} {running : List ℕ} (h : MgrInv m running) {tx : ℕ}
    (htx : tx ∉ running) {txtype : TxType} (hw : txtype = .readWrite → m.writeRunning = false)
    {orv : ℕ} (horv : m.oldestRunningVersion = some orv) :
    m.begin tx txtype = some {
      txs := m.begunTxs running tx txtype orv
      first := (running ++ [tx]).head?
      last := some tx
      nextId := m.nextId + 1
      lastWriteCommittedId := m.lastWriteCommittedId
      writeRunning := m.writeRunning || decide (txtype = .readWrite) } := by
  have hno : ¬ (txtype = .readWrite ∧ m.writeRunning = true) := fun hc => by simp [hw hc.1] at hc
  rw [Manager.begin, if_neg hno]
  rw [Manager.oldestRunningVersion, h.first] at horv
  cases hr : running with
  | nil =>
      obtain rfl : m.lastWriteCommittedId = orv := by simpa [hr] using horv
      simp only [h.first, hr, List.head?_nil, List.nil_append, List.head?_cons]
      congr 2
      funext k
      rcases eq_or_ne k tx with rfl | hk
      · simp [Manager.begunTxs, Manager.beginVersion]
      · simp [Manager.begunTxs, hk]
  | cons f rest =>
      obtain ⟨t, ht, -⟩ := h.tx f (by simp [hr])
      obtain rfl : t.txversion = orv := by simpa [hr, ht] using horv
      obtain ⟨last, hlast⟩ : ∃ last, (f :: rest).getLast? = some last :=
        ⟨_, List.getLast?_eq_some_getLast (by simp)⟩
      have hmem : last ∈ running := by
        rw [hr]
        exact List.mem_of_getLast? hlast
      obtain ⟨u, hu, -⟩ := h.tx last hmem
      have hne : last ≠ tx := fun e => htx (e ▸ hmem)
      simp only [h.first, h.last, hr, List.head?_cons, ht, hlast, Option.bind_eq_bind,
        Option.bind_some, List.cons_append]
      rw [Manager.setNext_eq (by
        intro k hk
        obtain rfl : last = k := by simpa using hk
        simp [Function.update_of_ne hne, hu])]
      simp only [Option.bind_some]
      congr 2
      funext k
      rcases eq_or_ne k tx with rfl | hk
      · simp [Manager.begunTxs, Manager.beginVersion, hne, hlast]
      · simp [Manager.begunTxs, hk, hlast]

/-- The new object. -/
@[simp] lemma Manager.begunTxs_self (m : Manager) (running : List ℕ) (tx : ℕ) (txtype : TxType)
    (orv : ℕ) : m.begunTxs running tx txtype orv tx
      = some ⟨m.nextId, m.beginVersion txtype, orv, txtype, none, running.getLast?⟩ :=
  if_pos rfl

/-- The other objects keep everything but a link. -/
lemma Manager.begunTxs_of_ne {m : Manager} {running : List ℕ} {tx : ℕ} {txtype : TxType}
    {orv k : ℕ} (hk : k ≠ tx) {t' : Tx} (h : m.begunTxs running tx txtype orv k = some t') :
    ∃ t, m.txs k = some t ∧ Tx.Same t t' := by
  rw [Manager.begunTxs, if_neg hk] at h
  obtain ⟨t, ht, rfl⟩ := Option.map_eq_some_iff.mp h
  refine ⟨t, ht, ?_⟩
  split
  · exact ⟨rfl, rfl, rfl, rfl⟩
  · exact Tx.Same.refl t

/-- What holds of a transaction does not depend on its links. -/
lemma TxInv.congr {m m' : Manager} {t t' : Tx} (h : TxInv m t) (hs : Tx.Same t t')
    (hlast : m'.lastWriteCommittedId = m.lastWriteCommittedId) (hid : m.nextId ≤ m'.nextId) :
    TxInv m' t' := by
  refine ⟨fun hr => ?_, fun hw => ?_⟩
  · rw [hs.txversion, hlast]
    exact h.reader (hs.txType ▸ hr)
  · obtain ⟨h₁, h₂, h₃, h₄⟩ := h.writer (hs.txType ▸ hw)
    rw [hs.txversion, hs.id, hs.ortxversion, hlast]
    exact ⟨h₁, h₂, h₃.trans_le hid, h₄⟩

/-- The order of two transactions does not depend on their links. -/
lemma Ordered.congr {last : ℕ} {t t' u u' : Tx} (h : Ordered last t t') (hs : Tx.Same t u)
    (hs' : Tx.Same t' u') : Ordered last u u' := by
  intro hr
  rw [hs.txversion, hs'.txversion, hs.txType]
  exact h (hs'.txType ▸ hr)

/-- **A begin succeeds and keeps the invariant**; the new transaction reads at the
begin version, the others stay as they were. -/
theorem MgrInv.begin_spec {m : Manager} {running : List ℕ} (h : MgrInv m running) {tx : ℕ}
    (htx : tx ∉ running) {txtype : TxType} (hw : txtype = .readWrite → m.writeRunning = false) :
    ∃ m' t, m.begin tx txtype = some m' ∧ MgrInv m' (running ++ [tx])
      ∧ m'.lastWriteCommittedId = m.lastWriteCommittedId ∧ m'.txs tx = some t
      ∧ t.txType = txtype ∧ t.id = m.nextId ∧ t.txversion = m.beginVersion txtype
      ∧ ∀ k ∈ running, ∀ t', m'.txs k = some t' → ∃ t, m.txs k = some t ∧ Tx.Same t t' := by
  obtain ⟨orv, horv, hcut⟩ := h.oldest
  have hold : ∀ k ∈ running, k ≠ tx := by
    rintro k hk rfl
    exact htx hk
  refine ⟨_, _, h.begin_eq htx hw horv, ?_, rfl, Manager.begunTxs_self .., rfl, rfl, rfl,
    fun k hk t' ht' => Manager.begunTxs_of_ne (hold k hk) ht'⟩
  set new : Tx := ⟨m.nextId, m.beginVersion txtype, orv, txtype, none, running.getLast?⟩ with hnew
  have hcases : ∀ k ∈ running ++ [tx], ∀ t', m.begunTxs running tx txtype orv k = some t' →
      (k ∈ running ∧ ∃ t, m.txs k = some t ∧ Tx.Same t t') ∨ (k = tx ∧ t' = new) := by
    intro k hk t' ht'
    rcases eq_or_ne k tx with rfl | hne
    · rw [Manager.begunTxs_self, Option.some_inj] at ht'
      exact Or.inr ⟨rfl, ht'.symm⟩
    · exact Or.inl ⟨by simpa [hne] using hk, Manager.begunTxs_of_ne hne ht'⟩
  have hlt : ∀ k ∈ running, ∀ t, m.txs k = some t → TxInv m t := by
    intro k hk t ht
    obtain ⟨t', ht', hinv⟩ := h.tx k hk
    obtain rfl : t' = t := by simpa [ht'] using ht
    exact hinv
  -- nobody writes when a writer begins, so the cut-off bounds every version
  have hwriter : txtype = .readWrite → (∀ k ∈ running, ∀ t, m.txs k = some t →
      t.txType = .readOnly ∧ orv ≤ t.txversion) ∧ orv ≤ m.lastWriteCommittedId := by
    intro htype
    have hreader : ∀ k ∈ running, ∀ t, m.txs k = some t → t.txType = .readOnly := by
      intro k hk t ht
      cases hty : t.txType with
      | readOnly => rfl
      | readWrite =>
          have := h.lock.mpr ⟨k, hk, t, ht, hty⟩
          simp [hw htype] at this
    rcases hcut with ⟨hle, hlast⟩ | ⟨w, t, -, hmem, ht, hty, -⟩
    · exact ⟨fun k hk t ht => ⟨hreader k hk t ht, hle k hk t ht⟩, hlast⟩
    · simp [hreader w hmem t ht] at hty
  refine ⟨?_, ?_, rfl, by simp, fun k hk => ?_, ?_, ?_, ?_, ?_, ?_⟩
  · rw [List.nodup_append]
    refine ⟨h.nodup, List.nodup_singleton tx, ?_⟩
    rintro k hk _ hk' rfl
    exact htx (by simpa [List.mem_singleton.mp hk'] using hk)
  · refine h.linked.pushBack ?_ h.nodup fun k nx pv hk hl => ?_
    · simp [Manager.links]
    · obtain ⟨t, ht, -⟩ := h.tx k hk
      obtain ⟨rfl, rfl⟩ : t.next = nx ∧ t.prev = pv := by simpa [Manager.links, ht] using hl
      simp only [Manager.links, Manager.begunTxs, if_neg (hold k hk), ht, Option.map_some]
      split <;> rfl
  · rcases eq_or_ne k tx with rfl | hne
    · refine ⟨new, Manager.begunTxs_self .., fun hr => ?_, fun hrw => ?_⟩
      · obtain rfl : txtype = .readOnly := hr
        simp [hnew, Manager.beginVersion]
      · obtain rfl : txtype = .readWrite := hrw
        have h₁ := h.last_lt
        exact ⟨by simp [hnew, Manager.beginVersion], h₁, Nat.lt_succ_self _, (hwriter rfl).2⟩
    · have hk' : k ∈ running := by simpa [hne] using hk
      obtain ⟨t, ht, hinv⟩ := h.tx k hk'
      obtain ⟨t', ht'⟩ : ∃ t', m.begunTxs running tx txtype orv k = some t' := by
        simp [Manager.begunTxs, hne, ht]
      obtain ⟨t₀, ht₀, hs⟩ := Manager.begunTxs_of_ne hne ht'
      obtain rfl : t = t₀ := by simpa [ht] using ht₀
      exact ⟨t', ht', hinv.congr hs rfl (Nat.le_succ _)⟩
  · simp only [Bool.or_eq_true, decide_eq_true_eq, h.lock]
    constructor
    · rintro (⟨k, hk, t, ht, hty⟩ | htype)
      · obtain ⟨t', ht'⟩ : ∃ t', m.begunTxs running tx txtype orv k = some t' := by
          simp [Manager.begunTxs, hold k hk, ht]
        obtain ⟨t₀, ht₀, hs⟩ := Manager.begunTxs_of_ne (hold k hk) ht'
        obtain rfl : t = t₀ := by simpa [ht] using ht₀
        exact ⟨k, List.mem_append_left _ hk, t', ht', hs.txType.trans hty⟩
      · exact ⟨tx, by simp, new, Manager.begunTxs_self .., htype⟩
    · rintro ⟨k, hk, t', ht', hty⟩
      rcases hcases k hk t' ht' with ⟨hk', t, ht, hs⟩ | ⟨-, rfl⟩
      · exact Or.inl ⟨k, hk', t, ht, hs.txType ▸ hty⟩
      · exact Or.inr hty
  · intro k hk k' hk' t t' ht ht' hty hty'
    rcases hcases k hk t ht with ⟨hr, u, hu, hs⟩ | ⟨rfl, rfl⟩
    · rcases hcases k' hk' t' ht' with ⟨hr', u', hu', hs'⟩ | ⟨rfl, rfl⟩
      · exact h.one k hr k' hr' u u' hu hu' (hs.txType ▸ hty) (hs'.txType ▸ hty')
      · have := ((hwriter hty').1 k hr u hu).1
        rw [← hs.txType, hty] at this
        exact absurd this (by simp)
    · rcases hcases k' hk' t' ht' with ⟨hr', u', hu', hs'⟩ | ⟨rfl, -⟩
      · have := ((hwriter hty).1 k' hr' u' hu').1
        rw [← hs'.txType, hty'] at this
        exact absurd this (by simp)
      · rfl
  · exact h.last_lt.trans (Nat.lt_succ_self _)
  · rw [List.pairwise_append]
    refine ⟨h.ordered.imp_of_mem fun {k k'} hk hk' hord t t' ht ht' => ?_,
      List.pairwise_singleton _ _, ?_⟩
    · obtain ⟨u, hu, hs⟩ := Manager.begunTxs_of_ne (hold k hk) ht
      obtain ⟨u', hu', hs'⟩ := Manager.begunTxs_of_ne (hold k' hk') ht'
      exact (hord u u' hu hu').congr hs hs'
    · intro k hk k' hk' t t' ht ht' hr
      obtain rfl := List.mem_singleton.mp hk'
      obtain ⟨u, hu, hs⟩ := Manager.begunTxs_of_ne (hold k hk) ht
      obtain rfl : new = t' := by simpa using ht'
      obtain rfl : txtype = .readOnly := hr
      refine ⟨fun hro => ?_, fun _ => by simp [hnew, Manager.beginVersion]⟩
      have := (hlt k hk u hu).reader (hs.txType ▸ hro)
      simpa [hnew, Manager.beginVersion, hs.txversion] using this
  · intro k hk k' hk' t t' ht ht' hty hty'
    rcases hcases k hk t ht with ⟨hr, u, hu, hs⟩ | ⟨rfl, rfl⟩
    · have hwu := (hlt k hr u hu).writer (hs.txType ▸ hty)
      rcases hcases k' hk' t' ht' with ⟨hr', u', hu', hs'⟩ | ⟨rfl, rfl⟩
      · rw [hs.ortxversion, hs'.txversion]
        exact h.cut k hr k' hr' u u' hu hu' (hs.txType ▸ hty) (hs'.txType ▸ hty')
      · obtain rfl : txtype = .readOnly := hty'
        rw [hs.ortxversion]
        simpa [hnew, Manager.beginVersion] using hwu.2.2.2
    · rcases hcases k' hk' t' ht' with ⟨hr', u', hu', hs'⟩ | ⟨rfl, rfl⟩
      · rw [hs'.txversion]
        exact ((hwriter hty).1 k' hr' u' hu').2
      · rw [hty] at hty'
        exact absurd hty' (by simp)

/-! ### Committing -/

/-- The last committed writer after `t` commits. -/
def Manager.committedBy (m : Manager) (t : Tx) : ℕ :=
  if t.txType = .readWrite then t.id else m.lastWriteCommittedId

/-- The objects after the commit of the transaction between `l₁` and `l₂`. -/
def Manager.committedTxs (m : Manager) (l₁ l₂ : List ℕ) (tx : ℕ) (t : Tx) (k : ℕ) : Option Tx :=
  if k = tx then some { t with next := none, prev := none }
  else (m.txs k).map fun u => { u with
    next := if l₁.getLast? = some k then l₂.head? else u.next
    prev := if l₂.head? = some k then l₁.getLast? else u.prev }

/-- The other objects keep everything but their links. -/
lemma Manager.committedTxs_of_ne {m : Manager} {l₁ l₂ : List ℕ} {tx : ℕ} {t : Tx} {k : ℕ}
    (hk : k ≠ tx) {u' : Tx} (h : m.committedTxs l₁ l₂ tx t k = some u') :
    ∃ u, m.txs k = some u ∧ Tx.Same u u' := by
  rw [Manager.committedTxs, if_neg hk] at h
  obtain ⟨u, hu, rfl⟩ := Option.map_eq_some_iff.mp h
  exact ⟨u, hu, rfl, rfl, rfl, rfl⟩

/-- What a commit does. -/
lemma MgrInv.commit_eq {m : Manager} {l₁ l₂ : List ℕ} {tx : ℕ} (h : MgrInv m (l₁ ++ tx :: l₂))
    {t : Tx} (ht : m.txs tx = some t) :
    m.commit tx = some {
      txs := m.committedTxs l₁ l₂ tx t
      first := (l₁ ++ l₂).head?
      last := (l₁ ++ l₂).getLast?
      nextId := m.nextId
      lastWriteCommittedId := m.committedBy t
      writeRunning := m.writeRunning && decide (t.txType = .readOnly) } := by
  have hnd := h.nodup
  have hlink := h.linked l₁ tx l₂ rfl
  obtain ⟨hnext, hprev⟩ : t.next = l₂.head? ∧ t.prev = l₁.getLast? := by
    simpa [Manager.links, ht] using hlink
  have hlive : ∀ k ∈ l₁ ++ l₂, k ≠ tx ∧ m.txs k ≠ none := by
    intro k hk
    refine ⟨?_, ?_⟩
    · rintro rfl
      rw [List.nodup_middle, List.nodup_cons] at hnd
      exact hnd.1 hk
    · obtain ⟨u, hu, -⟩ := h.tx k (by simp at hk ⊢; tauto)
      simp [hu]
  have hp : ∀ k, l₁.getLast? = some k → k ∈ l₁ ++ l₂ := fun k hk =>
    List.mem_append_left _ (List.mem_of_getLast? hk)
  have hn : ∀ k, l₂.head? = some k → k ∈ l₁ ++ l₂ := fun k hk =>
    List.mem_append_right _ (List.mem_of_head? hk)
  have hcommitted : (if t.txType = .readWrite ∧ t.id > m.lastWriteCommittedId then t.id
      else m.lastWriteCommittedId) = m.committedBy t := by
    rw [Manager.committedBy]
    by_cases hty : t.txType = .readWrite
    · obtain ⟨t', ht', hinv⟩ := h.tx tx (by simp)
      obtain rfl : t = t' := by simpa [ht] using ht'
      have := hinv.writer hty
      rw [if_pos ⟨hty, this.2.1⟩, if_pos hty]
    · rw [if_neg fun hc => hty hc.1, if_neg hty]
  have hfirst : (if m.first = some tx then l₂.head? else m.first) = (l₁ ++ l₂).head? := by
    rw [h.first]
    cases l₁ with
    | nil => simp
    | cons c l₁ =>
        have := (hlive c (by simp)).1
        simp [this]
  have hlast : (if m.last = some tx then l₁.getLast? else m.last) = (l₁ ++ l₂).getLast? := by
    rw [h.last]
    rcases List.eq_nil_or_concat l₂ with rfl | ⟨l₂, c, rfl⟩
    · simp
    · have := (hlive c (by simp)).1
      simp [List.getLast?_append, List.getLast?_cons, this]
  simp only [Manager.commit, ht, Option.bind_eq_bind, Option.bind_some, hnext, hprev]
  rw [Manager.setNext_eq fun k hk => (hlive k (hp k hk)).2, Option.bind_some,
    Manager.setPrev_eq fun k hk => by simp [(hlive k (hn k hk)).2], Option.bind_some]
  simp only [hcommitted, hfirst, hlast]
  congr 2
  funext k
  rcases eq_or_ne k tx with rfl | hk
  · simp [Manager.committedTxs]
  · rw [Function.update_of_ne hk, Manager.committedTxs, if_neg hk, Option.map_map]
    refine congrArg (Option.map · _) (funext fun u => ?_)
    simp only [Function.comp_apply]
    split <;> split <;> rfl

/-- **A commit succeeds and keeps the invariant**; a writer's commit makes its
version the last committed one. -/
theorem MgrInv.commit_spec {m : Manager} {running : List ℕ} (h : MgrInv m running) {tx : ℕ}
    {t : Tx} (hmem : tx ∈ running) (ht : m.txs tx = some t) :
    ∃ m', m.commit tx = some m' ∧ MgrInv m' (running.erase tx)
      ∧ m'.lastWriteCommittedId = m.committedBy t
      ∧ ∀ k ∈ running.erase tx, ∀ u', m'.txs k = some u' → ∃ u, m.txs k = some u
        ∧ Tx.Same u u' := by
  obtain ⟨l₁, l₂, rfl⟩ := List.append_of_mem hmem
  have hnd := h.nodup
  have htx : tx ∉ l₁ ++ l₂ := by
    rw [List.nodup_middle, List.nodup_cons] at hnd
    exact hnd.1
  have herase : (l₁ ++ tx :: l₂).erase tx = l₁ ++ l₂ := by
    rw [List.erase_append_right _ fun hk => htx (List.mem_append_left _ hk), List.erase_cons_head]
  have hsub : (l₁ ++ l₂).Sublist (l₁ ++ tx :: l₂) :=
    List.Sublist.append_left (List.sublist_cons_self _ _) _
  have hinv : ∀ k ∈ l₁ ++ tx :: l₂, ∀ u, m.txs k = some u → TxInv m u := by
    intro k hk u hu
    obtain ⟨u', hu', hi⟩ := h.tx k hk
    obtain rfl : u' = u := by simpa [hu'] using hu
    exact hi
  have hold : ∀ k ∈ l₁ ++ l₂, ∀ u', m.committedTxs l₁ l₂ tx t k = some u' →
      ∃ u, m.txs k = some u ∧ Tx.Same u u' := by
    intro k hk u' hu'
    refine Manager.committedTxs_of_ne ?_ hu'
    rintro rfl
    exact htx hk
  have hnew : ∀ k ∈ l₁ ++ l₂, ∀ u, m.txs k = some u →
      ∃ u', m.committedTxs l₁ l₂ tx t k = some u' ∧ Tx.Same u u' := by
    intro k hk u hu
    have hne : k ≠ tx := by
      rintro rfl
      exact htx hk
    rw [Manager.committedTxs, if_neg hne, hu]
    exact ⟨_, rfl, rfl, rfl, rfl, rfl⟩
  -- after a writer's commit nobody writes
  have honly : t.txType = .readWrite → ∀ k ∈ l₁ ++ l₂, ∀ u, m.txs k = some u →
      u.txType = .readOnly := by
    intro hty k hk u hu
    cases hu' : u.txType with
    | readOnly => rfl
    | readWrite =>
        obtain rfl := h.one k (hsub.subset hk) tx hmem u t hu ht hu' hty
        exact absurd hk htx
  have hle : m.lastWriteCommittedId ≤ m.committedBy t := by
    rw [Manager.committedBy]
    split
    · next hty => exact ((hinv tx hmem t ht).writer hty).2.1.le
    · exact le_rfl
  have hsame : t.txType ≠ .readWrite → m.committedBy t = m.lastWriteCommittedId := fun hty =>
    if_neg hty
  have hrw : ∀ k ∈ l₁ ++ l₂, ∀ u, m.txs k = some u → u.txType = .readWrite →
      m.committedBy t = m.lastWriteCommittedId := by
    intro k hk u hu hty
    refine hsame fun htw => ?_
    rw [honly htw k hk u hu] at hty
    exact absurd hty (by simp)
  refine ⟨_, h.commit_eq ht, ?_, rfl, by rwa [herase]⟩
  rw [herase]
  refine ⟨hnd.sublist hsub, ?_, rfl, rfl, fun k hk => ?_, ?_, ?_, ?_, ?_, ?_⟩
  · refine h.linked.unlink hnd fun k nx pv hk hl => ?_
    obtain ⟨u, hu, -⟩ := h.tx k (hsub.subset hk)
    obtain ⟨rfl, rfl⟩ : u.next = nx ∧ u.prev = pv := by simpa [Manager.links, hu] using hl
    have hne : k ≠ tx := by
      rintro rfl
      exact htx hk
    simp only [Manager.links, Manager.committedTxs, if_neg hne, hu, Option.map_some]
  · obtain ⟨u, hu, hi⟩ := h.tx k (hsub.subset hk)
    obtain ⟨u', hu', hs⟩ := hnew k hk u hu
    refine ⟨u', hu', fun hr => ?_, fun hw => ?_⟩
    · rw [hs.txversion]
      exact (hi.reader (hs.txType ▸ hr)).trans hle
    · have hw' : u.txType = .readWrite := hs.txType ▸ hw
      rw [hs.txversion, hs.id, hs.ortxversion]
      simpa only [hrw k hk u hu hw'] using hi.writer hw'
  · simp only [Bool.and_eq_true, decide_eq_true_eq, h.lock]
    constructor
    · rintro ⟨⟨k, hk, u, hu, hty⟩, hro⟩
      have hne : k ≠ tx := by
        rintro rfl
        obtain rfl : t = u := by simpa [ht] using hu
        rw [hro] at hty
        exact absurd hty (by simp)
      have hk' : k ∈ l₁ ++ l₂ := by
        simp at hk ⊢
        tauto
      obtain ⟨u', hu', hs⟩ := hnew k hk' u hu
      exact ⟨k, hk', u', hu', hs.txType.trans hty⟩
    · rintro ⟨k, hk, u', hu', hty⟩
      obtain ⟨u, hu, hs⟩ := hold k hk u' hu'
      have hty' : u.txType = .readWrite := hs.txType ▸ hty
      refine ⟨⟨k, hsub.subset hk, u, hu, hty'⟩, ?_⟩
      cases htw : t.txType with
      | readOnly => rfl
      | readWrite =>
          rw [honly htw k hk u hu] at hty'
          exact absurd hty' (by simp)
  · intro k hk k' hk' v v' hv hv' hty hty'
    obtain ⟨u, hu, hs⟩ := hold k hk v hv
    obtain ⟨u', hu', hs'⟩ := hold k' hk' v' hv'
    exact h.one k (hsub.subset hk) k' (hsub.subset hk') u u' hu hu' (hs.txType ▸ hty)
      (hs'.txType ▸ hty')
  · change m.committedBy t < m.nextId
    rw [Manager.committedBy]
    split
    · next hty => exact ((hinv tx hmem t ht).writer hty).2.2.1
    · exact h.last_lt
  · refine (h.ordered.sublist hsub).imp_of_mem fun {k k'} hk hk' hord v v' hv hv' hr => ?_
    obtain ⟨u, hu, hs⟩ := hold k hk v hv
    obtain ⟨u', hu', hs'⟩ := hold k' hk' v' hv'
    have := hord u u' hu hu' (hs'.txType ▸ hr)
    rw [hs.txversion, hs'.txversion, hs.txType]
    refine ⟨this.1, fun hty => ?_⟩
    rw [this.2 hty]
    exact (hrw k hk u hu hty).symm
  · intro k hk k' hk' v v' hv hv' hty hty'
    obtain ⟨u, hu, hs⟩ := hold k hk v hv
    obtain ⟨u', hu', hs'⟩ := hold k' hk' v' hv'
    rw [hs.ortxversion, hs'.txversion]
    exact h.cut k (hsub.subset hk) k' (hsub.subset hk') u u' hu hu' (hs.txType ▸ hty)
      (hs'.txType ▸ hty')

/-! ### Runs of the manager -/

/-- A call of a manager whose running transactions are the given ones, in the order in
which they began. -/
inductive MgrStep : Manager × List ℕ → Manager × List ℕ → Prop
  | begin {m m' : Manager} {running : List ℕ} {tx : ℕ} {txtype : TxType} (new : tx ∉ running)
      (one : txtype = .readWrite → ∀ k ∈ running, ∀ t, m.txs k = some t → t.txType = .readOnly)
      (call : m.begin tx txtype = some m') : MgrStep (m, running) (m', running ++ [tx])
  | commit {m m' : Manager} {running : List ℕ} {tx : ℕ} (runs : tx ∈ running)
      (call : m.commit tx = some m') : MgrStep (m, running) (m', running.erase tx)

/-- One writer at a time never has to wait. -/
lemma MgrInv.unlocked {m : Manager} {running : List ℕ} (h : MgrInv m running)
    (hone : ∀ k ∈ running, ∀ t, m.txs k = some t → t.txType = .readOnly) : m.writeRunning = false := by
  rw [Bool.eq_false_iff, Ne, h.lock]
  rintro ⟨k, hk, t, ht, hw⟩
  have hr := hone k hk t ht
  rw [hw] at hr
  cases hr

/-- The last committed version does not decrease. -/
lemma MgrInv.le_committedBy {m : Manager} {running : List ℕ} (h : MgrInv m running) {tx : ℕ} {t : Tx}
    (hmem : tx ∈ running) (ht : m.txs tx = some t) : m.lastWriteCommittedId ≤ m.committedBy t := by
  obtain ⟨t', ht', hinv⟩ := h.tx tx hmem
  obtain rfl := Option.some.inj (ht'.symm.trans ht)
  rw [Manager.committedBy]
  split
  · next hty => exact (hinv.writer hty).2.1.le
  · exact le_rfl

/-- A call keeps the invariant, and the last committed version does not decrease. -/
lemma MgrInv.step {m m' : Manager} {running running' : List ℕ} (h : MgrInv m running)
    (hstep : MgrStep (m, running) (m', running')) :
    MgrInv m' running' ∧ m.lastWriteCommittedId ≤ m'.lastWriteCommittedId := by
  cases hstep with
  | begin new one call =>
      obtain ⟨m₁, t, hbegin, hinv, hlast, -⟩ := h.begin_spec new fun hw => h.unlocked (one hw)
      obtain rfl := Option.some.inj (hbegin.symm.trans call)
      exact ⟨hinv, hlast.ge⟩
  | commit runs call =>
      obtain ⟨t, ht, -⟩ := h.tx _ runs
      obtain ⟨m₁, hcommit, hinv, hlast, -⟩ := h.commit_spec runs ht
      obtain rfl := Option.some.inj (hcommit.symm.trans call)
      exact ⟨hinv, (h.le_committedBy runs ht).trans hlast.ge⟩

/-- The same for any number of calls. -/
lemma MgrInv.steps {x y : Manager × List ℕ} (h : MgrInv x.1 x.2)
    (hrun : Relation.ReflTransGen MgrStep x y) :
    MgrInv y.1 y.2 ∧ x.1.lastWriteCommittedId ≤ y.1.lastWriteCommittedId := by
  induction hrun with
  | refl => exact ⟨h, le_rfl⟩
  | tail _ hstep ih =>
      obtain ⟨hinv, hle⟩ := ih.1.step hstep
      exact ⟨hinv, ih.2.trans hle⟩

/-- The cut-off of a writer bounds the versions of all transactions that run with it,
itself included. -/
lemma MgrInv.ortxversion_le {m : Manager} {running : List ℕ} (h : MgrInv m running) {w k : ℕ}
    {t u : Tx} (hw : w ∈ running) (hk : k ∈ running) (ht : m.txs w = some t) (hu : m.txs k = some u)
    (hty : t.txType = .readWrite) : t.ortxversion ≤ u.txversion := by
  cases hku : u.txType with
  | readOnly => exact h.cut w hw k hk t u ht hu hty hku
  | readWrite =>
      obtain rfl := h.one w hw k hk t u ht hu hty hku
      obtain rfl := Option.some.inj (ht.symm.trans hu)
      obtain ⟨t', ht', hinv⟩ := h.tx w hw
      obtain rfl := Option.some.inj (ht'.symm.trans ht)
      obtain ⟨hid, hlast, -, hor⟩ := hinv.writer hty
      omega

/-- **Runs of the manager.** After any calls, every further one that starts no second
writer succeeds; the list is that of the running transactions in the order in which they
began, linked both ways between its ends; the last committed version does not decrease;
and the cut-off of a running writer is at most the version of every running
transaction. -/
theorem manager_runs {m m' : Manager} {running running' : List ℕ}
    (h : Relation.ReflTransGen MgrStep (Manager.init, []) (m, running))
    (h' : Relation.ReflTransGen MgrStep (m, running) (m', running')) :
    ((∀ tx ∉ running, ∀ txtype : TxType, (txtype = .readWrite → ∀ k ∈ running, ∀ t, m.txs k = some t →
          t.txType = .readOnly) → ∃ n, MgrStep (m, running) (n, running ++ [tx]))
        ∧ ∀ tx ∈ running, ∃ n, MgrStep (m, running) (n, running.erase tx))
      ∧ (m.first = running.head? ∧ m.last = running.getLast?
        ∧ ∀ l₁ tx l₂, running = l₁ ++ tx :: l₂ →
          ∃ t, m.txs tx = some t ∧ t.next = l₂.head? ∧ t.prev = l₁.getLast?)
      ∧ m.lastWriteCommittedId ≤ m'.lastWriteCommittedId
      ∧ ∀ w ∈ running, ∀ t, m.txs w = some t → t.txType = .readWrite →
        ∀ k ∈ running, ∀ u, m.txs k = some u → t.ortxversion ≤ u.txversion := by
  obtain ⟨hinv, -⟩ := mgrInv_init.steps h
  refine ⟨⟨fun tx htx txtype hone => ?_, fun tx htx => ?_⟩, ⟨hinv.first, hinv.last,
    fun l₁ tx l₂ hl => ?_⟩, (hinv.steps h').2, fun w hw t ht hty k hk u hu =>
      hinv.ortxversion_le hw hk ht hu hty⟩
  · obtain ⟨n, t, hbegin, -⟩ := hinv.begin_spec htx fun hw => hinv.unlocked (hone hw)
    exact ⟨n, .begin htx hone hbegin⟩
  · obtain ⟨t, ht, -⟩ := hinv.tx tx htx
    obtain ⟨n, hcommit, -⟩ := hinv.commit_spec htx ht
    exact ⟨n, .commit htx hcommit⟩
  · have hlinks := hinv.linked l₁ tx l₂ hl
    obtain ⟨t, ht, hlink⟩ := Option.map_eq_some_iff.mp hlinks
    exact ⟨t, ht, (Prod.mk.inj hlink).1, (Prod.mk.inj hlink).2⟩

/-- A writer, a reader under it, and another reader after its commit. -/
theorem manager_runs_three : ∃ m, Relation.ReflTransGen MgrStep (Manager.init, []) (m, [1, 2])
    ∧ m.first = some 1 ∧ m.last = some 2 := by
  obtain ⟨m₁, h₁⟩ := (manager_runs .refl .refl).1.1 0 (by simp) .readWrite (by simp)
  have hrun₁ := Relation.ReflTransGen.single h₁
  obtain ⟨m₂, h₂⟩ := (manager_runs hrun₁ .refl).1.1 1 (by simp) .readOnly (by simp)
  have hrun₂ := hrun₁.tail h₂
  obtain ⟨m₃, h₃⟩ := (manager_runs hrun₂ .refl).1.2 0 (by simp)
  have hrun₃ := hrun₂.tail h₃
  obtain ⟨m₄, h₄⟩ := (manager_runs hrun₃ .refl).1.1 2 (by simp) .readOnly (by simp)
  have hrun₄ := hrun₃.tail h₄
  obtain ⟨-, ⟨hfirst, hlast, -⟩, -⟩ := manager_runs hrun₄ .refl
  exact ⟨m₄, hrun₄, hfirst, hlast⟩

end Furious
