import Furious.Tx.Faults
import Furious.Tx.Guards
import Furious.Tx.Running

/-!
Runs of the transactional memory, whatever its callers do with references.

* `Trail`: a state with what has happened on the way to it;
* `Trail.Legal`: the calls that the callers may make, and `Trail.Live`: those with
  which no writer accesses a reference whose root is gone;
* `Trail.Call`: a call that has succeeded;
* `TrailInv`: the invariant, and `TrailInv.call`: **each legal call keeps it**, if no writer
  accesses a reference whose root is gone;
* `Ages`: what a run leaves of the chains that there were;
* `Accounted`: nothing is lost: what is allocated has an owner, and what is garbage is listed.
-/

namespace Furious

variable {α : Type}

namespace Tx

/-! ### Trails -/

/-- A state with the running transactions in the order in which they began, the versions
of the transactions that have freed references, the references whose root is gone, and the
version of the writer that began last. -/
structure Trail (α : Type) where
  state : State α
  running : List ℕ
  freed : ℕ → Option ℕ
  released : ℕ → Bool
  writer : ℕ

namespace Trail

/-- Nothing has happened. -/
def init : Trail α := ⟨State.init, [], fun _ => none, fun _ => false, 0⟩

/-- The transaction writes. -/
def Writer (x : Trail α) (tx : ℕ) : Prop := (x.state.manager.txs tx).map Tx.txType = some .readWrite

/-- The calls that the callers may make: with running transactions and references in use;
only writers allocate and free, and a reference is freed once. Forced collections are for when no
transaction runs. -/
def Legal (x : Trail α) : Step α → Prop
  | .begin tx _ => tx ∉ x.running
  | .commit tx => tx ∈ x.running
  | .alloc tx r _ => tx ∈ x.running ∧ x.Writer tx ∧ x.state.refs r = none
  | .read tx _ _ _ => tx ∈ x.running
  | .write tx _ _ _ => tx ∈ x.running
  | .free tx _ r => tx ∈ x.running ∧ x.Writer tx ∧ x.freed r = none
  | .gc _ force => force = true → x.running = []

/-- No writer accesses a reference whose root is gone. -/
def Live (x : Trail α) : Step α → Prop
  | .read tx _ r _ => x.Writer tx → x.released r = false
  | .write tx _ r _ => x.Writer tx → x.released r = false
  | _ => True

/-- The trail to the state `s` after a call. -/
def after (x : Trail α) (st : Step α) (s : State α) : Trail α where
  state := s
  running :=
    match st with
    | .begin tx _ => x.running ++ [tx]
    | .commit tx => x.running.erase tx
    | _ => x.running
  freed :=
    match st with
    | .free tx _ r => Function.update x.freed r ((s.manager.txs tx).map Tx.txversion)
    | _ => x.freed
  released r := x.released r || x.state.releases st r
  writer :=
    match st with
    | .begin tx .readWrite => ((s.manager.txs tx).map Tx.txversion).getD x.writer
    | _ => x.writer

/-- A call. -/
def step (x : Trail α) (st : Step α) : Option (Trail α) := (Tx.step x.state st).map fun r => x.after st r.1

/-- A call that is made and succeeds, among those that meet the condition `ok`. -/
def Call (ok : Trail α → Step α → Prop) (x y : Trail α) : Prop :=
  ∃ st, x.Legal st ∧ ok x st ∧ x.step st = some y

instance (x : Trail α) (tx : ℕ) : Decidable (x.Writer tx) :=
  inferInstanceAs (Decidable (_ = _))

instance decidableLegal (x : Trail α) (st : Step α) : Decidable (x.Legal st) :=
  match st with
  | .begin _ _ => inferInstanceAs (Decidable (¬ _))
  | .commit _ => inferInstanceAs (Decidable (_ ∈ _))
  | .alloc _ _ _ => inferInstanceAs (Decidable (_ ∧ _))
  | .read _ _ _ _ => inferInstanceAs (Decidable (_ ∈ _))
  | .write _ _ _ _ => inferInstanceAs (Decidable (_ ∈ _))
  | .free _ _ _ => inferInstanceAs (Decidable (_ ∧ _))
  | .gc _ _ => inferInstanceAs (Decidable (_ → _))

instance decidableLive (x : Trail α) (st : Step α) : Decidable (x.Live st) :=
  match st with
  | .begin _ _ => isTrue trivial
  | .commit _ => isTrue trivial
  | .alloc _ _ _ => isTrue trivial
  | .read _ _ _ _ => inferInstanceAs (Decidable (_ → _))
  | .write _ _ _ _ => inferInstanceAs (Decidable (_ → _))
  | .free _ _ _ => isTrue trivial
  | .gc _ _ => isTrue trivial

/-- The calls of a list, one after the other. -/
def calls (ok : Trail α → Step α → Prop) [∀ x st, Decidable (ok x st)] : Trail α → List (Step α) →
    Option (Trail α)
  | x, [] => some x
  | x, st :: sts => if x.Legal st ∧ ok x st then (x.step st).bind fun y => y.calls ok sts else none

lemma calls_spec {ok : Trail α → Step α → Prop} [∀ x st, Decidable (ok x st)] {sts : List (Step α)} :
    ∀ {x y : Trail α}, x.calls ok sts = some y → Relation.ReflTransGen (Call ok) x y := by
  induction sts with
  | nil =>
      intro x y h
      obtain rfl := Option.some.inj h
      exact .refl
  | cons st sts ih =>
      intro x y h
      obtain ⟨⟨hl, hok⟩, h⟩ := Option.ite_none_right_eq_some.mp h
      obtain ⟨z, hz, h⟩ := Option.bind_eq_some_iff.mp h
      exact (ih h).head ⟨st, hl, hok, hz⟩

/-- Runs on fixed calls. -/
lemma exists_of_calls (ok : Trail α → Step α → Prop) [∀ x st, Decidable (ok x st)] (sts sts' : List (Step α))
    {T : Type} {f : Trail α → Trail α → T} {v : T}
    (h : ((init.calls ok sts).bind fun x => (x.calls ok sts').map (f x)) = some v) :
    ∃ x y, Relation.ReflTransGen (Call ok) init x ∧ Relation.ReflTransGen (Call ok) x y ∧ f x y = v := by
  obtain ⟨x, hx, h⟩ := Option.bind_eq_some_iff.mp h
  obtain ⟨y, hy, h⟩ := Option.map_eq_some_iff.mp h
  exact ⟨x, y, calls_spec hx, calls_spec hy, h⟩

/-- A root that is gone stays so. -/
lemma released_mono {ok : Trail α → Step α → Prop} {x y : Trail α}
    (h : Relation.ReflTransGen (Call ok) x y) {r : ℕ} (hr : x.released r = true) : y.released r = true := by
  induction h with
  | refl => exact hr
  | tail _ hcall ih =>
      obtain ⟨st, -, -, hstep⟩ := hcall
      obtain ⟨⟨s, o⟩, -, rfl⟩ := Option.map_eq_some_iff.mp hstep
      change (_ || _) = true
      rw [ih, Bool.true_or]

end Trail

/-! ### The invariant -/

/-- **The invariant of a trail**, with the owners of the memory and the garbage lists. -/
structure TrailInv (x : Trail α) (own : ℕ ⊕ ℕ → List (Ver α)) (garbage : ℕ → List (ℕ × ℕ)) : Prop where
  heap : HeapHeld x.state own garbage
  listed : Listed own garbage
  mgr : MgrInv x.state.manager x.running
  last : x.writer = x.state.manager.lastWriteCommittedId
    ∨ ∃ tx ∈ x.running, ∃ t, x.state.manager.txs tx = some t ∧ t.txType = .readWrite ∧ t.txversion = x.writer
  writer : ∀ tx ∈ x.running, ∀ t, x.state.manager.txs tx = some t → t.txType = .readWrite →
    t.txversion = x.writer
  live : ∀ r, own (.inl r) = [] ↔ x.state.refs r = none ∨ x.released r = true
  released : ∀ r, x.released r = true → x.state.refs r ≠ none ∧ x.freed r ≠ none
  freed : ∀ r w, x.freed r = some w → w ≤ x.writer
  present : ∀ r root vs, own (.inl r) = root :: vs → x.freed r = none → (chainOf root vs).newest.2 ≠ none
  kept : ∀ r root vs, own (.inl r) = root :: vs → ∀ w, x.freed r = some w → ∀ tx ∈ x.running, ∀ t,
    x.state.manager.txs tx = some t → t.txType = .readWrite → t.txversion = w →
    t.ortxversion < (chainOf root vs).newest.1
  ranked : ∀ r root vs, own (.inl r) = root :: vs → (chainOf root vs).Ranked x.writer

lemma trailInv_init : TrailInv (Trail.init : Trail α) (fun _ => []) fun _ => [] where
  heap := heapHeld_init
  listed := listed_init
  mgr := mgrInv_init
  last := Or.inl rfl
  writer := by simp [Trail.init]
  live := by simp [Trail.init, State.init]
  released := by simp [Trail.init]
  freed := by simp [Trail.init]
  present := by simp
  kept := by simp
  ranked := by simp

/-- What a run leaves of the chains that there were: their roots get newer where they are, or
they are gone. -/
def Ages (own own' : ℕ ⊕ ℕ → List (Ver α)) (released : ℕ → Bool) : Prop :=
  ∀ r root vs, own (.inl r) = root :: vs → released r = true
    ∨ ∃ root' vs', own' (.inl r) = root' :: vs' ∧ root'.addr = root.addr ∧ root.ts ≤ root'.ts

lemma Ages.refl (own : ℕ ⊕ ℕ → List (Ver α)) (released : ℕ → Bool) : Ages own own released :=
  fun _ root vs ho => Or.inr ⟨root, vs, ho, rfl, le_rfl⟩

lemma Ages.trans {own own' own'' : ℕ ⊕ ℕ → List (Ver α)} {released released' : ℕ → Bool}
    (h : Ages own own' released) (h' : Ages own' own'' released')
    (hrel : ∀ r, released r = true → released' r = true) : Ages own own'' released' := by
  intro r root vs ho
  rcases h r root vs ho with hr | ⟨root', vs', ho', haddr, hts⟩
  · exact Or.inl (hrel r hr)
  · rcases h' r root' vs' ho' with hr | ⟨root'', vs'', ho'', haddr', hts'⟩
    · exact Or.inl hr
    · exact Or.inr ⟨root'', vs'', ho'', haddr'.trans haddr, hts.trans hts'⟩

/-- **Nothing is lost**: the cells in use have owners, the retired blocks and the roots of freed
references are listed, and only some contexts have garbage. -/
structure Accounted (x : Trail α) (own : ℕ ⊕ ℕ → List (Ver α)) (garbage : ℕ → List (ℕ × ℕ)) : Prop where
  owned : Owned x.state.pool.mem own
  retired : ∀ a y, own (.inr a) = [y] → ∃ c e, (e, a) ∈ garbage c
  freed : ∀ r root vs, own (.inl r) = root :: vs → ∀ w, x.freed r = some w →
    (chainOf root vs).newest.1 ≤ w ∧ ∃ c e, (e, root.addr) ∈ garbage c
  refs : ∀ r, x.freed r ≠ none → x.state.refs r ≠ none
  contexts : ∃ cs : Finset ℕ, ∀ c ∉ cs, garbage c = []

lemma accounted_init : Accounted (Trail.init : Trail α) (fun _ => []) fun _ => [] where
  owned k hk := by
    have hmem : (Trail.init : Trail α).state.pool.mem k = none := by
      cases k <;> rfl
    exact absurd hmem hk
  retired := by simp
  freed := by simp
  refs := by simp [Trail.init]
  contexts := ⟨∅, fun _ _ => rfl⟩

/-- The list of one context changes. -/
lemma Accounted.contexts_update {x : Trail α} {own : ℕ ⊕ ℕ → List (Ver α)} {garbage : ℕ → List (ℕ × ℕ)}
    (h : Accounted x own garbage) (c : ℕ) (l : List (ℕ × ℕ)) :
    ∃ cs : Finset ℕ, ∀ c' ∉ cs, Function.update garbage c l c' = [] := by
  obtain ⟨cs, hcs⟩ := h.contexts
  refine ⟨insert c cs, fun c' hc' => ?_⟩
  rw [Finset.mem_insert, not_or] at hc'
  rw [Function.update_of_ne hc'.1, hcs c' hc'.2]

namespace TrailInv

variable {x : Trail α} {own own' : ℕ ⊕ ℕ → List (Ver α)} {garbage : ℕ → List (ℕ × ℕ)} {tx c r : ℕ}
  {s : State α} {o : Output α}

/-- A running writer has the version of the writer that began last, and a cut-off below it. -/
lemma object (h : TrailInv x own garbage) (htx : tx ∈ x.running) (hw : x.Writer tx) :
    ∃ t, x.state.manager.txs tx = some t ∧ t.txType = .readWrite ∧ t.txversion = x.writer
      ∧ t.ortxversion < t.txversion := by
  obtain ⟨t, ht, hinv⟩ := h.mgr.tx tx htx
  have hty : t.txType = .readWrite := by
    rw [Trail.Writer, ht] at hw
    exact Option.some.inj hw
  obtain ⟨hid, hlast, -, hor⟩ := hinv.writer hty
  exact ⟨t, ht, hty, h.writer tx htx t ht hty, by omega⟩

/-- While no writer runs, the writer that began last has committed. -/
lemma writer_eq_last (h : TrailInv x own garbage)
    (hno : ∀ k ∈ x.running, ∀ t, x.state.manager.txs k = some t → t.txType = .readOnly) :
    x.writer = x.state.manager.lastWriteCommittedId := by
  rcases h.last with hl | ⟨k, hk, t, ht, hty, -⟩
  · exact hl
  · rw [hno k hk t ht] at hty
    cases hty

/-- **A begin.** -/
lemma begin (h : TrailInv x own garbage) {txtype : TxType} (hl : x.Legal (.begin tx txtype))
    (hstep : Tx.step x.state (.begin tx txtype) = some (s, o)) :
    TrailInv (x.after (.begin tx txtype) s) own garbage := by
  obtain ⟨m, hm, hs⟩ := Option.bind_eq_some_iff.mp hstep
  obtain ⟨rfl, -⟩ := Prod.mk.inj (Option.some.inj hs)
  have hlock : txtype = .readWrite → x.state.manager.writeRunning = false := by
    intro hty
    rw [Bool.eq_false_iff]
    intro hrun
    rw [Manager.begin, if_pos ⟨hty, hrun⟩] at hm
    cases hm
  have hno : txtype = .readWrite → ∀ k ∈ x.running, ∀ t, x.state.manager.txs k = some t →
      t.txType = .readOnly := by
    intro hty k hk t ht
    cases hro : t.txType with
    | readOnly => rfl
    | readWrite =>
        have hrun := h.mgr.lock.mpr ⟨k, hk, t, ht, hro⟩
        rw [hlock hty] at hrun
        cases hrun
  obtain ⟨m', t, hbegin, hmgr, hlast, ht, hty, -, hver, hold⟩ := h.mgr.begin_spec hl hlock
  obtain rfl := Option.some.inj (hm.symm.trans hbegin)
  -- the version of the writer that began last
  obtain ⟨w, hw, hnew, hsame⟩ : ∃ w, (x.after (.begin tx txtype) { x.state with manager := m }).writer = w
      ∧ (txtype = .readWrite → w = t.txversion ∧ x.writer < w) ∧ (txtype = .readOnly → w = x.writer) := by
    refine ⟨_, rfl, ?_, ?_⟩
    · rintro rfl
      have hw : (x.after (.begin tx .readWrite) { x.state with manager := m }).writer = t.txversion := by
        simp [Trail.after, ht]
      refine ⟨hw, ?_⟩
      rw [hw, hver, h.writer_eq_last (hno rfl)]
      exact h.mgr.last_lt
    · rintro rfl
      rfl
  have hle : x.writer ≤ w := by
    cases hty' : txtype with
    | readOnly => exact (hsame hty').ge
    | readWrite => exact (hnew hty').2.le
  have hcases : ∀ k ∈ x.running ++ [tx], ∀ u, m.txs k = some u → u.txType = .readWrite →
      (k ∈ x.running ∧ txtype = .readOnly ∧ ∃ u₀, x.state.manager.txs k = some u₀ ∧ Tx.Same u₀ u)
        ∨ (txtype = .readWrite ∧ u.txversion = w) := by
    intro k hk u hu hrw
    rcases List.mem_append.mp hk with hk | hk
    · obtain ⟨u₀, hu₀, hsame⟩ := hold k hk u hu
      refine Or.inl ⟨hk, ?_, u₀, hu₀, hsame⟩
      cases hty' : txtype with
      | readOnly => rfl
      | readWrite =>
          have hro := hno hty' k hk u₀ hu₀
          rw [← hsame.txType, hrw] at hro
          cases hro
    · obtain rfl := List.mem_singleton.mp hk
      obtain rfl := Option.some.inj (hu.symm.trans ht)
      exact Or.inr ⟨hty.symm.trans hrw, (hnew (hty.symm.trans hrw)).1.symm⟩
  refine ⟨⟨h.heap.mem, h.heap.root, h.heap.retired, h.heap.ctx⟩, h.listed, hmgr, ?_, fun k hk u hu hrw => ?_,
    fun r => ?_, fun r hr => h.released r (by simpa [Trail.after, State.releases] using hr),
    fun r v hr => hw ▸ (h.freed r v hr).trans hle, h.present, fun r root vs ho v hr k hk u hu hrw hv => ?_,
    fun r root vs ho => hw ▸ (h.ranked r root vs ho).mono hle⟩
  · rw [hw]
    cases hty' : txtype with
    | readWrite =>
        exact Or.inr ⟨tx, List.mem_append_right _ (List.mem_singleton_self tx), t, ht, hty.trans hty',
          (hnew hty').1.symm⟩
    | readOnly =>
        rcases h.last with hl' | ⟨k, hk, u, hu, hrw, hv⟩
        · exact Or.inl ((hsame hty').trans (hl'.trans hlast.symm))
        · obtain ⟨u', hu', -⟩ := hmgr.tx k (List.mem_append_left _ hk)
          obtain ⟨u₀, hu₀, hs⟩ := hold k hk u' hu'
          obtain rfl := Option.some.inj (hu.symm.trans hu₀)
          exact Or.inr ⟨k, List.mem_append_left _ hk, u', hu', hs.txType.trans hrw,
            hs.txversion.trans (hv.trans (hsame hty').symm)⟩
  · rw [hw]
    rcases hcases k hk u hu hrw with ⟨hk', hro, u₀, hu₀, hs⟩ | ⟨-, hv⟩
    · rw [hs.txversion, h.writer k hk' u₀ hu₀ (hs.txType ▸ hrw), hsame hro]
    · exact hv
  · rw [h.live r]
    simp [Trail.after, State.releases]
  · rcases hcases k hk u hu hrw with ⟨hk', -, u₀, hu₀, hs⟩ | ⟨hty', hv'⟩
    · rw [hs.ortxversion]
      exact h.kept r root vs ho v hr k hk' u₀ hu₀ (hs.txType ▸ hrw) (hs.txversion ▸ hv)
    · -- the new writer has freed nothing
      have := (h.freed r v hr).trans_lt (hnew hty').2
      omega

/-- **A commit.** -/
lemma commit (h : TrailInv x own garbage) (hl : x.Legal (.commit tx))
    (hstep : Tx.step x.state (.commit tx) = some (s, o)) : TrailInv (x.after (.commit tx) s) own garbage := by
  obtain ⟨m, hm, hs⟩ := Option.bind_eq_some_iff.mp hstep
  obtain ⟨rfl, -⟩ := Prod.mk.inj (Option.some.inj hs)
  obtain ⟨t, ht, hinv⟩ := h.mgr.tx tx hl
  obtain ⟨m', hcommit, hmgr, hlast, hold⟩ := h.mgr.commit_spec hl ht
  obtain rfl := Option.some.inj (hm.symm.trans hcommit)
  have hsub : ∀ k ∈ x.running.erase tx, k ∈ x.running := fun k hk => List.mem_of_mem_erase hk
  refine ⟨⟨h.heap.mem, h.heap.root, h.heap.retired, h.heap.ctx⟩, h.listed, hmgr, ?_, fun k hk u hu hrw => ?_,
    fun r => ?_, fun r hr => h.released r (by simpa [Trail.after, State.releases] using hr), h.freed,
    h.present, fun r root vs ho v hr k hk u hu hrw hv => ?_, h.ranked⟩
  · cases hty : t.txType with
    | readWrite =>
        have hcom : m.lastWriteCommittedId = t.txversion := by
          rw [hlast, Manager.committedBy, if_pos hty, (hinv.writer hty).1]
        exact Or.inl ((h.writer tx hl t ht hty).symm.trans hcom.symm)
    | readOnly =>
        have hcom : m.lastWriteCommittedId = x.state.manager.lastWriteCommittedId := by
          rw [hlast, Manager.committedBy, if_neg (by simp [hty])]
        rcases h.last with hl' | ⟨k, hk, u, hu, hrw, hv⟩
        · exact Or.inl (hl'.trans hcom.symm)
        · have hne : k ≠ tx := by
            rintro rfl
            obtain rfl := Option.some.inj (hu.symm.trans ht)
            rw [hty] at hrw
            cases hrw
          have hk' : k ∈ x.running.erase tx := (List.mem_erase_of_ne hne).mpr hk
          obtain ⟨u', hu', -⟩ := hmgr.tx k hk'
          obtain ⟨u₀, hu₀, hs⟩ := hold k hk' u' hu'
          obtain rfl := Option.some.inj (hu.symm.trans hu₀)
          exact Or.inr ⟨k, hk', u', hu', hs.txType.trans hrw, hs.txversion.trans hv⟩
  · obtain ⟨u₀, hu₀, hs⟩ := hold k hk u hu
    exact hs.txversion.trans (h.writer k (hsub k hk) u₀ hu₀ (hs.txType ▸ hrw))
  · rw [h.live r]
    simp [Trail.after, State.releases]
  · obtain ⟨u₀, hu₀, hs⟩ := hold k hk u hu
    rw [hs.ortxversion]
    exact h.kept r root vs ho v hr k (hsub k hk) u₀ hu₀ (hs.txType ▸ hrw) (hs.txversion ▸ hv)

/-- **An allocation.** -/
lemma alloc (h : TrailInv x own garbage) {d : α} (hl : x.Legal (.alloc tx r d))
    (hstep : Tx.step x.state (.alloc tx r d) = some (s, o)) :
    ∃ own', TrailInv (x.after (.alloc tx r d) s) own' garbage
      ∧ Ages own own' (x.after (.alloc tx r d) s).released
      ∧ (Accounted x own garbage → Accounted (x.after (.alloc tx r d) s) own' garbage) := by
  obtain ⟨htx, hw, hr⟩ := hl
  obtain ⟨t, ht, hty, hver, hor⟩ := h.object htx hw
  obtain ⟨p, root, v, halloc, hheld, hnd, hroot, hv, hf⟩ := alloc_spec x.state.pool t d
  have ho : own (.inl r) = [] := (h.live r).mpr (Or.inl hr)
  have hnr : x.released r = false := by
    rw [Bool.eq_false_iff]
    exact fun hc => (h.released r hc).1 hr
  have hs : s = { x.state with pool := p, refs := Function.update x.state.refs r (some root.addr) } := by
    simp only [Tx.step, ht, halloc, Option.bind_eq_bind, Option.bind_some, Option.some.injEq,
      Prod.mk.injEq] at hstep
    exact hstep.1.symm
  subst hs
  have hother : ∀ q, q ≠ r →
      Function.update own (.inl r) [root, v] (.inl q) = own (.inl q) := fun q hq =>
    Function.update_of_ne (fun he => hq (Sum.inl.inj he)) _ _
  have hself : Function.update own (.inl r) [root, v] (.inl r) = [root, v] := Function.update_self ..
  have hstamps : (chainOf root [v]).stamps = [t.txversion, 0] := by
    have h₁ : v.content.1 = t.txversion := by rw [hv]
    have h₂ : root.content.1 = 0 := by rw [hroot]
    exact congrArg₂ (fun a b => [a, b]) h₁ h₂
  refine ⟨Function.update own (.inl r) [root, v], ⟨h.heap.alloc ho hheld hnd hf,
    ⟨fun c e b hmem => ?_, h.listed.once⟩, h.mgr, h.last, h.writer, fun q => ?_, fun q hq => ?_, h.freed,
    fun q root' vs' hq hfr => ?_, fun q root' vs' hq w hfr => ?_, fun q root' vs' hq => ?_⟩,
    fun q root' vs' hq => ?_, fun ha => ⟨?_, fun a y hy => ?_, fun q root' vs' hq w hfr => ?_, fun q hfr => ?_,
      ha.contexts⟩⟩
  · rcases h.listed.block c e b hmem with ⟨y, hy⟩ | ⟨q, root', vs', hq, hrest⟩
    · exact Or.inl ⟨y, (Function.update_of_ne Sum.inr_ne_inl _ _).trans hy⟩
    · have hqr : q ≠ r := by
        rintro rfl
        rw [ho] at hq
        cases hq
      exact Or.inr ⟨q, root', vs', (hother q hqr).trans hq, hrest⟩
  · rcases eq_or_ne q r with rfl | hqr
    · simp [Trail.after, State.releases, hnr]
    · rw [hother q hqr, h.live q]
      simp [Trail.after, State.releases, Function.update_of_ne hqr]
  · rcases eq_or_ne q r with rfl | hqr
    · simp [Trail.after, State.releases, hnr] at hq
    · have hq' : x.released q = true := by simpa [Trail.after, State.releases] using hq
      simpa [Trail.after, Function.update_of_ne hqr] using h.released q hq'
  · rcases eq_or_ne q r with rfl | hqr
    · rw [hself] at hq
      cases hq
      rw [newest_chainOf]
      exact fun hn => Option.some_ne_none d ((congrArg Prod.snd hv).symm.trans hn)
    · rw [hother q hqr] at hq
      exact h.present q root' vs' hq hfr
  · rcases eq_or_ne q r with rfl | hqr
    · rw [hself] at hq
      cases hq
      intro k hk u hu hrw hv'
      obtain ⟨u', hu', hinv⟩ := h.mgr.tx k hk
      obtain rfl := Option.some.inj (hu.symm.trans hu')
      have hnew : (chainOf root [v]).newest.1 = t.txversion := congrArg Prod.fst hv
      have h₁ := h.writer k hk u hu hrw
      have h₂ := hinv.writer hrw
      omega
    · rw [hother q hqr] at hq
      exact h.kept q root' vs' hq w hfr
  · rcases eq_or_ne q r with rfl | hqr
    · rw [hself] at hq
      cases hq
      refine ⟨?_, ?_⟩
      · rw [hstamps]
        simp only [List.pairwise_cons, List.mem_singleton, forall_eq, List.not_mem_nil, IsEmpty.forall_iff,
          implies_true, List.Pairwise.nil, and_true]
        omega
      · rw [hstamps]
        intro n hn
        simp only [List.mem_cons, List.not_mem_nil, or_false] at hn
        change n ≤ x.writer
        omega
    · rw [hother q hqr] at hq
      exact h.ranked q root' vs' hq
  · have hqr : q ≠ r := by
      rintro rfl
      rw [ho] at hq
      cases hq
    exact Or.inr ⟨root', vs', (hother q hqr).trans hq, rfl, le_rfl⟩
  · refine ha.owned.update ?_
    have hempty : footprint (own (.inl r)) = ∅ := by
      rw [ho]
      ext k
      simp
    rwa [hempty]
  · exact ha.retired a y ((Function.update_of_ne Sum.inr_ne_inl _ _).symm.trans hy)
  · have hqr : q ≠ r := by
      rintro rfl
      exact ha.refs q (fun hnone => Option.some_ne_none w (hfr.symm.trans hnone)) hr
    exact ha.freed q root' vs' ((hother q hqr).symm.trans hq) w hfr
  · change Function.update x.state.refs r (some root.addr) q ≠ none
    rcases eq_or_ne q r with rfl | hqr
    · rw [Function.update_self]
      exact Option.some_ne_none _
    · rw [Function.update_of_ne hqr]
      exact ha.refs q hfr

/-! ### Calls on one reference -/

lemma after_read (x : Trail α) (tx c r : ℕ) (write : Bool) (s : State α) :
    x.after (.read tx c r write) s = { x with state := s } := by
  simp [Trail.after, State.releases]

lemma after_write (x : Trail α) (tx c r : ℕ) (f : α → α) (s : State α) :
    x.after (.write tx c r f) s = { x with state := s } := by
  simp [Trail.after, State.releases]

lemma after_free (x : Trail α) (tx c r : ℕ) (s : State α) :
    x.after (.free tx c r) s = { x with
      state := s
      freed := Function.update x.freed r ((s.manager.txs tx).map Tx.txversion) } := by
  simp [Trail.after, State.releases]

/-- **An operation of a writer on one reference** that leaves the chain of `root'` and `vs'`. -/
lemma op (h : TrailInv x own garbage) {root root' : Ver α} {vs vs' : List (Ver α)}
    (ho : own (.inl r) = root :: vs) {p : Txpool α} {ctx ctx' : Ctx} {ret : List (Ver α)}
    {new l : List (ℕ × ℕ)}
    (hop : OpResult x.state.pool (garbage c) root vs p ctx (root' :: vs') ret new)
    (haddr : root'.addr = root.addr) (hctx : CtxHeld ctx' l)
    (hlisted : ∀ own', Moved own own' r (root' :: vs') ret → Listed own' (Function.update garbage c l))
    (hranked : (chainOf root' vs').Ranked x.writer) (hts : root.ts ≤ root'.ts) {freed : ℕ → Option ℕ}
    (hother : ∀ q, q ≠ r → freed q = x.freed q) (hle : ∀ w, freed r = some w → w ≤ x.writer)
    (hpresent : freed r = none → (chainOf root' vs').newest.2 ≠ none)
    (hkept : ∀ w, freed r = some w → ∀ tx ∈ x.running, ∀ t, x.state.manager.txs tx = some t →
      t.txType = .readWrite → t.txversion = w → t.ortxversion < (chainOf root' vs').newest.1) :
    ∃ own', TrailInv { x with state := x.state.setPool p c ctx', freed := freed } own'
        (Function.update garbage c l)
      ∧ Ages own own' x.released
      ∧ (Accounted x own garbage → (∀ e ∈ new ++ garbage c, e ∈ l) →
        (∀ w, freed r = some w → (chainOf root' vs').newest.1 ≤ w
          ∧ ∃ c' e, (e, root'.addr) ∈ Function.update garbage c l c') →
        Accounted { x with state := x.state.setPool p c ctx', freed := freed } own'
          (Function.update garbage c l)) := by
  obtain ⟨own', hheap, hm⟩ := h.heap.op (c := c) ho hop fun root'' vs'' hk => by
    obtain ⟨rfl, -⟩ := List.cons.inj hk
    exact haddr
  have hheap' := hheap.setPool (p := p) (c := c) hheap.mem hctx
    (fun q root' vs' hq => ⟨root', vs', hq, rfl⟩) hheap.retired
  have hnil : ∀ q, own' (.inl q) = [] ↔ own (.inl q) = [] := by
    intro q
    rcases eq_or_ne q r with rfl | hq
    · simp [hm.self, ho]
    · rw [hm.other q hq]
  have hstay : (∀ e ∈ new ++ garbage c, e ∈ l) → ∀ c', ∀ e ∈ garbage c', e ∈ Function.update garbage c l c' := by
    intro hl c' e he
    rcases eq_or_ne c' c with rfl | hc
    · rw [Function.update_self]
      exact hl e (List.mem_append_right _ he)
    · rwa [Function.update_of_ne hc]
  refine ⟨own', ⟨by simpa [State.setPool] using hheap', hlisted own' hm, h.mgr, h.last, h.writer,
    fun q => (hnil q).trans (h.live q), fun q hq => ⟨(h.released q hq).1, ?_⟩, fun q w hq => ?_,
    fun q root'' vs'' hq hfr => ?_, fun q root'' vs'' hq w hfr => ?_, fun q root'' vs'' hq => ?_⟩,
    fun q root'' vs'' hq => ?_, fun ha hl hself => ⟨?_, fun a y hy => ?_, fun q root'' vs'' hq w hfr => ?_,
      fun q hfr => ?_, ha.contexts_update c l⟩⟩
  · have hqr : q ≠ r := by
      rintro rfl
      rw [(h.live q).mpr (Or.inr hq)] at ho
      cases ho
    exact (hother q hqr).trans_ne (h.released q hq).2
  · rcases eq_or_ne q r with rfl | hqr
    · exact hle w hq
    · exact h.freed q w ((hother q hqr).symm.trans hq)
  · rcases eq_or_ne q r with rfl | hqr
    · obtain ⟨rfl, rfl⟩ := List.cons.inj (hm.self.symm.trans hq)
      exact hpresent hfr
    · rw [hm.other q hqr] at hq
      exact h.present q root'' vs'' hq ((hother q hqr).symm.trans hfr)
  · rcases eq_or_ne q r with rfl | hqr
    · obtain ⟨rfl, rfl⟩ := List.cons.inj (hm.self.symm.trans hq)
      exact hkept w hfr
    · rw [hm.other q hqr] at hq
      exact h.kept q root'' vs'' hq w ((hother q hqr).symm.trans hfr)
  · rcases eq_or_ne q r with rfl | hqr
    · obtain ⟨rfl, rfl⟩ := List.cons.inj (hm.self.symm.trans hq)
      exact hranked
    · rw [hm.other q hqr] at hq
      exact h.ranked q root'' vs'' hq
  · rcases eq_or_ne q r with rfl | hqr
    · obtain ⟨rfl, rfl⟩ := List.cons.inj (ho.symm.trans hq)
      exact Or.inr ⟨root', vs', hm.self, haddr, hts⟩
    · exact Or.inr ⟨root'', vs'', (hm.other q hqr).trans hq, rfl, le_rfl⟩
  · exact hm.owned h.heap ho hop.mem_ret hop.frame ha.owned
  · by_cases hret : a ∈ ret.map Ver.addr
    · rw [← hop.listed] at hret
      obtain ⟨⟨e, b⟩, hin, rfl⟩ := List.mem_map.mp hret
      refine ⟨c, e, ?_⟩
      rw [Function.update_self]
      exact hl _ (List.mem_append_left _ hin)
    · obtain ⟨c', e, hin⟩ := ha.retired a y ((hm.same a hret).symm.trans hy)
      exact ⟨c', e, hstay hl c' _ hin⟩
  · rcases eq_or_ne q r with rfl | hqr
    · obtain ⟨rfl, rfl⟩ := List.cons.inj (hm.self.symm.trans hq)
      exact hself w hfr
    · obtain ⟨hle', c', e, hin⟩ := ha.freed q root'' vs'' ((hm.other q hqr).symm.trans hq) w
        ((hother q hqr).symm.trans hfr)
      exact ⟨hle', c', e, hstay hl c' _ hin⟩
  · rcases eq_or_ne q r with rfl | hqr
    · exact (h.heap.root q root vs ho).trans_ne (Option.some_ne_none _)
    · exact ha.refs q ((hother q hqr).symm.trans_ne hfr)

/-- A store through a data pointer. -/
lemma stored (h : TrailInv x own garbage) {d : ℕ} {y : α} {dp : Pool α}
    (hget : dp.get = Function.update x.state.pool.dataPalloc.get d (some y)) :
    TrailInv { x with state := { x.state with pool := { x.state.pool with dataPalloc := dp } } }
        (fun i => (own i).map (storeVer d y)) garbage
      ∧ Ages own (fun i => (own i).map (storeVer d y)) x.released
      ∧ (Accounted x own garbage → x.state.pool.dataPalloc.get d ≠ none →
        Accounted { x with state := { x.state with pool := { x.state.pool with dataPalloc := dp } } }
          (fun i => (own i).map (storeVer d y)) garbage) := by
  refine ⟨⟨h.heap.stored hget, h.listed.stored d y, h.mgr, h.last, h.writer,
    fun r => List.map_eq_nil_iff.trans (h.live r), h.released, h.freed, fun r root vs ho hfr => ?_,
    fun r root vs ho w hfr tx htx t ht hty hv => ?_, fun r root vs ho => ?_⟩, fun r root vs ho => ?_,
    fun ha hd => ⟨fun k hk => ?_, fun a z hz => ?_, fun r root vs ho w hfr => ?_, ha.refs, ha.contexts⟩⟩
  · obtain ⟨root', vs', ho', rfl, rfl⟩ := List.map_eq_cons_iff.mp ho
    exact mt (newest_store root' vs').2.mp (h.present r root' vs' ho' hfr)
  · obtain ⟨root', vs', ho', rfl, rfl⟩ := List.map_eq_cons_iff.mp ho
    rw [(newest_store root' vs').1]
    exact h.kept r root' vs' ho' w hfr tx htx t ht hty hv
  · obtain ⟨root', vs', ho', rfl, rfl⟩ := List.map_eq_cons_iff.mp ho
    have hr := h.ranked r root' vs' ho'
    exact hr.of_sublist (stamps_store root' vs' ▸ List.Sublist.refl _)
  · exact Or.inr ⟨storeVer d y root, vs.map (storeVer d y), congrArg (List.map (storeVer d y)) ho, rfl,
      le_rfl⟩
  · obtain ⟨i, hi⟩ := ha.owned k fun hnone => hk (by
      change (⟨dp, x.state.pool.blockPalloc⟩ : Txpool α).mem k = none
      rw [mem_of_data hget, Function.update_of_ne, hnone]
      rintro rfl
      exact hd (by simpa [Txpool.mem] using hnone))
    refine ⟨i, ?_⟩
    rw [mem_footprint] at hi ⊢
    rwa [cellsOf_store]
  · obtain ⟨z', hz', -⟩ := List.map_eq_singleton_iff.mp hz
    exact ha.retired a z' hz'
  · obtain ⟨root', vs', ho', rfl, rfl⟩ := List.map_eq_cons_iff.mp ho
    obtain ⟨hle, hin⟩ := ha.freed r root' vs' ho' w hfr
    exact ⟨(newest_store root' vs').1.trans_le hle, hin⟩

/-- The root of a listed reference holds nothing. -/
lemma newest_eq_none (h : TrailInv x own garbage) {root : Ver α} {vs : List (Ver α)}
    (ho : own (.inl r) = root :: vs) {e : ℕ} (hin : (e, root.addr) ∈ garbage c) :
    (chainOf root vs).newest.2 = none := by
  by_contra hne
  exact h.listed.not_mem_root h.heap ho hne c e hin

/-- **An access**: a reader's changes nothing. -/
lemma access (h : TrailInv x own garbage) {t : Tx} (htx : tx ∈ x.running)
    (ht : x.state.manager.txs tx = some t) {main : ℕ} (hmain : x.state.refs r = some main)
    (hlive : x.Writer tx → x.released r = false) {write : Bool} {p : Txpool α} {ctx : Ctx} {data : Option ℕ}
    (hptr : x.state.pool.ptr t (x.state.ctxs c) main write = some (p, ctx, data)) :
    ∃ own' garbage', TrailInv { x with state := x.state.setPool p c ctx } own' garbage'
      ∧ Ages own own' x.released
      ∧ (Accounted x own garbage → Accounted { x with state := x.state.setPool p c ctx } own' garbage') := by
  cases hty : t.txType with
  | readOnly =>
      obtain ⟨rfl, rfl⟩ := ptr_reader_eq hty hptr
      have hsame : x.state.setPool x.state.pool c (x.state.ctxs c) = x.state := by
        rw [State.setPool, Function.update_eq_self]
      rw [hsame]
      exact ⟨own, garbage, h, Ages.refl own _, fun ha => ha⟩
  | readWrite =>
      have hw : x.Writer tx := by
        rw [Trail.Writer, ht, Option.map_some, hty]
      obtain ⟨t', ht', -, hver, hor⟩ := h.object htx hw
      obtain rfl := Option.some.inj (ht.symm.trans ht')
      cases ho : own (.inl r) with
      | nil =>
          rcases (h.live r).mp ho with hr | hr
          · rw [hmain] at hr
            cases hr
          · rw [hlive hw] at hr
            cases hr
      | cons root vs =>
          obtain rfl := Option.some.inj (hmain.symm.trans (h.heap.root r root vs ho))
          have hheld := h.heap.mem.held (.inl r)
          have hnd := h.heap.mem.nodup (.inl r)
          rw [ho] at hheld hnd
          have hranked := h.ranked r root vs ho
          have hts : ∀ u ∈ (chainOf root vs).versions, u.1 ≤ t.txversion := hver ▸ hranked.version_le
          obtain ⟨hsafe, hcoll, hwrite⟩ := ptr_writer_of_eq hty hheld hnd (h.heap.ctx c) hts hptr
          obtain ⟨p', ctx', root', vs', ret, new, hptr', hop, haddr, hchain⟩ :=
            ptr_writer_spec write hty hheld hnd (h.heap.ctx c) hsafe hcoll hts hwrite
          obtain ⟨rfl, rfl, -⟩ : p' = p ∧ ctx' = ctx ∧ _ := by
            simpa using hptr'.symm.trans hptr
          have hrankedgc := hranked.gc t.ortxversion
          have hnewgc := Chain.newest_gc (chainOf root vs) t.ortxversion
          -- a write access leaves a chain with the same contents in front and the same root
          obtain ⟨hranked', hnew, hle, hroot⟩ : (chainOf root' vs').Ranked x.writer
              ∧ (chainOf root' vs').newest.2 = (chainOf root vs).newest.2
              ∧ (chainOf root vs).newest.1 ≤ (chainOf root' vs').newest.1
              ∧ (chainOf root vs).root.1 ≤ (chainOf root' vs').root.1 := by
            rw [hchain]
            split
            · obtain ⟨h₁, h₂⟩ := Chain.newest_touch ((chainOf root vs).gc t.ortxversion) t.txversion
              rw [hnewgc] at h₁ h₂
              refine ⟨?_, h₁, h₂, ?_⟩
              · rw [hver]
                exact hrankedgc.touch
              · rw [Chain.root_touch]
                exact hranked.root_le_gc _
            · exact ⟨hrankedgc, congrArg Prod.snd hnewgc, (congrArg Prod.fst hnewgc).ge,
                hranked.root_le_gc _⟩
          obtain ⟨own', hinv, hages, hacc⟩ := h.op (c := c) ho hop haddr hop.ctx
            (fun own' hm => h.listed.op h.heap ho hop hm haddr fun hn => hnew.trans hn) hranked' hroot
            (fun q _ => (rfl : x.freed q = x.freed q)) (h.freed r)
            (fun hfr => hnew ▸ h.present r root vs ho hfr)
            fun w hfr k hk u hu hrw hv => (h.kept r root vs ho w hfr k hk u hu hrw hv).trans_le hle
          refine ⟨own', _, hinv, hages, fun ha => hacc ha (fun e he => he) fun w hfr => ?_⟩
          obtain ⟨hlew, c', e, hin⟩ := ha.freed r root vs ho w hfr
          refine ⟨?_, c', e, ?_⟩
          · -- a freed reference holds nothing to write to
            have hsame : (chainOf root' vs').newest.1 = (chainOf root vs).newest.1 := by
              rw [hchain]
              split
              · next hw' =>
                  have hnone := h.newest_eq_none ho hin
                  have hge : ¬ (chainOf root vs).newest.1 < t.txversion := fun hlt => hwrite hw' hlt hnone
                  rw [Chain.touch, hnewgc, if_neg hge, hnewgc]
              · rw [hnewgc]
            exact hsame.trans_le hlew
          · rw [haddr]
            rcases eq_or_ne c' c with rfl | hc
            · rw [Function.update_self]
              exact List.mem_append_right _ hin
            · rwa [Function.update_of_ne hc]

/-- **A read.** -/
lemma read (h : TrailInv x own garbage) {write : Bool} (hl : x.Legal (.read tx c r write))
    (hlive : x.Live (.read tx c r write)) (hstep : Tx.step x.state (.read tx c r write) = some (s, o)) :
    ∃ own' garbage', TrailInv (x.after (.read tx c r write) s) own' garbage'
      ∧ Ages own own' (x.after (.read tx c r write) s).released
      ∧ (Accounted x own garbage → Accounted (x.after (.read tx c r write) s) own' garbage') := by
  obtain ⟨t, ht, hstep⟩ := Option.bind_eq_some_iff.mp hstep
  obtain ⟨main, hmain, hstep⟩ := Option.bind_eq_some_iff.mp hstep
  obtain ⟨⟨p, ctx, data⟩, hptr, hstep⟩ := Option.bind_eq_some_iff.mp hstep
  obtain ⟨y, -, hstep⟩ := Option.bind_eq_some_iff.mp hstep
  obtain ⟨rfl, -⟩ := Prod.mk.inj (Option.some.inj hstep)
  rw [after_read]
  exact h.access hl ht hmain hlive hptr

/-- **A write.** -/
lemma write (h : TrailInv x own garbage) {f : α → α} (hl : x.Legal (.write tx c r f))
    (hlive : x.Live (.write tx c r f)) (hstep : Tx.step x.state (.write tx c r f) = some (s, o)) :
    ∃ own' garbage', TrailInv (x.after (.write tx c r f) s) own' garbage'
      ∧ Ages own own' (x.after (.write tx c r f) s).released
      ∧ (Accounted x own garbage → Accounted (x.after (.write tx c r f) s) own' garbage') := by
  obtain ⟨t, ht, hstep⟩ := Option.bind_eq_some_iff.mp hstep
  obtain ⟨main, hmain, hstep⟩ := Option.bind_eq_some_iff.mp hstep
  obtain ⟨⟨p, ctx, data⟩, hptr, hstep⟩ := Option.bind_eq_some_iff.mp hstep
  obtain ⟨d, -, hstep⟩ := Option.bind_eq_some_iff.mp hstep
  obtain ⟨y, hy, hstep⟩ := Option.bind_eq_some_iff.mp hstep
  obtain ⟨dp, hput, hstep⟩ := Option.bind_eq_some_iff.mp hstep
  obtain ⟨rfl, -⟩ := Prod.mk.inj (Option.some.inj hstep)
  rw [after_write]
  obtain ⟨own', garbage', hinv, hages, hacc⟩ := h.access hl ht hmain hlive hptr
  obtain ⟨dp', hput', hget⟩ := Pool.get_put hy (f y)
  obtain rfl := Option.some.inj (hput.symm.trans hput')
  obtain ⟨hinv', hages', hacc'⟩ := hinv.stored (d := d) hget
  exact ⟨_, garbage', hinv', hages.trans hages' fun _ hr => hr,
    fun ha => hacc' (hacc ha) (hy.trans_ne (Option.some_ne_none y))⟩

/-- **A free.** -/
lemma free (h : TrailInv x own garbage) (hl : x.Legal (.free tx c r))
    (hstep : Tx.step x.state (.free tx c r) = some (s, o)) :
    ∃ own' garbage', TrailInv (x.after (.free tx c r) s) own' garbage'
      ∧ Ages own own' (x.after (.free tx c r) s).released
      ∧ (Accounted x own garbage → Accounted (x.after (.free tx c r) s) own' garbage') := by
  obtain ⟨htx, hw, hfr⟩ := hl
  obtain ⟨t, ht, hty, hver, hor⟩ := h.object htx hw
  obtain ⟨t', ht', hstep⟩ := Option.bind_eq_some_iff.mp hstep
  obtain rfl := Option.some.inj (ht.symm.trans ht')
  obtain ⟨main, hmain, hstep⟩ := Option.bind_eq_some_iff.mp hstep
  obtain ⟨⟨p, ctx⟩, hfree, hstep⟩ := Option.bind_eq_some_iff.mp hstep
  obtain ⟨rfl, -⟩ := Prod.mk.inj (Option.some.inj hstep)
  cases ho : own (.inl r) with
  | nil =>
      rcases (h.live r).mp ho with hr | hr
      · rw [hmain] at hr
        cases hr
      · exact absurd hfr (h.released r hr).2
  | cons root vs =>
      obtain rfl := Option.some.inj (hmain.symm.trans (h.heap.root r root vs ho))
      have hheld := h.heap.mem.held (.inl r)
      have hnd := h.heap.mem.nodup (.inl r)
      rw [ho] at hheld hnd
      have hranked := h.ranked r root vs ho
      have hp := h.present r root vs ho hfr
      obtain ⟨p', ctx₁, ctx', root', vs', ret, new, e, hfree', hop, hctx', haddr, hchain⟩ :=
        free_spec (t := t) hheld hnd (h.heap.ctx c) hp
      obtain ⟨rfl, rfl⟩ := Prod.mk.inj (Option.some.inj (hfree'.symm.trans hfree))
      obtain ⟨hnone, hnew⟩ := Chain.newest_free ((chainOf root vs).gc t.ortxversion) hor
      have hranked' := (hver.symm ▸ hranked.gc t.ortxversion : Chain.Ranked t.txversion _).free hor
      have hroot : (chainOf root vs).root.1 ≤ (chainOf root' vs').root.1 := by
        rw [hchain, Chain.root_free]
        exact hranked.root_le_gc _
      rw [← hchain] at hnone hnew hranked'
      have hfreed : Function.update x.freed r (((x.state.setPool p' c ctx').manager.txs tx).map Tx.txversion) r
          = some t.txversion := by
        have htxs : (x.state.setPool p' c ctx').manager.txs tx = some t := ht
        rw [Function.update_self, htxs]
        rfl
      obtain ⟨own', hinv, hages, hacc⟩ := h.op (c := c) ho hop haddr hctx'
        (fun own' hm => h.listed.free h.heap ho hop hm haddr hp hnone e) (hver ▸ hranked') hroot
        (fun q hq => Function.update_of_ne hq _ _)
        (fun w hr => by
          obtain rfl := Option.some.inj (hfreed.symm.trans hr)
          exact hver.le)
        (fun hr => absurd (hfreed.symm.trans hr) (Option.some_ne_none _))
        (fun w hr k hk u hu hrw hv => by
          obtain rfl := h.mgr.one k hk tx htx u t hu ht hrw hty
          obtain rfl := Option.some.inj (ht.symm.trans hu)
          exact hnew)
      rw [after_free]
      refine ⟨own', _, hinv, hages, fun ha => hacc ha (fun e' he => List.mem_cons_of_mem _ he) fun w hr =>
        ⟨?_, c, e, ?_⟩⟩
      · obtain rfl := Option.some.inj (hfreed.symm.trans hr)
        exact hranked'.le _ (Chain.newest_mem_stamps _)
      · rw [Function.update_self, haddr]
        exact List.mem_cons_self

/-! ### Collections -/

/-- **A collection of a context**, and what it does to the owners and to the list. -/
lemma gc (h : TrailInv x own garbage) {force : Bool} {orv : ℕ}
    (horv : x.state.manager.oldestRunningVersion = some orv)
    (hstep : Tx.step x.state (.gc c force) = some (s, o)) :
    ∃ own' l, TrailInv (x.after (.gc c force) s) own' (Function.update garbage c l)
      ∧ Ages own own' (x.after (.gc c force) s).released
      ∧ (Accounted x own garbage → Accounted (x.after (.gc c force) s) own' (Function.update garbage c l))
      ∧ s.manager = x.state.manager
      ∧ Collected orv force ((garbage c).map Prod.snd) own own'
      ∧ Swept orv force ((garbage c).map Prod.snd) x.state.pool.mem s.pool.mem own own'
      ∧ Relisted orv force own (garbage c) l := by
  obtain ⟨orv', horv', hstep⟩ := Option.bind_eq_some_iff.mp hstep
  obtain rfl := Option.some.inj (horv.symm.trans horv')
  obtain ⟨⟨p, ctx, all⟩, hrun, hstep⟩ := Option.bind_eq_some_iff.mp hstep
  obtain ⟨rfl, -⟩ := Prod.mk.inj (Option.some.inj hstep)
  obtain ⟨p', ctx', all', own', l, hgc, hheap, hlisted, hcoll, hswept, hrelisted⟩ :=
    ctx_gc_spec h.heap h.listed c orv force (gcSafe_of_ctx_gc h.heap h.listed hrun)
  obtain ⟨rfl, rfl, -⟩ : p' = p ∧ ctx' = ctx ∧ _ := by
    simpa using hgc.symm.trans hrun
  have hreleased : ∀ q, (x.after (.gc c force) (x.state.setPool p' c ctx')).released q
      = (x.released q || x.state.releases (.gc c force) q) := fun _ => rfl
  -- what becomes of each chain
  have hchain : ∀ q root vs, own (.inl q) = root :: vs →
      x.state.releases (.gc c force) q = true ∧ own' (.inl q) = []
        ∨ x.state.releases (.gc c force) q = false ∧ ∃ root' vs', own' (.inl q) = root' :: vs'
          ∧ root'.addr = root.addr ∧ (chainOf root' vs').Ranked x.writer
          ∧ (chainOf root' vs').newest = (chainOf root vs).newest
          ∧ (chainOf root vs).root.1 ≤ (chainOf root' vs').root.1 := by
    intro q root vs ho
    have hranked := h.ranked q root vs ho
    by_cases hmem : root.addr ∈ (garbage c).map Prod.snd
    · by_cases hgone : force = true ∨ (chainOf root vs).Collectable orv
      · exact Or.inl ⟨(h.heap.releases_iff horv ho).mpr ⟨hmem, hgone⟩, hcoll.gone q root vs ho hmem hgone⟩
      · obtain ⟨root', vs', ho', haddr, heq⟩ := hcoll.kept q root vs ho hmem hgone
        refine Or.inr ⟨Bool.eq_false_iff.mpr fun hrel => ?_, root', vs', ho', haddr, ?_, ?_, ?_⟩
        · exact hgone ((h.heap.releases_iff horv ho).mp hrel).2
        · rw [heq]
          exact hranked.gc orv
        · rw [heq, Chain.newest_gc]
        · rw [heq]
          exact hranked.root_le_gc orv
    · refine Or.inr ⟨Bool.eq_false_iff.mpr fun hrel => ?_, root, vs, hcoll.other q root vs ho hmem, rfl,
        hranked, rfl, le_rfl⟩
      exact hmem ((h.heap.releases_iff horv ho).mp hrel).1
  have hback : ∀ q root' vs', own' (.inl q) = root' :: vs' → ∃ root vs, own (.inl q) = root :: vs
      ∧ (chainOf root' vs').Ranked x.writer ∧ (chainOf root' vs').newest = (chainOf root vs).newest := by
    intro q root' vs' ho'
    cases ho : own (.inl q) with
    | nil =>
        rw [hcoll.empty q ho] at ho'
        cases ho'
    | cons root vs =>
        rcases hchain q root vs ho with ⟨-, hnil⟩ | ⟨-, root'', vs'', ho'', -, hr, hn, -⟩
        · rw [hnil] at ho'
          cases ho'
        · obtain ⟨rfl, rfl⟩ := List.cons.inj (ho'.symm.trans ho'')
          exact ⟨root, vs, rfl, hr, hn⟩
  -- the entry of a block stays if its owner does
  have hstay : ∀ c' e b, (e, b) ∈ garbage c' → ∀ i root vs, own i = root :: vs → root.addr = b →
      (∀ hc : c' = c, ¬ (force = true ∨ (chainOf root vs).Collectable orv)) →
      (e, b) ∈ Function.update garbage c l c' := by
    intro c' e b hin i root vs ho haddr hno
    rcases eq_or_ne c' c with rfl | hc
    · rw [Function.update_self]
      exact hrelisted.kept e b hin i root vs ho haddr (hno rfl)
    · rwa [Function.update_of_ne hc]
  refine ⟨own', l, ⟨hheap, hlisted, h.mgr, h.last, h.writer, fun q => ?_, fun q hq => ?_, h.freed,
    fun q root' vs' ho' hfr => ?_, fun q root' vs' ho' w hfr => ?_, fun q root' vs' ho' => ?_⟩,
    fun q root vs ho => ?_, fun ha => ⟨hswept.owned ha.owned, fun a y hy => ?_, fun q root' vs' ho' w hfr => ?_,
      ha.refs, ha.contexts_update c l⟩, rfl, hcoll, hswept, hrelisted⟩
  · rw [hreleased]
    cases ho : own (.inl q) with
    | nil =>
        refine iff_of_true (hcoll.empty q ho) ?_
        exact ((h.live q).mp ho).imp_right fun hr => by rw [hr, Bool.true_or]
    | cons root vs =>
        have hno : ¬ (x.state.refs q = none ∨ x.released q = true) := fun hc => by
          rw [(h.live q).mpr hc] at ho
          cases ho
        rw [not_or, Bool.not_eq_true] at hno
        rcases hchain q root vs ho with ⟨hrel, hnil⟩ | ⟨hrel, root', vs', ho', -⟩
        · exact iff_of_true hnil (Or.inr (by rw [hrel, Bool.or_true]))
        · rw [ho', hno.2, hrel, Bool.or_false]
          refine iff_of_false (List.cons_ne_nil _ _) (not_or.mpr ⟨hno.1, Bool.false_ne_true⟩)
  · rw [hreleased, Bool.or_eq_true] at hq
    refine hq.elim (h.released q) fun hrel => ?_
    have hrefs : x.state.refs q ≠ none := fun hnone => by
      simp [State.releases, hnone] at hrel
    cases ho : own (.inl q) with
    | nil => exact h.released q (((h.live q).mp ho).resolve_left hrefs)
    | cons root vs =>
        refine ⟨hrefs, fun hfr => ?_⟩
        obtain ⟨⟨e, b⟩, hin, rfl⟩ := List.mem_map.mp ((h.heap.releases_iff horv ho).mp hrel).1
        exact h.listed.not_mem_root h.heap ho (h.present q root vs ho hfr) c e hin
  · obtain ⟨root, vs, ho, -, hn⟩ := hback q root' vs' ho'
    rw [hn]
    exact h.present q root vs ho hfr
  · obtain ⟨root, vs, ho, -, hn⟩ := hback q root' vs' ho'
    rw [hn]
    exact h.kept q root vs ho w hfr
  · obtain ⟨root, vs, ho, hr, -⟩ := hback q root' vs' ho'
    exact hr
  · rw [hreleased]
    rcases hchain q root vs ho with ⟨hrel, -⟩ | ⟨-, root', vs', ho', haddr, -, -, hts⟩
    · exact Or.inl (by rw [hrel, Bool.or_true])
    · exact Or.inr ⟨root', vs', ho', haddr, hts⟩
  · rcases hswept.new a y hy with hold | ⟨q, root, vs, ho, hmem, hforce, hy', rfl⟩
    · obtain ⟨c', e, hin⟩ := ha.retired a y hold
      refine ⟨c', e, hstay c' e a hin _ y [] hold (h.heap.addr_eq (by simp [hold])).2 fun hc hgone => ?_⟩
      subst hc
      rw [hswept.gone a y hold (List.mem_map_of_mem (f := Prod.snd) hin) hgone] at hy
      cases hy
    · obtain ⟨e, hin⟩ := hrelisted.added hforce root.addr hmem _ root vs ho rfl y hy'
      refine ⟨c, e, ?_⟩
      rwa [Function.update_self]
  · obtain ⟨root, vs, ho, -, hn⟩ := hback q root' vs' ho'
    obtain ⟨hle, c', e, hin⟩ := ha.freed q root vs ho w hfr
    have haddr : root'.addr = root.addr :=
      Option.some.inj ((hheap.root q root' vs' ho').symm.trans (h.heap.root q root vs ho))
    refine ⟨(congrArg Prod.fst hn).trans_le hle, c', e, ?_⟩
    rw [haddr]
    refine hstay c' e root.addr hin _ root vs ho rfl fun hc hgone => ?_
    subst hc
    rw [hcoll.gone q root vs ho (List.mem_map_of_mem (f := Prod.snd) hin) hgone] at ho'
    cases ho'

/-! ### All calls -/

/-- **Each call keeps the invariant**, if no writer accesses a reference whose root is gone. -/
theorem call (h : TrailInv x own garbage) {st : Step α} (hl : x.Legal st) (hlive : x.Live st) {y : Trail α}
    (hstep : x.step st = some y) :
    ∃ own' garbage', TrailInv y own' garbage' ∧ Ages own own' y.released
      ∧ (Accounted x own garbage → Accounted y own' garbage') := by
  obtain ⟨⟨s, o⟩, hcall, rfl⟩ := Option.map_eq_some_iff.mp hstep
  cases st with
  | begin tx txtype =>
      obtain ⟨m, -, hs⟩ := Option.bind_eq_some_iff.mp hcall
      obtain ⟨rfl, -⟩ := Prod.mk.inj (Option.some.inj hs)
      exact ⟨own, garbage, h.begin hl hcall, Ages.refl own _,
        fun ha => ⟨ha.owned, ha.retired, ha.freed, ha.refs, ha.contexts⟩⟩
  | commit tx =>
      obtain ⟨m, -, hs⟩ := Option.bind_eq_some_iff.mp hcall
      obtain ⟨rfl, -⟩ := Prod.mk.inj (Option.some.inj hs)
      exact ⟨own, garbage, h.commit hl hcall, Ages.refl own _,
        fun ha => ⟨ha.owned, ha.retired, ha.freed, ha.refs, ha.contexts⟩⟩
  | alloc tx r d =>
      obtain ⟨own', hinv, hages⟩ := h.alloc hl hcall
      exact ⟨own', garbage, hinv, hages⟩
  | read tx c r write => exact h.read hl hlive hcall
  | write tx c r f => exact h.write hl hlive hcall
  | free tx c r => exact h.free hl hcall
  | gc c force =>
      obtain ⟨orv, horv, -⟩ := h.mgr.oldest
      obtain ⟨own', l, hinv, hages, hacc, -⟩ := h.gc horv hcall
      exact ⟨own', _, hinv, hages, hacc⟩

/-- **A run keeps the invariant.** -/
theorem run {ok : Trail α → Step α → Prop} (hok : ∀ x st, ok x st → x.Live st) {y : Trail α}
    (h : TrailInv x own garbage) (hrun : Relation.ReflTransGen (Trail.Call ok) x y) :
    ∃ own' garbage', TrailInv y own' garbage' ∧ Ages own own' y.released
      ∧ (Accounted x own garbage → Accounted y own' garbage') := by
  induction hrun with
  | refl => exact ⟨own, garbage, h, Ages.refl own _, fun ha => ha⟩
  | tail _ hcall ih =>
      obtain ⟨own', garbage', hinv, hages, hacc⟩ := ih
      obtain ⟨st, hl, hlive, hstep⟩ := hcall
      obtain ⟨own'', garbage'', hinv', hages', hacc'⟩ := hinv.call hl (hok _ st hlive) hstep
      exact ⟨own'', garbage'', hinv', hages.trans hages' fun r hr =>
        Trail.released_mono (.single ⟨st, hl, hlive, hstep⟩) hr, fun ha => hacc' (hacc ha)⟩

end TrailInv

end Tx

end Furious
