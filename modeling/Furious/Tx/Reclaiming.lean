import Furious.Tx.Releases

/-!
What repeated collections give back.

When no transaction runs, a collection folds the old versions of the freed references that it meets,
and releases the roots that are old enough; the versions that it has folded are released by the next
one. Those that a writer has folded into a reference in use have data, which no collection releases.

* `Trail.collections`: collections of contexts, one after the other;
* `Trail.Clean`: what is allocated is in use, or has been freed by the last writer;
* `Trail.Reclaims`: enough collections of every context leave a clean state;
* `Passed`: what one and what two collections of a context leave in its list;
* `reclaims_iff`: **enough collections do so exactly if no old folded version has data**, and they
  fold into data.
-/

namespace Furious

variable {α : Type}

/-- **All cells of a chain are reached** from where the chain starts. -/
lemma Held.reaches_of_start {p : Txpool α} {a : ℕ} {vs : List (Ver α)} (h : Held p.mem vs none)
    (hstart : ∀ b, startOf vs none = some b → p.Reaches a (.inl b)) {v : Ver α} (hv : v ∈ vs) {k : ℕ ⊕ ℕ}
    (hk : k ∈ v.cells) : p.Reaches a k := by
  induction vs with
  | nil => exact absurd hv List.not_mem_nil
  | cons u vs ih =>
      have hu := hstart u.addr rfl
      rcases List.mem_cons.mp hv with rfl | hv
      · rcases Ver.mem_cells.mp hk with rfl | ⟨d, x, hd, rfl⟩
        · exact hu
        · exact hu.data h.block (by rw [Ver.block, hd]; rfl)
      · exact ih h.2.2 (fun b hb => hu.next h.block hb) hv

/-- When nothing runs, the last committed version is the cut-off. -/
lemma MgrInv.oldest_idle {m : Manager} (h : MgrInv m []) : m.oldestRunningVersion = some m.lastWriteCommittedId := by
  rw [Manager.oldestRunningVersion, h.first]
  rfl

namespace Tx

namespace Trail

/-- Collections of the contexts, one after the other. -/
def collections : Trail α → List ℕ → Option (Trail α)
  | x, [] => some x
  | x, c :: cs => (x.step (.gc c false)).bind fun y => y.collections cs

/-- What writers older than the last one have freed is gone, and all that is allocated is reached from a
reference in use or from an entry of the last writer. -/
structure Clean (x : Trail α) : Prop where
  freed : ∀ r w, x.freed r = some w → w < x.state.manager.lastWriteCommittedId → x.released r = true
  used : ∀ k, x.state.pool.mem k ≠ none →
    (∃ r main, x.state.refs r = some main ∧ x.released r = false ∧ x.state.pool.Reaches main k)
      ∨ ∃ c, ∃ b ∈ (x.state.ctxs c).blocks, x.state.pool.Reaches b k ∧ ∃ blk,
        x.state.pool.blockPalloc.get b = some blk ∧ x.state.manager.lastWriteCommittedId ≤ blk.ts

/-- Enough collections of every context leave a clean state. -/
def Reclaims (x : Trail α) : Prop :=
  ∃ (contexts : Finset ℕ) (n : ℕ), (∀ c ∉ contexts, (x.state.ctxs c).blocks = [])
    ∧ ∀ cs : List ℕ, (∀ c ∈ contexts, n ≤ cs.count c) → ∃ y, x.collections cs = some y ∧ y.Clean

/-- The collections fold into data, and no listed version of an old writer has data: a listed block with
no version hanging off it. -/
def Reclaimable (x : Trail α) : Prop :=
  ∀ c, x.Foldable (.gc c false) ∧ ∀ b ∈ (x.state.ctxs c).blocks, ∀ blk ∈ x.state.pool.blockPalloc.get b,
    blk.nextVersion = none → blk.ts < x.state.manager.lastWriteCommittedId → blk.data = none

end Trail

variable {x : Trail α} {own own' : ℕ ⊕ ℕ → List (Ver α)} {garbage : ℕ → List (ℕ × ℕ)} {c c' orv n : ℕ}
  {l : List (ℕ × ℕ)}

/-! ### One collection after another -/

/-- What `n` collections of the context `c` have done: after the first one the listed references have
no versions left, and those of old writers are gone; after the second one the old versions are gone. -/
structure Passed (own : ℕ ⊕ ℕ → List (Ver α)) (garbage : ℕ → List (ℕ × ℕ)) (orv c n : ℕ) : Prop where
  roots : 1 ≤ n → ∀ e b, (e, b) ∈ garbage c → ∀ r root vs, own (.inl r) = root :: vs → root.addr = b →
    vs = [] ∧ orv ≤ root.ts
  retired : 2 ≤ n → ∀ e b, (e, b) ∈ garbage c → ∀ y, own (.inr b) = [y] → orv ≤ y.ts

/-- The state between the collections: nothing runs, and they find what they can release. -/
structure Idle (x : Trail α) (own : ℕ ⊕ ℕ → List (Ver α)) (garbage : ℕ → List (ℕ × ℕ)) (orv : ℕ) : Prop where
  running : x.running = []
  last : x.state.manager.lastWriteCommittedId = orv
  safe : ∀ c e b, (e, b) ∈ garbage c → ∀ r root vs, own (.inl r) = root :: vs → root.addr = b →
    (chainOf root vs).GcSafe orv
  empty : ∀ a y, own (.inr a) = [y] → y.ts < orv → y.data = none

lemma TrailInv.idle_mgr (h : TrailInv x own garbage) (hrun : x.running = []) :
    x.state.manager.oldestRunningVersion = some x.state.manager.lastWriteCommittedId
      ∧ x.writer = x.state.manager.lastWriteCommittedId := by
  have hmgr := h.mgr
  rw [hrun] at hmgr
  refine ⟨hmgr.oldest_idle, h.writer_eq_last fun k hk => ?_⟩
  rw [hrun] at hk
  exact absurd hk List.not_mem_nil

/-- An entry for a root is not a new one. -/
lemma Relisted.mem_root (hr : Relisted orv false own (garbage c) l) (h : TrailInv x own garbage) {e b r : ℕ}
    {root : Ver α} {vs : List (Ver α)} (ho : own (.inl r) = root :: vs) (haddr : root.addr = b)
    (hmem : (e, b) ∈ Function.update garbage c l c') : (e, b) ∈ garbage c' := by
  rcases eq_or_ne c' c with rfl | hc
  · rw [Function.update_self] at hmem
    refine (hr.mem e b hmem).resolve_right ?_
    rintro ⟨-, b', -, i, root', vs', hi, -, hin⟩
    obtain ⟨y, hy, hyb⟩ := List.mem_map.mp hin
    have hyv : y ∈ vs' := (folded_sublist orv vs').subset hy
    have hir := h.heap.mem.addr_unique (i := i) (j := .inl r) (v := y) (w := root)
      (hi ▸ List.mem_cons_of_mem _ hyv) (ho ▸ List.mem_cons_self) (hyb.trans haddr.symm)
    subst hir
    obtain ⟨rfl, rfl⟩ := List.cons.inj (ho.symm.trans hi)
    have hnd := h.heap.mem.nodup (.inl r)
    rw [ho] at hnd
    exact addr_ne_root hnd hyv (hyb.trans haddr.symm)
  · rwa [Function.update_of_ne hc] at hmem

/-- The chain of a listed root after the collection of its context. -/
lemma Collected.root_back (hc : Collected orv false ((garbage c).map Prod.snd) own own')
    (h : TrailInv x own garbage) {y : Trail α} {garbage' : ℕ → List (ℕ × ℕ)} (h' : TrailInv y own' garbage')
    (hrefs : y.state.refs = x.state.refs) (htop : ∀ m ≤ x.writer, m ≤ orv) {r e : ℕ} {root : Ver α}
    {vs : List (Ver α)} (ho : own' (.inl r) = root :: vs) (hmem : (e, root.addr) ∈ garbage c) :
    vs = [] ∧ orv ≤ root.ts := by
  have hin : root.addr ∈ (garbage c).map Prod.snd := List.mem_map_of_mem (f := Prod.snd) hmem
  cases ho₀ : own (.inl r) with
  | nil =>
      rw [hc.empty r ho₀] at ho
      cases ho
  | cons root₀ vs₀ =>
      have haddr : root₀.addr = root.addr := by
        have h₀ := h.heap.root r root₀ vs₀ ho₀
        rw [← hrefs, h'.heap.root r root vs ho] at h₀
        exact (Option.some.inj h₀).symm
      rw [← haddr] at hin hmem
      have hno : ¬ (false = true ∨ (chainOf root₀ vs₀).Collectable orv) := by
        intro hgone
        rw [hc.gone r root₀ vs₀ ho₀ hin hgone] at ho
        cases ho
      obtain ⟨root₁, vs₁, ho₁, -, hchain⟩ := hc.kept r root₀ vs₀ ho₀ hin hno
      obtain ⟨rfl, rfl⟩ := List.cons.inj (ho.symm.trans ho₁)
      -- all versions are old, so that only the newest one is left
      have hvs : (chainOf root vs).versions = [] := by
        rw [hchain]
        refine Chain.versions_gc_of_le fun u hu => htop u.1 ?_
        exact (h.ranked r root₀ vs₀ ho₀).version_le u (List.mem_of_head? hu)
      obtain rfl : vs = [] := List.map_eq_nil_iff.mp hvs
      refine ⟨rfl, ?_⟩
      have hnewest : (chainOf root []).newest = (chainOf root₀ vs₀).newest := by
        rw [hchain, Chain.newest_gc]
      by_contra hlt
      refine hno (Or.inr ((Chain.collectable_iff _ orv).mpr ⟨h.newest_eq_none ho₀ hmem, ?_⟩))
      rw [← hnewest]
      exact not_le.mp hlt

/-- **One collection**, when nothing runs: it succeeds, and its context has had one more. -/
theorem TrailInv.collect (h : TrailInv x own garbage) (ha : Accounted x own garbage)
    (hidle : Idle x own garbage orv) {n : ℕ → ℕ} (hp : ∀ c, Passed own garbage orv c (n c)) (c : ℕ) :
    ∃ y own' garbage', x.step (.gc c false) = some y ∧ TrailInv y own' garbage' ∧ Accounted y own' garbage'
      ∧ Idle y own' garbage' orv ∧ ∀ c', Passed own' garbage' orv c' (n c' + if c' = c then 1 else 0) := by
  obtain ⟨horv, hwriter⟩ := h.idle_mgr hidle.running
  rw [hidle.last] at horv hwriter
  obtain ⟨p, ctx, all, -, -, hgc, -⟩ := ctx_gc_spec h.heap h.listed c orv false
    fun _ b hb r root vs ho haddr => by
      obtain ⟨⟨e, b⟩, hin, rfl⟩ := List.mem_map.mp hb
      exact hidle.safe c e b hin r root vs ho haddr
  have hstep : Tx.step x.state (.gc c false) = some (x.state.setPool p c ctx, .collected all) := by
    simp only [Tx.step, horv, hgc, Option.bind_eq_bind, Option.bind_some]
  obtain ⟨own', l, hinv, -, hacc, hmgr, hcoll, hswept, hrelisted⟩ := h.gc horv hstep
  have hroot : ∀ c' e b, (e, b) ∈ Function.update garbage c l c' → ∀ r root vs, own' (.inl r) = root :: vs →
      root.addr = b → (e, b) ∈ garbage c' := by
    intro c' e b hmem r root vs ho haddr
    cases ho₀ : own (.inl r) with
    | nil =>
        rw [hcoll.empty r ho₀] at ho
        cases ho
    | cons root₀ vs₀ =>
        have h₀ := (h.heap.root r root₀ vs₀ ho₀).symm.trans (hinv.heap.root r root vs ho)
        exact hrelisted.mem_root h ho₀ ((Option.some.inj h₀).trans haddr) hmem
  have hother : ∀ c' e b, c' ≠ c → (e, b) ∈ garbage c' → b ∉ (garbage c).map Prod.snd := by
    intro c' e b hc hmem hin
    obtain ⟨⟨e', b'⟩, hin', rfl⟩ := List.mem_map.mp hin
    exact hc (h.listed.once c' c e e' b' hmem hin').1
  refine ⟨_, own', _, by rw [Trail.step, hstep, Option.map_some], hinv, hacc ha,
    ⟨hidle.running, hidle.last, fun c' e b hmem r root vs ho haddr => ?_, fun a y hy hts => ?_⟩, fun c' =>
    ⟨fun hn e b hmem r root vs ho haddr => ?_, fun hn e b hmem y hy => ?_⟩⟩
  · have hmem₀ := hroot c' e b hmem r root vs ho haddr
    subst haddr
    rcases eq_or_ne c' c with rfl | hc
    · obtain ⟨rfl, -⟩ := hcoll.root_back h hinv rfl (fun m hm => hm.trans hwriter.le) ho hmem₀
      exact fun u hu => absurd hu (by simp [chainOf, Chain.cut])
    · have hback := h.listed.back h.heap hinv.heap rfl hcoll hswept hmem₀ (hother c' e _ hc hmem₀) ho rfl
      exact hidle.safe c' e _ hmem₀ r root vs hback rfl
  · rcases hswept.new a y hy with hold | ⟨r, root, vs, ho, hin, -, hfold, -⟩
    · exact hidle.empty a y hold hts
    · -- the newest version of a freed reference
      obtain ⟨⟨e, b⟩, hmem, rfl⟩ := List.mem_map.mp hin
      have hnone := h.newest_eq_none ho hmem
      cases vs with
      | nil => cases hfold
      | cons v vs =>
          rw [folded] at hfold
          split at hfold
          · obtain rfl := List.mem_singleton.mp hfold
            exact Option.map_eq_none_iff.mp hnone
          · cases hfold
  · have hmem₀ := hroot c' e b hmem r root vs ho haddr
    subst haddr
    rcases eq_or_ne c' c with rfl | hc
    · exact hcoll.root_back h hinv rfl (fun m hm => hm.trans hwriter.le) ho hmem₀
    · rw [if_neg hc] at hn
      have hback := h.listed.back h.heap hinv.heap rfl hcoll hswept hmem₀ (hother c' e _ hc hmem₀) ho rfl
      exact (hp c').roots hn e _ hmem₀ r root vs hback rfl
  · rcases eq_or_ne c' c with rfl | hc
    · rw [if_pos rfl] at hn
      rw [Function.update_self] at hmem
      have hroots := (hp c').roots (by omega)
      -- no further version is folded
      have hnew : ∀ i root vs, own i = root :: vs → root.addr ∈ (garbage c').map Prod.snd → folded orv vs = [] := by
        intro i root vs ho hin
        obtain ⟨⟨e', b'⟩, hin, haddr⟩ := List.mem_map.mp hin
        cases i with
        | inl r =>
            obtain ⟨rfl, -⟩ := hroots e' b' hin r root vs ho haddr.symm
            rfl
        | inr a =>
            obtain ⟨rfl, -⟩ := h.heap.retired a root vs ho
            rfl
      have hold : own (.inr b) = [y] := by
        rcases hswept.new b y hy with hold | ⟨r, root, vs, ho, hin, -, hfold, -⟩
        · exact hold
        · rw [hnew _ root vs ho hin] at hfold
          cases hfold
      have hmem₀ : (e, b) ∈ garbage c' := by
        refine (hrelisted.mem e b hmem).resolve_right ?_
        rintro ⟨-, b', hb', i, root, vs, ho, rfl, hin⟩
        rw [hnew i root vs ho hb'] at hin
        cases hin
      by_contra hlt
      rw [hswept.gone b y hold (List.mem_map_of_mem (f := Prod.snd) hmem₀) (Or.inr
        ((Chain.collectable_iff _ orv).mpr ⟨?_, not_le.mp hlt⟩))] at hy
      · cases hy
      · exact Option.map_eq_none_iff.mpr (hidle.empty b y hold (not_le.mp hlt))
    · rw [if_neg hc] at hn
      rw [Function.update_of_ne hc] at hmem
      have hback := h.listed.back h.heap hinv.heap rfl hcoll hswept hmem (hother c' e b hc hmem) hy
        (hinv.heap.addr_eq (by simp [hy])).2
      exact (hp c').retired hn e b hmem y hback

/-- **Many collections**: each context has had as many more as it occurs in the list. -/
theorem TrailInv.collect_all (cs : List ℕ) : ∀ {x : Trail α} {own : ℕ ⊕ ℕ → List (Ver α)}
    {garbage : ℕ → List (ℕ × ℕ)} {n : ℕ → ℕ}, TrailInv x own garbage → Accounted x own garbage →
    Idle x own garbage orv → (∀ c, Passed own garbage orv c (n c)) →
    ∃ y own' garbage', x.collections cs = some y ∧ TrailInv y own' garbage' ∧ Accounted y own' garbage'
      ∧ Idle y own' garbage' orv ∧ ∀ c, Passed own' garbage' orv c (n c + cs.count c) := by
  induction cs with
  | nil =>
      intro x own garbage n h ha hidle hp
      exact ⟨x, own, garbage, rfl, h, ha, hidle, hp⟩
  | cons c cs ih =>
      intro x own garbage n h ha hidle hp
      obtain ⟨y, own₁, garbage₁, hstep, h₁, ha₁, hidle₁, hp₁⟩ := h.collect ha hidle hp c
      obtain ⟨z, own₂, garbage₂, hrun, h₂, ha₂, hidle₂, hp₂⟩ := ih h₁ ha₁ hidle₁ hp₁
      refine ⟨z, own₂, garbage₂, by rw [Trail.collections, hstep, Option.bind_some, hrun], h₂, ha₂, hidle₂,
        fun c' => ?_⟩
      have hcount : n c' + (c :: cs).count c' = n c' + (if c' = c then 1 else 0) + cs.count c' := by
        rw [List.count_cons, Nat.add_assoc, Nat.add_comm (List.count c' cs)]
        by_cases hc : c' = c
        · simp [hc]
        · simp [hc, Ne.symm hc]
      rw [hcount]
      exact hp₂ c'

/-! ### What is left -/

/-- Where every context has been collected twice, the state is clean. -/
lemma TrailInv.clean (h : TrailInv x own garbage) (ha : Accounted x own garbage) (hidle : Idle x own garbage orv)
    (hp : ∀ c, Passed own garbage orv c 2) : x.Clean := by
  have hlast := hidle.last
  refine ⟨fun r w hfr hw => ?_, fun k hk => ?_⟩
  · by_contra hrel
    cases ho : own (.inl r) with
    | nil => exact ((h.live r).mp ho).elim (ha.refs r (hfr.trans_ne (Option.some_ne_none w))) hrel
    | cons root vs =>
        obtain ⟨hle, c, e, hin⟩ := ha.freed r root vs ho w hfr
        obtain ⟨rfl, hts⟩ := (hp c).roots (by omega) e _ hin r root vs ho rfl
        have hnew : (chainOf root []).newest.1 = root.ts := rfl
        omega
  · obtain ⟨i, hi⟩ := ha.owned k hk
    obtain ⟨v, hv, hkv⟩ := List.mem_flatMap.mp hi
    have hheld := h.heap.mem.held i
    cases i with
    | inl r =>
        cases ho : own (.inl r) with
        | nil =>
            rw [ho] at hv
            exact absurd hv List.not_mem_nil
        | cons root vs =>
            rw [ho] at hheld hv
            have hrel : x.released r = false := by
              rw [Bool.eq_false_iff]
              intro hrel
              rw [(h.live r).mpr (Or.inr hrel)] at ho
              cases ho
            refine Or.inl ⟨r, root.addr, h.heap.root r root vs ho, hrel, hheld.reaches_of_start (fun b hb => ?_) hv hkv⟩
            obtain rfl := Option.some.inj hb
            exact .start
    | inr a =>
        obtain ⟨ho, rfl⟩ := h.heap.addr_eq hv
        rw [ho] at hheld
        obtain ⟨c, e, hin⟩ := ha.retired v.addr v ho
        refine Or.inr ⟨c, v.addr, ?_, hheld.reaches_of_start (fun b hb => ?_) (List.mem_singleton_self v) hkv, _,
          hheld.block, ?_⟩
        · rw [(h.heap.ctx c).blocks]
          exact List.mem_map_of_mem (f := Prod.snd) hin
        · obtain rfl := Option.some.inj hb
          exact .start
        · rw [hlast]
          exact (hp c).retired le_rfl e v.addr hin v ho

/-- Collections leave a folded version with data as it is. -/
lemma TrailInv.folded_stays {cs : List ℕ} : ∀ {x : Trail α} {own : ℕ ⊕ ℕ → List (Ver α)}
    {garbage : ℕ → List (ℕ × ℕ)} {a : ℕ} {v : Ver α} {y : Trail α}, TrailInv x own garbage →
    own (.inr a) = [v] → v.data ≠ none → x.collections cs = some y →
    ∃ own' garbage', TrailInv y own' garbage' ∧ own' (.inr a) = [v]
      ∧ y.state.manager.lastWriteCommittedId = x.state.manager.lastWriteCommittedId := by
  induction cs with
  | nil =>
      intro x own garbage a v y h ho _ hrun
      obtain rfl := Option.some.inj hrun
      exact ⟨own, garbage, h, ho, rfl⟩
  | cons c cs ih =>
      intro x own garbage a v y h ho hd hrun
      obtain ⟨z, hstep, hrun⟩ := Option.bind_eq_some_iff.mp hrun
      obtain ⟨⟨s, o⟩, hcall, rfl⟩ := Option.map_eq_some_iff.mp hstep
      obtain ⟨orv, horv, -⟩ := h.mgr.oldest
      obtain ⟨own₁, l, h₁, -, -, hmgr, -, hswept, -⟩ := h.gc horv hcall
      have ho₁ := hswept.kept a v ho fun hc => by
        have hnone := ((Chain.collectable_iff _ orv).mp (hc.2.resolve_left Bool.false_ne_true)).1
        exact hd (Option.map_eq_none_iff.mp hnone)
      obtain ⟨own₂, garbage₂, h₂, ho₂, hlast⟩ := ih h₁ ho₁ hd hrun
      exact ⟨own₂, garbage₂, h₂, ho₂, hlast.trans (congrArg Manager.lastWriteCommittedId hmgr)⟩

/-- A state with an old folded version is not clean. -/
lemma TrailInv.not_clean (h : TrailInv x own garbage) {a : ℕ} {v : Ver α} (ho : own (.inr a) = [v])
    (hts : v.ts < x.state.manager.lastWriteCommittedId) : ¬ x.Clean := by
  intro hclean
  have hheld := h.heap.mem.held (.inr a)
  rw [ho] at hheld
  -- whoever reaches the version owns it
  have huniq : ∀ i root vs, own i = root :: vs → x.state.pool.Reaches root.addr (.inl v.addr) →
      own i = [v] ∧ i = .inr a := by
    intro i root vs hi hk
    have hheldi := h.heap.mem.held i
    rw [hi] at hheldi
    obtain ⟨u, hu, -, haddr⟩ := hheldi.reaches hk
    obtain rfl := h.heap.mem.addr_unique (i := i) (j := .inr a) (v := u) (w := v) (hi ▸ hu) (by simp [ho])
      (haddr _ rfl)
    exact ⟨ho, rfl⟩
  rcases hclean.used (.inl v.addr) (hheld.live (by simp [Ver.mem_cells])) with
    ⟨r, main, hmain, hrel, hk⟩ | ⟨c, b, hb, hk, blk, hblk, hle⟩
  · cases hr : own (.inl r) with
    | nil =>
        rcases (h.live r).mp hr with hnone | hgone
        · rw [hmain] at hnone
          cases hnone
        · rw [hrel] at hgone
          cases hgone
    | cons root vs =>
        obtain rfl := Option.some.inj (hmain.symm.trans (h.heap.root r root vs hr))
        cases (huniq _ root vs hr hk).2
  · rw [(h.heap.ctx c).blocks] at hb
    obtain ⟨⟨e, b⟩, hin, rfl⟩ := List.mem_map.mp hb
    obtain ⟨i, root, vs, hi, rfl⟩ : ∃ i root vs, own i = root :: vs ∧ root.addr = b := by
      rcases h.listed.block c e b hin with ⟨y, hy⟩ | ⟨r, root, vs, hr, haddr, -⟩
      · exact ⟨_, y, [], hy, (h.heap.addr_eq (by simp [hy])).2⟩
      · exact ⟨_, root, vs, hr, haddr⟩
    obtain ⟨hv, -⟩ := huniq i root vs hi hk
    obtain ⟨rfl, -⟩ := List.cons.inj (hi.symm.trans hv)
    rw [hheld.block] at hblk
    obtain rfl := Option.some.inj hblk
    exact absurd hle (not_le.mpr hts)

/-- What is reclaimed has been reclaimable. -/
lemma TrailInv.reclaimable_of_reclaims (h : TrailInv x own garbage) (hrec : x.Reclaims) : x.Reclaimable := by
  obtain ⟨contexts, n, -, hall⟩ := hrec
  have hcount : ∀ c ∈ contexts, n ≤ ((List.replicate n contexts.toList).flatten).count c := by
    intro c hc
    have hpos : 0 < contexts.toList.count c := List.count_pos_iff.mpr (Finset.mem_toList.mpr hc)
    rw [List.count_flatten, List.map_replicate, List.sum_replicate, smul_eq_mul]
    exact Nat.le_mul_of_pos_right n hpos
  refine fun c => ⟨?_, fun b hb blk hblk hnext hts => ?_⟩
  · obtain ⟨y, hy, -⟩ := hall (c :: (List.replicate n contexts.toList).flatten) fun c' hc' =>
      (hcount c' hc').trans List.count_le_count_cons
    obtain ⟨z, hz, -⟩ := Option.bind_eq_some_iff.mp hy
    obtain ⟨r, hstep, -⟩ := Option.map_eq_some_iff.mp hz
    exact h.foldable_of_step hstep
  · rw [(h.heap.ctx c).blocks] at hb
    obtain ⟨⟨e, b⟩, hin, rfl⟩ := List.mem_map.mp hb
    rcases h.listed.block c e b hin with ⟨v, ho⟩ | ⟨r, root, vs, ho, rfl, hnone⟩
    · obtain ⟨-, rfl⟩ := h.heap.addr_eq (a := b) (y := v) (by simp [ho])
      have hheld := h.heap.mem.held (.inr v.addr)
      rw [ho] at hheld
      obtain rfl := Option.some.inj (hheld.block.symm.trans hblk)
      by_contra hd
      obtain ⟨y, hy, hclean⟩ := hall _ hcount
      obtain ⟨own', garbage', h', ho', hlast⟩ := h.folded_stays ho
        (fun hv => hd (Option.map_eq_none_iff.mpr hv)) hy
      exact h'.not_clean ho' (hts.trans_eq hlast.symm) hclean
    · -- the root of a freed reference with no versions is empty
      have hheld := h.heap.mem.held (.inl r)
      rw [ho] at hheld
      obtain rfl := Option.some.inj (hheld.block.symm.trans hblk)
      cases vs with
      | nil => exact Option.map_eq_none_iff.mpr (Option.map_eq_none_iff.mp hnone)
      | cons v vs => cases hnext

/-- What is reclaimable is reclaimed by two collections of every context. -/
lemma TrailInv.reclaims (h : TrailInv x own garbage) (ha : Accounted x own garbage) (hrun : x.running = [])
    (hcond : x.Reclaimable) : x.Reclaims := by
  have hmem : ∀ {c e b}, (e, b) ∈ garbage c → b ∈ (x.state.ctxs c).blocks := fun {c e b} hin => by
    rw [(h.heap.ctx c).blocks]
    exact List.mem_map_of_mem (f := Prod.snd) hin
  obtain ⟨contexts, hcontexts⟩ := ha.contexts
  refine ⟨contexts, 2, fun c hc => by rw [(h.heap.ctx c).blocks, hcontexts c hc]; rfl, fun cs hcs => ?_⟩
  have hidle : Idle x own garbage x.state.manager.lastWriteCommittedId := by
    refine ⟨hrun, rfl, fun c e b hin r root vs ho haddr => ?_, fun a v ho hts => ?_⟩
    · subst haddr
      exact h.heap.gcSafe ho ((hcond c).1 _ (h.idle_mgr hrun).1 root.addr (hmem hin))
    · obtain ⟨c, e, hin⟩ := ha.retired a v ho
      obtain ⟨-, rfl⟩ := h.heap.addr_eq (a := a) (y := v) (by simp [ho])
      have hheld := h.heap.mem.held (.inr v.addr)
      rw [ho] at hheld
      exact Option.map_eq_none_iff.mp ((hcond c).2 v.addr (hmem hin) _ hheld.block rfl hts)
  -- a context without garbage counts as one that has been collected twice
  obtain ⟨y, own', garbage', hy, h', ha', hidle', hp'⟩ := TrailInv.collect_all cs
    (n := fun c => if c ∈ contexts then 0 else 2) h ha hidle fun c => by
      by_cases hc : c ∈ contexts
      · rw [if_pos hc]
        exact ⟨by simp, by simp⟩
      · rw [if_neg hc]
        exact ⟨by simp [hcontexts c hc], by simp [hcontexts c hc]⟩
  refine ⟨y, hy, h'.clean ha' hidle' fun c => ?_⟩
  obtain ⟨hroots, hretired⟩ := hp' c
  have hn : 2 ≤ (if c ∈ contexts then 0 else 2) + cs.count c := by
    split
    · next hc => exact (hcs c hc).trans (Nat.le_add_left _ _)
    · exact Nat.le_add_right _ _
  exact ⟨fun _ => hroots (by omega), fun _ => hretired hn⟩

/-- **Garbage is reclaimed exactly if no old folded version has data**: after every run in which no
writer accesses a reference whose root is gone, when no transaction runs, enough collections of every
context return what writers older than the last one have freed, or what of theirs has been folded, if
and only if no listed version of theirs has data and the collections fold into data. -/
theorem reclaims_iff {x : Trail α} (h : Relation.ReflTransGen (Trail.Call Trail.Live) Trail.init x)
    (hrun : x.running = []) : x.Reclaims ↔ x.Reclaimable := by
  obtain ⟨own, garbage, hinv, -, hacc⟩ := trailInv_init.run (fun _ _ hok => hok) h
  exact ⟨hinv.reclaimable_of_reclaims, hinv.reclaims (hacc accounted_init) hrun⟩

/-- The context that a call is given. -/
def Step.ctx : Step α → Option ℕ
  | .read _ c _ _ => some c
  | .write _ c _ _ => some c
  | .free _ c _ => some c
  | .gc c _ => some c
  | _ => none

/-- A call changes no other context. -/
lemma step_ctxs {s s' : State α} {st : Step α} {o : Output α} (hstep : Tx.step s st = some (s', o))
    (hc : st.ctx ≠ some c) : s'.ctxs c = s.ctxs c := by
  have hset : ∀ {p : Txpool α} {c₀ : ℕ} {ctx : Ctx}, some c₀ ≠ some c → (s.setPool p c₀ ctx).ctxs c = s.ctxs c :=
    fun hne => Function.update_of_ne (fun heq => hne (congrArg some heq.symm)) _ _
  cases st with
  | begin tx txtype =>
      obtain ⟨m, -, hstep⟩ := Option.bind_eq_some_iff.mp hstep
      obtain ⟨rfl, -⟩ := Prod.mk.inj (Option.some.inj hstep)
      rfl
  | commit tx =>
      obtain ⟨m, -, hstep⟩ := Option.bind_eq_some_iff.mp hstep
      obtain ⟨rfl, -⟩ := Prod.mk.inj (Option.some.inj hstep)
      rfl
  | alloc tx r d =>
      obtain ⟨t, -, hstep⟩ := Option.bind_eq_some_iff.mp hstep
      obtain ⟨p, -, hstep⟩ := Option.bind_eq_some_iff.mp hstep
      obtain ⟨rfl, -⟩ := Prod.mk.inj (Option.some.inj hstep)
      rfl
  | read tx c₀ r write =>
      obtain ⟨t, -, hstep⟩ := Option.bind_eq_some_iff.mp hstep
      obtain ⟨main, -, hstep⟩ := Option.bind_eq_some_iff.mp hstep
      obtain ⟨p, -, hstep⟩ := Option.bind_eq_some_iff.mp hstep
      obtain ⟨d, -, hstep⟩ := Option.bind_eq_some_iff.mp hstep
      obtain ⟨rfl, -⟩ := Prod.mk.inj (Option.some.inj hstep)
      exact hset hc
  | write tx c₀ r f =>
      obtain ⟨t, -, hstep⟩ := Option.bind_eq_some_iff.mp hstep
      obtain ⟨main, -, hstep⟩ := Option.bind_eq_some_iff.mp hstep
      obtain ⟨p, -, hstep⟩ := Option.bind_eq_some_iff.mp hstep
      obtain ⟨d, -, hstep⟩ := Option.bind_eq_some_iff.mp hstep
      obtain ⟨y, -, hstep⟩ := Option.bind_eq_some_iff.mp hstep
      obtain ⟨dp, -, hstep⟩ := Option.bind_eq_some_iff.mp hstep
      obtain ⟨rfl, -⟩ := Prod.mk.inj (Option.some.inj hstep)
      exact hset hc
  | free tx c₀ r =>
      obtain ⟨t, -, hstep⟩ := Option.bind_eq_some_iff.mp hstep
      obtain ⟨main, -, hstep⟩ := Option.bind_eq_some_iff.mp hstep
      obtain ⟨p, -, hstep⟩ := Option.bind_eq_some_iff.mp hstep
      obtain ⟨rfl, -⟩ := Prod.mk.inj (Option.some.inj hstep)
      exact hset hc
  | gc c₀ force =>
      obtain ⟨orv, -, hstep⟩ := Option.bind_eq_some_iff.mp hstep
      obtain ⟨p, -, hstep⟩ := Option.bind_eq_some_iff.mp hstep
      obtain ⟨rfl, -⟩ := Prod.mk.inj (Option.some.inj hstep)
      exact hset hc

/-- Neither do many. -/
lemma Trail.calls_ctxs {ok : Trail α → Step α → Prop} [∀ x st, Decidable (ok x st)] {sts : List (Step α)} :
    ∀ {x y : Trail α}, x.calls ok sts = some y → (∀ st ∈ sts, st.ctx ≠ some c) →
      y.state.ctxs c = x.state.ctxs c := by
  induction sts with
  | nil =>
      intro x y h _
      obtain rfl := Option.some.inj h
      rfl
  | cons st sts ih =>
      intro x y h hc
      obtain ⟨-, h⟩ := Option.ite_none_right_eq_some.mp h
      obtain ⟨z, hz, h⟩ := Option.bind_eq_some_iff.mp h
      obtain ⟨⟨s, o⟩, hstep, rfl⟩ := Option.map_eq_some_iff.mp hz
      rw [ih h fun st' hst' => hc st' (List.mem_cons_of_mem st hst')]
      exact step_ctxs hstep (hc st List.mem_cons_self)

/-- A freed reference whose version has been folded into data, and the version with that data released
by a forced collection. -/
theorem reclaims_after_forced :
    ∃ x : Trail ℕ, Relation.ReflTransGen (Trail.Call Trail.Live) Trail.init x ∧ x.running = []
      ∧ x.freed 0 = some 3 ∧ x.released 0 = false ∧ x.Reclaims := by
  let calls : List (Step ℕ) := [.begin 1 .readWrite, .alloc 1 0 7, .commit 1, .begin 2 .readWrite,
    .read 2 1 0 false, .commit 2, .gc 1 true, .begin 3 .readWrite, .free 3 0 0, .commit 3, .begin 4 .readWrite,
    .commit 4]
  have hf : ((Trail.init.calls Trail.Live calls).map fun x : Trail ℕ => (x.running, x.freed 0, x.released 0,
      x.state.manager.oldestRunningVersion, decide (∀ c ∈ ([0, 1] : List ℕ), ∀ b ∈ (x.state.ctxs c).blocks,
        x.state.FoldSafe 4 b ∧ ∀ blk ∈ x.state.pool.blockPalloc.get b, blk.nextVersion = none → blk.data = none)))
      = some ([], some 3, false, some 4, true) := by decide +kernel
  obtain ⟨x, hcalls, hf⟩ := Option.map_eq_some_iff.mp hf
  obtain ⟨hrun, hf⟩ := Prod.mk.inj hf
  obtain ⟨hfreed, hf⟩ := Prod.mk.inj hf
  obtain ⟨hrel, hf⟩ := Prod.mk.inj hf
  obtain ⟨horv, hcond⟩ := Prod.mk.inj hf
  have hcond := of_decide_eq_true hcond
  have hx := Trail.calls_spec hcalls
  have hall : ∀ c, ∀ b ∈ (x.state.ctxs c).blocks, x.state.FoldSafe 4 b
      ∧ ∀ blk ∈ x.state.pool.blockPalloc.get b, blk.nextVersion = none → blk.data = none := by
    intro c b hb
    by_cases hc : c ∈ [0, 1]
    · exact hcond c hc b hb
    · have hsome : ∀ st ∈ calls, ∀ k ∈ st.ctx, k ∈ [0, 1] := by decide
      have hctx : x.state.ctxs c = Ctx.init :=
        Trail.calls_ctxs hcalls fun st hst hst' => hc (hsome st hst c hst')
      rw [hctx] at hb
      exact absurd hb List.not_mem_nil
  refine ⟨x, hx, hrun, hfreed, hrel, (reclaims_iff hx hrun).mpr fun c => ⟨fun orv horv' b hb => ?_,
    fun b hb blk hblk hnext _ => (hall c b hb).2 blk hblk hnext⟩⟩
  obtain rfl := Option.some.inj (horv.symm.trans horv')
  exact (hall c b hb).1

/-- **A folded version stays**: the second writer folds the version of the first one into the root, a third
one commits after it, and no collection releases the version. -/
theorem not_reclaims :
    ∃ x : Trail ℕ, Relation.ReflTransGen (Trail.Call Trail.Live) Trail.init x ∧ x.running = [] ∧ ¬ x.Reclaims := by
  obtain ⟨x, -, hx, -, hf⟩ := Trail.exists_of_calls Trail.Live [.begin 1 .readWrite, .alloc 1 0 7, .commit 1,
    .begin 2 .readWrite, .write 2 0 0 (· + 1), .commit 2, .begin 3 .readWrite, .commit 3] []
    (f := fun x _ : Trail ℕ => (x.running, (x.state.ctxs 0).blocks, x.state.pool.blockPalloc.get 1,
      x.state.manager.lastWriteCommittedId)) (v := ([], [1], some ⟨1, some 0, none⟩, 3)) (by decide +kernel)
  obtain ⟨hrun, hf⟩ := Prod.mk.inj hf
  obtain ⟨hblocks, hf⟩ := Prod.mk.inj hf
  obtain ⟨hget, hlast⟩ := Prod.mk.inj hf
  obtain ⟨own, garbage, hinv, -⟩ := trailInv_init.run (fun _ _ hok => hok) hx
  refine ⟨x, hx, hrun, fun hrec => ?_⟩
  have hnone := ((hinv.reclaimable_of_reclaims hrec) 0).2 1 (by simp [hblocks]) _ hget rfl (by simp [hlast])
  cases hnone

end Tx

end Furious
