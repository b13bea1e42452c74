import Furious.Data.Gather
import Furious.Library.Barriers

/-!
The threads of a cascading gather, in any order.

The threads go through the code of the operator side by side. A thread waits at the barriers, and reads the
frontiers and black lists of the others between two of them, where nobody changes these.

* `CascPc`, `CascState`, `CascState.next`: where a thread is, and what it does next;
* `phased`: **no thread reads what another one changes** between the same barriers;
* `first_phases`, `round_phases`, `loop_phases`: the code before the loop, a round, and the loop;
* `hitEdges`: the references that take part, which do not depend on the threads;
* `cascade_interleaved`: **all orders of steps** end, with what a single thread does.
-/

namespace Furious

/-! ### The code of a thread -/

/-- Where a thread is in the code, with what is left of its loops. -/
inductive CascPc where
  -- the reference table is produced
  | consume (rest : List RefBlock)
  -- the black list and the next frontier have been registered
  | register
  -- `frontiers_union` and `filter_blacklists`, before the loop
  | first (i : ℕ)
  | filter (i : ℕ)
  -- the condition of the loop
  | test
  | build (rest : List RefBlock) (clusters : List Cluster)
  -- the current frontier is made anew
  | empty
  | unite (i : ℕ)

/-- A thread: where it is, its variables, and the clusters of the rounds that it has been through. -/
structure CascState where
  pc : CascPc
  thread : CascThread
  rounds : List (List Cluster)

namespace CascState

variable {n : ℕ}

/-- A thread in front of its part of the reference table. -/
def init (part : List RefBlock × List Table) : CascState := ⟨.consume part.1, CascThread.init part.2, []⟩

/-- **What a thread does next**, in between those of `threads`. -/
def next (hit : ℕ → Bool) (threads : Fin n → CascState) (s : CascState) : Option (Move CascState) :=
  match s.pc with
  | .consume (block :: rest) => do
      let thread ← s.thread.consume hit block
      some (.work ⟨.consume rest, thread, s.rounds⟩)
  | .consume [] => some (.wait ⟨.register, s.thread, s.rounds⟩)
  | .register => some (.wait ⟨.first 0, s.thread, s.rounds⟩)
  | .first i =>
      if h : i < n then do
        let current ← s.thread.current.union (threads ⟨i, h⟩).thread.next
        some (.work ⟨.first (i + 1), { s.thread with current := current }, s.rounds⟩)
      else some (.work ⟨.filter 0, s.thread, s.rounds⟩)
  | .filter i =>
      if h : i < n then do
        let current ← s.thread.current.difference (threads ⟨i, h⟩).thread.blacklist
        some (.work ⟨.filter (i + 1), { s.thread with current := current }, s.rounds⟩)
      else some (.wait ⟨.test, s.thread, s.rounds⟩)
  | .test =>
      if 0 < s.thread.current.size then do
        let next ← s.thread.next.clear
        some (.work ⟨.build s.thread.refs [], { s.thread with next := next }, s.rounds⟩)
      -- the thread leaves the loop
      else none
  | .build (refCluster :: rest) clusters => do
      let (next, cluster) ← buildBclusterFromRefs refCluster s.thread.current s.thread.next s.thread.tables
      some (.work ⟨.build rest (clusters ++ [cluster]), { s.thread with next := next }, s.rounds⟩)
  | .build [] clusters => some (.wait ⟨.empty, s.thread, s.rounds ++ [clusters]⟩)
  | .empty => do
      let current ← s.thread.current.clear
      some (.work ⟨.unite 0, { s.thread with current := current }, s.rounds⟩)
  | .unite i =>
      if h : i < n then do
        let current ← s.thread.current.union (threads ⟨i, h⟩).thread.next
        some (.work ⟨.unite (i + 1), { s.thread with current := current }, s.rounds⟩)
      else some (.wait ⟨.test, s.thread, s.rounds⟩)

end CascState

/-! ### The phases -/

/-- The number of barriers before a place in the code. -/
def CascPc.In : CascPc → ℕ → Prop
  | .consume _, k => k = 0
  | .register, k => k = 1
  | .first _, k | .filter _, k => k = 2
  | .test, k | .build _ _, k => 3 ≤ k ∧ k % 2 = 1
  | .empty, k | .unite _, k => 4 ≤ k ∧ k % 2 = 0

/-- Whether other threads are read in a phase. -/
def reads (k : ℕ) : Bool := decide (2 ≤ k ∧ k % 2 = 0)

/-- What is read of other threads: their next frontiers and black lists. -/
def CascState.shown (k : ℕ) (s : CascState) : Option (Bittable × Bittable) :=
  if reads k = true then some (s.thread.next, s.thread.blacklist) else none

namespace CascState

variable {n : ℕ} {hit : ℕ → Bool} {threads threads' : Fin n → CascState} {s : CascState} {k : ℕ} {m : Move CascState}

/-- **A move**: where it leads, and which variables it leaves alone. -/
lemma next_spec (hs : s.pc.In k) (h : next hit threads s = some m) :
    m.In (fun k s => s.pc.In k) k ∧ m.state.shown k = s.shown k := by
  have hquiet (hk : reads k = false) (s s' : CascState) : s.shown k = s'.shown k := by
    rw [shown, shown, hk, if_neg Bool.false_ne_true, if_neg Bool.false_ne_true]
  obtain ⟨pc, thread, rounds⟩ := s
  cases pc with
  | consume rest =>
      obtain rfl : k = 0 := hs
      cases rest with
      | nil =>
          obtain rfl := Option.some.inj h
          exact ⟨rfl, rfl⟩
      | cons block rest =>
          obtain ⟨thread', -, h⟩ := Option.bind_eq_some_iff.mp h
          obtain rfl := Option.some.inj h
          exact ⟨rfl, rfl⟩
  | register =>
      obtain rfl : k = 1 := hs
      obtain rfl := Option.some.inj h
      exact ⟨rfl, rfl⟩
  | first i =>
      obtain rfl : k = 2 := hs
      simp only [next] at h
      split_ifs at h with hi
      · obtain ⟨current, -, h⟩ := Option.bind_eq_some_iff.mp h
        obtain rfl := Option.some.inj h
        exact ⟨rfl, rfl⟩
      · obtain rfl := Option.some.inj h
        exact ⟨rfl, rfl⟩
  | filter i =>
      obtain rfl : k = 2 := hs
      simp only [next] at h
      split_ifs at h with hi
      · obtain ⟨current, -, h⟩ := Option.bind_eq_some_iff.mp h
        obtain rfl := Option.some.inj h
        exact ⟨rfl, rfl⟩
      · obtain rfl := Option.some.inj h
        exact ⟨⟨le_rfl, rfl⟩, rfl⟩
  | test =>
      have hk : reads k = false := decide_eq_false fun hk => by have := hs.2; omega
      simp only [next] at h
      split_ifs at h with hsize
      obtain ⟨next', -, h⟩ := Option.bind_eq_some_iff.mp h
      obtain rfl := Option.some.inj h
      exact ⟨hs, hquiet hk _ _⟩
  | build rest clusters =>
      have hk : reads k = false := decide_eq_false fun hk => by have := hs.2; omega
      cases rest with
      | nil =>
          obtain rfl := Option.some.inj h
          exact ⟨⟨Nat.succ_le_succ hs.1, by have := hs.2; omega⟩, rfl⟩
      | cons block rest =>
          obtain ⟨built, -, h⟩ := Option.bind_eq_some_iff.mp h
          obtain rfl := Option.some.inj h
          exact ⟨hs, hquiet hk _ _⟩
  | empty =>
      obtain ⟨current, -, h⟩ := Option.bind_eq_some_iff.mp h
      obtain rfl := Option.some.inj h
      exact ⟨hs, rfl⟩
  | unite i =>
      simp only [next] at h
      split_ifs at h with hi
      · obtain ⟨current, -, h⟩ := Option.bind_eq_some_iff.mp h
        obtain rfl := Option.some.inj h
        exact ⟨hs, rfl⟩
      · obtain rfl := Option.some.inj h
        exact ⟨⟨(Nat.le_succ 3).trans (hs.1.trans (Nat.le_succ k)), by have := hs.2; omega⟩, rfl⟩

/-- What a move depends on. -/
lemma next_congr (hs : s.pc.In k) (h : ∀ j, (threads j).shown k = (threads' j).shown k) :
    next hit threads s = next hit threads' s := by
  have hread (hk : reads k = true) (j : Fin n) : (threads j).thread.next = (threads' j).thread.next
      ∧ (threads j).thread.blacklist = (threads' j).thread.blacklist := by
    have hj := h j
    rw [shown, shown, if_pos hk, if_pos hk, Option.some_inj, Prod.mk.injEq] at hj
    exact hj
  obtain ⟨pc, thread, rounds⟩ := s
  cases pc with
  | consume rest => cases rest <;> rfl
  | register => rfl
  | first i =>
      obtain rfl : k = 2 := hs
      simp only [next, (hread rfl _).1]
  | filter i =>
      obtain rfl : k = 2 := hs
      simp only [next, (hread rfl _).2]
  | test => rfl
  | build rest clusters => cases rest <;> rfl
  | empty => rfl
  | unite i =>
      have hk : reads k = true := decide_eq_true ⟨(by decide : 2 ≤ 4).trans hs.1, hs.2⟩
      simp only [next, (hread hk _).1]

/-- Behind the test of the loop a thread leaves its current frontier alone, up to the next barrier. -/
lemma next_current {s' : CascState} (hs : s.pc.In k) (hk : 3 ≤ k) (hodd : k % 2 = 1)
    (h : next hit threads s = some (.work s')) : s'.thread.current = s.thread.current ∧ s'.rounds = s.rounds := by
  obtain ⟨pc, thread, rounds⟩ := s
  cases pc with
  | test =>
      simp only [next] at h
      split_ifs at h with hsize
      obtain ⟨next', -, h⟩ := Option.bind_eq_some_iff.mp h
      obtain rfl := Move.work.inj (Option.some.inj h)
      exact ⟨rfl, rfl⟩
  | build rest clusters =>
      cases rest with
      | nil => cases Option.some.inj h
      | cons block rest =>
          obtain ⟨built, -, h⟩ := Option.bind_eq_some_iff.mp h
          obtain rfl := Move.work.inj (Option.some.inj h)
          exact ⟨rfl, rfl⟩
  | consume rest => exact absurd hs (by rw [CascPc.In]; omega)
  | register => exact absurd hs (by rw [CascPc.In]; omega)
  | first i => exact absurd hs (by rw [CascPc.In]; omega)
  | filter i => exact absurd hs (by rw [CascPc.In]; omega)
  | empty => exact absurd hs.2 (by omega)
  | unite i => exact absurd hs.2 (by omega)

/-- **No thread reads what another one changes** between the same barriers. -/
theorem phased (hit : ℕ → Bool) : Phased (next (n := n) hit) (fun k s => s.pc.In k) CascState.shown where
  leads hs h := (next_spec hs h).1
  reads hs h := next_congr hs h
  keeps hs h := (next_spec hs h).2

/-! ### A thread that is alone -/

variable {σ : Fin n → CascState} {t t' : CascThread} {r : List (List Cluster)}

/-- A loop over all threads, of which one variable is read. -/
lemma alone_loop {op : Bittable → Bittable → Option Bittable} {f : Fin n → Bittable} {q : ℕ → Bittable → CascState}
    {c c' : Bittable} {steps : ℕ} {s' : CascState}
    (hstep : ∀ i (hi : i < n) c c', op c (f ⟨i, hi⟩) = some c' → next hit σ (q i c) = some (.work (q (i + 1) c')))
    (hloop : (List.ofFn f).foldlM op c = some c') (hend : Alone (next hit) σ steps (q n c') s') :
    Alone (next hit) σ (n + steps) (q 0 c) s' := by
  -- `m` threads are left
  have hrest : ∀ m i c, i + m = n → ((List.ofFn f).drop i).foldlM op c = some c' →
      Alone (next hit) σ (m + steps) (q i c) s' := by
    intro m
    induction m with
    | zero =>
        intro i c hi hfold
        obtain rfl : i = n := hi
        rw [List.drop_eq_nil_of_le (List.length_ofFn).le] at hfold
        obtain rfl : c = c' := Option.some.inj hfold
        rwa [Nat.zero_add]
    | succ m ih =>
        intro i c hi hfold
        have hlt : i < n := by omega
        rw [List.drop_eq_getElem_cons (by rwa [List.length_ofFn]), List.foldlM_cons, List.getElem_ofFn] at hfold
        obtain ⟨d, hd, hfold⟩ := Option.bind_eq_some_iff.mp hfold
        rw [Nat.succ_add]
        exact ⟨_, hstep i hlt c d hd, ih (i + 1) d (by omega) hfold⟩
  exact hrest n 0 c (Nat.zero_add n) hloop

/-- The part of the reference table. -/
lemma alone_consume {rest : List RefBlock} (h : rest.foldlM (CascThread.consume hit) t = some t') :
    Alone (next hit) σ rest.length ⟨.consume rest, t, r⟩ ⟨.register, t', r⟩ := by
  induction rest generalizing t with
  | nil =>
      obtain rfl := Option.some.inj h
      exact rfl
  | cons block rest ih =>
      rw [List.foldlM_cons] at h
      obtain ⟨u, hu, hrest⟩ := Option.bind_eq_some_iff.mp h
      refine ⟨⟨.consume rest, u, r⟩, ?_, ih hrest⟩
      simp only [next, hu, Option.bind_eq_bind, Option.bind_some]

/-- The first frontier. -/
lemma alone_first {c c' : Bittable} (hunion : frontiersUnion (List.ofFn fun i => (σ i).thread.next) t.current = some c)
    (hfilter : filterBlacklists (List.ofFn fun i => (σ i).thread.blacklist) c = some c') :
    ∃ steps, Alone (next hit) σ steps ⟨.first 0, t, r⟩ ⟨.test, { t with current := c' }, r⟩ := by
  have hfilters : Alone (next hit) σ (n + 0) ⟨.filter 0, { t with current := c }, r⟩
      ⟨.test, { t with current := c' }, r⟩ := by
    refine alone_loop (q := fun i c => ⟨.filter i, { t with current := c }, r⟩) (fun i hi c c' hop => ?_) hfilter ?_
    · simp only [next, hi, dif_pos, hop, Option.bind_eq_bind, Option.bind_some]
    · simp only [Alone, next, lt_irrefl, dif_neg, not_false_iff]
  refine ⟨n + (n + 0 + 1), alone_loop (q := fun i c => ⟨.first i, { t with current := c }, r⟩)
    (fun i hi c c' hop => ?_) hunion ⟨_, ?_, hfilters⟩⟩
  · simp only [next, hi, dif_pos, hop, Option.bind_eq_bind, Option.bind_some]
  · simp only [next, lt_irrefl, dif_neg, not_false_iff]

/-- The references of a thread, in a round. -/
lemma alone_build {rest : List RefBlock} {next₀ next₁ : Bittable} {clusters clusters' : List Cluster}
    (h : rest.foldlM (fun s refCluster => do
      let (next, cluster) ← buildBclusterFromRefs refCluster t.current s.1 t.tables
      some (next, s.2 ++ [cluster])) (next₀, clusters) = some (next₁, clusters')) :
    Alone (next hit) σ rest.length ⟨.build rest clusters, { t with next := next₀ }, r⟩
      ⟨.empty, { t with next := next₁ }, r ++ [clusters']⟩ := by
  induction rest generalizing next₀ clusters with
  | nil =>
      obtain ⟨rfl, rfl⟩ := Prod.mk.inj (Option.some.inj h)
      exact rfl
  | cons block rest ih =>
      rw [List.foldlM_cons] at h
      obtain ⟨u, hu, hrest⟩ := Option.bind_eq_some_iff.mp h
      obtain ⟨built, hbuilt, hu⟩ := Option.bind_eq_some_iff.mp hu
      obtain rfl := Option.some.inj hu
      refine ⟨_, ?_, ih hrest⟩
      simp only [next, hbuilt, Option.bind_eq_bind, Option.bind_some]

/-- The first half of a round. -/
lemma alone_expand {clusters : List Cluster} (hsize : 0 < t.current.size) (h : t.expand = some (t', clusters)) :
    ∃ steps, Alone (next hit) σ steps ⟨.test, t, r⟩ ⟨.empty, t', r ++ [clusters]⟩ := by
  obtain ⟨cleared, hclear, h⟩ := Option.bind_eq_some_iff.mp h
  obtain ⟨built, hbuilt, h⟩ := Option.bind_eq_some_iff.mp h
  obtain ⟨rfl, rfl⟩ := Prod.mk.inj (Option.some.inj h)
  refine ⟨t.refs.length + 1, _, ?_, alone_build hbuilt⟩
  simp only [next, hsize, if_true, hclear, Option.bind_eq_bind, Option.bind_some]

/-- The second half of a round. -/
lemma alone_unite {c c' : Bittable} (hclear : t.current.clear = some c)
    (hunion : frontiersUnion (List.ofFn fun i => (σ i).thread.next) c = some c') :
    ∃ steps, Alone (next hit) σ steps ⟨.empty, t, r⟩ ⟨.test, { t with current := c' }, r⟩ := by
  refine ⟨n + 0 + 1, ⟨.unite 0, { t with current := c }, r⟩, ?_, ?_⟩
  · simp only [next, hclear, Option.bind_eq_bind, Option.bind_some]
  · refine alone_loop (q := fun i c => ⟨.unite i, { t with current := c }, r⟩) (fun i hi c c' hop => ?_) hunion ?_
    · simp only [next, hi, dif_pos, hop, Option.bind_eq_bind, Option.bind_some]
    · simp only [Alone, next, lt_irrefl, dif_neg, not_false_iff]

/-! ### All threads -/

/-- The results for all threads. -/
lemma mapM_ofFn {α β : Type} {f : Fin n → α} {g : α → Option β} {bs : List β} (h : (List.ofFn f).mapM g = some bs) :
    ∃ b : Fin n → β, bs = List.ofFn b ∧ ∀ i, g (f i) = some (b i) := by
  induction n generalizing bs with
  | zero =>
      rw [List.ofFn_zero] at h
      exact ⟨Fin.elim0, by rw [List.ofFn_zero]; exact (Option.some.inj h).symm, fun i => i.elim0⟩
  | succ n ih =>
      rw [List.ofFn_succ, List.mapM_cons] at h
      obtain ⟨b₀, hb₀, h⟩ := Option.bind_eq_some_iff.mp h
      obtain ⟨bs', hbs', h⟩ := Option.bind_eq_some_iff.mp h
      obtain ⟨b, rfl, hb⟩ := ih hbs'
      refine ⟨Fin.cons b₀ b, ?_, fun i => ?_⟩
      · rw [List.ofFn_cons]
        exact (Option.some.inj h).symm
      · cases i using Fin.cases with
        | zero => exact hb₀
        | succ i => exact hb i

/-- **The code before the loop.** -/
theorem first_phases {parts : Fin n → List RefBlock × List Table} {started : List CascThread}
    (h : start hit (List.ofFn parts) = some started) : ∃ t : Fin n → CascThread, started = List.ofFn t
      ∧ ∃ steps, Steps (Advances (next hit)) steps (together 0 fun i => init (parts i))
        (together 3 fun i => ⟨.test, t i, []⟩) := by
  obtain ⟨consumed, hconsumed, h⟩ := Option.bind_eq_some_iff.mp h
  obtain ⟨u, rfl, hu⟩ := mapM_ofFn hconsumed
  obtain ⟨t, rfl, ht⟩ := mapM_ofFn h
  have hp := phased (n := n) hit
  obtain ⟨⟨a, ha⟩, hone⟩ := hp.phase_steps (k := 0) (σ := fun i => init (parts i))
    (τ := fun i => ⟨.register, u i, []⟩) (fun i => rfl) fun i => ⟨_, alone_consume (hu i)⟩
  obtain ⟨⟨b, hb⟩, htwo⟩ := hp.phase_steps (k := 1) (τ := fun i => (⟨.first 0, u i, []⟩ : CascState)) hone
    fun i => ⟨0, rfl⟩
  obtain ⟨⟨c, hc⟩, -⟩ := hp.phase_steps (k := 2) (τ := fun i => (⟨.test, t i, []⟩ : CascState)) htwo fun i => by
    obtain ⟨current, hunion, hrest⟩ := Option.bind_eq_some_iff.mp (ht i)
    obtain ⟨current', hfilter, hrest⟩ := Option.bind_eq_some_iff.mp hrest
    rw [← Option.some.inj hrest]
    rw [List.map_ofFn] at hunion hfilter
    exact alone_first hunion hfilter
  exact ⟨t, rfl, _, (ha.trans hb).trans hc⟩

/-- The two halves of a round, thread by thread. -/
lemma round_ofFn {t : Fin n → CascThread} {threads' : List CascThread} {clusters : List Cluster}
    (h : round (List.ofFn t) = some (threads', clusters)) :
    ∃ (e : Fin n → CascThread × List Cluster) (t' : Fin n → CascThread), threads' = List.ofFn t'
      ∧ clusters = (List.ofFn fun i => (e i).2).flatten ∧ (∀ i, (t i).expand = some (e i))
      ∧ ∀ i, ∃ c c', (e i).1.current.clear = some c ∧ frontiersUnion (List.ofFn fun j => (e j).1.next) c = some c'
        ∧ t' i = { (e i).1 with current := c' } := by
  obtain ⟨expanded, hexpanded, h⟩ := Option.bind_eq_some_iff.mp h
  obtain ⟨e, rfl, he⟩ := mapM_ofFn hexpanded
  obtain ⟨united, hunited, h⟩ := Option.bind_eq_some_iff.mp h
  obtain ⟨t', rfl, ht'⟩ := mapM_ofFn hunited
  obtain ⟨rfl, rfl⟩ := Prod.mk.inj (Option.some.inj h)
  refine ⟨e, t', rfl, ?_, he, fun i => ?_⟩
  · rw [List.flatMap_def, List.map_ofFn]
    rfl
  · obtain ⟨current, hclear, hrest⟩ := Option.bind_eq_some_iff.mp (ht' i)
    obtain ⟨current', hunion, hrest⟩ := Option.bind_eq_some_iff.mp hrest
    rw [List.map_ofFn] at hunion
    exact ⟨current, current', hclear, hunion, (Option.some.inj hrest).symm⟩

/-- **A round.** -/
theorem round_phases {t : Fin n → CascThread} {d : Fin n → List (List Cluster)} {threads' : List CascThread}
    {clusters : List Cluster} (h : round (List.ofFn t) = some (threads', clusters)) (hsize : ∀ i, 0 < (t i).current.size)
    (hk : 3 ≤ k) (hodd : k % 2 = 1) :
    ∃ (t' : Fin n → CascThread) (b : Fin n → List Cluster), threads' = List.ofFn t'
      ∧ clusters = (List.ofFn b).flatten
      ∧ ∃ steps, Steps (Advances (next hit)) steps (together k fun i => ⟨.test, t i, d i⟩)
        (together (k + 2) fun i => ⟨.test, t' i, d i ++ [b i]⟩) := by
  obtain ⟨e, t', rfl, rfl, he, ht'⟩ := round_ofFn h
  have hp := phased (n := n) hit
  obtain ⟨⟨a, ha⟩, hone⟩ := hp.phase_steps (k := k) (σ := fun i => ⟨.test, t i, d i⟩)
    (τ := fun i => ⟨.empty, (e i).1, d i ++ [(e i).2]⟩) (fun i => ⟨hk, hodd⟩) fun i =>
      alone_expand (hsize i) (he i)
  obtain ⟨⟨b, hb⟩, -⟩ := hp.phase_steps (k := k + 1) (τ := fun i => (⟨.test, t' i, d i ++ [(e i).2]⟩ : CascState))
    hone fun i => by
      obtain ⟨current, current', hclear, hunion, heq⟩ := ht' i
      rw [heq]
      exact alone_unite hclear hunion
  exact ⟨t', fun i => (e i).2, rfl, rfl, _, ha.trans hb⟩

/-- **The loop.** -/
theorem loop_phases {fuel : ℕ} {t : Fin n → CascThread} {d : Fin n → List (List Cluster)}
    {rounds : List (List Cluster)} (h : cascade fuel (List.ofFn t) = some rounds) (hk : 3 ≤ k) (hodd : k % 2 = 1) :
    ∃ (l : ℕ) (t' : Fin n → CascThread) (b : Fin n → List (List Cluster)), (∀ i, (t' i).current.size = 0)
      ∧ (∀ i, (b i).length = rounds.length)
      ∧ (∀ m, (List.ofFn fun i => (b i).getD m []).flatten = rounds.getD m [])
      ∧ ∃ steps, Steps (Advances (next hit)) steps (together k fun i => ⟨.test, t i, d i⟩)
        (together l fun i => ⟨.test, t' i, d i ++ b i⟩) := by
  induction fuel generalizing k t d rounds with
  | zero => cases h
  | succ fuel ih =>
      rw [cascade] at h
      split_ifs at h with hzero hpos
      · obtain rfl := Option.some.inj h
        refine ⟨k, t, fun _ => [], fun i => hzero _ (List.mem_ofFn.mpr ⟨i, rfl⟩), fun _ => rfl, fun m => ?_, 0, ?_⟩
        · simp
        · simp [Steps]
      · obtain ⟨s, hround, h⟩ := Option.bind_eq_some_iff.mp h
        obtain ⟨rest, hrest, h⟩ := Option.bind_eq_some_iff.mp h
        obtain rfl := Option.some.inj h
        obtain ⟨t₁, b₁, ht₁, hb₁, a, ha⟩ := round_phases (d := d) hround
          (fun i => hpos _ (List.mem_ofFn.mpr ⟨i, rfl⟩)) hk hodd
        rw [ht₁] at hrest
        obtain ⟨l, t', b, hend, hlen, hclusters, c, hc⟩ := ih (k := k + 2) (d := fun i => d i ++ [b₁ i]) hrest
          (hk.trans (Nat.le_add_right k 2)) (by omega)
        refine ⟨l, t', fun i => b₁ i :: b i, hend, fun i => ?_, fun m => ?_, a + c, ?_⟩
        · rw [List.length_cons, List.length_cons, hlen]
        · cases m with
          | zero => exact hb₁.symm
          | succ m => exact hclusters m
        · simp only [List.append_assoc, List.singleton_append] at hc
          exact ha.trans hc

end CascState

/-! ### The references that take part -/

section Hits

variable {hit : ℕ → Bool} {block : RefBlock} {blocks : List RefBlock} {tables tables' : List Table} {B : ℕ → Bool}
  {t : CascThread}

/-- A block has a reference whose target is in the hash tables. -/
def RefBlock.hits (hit : ℕ → Bool) (block : RefBlock) : Bool := block.edges.any fun e => hit e.2

/-- **The references that take part**: those of blocks with a target that is in the hash tables. -/
def hitEdges (hit : ℕ → Bool) (blocks : List RefBlock) : List (ℕ × ℕ) :=
  (blocks.filter fun block => block.hits hit).flatMap RefBlock.edges

lemma RefBlock.hits_iff : block.hits hit = true
    ↔ ∃ i ∈ List.range tableBlockSize, (block.enabled.test i && hit (block.data i)) = true := by
  rw [RefBlock.hits, RefBlock.edges, List.any_map, List.any_filter, List.any_eq_true]
  rfl

variable (hit) in
/-- **`gather`** makes a block of the temporary tables for a block that hits. -/
lemma gather_hits (h : Agree tables B) (block : RefBlock) : ∃ tables', gather hit tables block = some tables'
    ∧ tables'.length = tables.length
    ∧ Agree tables' fun b => B b || (decide (b = block.start / tableBlockSize) && block.hits hit) := by
  obtain ⟨tables', hrun, hlen, hagree⟩ := foldlM_spec (f := gatherStep hit block) (fun done tables' =>
      tables'.length = tables.length ∧ Agree tables' fun b => B b || (decide (b = block.start / tableBlockSize)
        && done.any fun i => block.enabled.test i && hit (block.data i)))
    (List.range tableBlockSize) (s := tables) ⟨rfl, by simpa using h⟩ fun done i rest tables' hl ⟨hlen, hB⟩ => by
      have hi : i ∈ List.range tableBlockSize := hl ▸ by simp
      have hset : block.enabled.isSet i = some (block.enabled.test i) :=
        Bitmap.isSet_eq (block.enabled_length ▸ List.mem_range.mp hi)
      cases ht : block.enabled.test i && hit (block.data i) with
      | false =>
          refine ⟨tables', ?_, hlen, by simpa [List.any_append, ht] using hB⟩
          rw [Bool.and_eq_false_iff] at ht
          rcases ht with ht | ht
          · simp only [gatherStep, hset, ht, Option.bind_eq_bind, Option.bind_some, Bool.false_eq_true, if_false]
          · simp only [gatherStep, hset, copyComponentPtr, ht, Option.bind_eq_bind, Option.bind_some,
              Bool.false_eq_true, if_false, ite_self]
      | true =>
          obtain ⟨hen, hh⟩ := (Bool.and_eq_true _ _).mp ht
          obtain ⟨tables'', hmap, hlen', hB'⟩ := hB.createComponents (block.source_lt i hen)
          refine ⟨tables'', ?_, hlen'.trans hlen, ?_⟩
          · simp only [gatherStep, hset, hen, Option.bind_eq_bind, Option.bind_some, if_true, copyComponentPtr, hh, hmap]
          · have hid : (block.start + i) / tableBlockSize = block.start / tableBlockSize := by
              obtain ⟨m, hm⟩ := block.start_dvd
              rw [hm, Nat.mul_add_div (by decide), Nat.mul_div_cancel_left m (by decide),
                Nat.div_eq_of_lt (List.mem_range.mp hi), Nat.add_zero]
            refine (congrArg (Agree tables'') (funext fun b => ?_)).mp hB'
            rw [hid, List.any_append]
            by_cases hb : b = block.start / tableBlockSize
            · rw [hb, Function.update_self]
              simp [ht]
            · rw [Function.update_of_ne hb]
              simp [hb]
  refine ⟨tables', hrun, hlen, (congrArg (Agree tables') (funext fun b => ?_)).mp hagree⟩
  have hany : (List.range tableBlockSize).any (fun i => block.enabled.test i && hit (block.data i)) = block.hits hit := by
    rw [Bool.eq_iff_iff, RefBlock.hits_iff, List.any_eq_true]
  rw [hany]

/-- Distinct blocks have distinct numbers. -/
lemma eq_of_block {blocks : List RefBlock} (h : (blocks.map RefBlock.start).Nodup) {b b' : RefBlock} (hb : b ∈ blocks)
    (hb' : b' ∈ blocks) (heq : b.start / tableBlockSize = b'.start / tableBlockSize) : b = b' := by
  refine List.inj_on_of_nodup_map h hb hb' ?_
  rw [← Nat.div_mul_cancel b.start_dvd, heq, Nat.div_mul_cancel b'.start_dvd]

/-- **The references of a thread** that take part. -/
lemma consume_links (h : ∀ t ∈ tables, t.Sound ∅) (hne : tables ≠ []) (hblocks : (blocks.map RefBlock.start).Nodup)
    (hrun : blocks.foldlM (CascThread.consume hit) (CascThread.init tables) = some t) :
    t.links = hitEdges hit blocks := by
  have hempty : Agree tables fun _ => false := fun t ht => ⟨⟨∅, h t ht⟩, fun b => by
    rw [(h t ht).blockAt_eq, Finmap.lookup_empty]
    rfl⟩
  obtain ⟨t', hrun', hrefs, hlen, hagree, -⟩ := foldlM_spec (f := CascThread.consume hit) (fun done (t : CascThread) =>
      t.refs = done ∧ t.tables.length = tables.length
        ∧ Agree t.tables (fun b => done.any fun block => decide (b = block.start / tableBlockSize) && block.hits hit)
        ∧ Found (t.next, t.blacklist) (done.flatMap RefBlock.edges))
    blocks (s := CascThread.init tables) ⟨rfl, rfl, hempty, Denotes.init, Denotes.init⟩
    fun done block rest t _ ⟨hrefs, hlen, hB, hfound⟩ => by
      obtain ⟨⟨next, blacklist⟩, hfind, hfound'⟩ := findRootsAndBlacklist_spec hfound block
      obtain ⟨tables', hgather, hlen', hB'⟩ := gather_hits hit hB block
      refine ⟨{ t with refs := t.refs ++ [block], tables := tables', blacklist := blacklist, next := next },
        ?_, by rw [hrefs], hlen'.trans hlen, ?_, ?_⟩
      · simp only [CascThread.consume, hfind, hgather, Option.bind_eq_bind, Option.bind_some]
      · simpa using hB'
      · rw [List.flatMap_append, List.flatMap_singleton]
        exact hfound'
  obtain rfl : t = t' := Option.some.inj (hrun.symm.trans hrun')
  have hne' : t.tables ≠ [] := List.ne_nil_of_length_pos (hlen ▸ List.length_pos_iff.mpr hne)
  rw [CascThread.links, hitEdges, hrefs]
  refine congrArg _ (List.filter_congr fun block hblock => ?_)
  rw [Bool.eq_iff_iff, hagree.serves_eq, and_iff_right hne', List.any_eq_true]
  constructor
  · rintro ⟨block', hblock', hand⟩
    obtain ⟨heq, hhits⟩ := (Bool.and_eq_true _ _).mp hand
    obtain rfl := eq_of_block hblocks hblock hblock' (of_decide_eq_true heq)
    exact hhits
  · exact fun hhits => ⟨block, hblock, by rw [hhits, decide_eq_true rfl]; rfl⟩

/-- The results of a loop, one by one. -/
lemma forall₂_of_mapM {α β : Type} {f : α → Option β} {l : List α} {bs : List β} (h : l.mapM f = some bs) :
    List.Forall₂ (fun a b => f a = some b) l bs := by
  induction l generalizing bs with
  | nil =>
      obtain rfl := Option.some.inj h
      exact .nil
  | cons a l ih =>
      rw [List.mapM_cons] at h
      obtain ⟨b, hb, h⟩ := Option.bind_eq_some_iff.mp h
      obtain ⟨bs', hbs', h⟩ := Option.bind_eq_some_iff.mp h
      obtain rfl := Option.some.inj h
      exact .cons hb (ih hbs')

variable {parts : List (List RefBlock × List Table)} {threads : List CascThread} {E E' : List (ℕ × ℕ)} {F : Finset ℕ}
  {fuel m : ℕ} {rounds : List (List Cluster)}

lemma hitEdges_flatMap : hitEdges hit (parts.flatMap Prod.fst) = parts.flatMap fun part => hitEdges hit part.1 := by
  rw [hitEdges, List.filter_flatMap, List.flatMap_assoc]
  rfl

/-- **The references of all threads** that take part. -/
lemma start_links (h : ∀ part ∈ parts, ∀ t ∈ part.2, t.Sound ∅) (hne : ∀ part ∈ parts, part.2 ≠ [])
    (hblocks : ((parts.flatMap Prod.fst).map RefBlock.start).Nodup) (hstart : start hit parts = some threads) :
    links threads = hitEdges hit (parts.flatMap Prod.fst) := by
  obtain ⟨consumed, hconsumed, hstart⟩ := Option.bind_eq_some_iff.mp hstart
  have hone : List.Forall₂ (fun (t t' : CascThread) => t'.links = t.links) consumed threads :=
    (forall₂_of_mapM hstart).imp fun t t' ht => by
      obtain ⟨current, -, ht⟩ := Option.bind_eq_some_iff.mp ht
      obtain ⟨current', -, ht⟩ := Option.bind_eq_some_iff.mp ht
      rw [← Option.some.inj ht]
      rfl
  have hparts : consumed.map CascThread.links = parts.map fun part => hitEdges hit part.1 := by
    refine map_eq_of_forall₂ (List.forall₂_iff_get.mpr ⟨(forall₂_of_mapM hconsumed).length_eq, fun i hi hi' => ?_⟩)
    have hmem : parts.get ⟨i, hi⟩ ∈ parts := List.get_mem parts ⟨i, hi⟩
    refine consume_links (h _ hmem) (hne _ hmem) (hblocks.sublist (List.Sublist.map _ ?_))
      ((List.forall₂_iff_get.mp (forall₂_of_mapM hconsumed)).2 i hi hi')
    rw [List.flatMap_def]
    exact List.sublist_flatten_of_mem (List.mem_map_of_mem hmem)
  rw [links, List.flatMap_def, map_eq_of_forall₂ hone, hparts, hitEdges_flatMap, List.flatMap_def]

/-! ### The rounds -/

/-- The layers depend on which links there are. -/
lemma linkLayer_perm (h : E.Perm E') (m : ℕ) : linkLayer E F m = linkLayer E' F m := by
  have hrel : (fun s t => (s, t) ∈ E) = fun s t => (s, t) ∈ E' := funext fun s => funext fun t => propext h.mem_iff
  rw [linkLayer, linkLayer, hrel]

/-- **The number of rounds** is the number of layers. -/
lemma cascade_length (hE : links threads = E) (h : ∀ t ∈ threads, t.Ready F) (hnd : (E.map Prod.fst).Nodup)
    (hF : F ≠ Finset.range (2 ^ 32)) (hinvalid : invalidId ∉ sources E) (hne : threads = [] → F = ∅)
    (hrun : cascade fuel threads = some rounds) : m < rounds.length ↔ (linkLayer E F m).Nonempty := by
  induction fuel generalizing threads F m rounds with
  | zero => cases hrun
  | succ fuel ih =>
      have hcard : ∀ t ∈ threads, t.current.size = F.card := fun t ht => (h t ht).current.size_eq_card_iff.mpr hF
      rw [cascade] at hrun
      split_ifs at hrun with hzero hpos
      · obtain rfl := Option.some.inj hrun
        have hempty : F = ∅ := by
          cases threads with
          | nil => exact hne rfl
          | cons t threads =>
              exact Finset.card_eq_zero.mp ((hcard t List.mem_cons_self).symm.trans (hzero t List.mem_cons_self))
        have hlayer : linkLayer E F m = ∅ :=
          layer_eq_empty (n := 0) (Finset.coe_eq_empty.mpr hempty) (Nat.zero_le m)
        rw [hlayer]
        exact iff_of_false (Nat.not_lt_zero m) Set.not_nonempty_empty
      · obtain ⟨s, hround, hrun⟩ := Option.bind_eq_some_iff.mp hrun
        obtain ⟨rest, hrest, hrun⟩ := Option.bind_eq_some_iff.mp hrun
        obtain rfl := Option.some.inj hrun
        obtain ⟨threads', clusters, hround', hlinks, hready, -⟩ :=
          round_spec h (hE ▸ hnd.sublist (puts_sublist _ _))
        obtain rfl : s = (threads', clusters) := Option.some.inj (hround.symm.trans hround')
        rw [hE] at hlinks hready
        cases m with
        | zero =>
            refine iff_of_true (Nat.zero_lt_succ _) (Finset.coe_nonempty.mpr (Finset.card_pos.mp ?_))
            push Not at hzero
            obtain ⟨t, ht, -⟩ := hzero
            exact hcard t ht ▸ hpos t ht
        | succ m =>
            have hF' : (puts E F).toFinset ≠ Finset.range (2 ^ 32) := by
              intro hall
              have hmem : invalidId ∈ (puts E F).toFinset := hall ▸ Finset.mem_range.mpr (by decide)
              obtain ⟨t, ht, -⟩ := mem_puts.mp (List.mem_toFinset.mp hmem)
              exact hinvalid (mem_sources.mpr ⟨t, ht⟩)
            rw [List.length_cons, Nat.succ_lt_succ_iff, ← linkLayer_puts]
            refine ih hlinks hready hF' (fun hnil => ?_) hrest
            subst hnil
            rw [← hlinks]
            rfl

/-- **The rounds of any threads**, by the references that take part. -/
theorem start_rounds (hit : ℕ → Bool) (hparts : parts ≠ []) (h : ∀ part ∈ parts, part.2 ≠ [] ∧ ∀ t ∈ part.2, t.Sound ∅)
    (hblocks : ((parts.flatMap Prod.fst).map RefBlock.start).Nodup) : ∃ threads rounds fuel,
      start hit parts = some threads ∧ cascade fuel threads = some rounds
      ∧ (∀ m, m < rounds.length ↔ (linkLayer (hitEdges hit (parts.flatMap Prod.fst)) (roots parts) m).Nonempty)
      ∧ ∀ m, (entered rounds m).Nodup ∧ ∀ id, id ∈ entered rounds m
        ↔ id ∈ linkLayer (hitEdges hit (parts.flatMap Prod.fst)) (roots parts) (m + 1) := by
  have htables : ∀ part ∈ parts, ∀ t ∈ part.2, t.Sound ∅ := fun part hpart => (h part hpart).2
  obtain ⟨threads, hstart, hrefs, hready⟩ := start_spec hit htables
  have hlinks := start_links htables (fun part hpart => (h part hpart).1) hblocks hstart
  have hsub := links_sublist hrefs
  rw [hlinks] at hsub
  set E := hitEdges hit (parts.flatMap Prod.fst)
  have hnd : (E.map Prod.fst).Nodup := by
    refine List.Nodup.sublist (hsub.map Prod.fst) ?_
    rw [references_eq]
    exact nodup_sources hblocks
  have hfun : ∀ s t t', (s, t) ∈ E → (s, t') ∈ E → t = t' := fun s t t' h h' =>
    congrArg Prod.snd (List.inj_on_of_nodup_map hnd h h' rfl)
  have hroot : ∀ r ∈ (↑(roots parts) : Set ℕ), ∀ t, (r, t) ∉ E := fun r hr t hrt =>
    (Finset.mem_sdiff.mp (Finset.mem_coe.mp hr)).2 (mem_sources.mpr ⟨t, hsub.subset hrt⟩)
  have hinvalid : invalidId ∉ sources E := by
    intro hin
    obtain ⟨t, ht⟩ := mem_sources.mp hin
    exact lt_irrefl _ (source_lt (mem_sources.mpr ⟨t, hsub.subset ht⟩))
  have hend : linkLayer E (roots parts) ((sources E).card + 1) = ∅ :=
    exists_layer_eq_empty hfun hroot (sources E) fun s t hst => mem_sources.mpr ⟨t, hst⟩
  obtain ⟨rounds, hrun, hrounds⟩ := cascade_spec hlinks hready hnd (roots_ne parts) hinvalid hend
  refine ⟨threads, rounds, _, hstart, hrun, fun m => ?_, hrounds⟩
  refine cascade_length hlinks hready hnd (roots_ne parts) hinvalid (fun hnil => ?_) hrun
  rw [hnil, List.map_nil] at hrefs
  exact absurd (List.map_eq_nil_iff.mp hrefs.symm) hparts

end Hits

/-! ### All orders of steps -/

section Orders

variable {hit : ℕ → Bool} {blocks : List RefBlock} {stride : ℕ}

/-- The blocks of all threads. -/
lemma scan_perm (hlt : ∀ block ∈ blocks, block.start < 2 ^ 32) (chunkSize : ℕ) (hstride : 1 ≤ stride)
    (hle : stride ≤ 2 ^ 31) :
    (List.ofFn fun i : Fin stride => Gather.scan RefBlock.start chunkSize stride blocks i).flatten.Perm blocks := by
  classical
  have hscan : ∀ offset < stride, Gather.scan RefBlock.start chunkSize stride blocks offset
      = blocks.filter fun b => blockGetOffset (b.start / tableBlockSize) chunkSize stride = offset := by
    intro offset ho
    refine List.filter_congr fun block hblock => ?_
    have hb : block.start / tableBlockSize < numBlocks :=
      Nat.div_lt_of_lt_mul (lt_of_lt_of_le (hlt block hblock) (by decide))
    rw [Bool.eq_iff_iff, isSelected_iff hb ho hle, decide_eq_true_iff]
  have hofFn : (List.ofFn fun i : Fin stride => Gather.scan RefBlock.start chunkSize stride blocks i)
      = (List.range stride).map fun offset =>
        blocks.filter fun b => blockGetOffset (b.start / tableBlockSize) chunkSize stride = offset := by
    rw [List.ofFn_eq_map, ← List.map_coe_finRange_eq_range, List.map_map]
    exact List.map_congr_left fun i _ => hscan i i.isLt
  rw [hofFn, ← List.flatMap_def]
  exact perm_parts blocks (fun b => blockGetOffset (b.start / tableBlockSize) chunkSize stride)
    fun _ => Nat.mod_lt _ hstride

/-- **The threads of a cascading gather.** In whichever order the threads of an operator take their steps, they all
leave the loop in the end, after as many steps, and have been through the same rounds as a thread that has the table
for itself: in each round they process the same entities. -/
theorem cascade_interleaved (hit : ℕ → Bool) (hblocks : (blocks.map RefBlock.start).Nodup)
    (hlt : ∀ block ∈ blocks, block.start < 2 ^ 32) (chunkSize : ℕ) (hstride : 1 ≤ stride) (hle : stride ≤ 2 ^ 31)
    {single : List Table} (hsingle : single ≠ [] ∧ ∀ t ∈ single, t.Sound ∅)
    (tables : Fin stride → List Table) (htables : ∀ i, tables i ≠ [] ∧ ∀ t ∈ tables i, t.Sound ∅) :
    ∃ thread rounds fuel, start hit [(blocks, single)] = some thread ∧ cascade fuel thread = some rounds
      ∧ ∃ (l total : ℕ) (τ : Fin stride → CascState),
        (∀ i, (τ i).pc = .test ∧ (τ i).thread.current.size = 0 ∧ (τ i).rounds.length = rounds.length)
        ∧ (∀ m, ((List.ofFn fun i => (τ i).rounds.getD m []).flatten.flatMap Cluster.ids).Perm (entered rounds m))
        ∧ ∀ steps c, Steps (Advances (CascState.next hit)) steps (together 0 fun i =>
              CascState.init (Gather.scan RefBlock.start chunkSize stride blocks i, tables i)) c →
            ∃ rest, total = steps + rest ∧ Steps (Advances (CascState.next hit)) rest c (together l τ) := by
  set parts : Fin stride → List RefBlock × List Table := fun i =>
    (Gather.scan RefBlock.start chunkSize stride blocks i, tables i) with hparts
  have hperm : ((List.ofFn parts).flatMap Prod.fst).Perm blocks := by
    rw [List.flatMap_def, List.map_ofFn]
    exact scan_perm hlt chunkSize hstride hle
  have hne : List.ofFn parts ≠ [] := List.ne_nil_of_length_pos (by rwa [List.length_ofFn])
  have hsound : ∀ part ∈ List.ofFn parts, part.2 ≠ [] ∧ ∀ t ∈ part.2, t.Sound ∅ := fun part hpart => by
    obtain ⟨i, rfl⟩ := List.mem_ofFn.mp hpart
    exact htables i
  have hnd : (((List.ofFn parts).flatMap Prod.fst).map RefBlock.start).Nodup := (hperm.map _).nodup_iff.mpr hblocks
  have hone : [(blocks, single)].flatMap Prod.fst = blocks := by rw [List.flatMap_singleton]
  -- the references that take part and the roots are the same
  have hedges : (hitEdges hit ((List.ofFn parts).flatMap Prod.fst)).Perm
      (hitEdges hit ([(blocks, single)].flatMap Prod.fst)) := by
    rw [hone]
    exact (hperm.filter _).flatMap_right _
  have hroots : roots (List.ofFn parts) = roots [(blocks, single)] := by
    have hrefs : (references (List.ofFn parts)).Perm (references [(blocks, single)]) := by
      rw [references_eq, references_eq, hone]
      exact hperm.flatMap_right _
    rw [roots, roots, sources_perm hrefs, targets_perm hrefs]
  obtain ⟨thread, rounds, fuel, hstart, hrun, hlen, hids⟩ := start_rounds hit
    (List.cons_ne_nil (blocks, single) [])
    (fun part hpart => by rw [List.mem_singleton.mp hpart]; exact hsingle) (by rwa [hone])
  obtain ⟨threads, rounds', fuel', hstart', hrun', hlen', hids'⟩ := start_rounds hit hne hsound hnd
  simp only [linkLayer_perm hedges, hroots] at hlen' hids'
  have hrounds : rounds'.length = rounds.length := eq_of_forall_lt_iff fun m => (hlen' m).trans (hlen m).symm
  obtain ⟨t, rfl, n₁, hfirst⟩ := CascState.first_phases hstart'
  obtain ⟨l, t', b, hsize, hcount, hclusters, n₂, hloop⟩ := CascState.loop_phases (d := fun _ => []) hrun' le_rfl rfl
  refine ⟨thread, rounds, fuel, hstart, hrun, l, n₁ + n₂, fun i => ⟨.test, t' i, [] ++ b i⟩,
    fun i => ⟨rfl, hsize i, (hcount i).trans hrounds⟩, fun m => ?_, fun steps c hc => ?_⟩
  · have hentered : (List.ofFn fun i => (b i).getD m []).flatten.flatMap Cluster.ids = entered rounds' m := by
      rw [hclusters m]
      rfl
    exact hentered ▸ (List.perm_ext_iff_of_nodup (hids' m).1 (hids m).1).mpr fun id =>
      ((hids' m).2 id).trans ((hids m).2 id).symm
  · have hinit : ∀ i, (CascState.init (parts i)).pc.In 0 := fun i => rfl
    refine (CascState.phased hit).ends hinit (hfirst.trans hloop) (fun i => ?_) hc
    simp only [CascState.next, hsize i, lt_irrefl, if_false]

/-- Two threads and a chain through both parts of the table: no order of steps is a dead end. -/
theorem cascade_interleaved_two : ∃ (l total : ℕ) (τ : Fin 2 → CascState), ∀ steps c,
    Steps (Advances (CascState.next fun _ => true)) steps (together 0 fun i : Fin 2 =>
      CascState.init (Gather.scan RefBlock.start 1 2 [RefBlock.single 0 256 (by decide) (by decide),
        RefBlock.single 1 7 (by decide) (by decide)] i, [Table.init 8 false fun _ => 0])) c →
    ∃ rest, total = steps + rest ∧ Steps (Advances (CascState.next fun _ => true)) rest c (together l τ) := by
  have htables : [Table.init 8 false fun _ => 0] ≠ [] ∧ ∀ t ∈ [Table.init 8 false fun _ => 0], t.Sound ∅ :=
    ⟨List.cons_ne_nil _ _, fun t ht => List.mem_singleton.mp ht ▸ Table.Sound.init 8 false _⟩
  have hblocks : ([RefBlock.single 0 256 (by decide) (by decide),
      RefBlock.single 1 7 (by decide) (by decide)].map RefBlock.start).Nodup := by
    simp only [List.map_cons, List.map_nil, RefBlock.start_single]
    decide
  have hlt : ∀ block ∈ [RefBlock.single 0 256 (by decide) (by decide),
      RefBlock.single 1 7 (by decide) (by decide)], block.start < 2 ^ 32 := by
    simp only [List.forall_mem_cons, RefBlock.start_single]
    decide
  obtain ⟨-, -, -, -, -, l, total, τ, -, -, hall⟩ := cascade_interleaved (fun _ => true) hblocks hlt 1
    (show 1 ≤ 2 by decide) (by decide) htables (fun _ => [Table.init 8 false fun _ => 0]) fun _ => htables
  exact ⟨l, total, τ, hall⟩

end Orders

end Furious
