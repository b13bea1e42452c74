import Furious.Library.Descent

/-!
Threads that wait for each other at barriers.

A thread goes from one barrier to the next, and leaves a barrier when all threads have come to it. Between two
barriers it changes its own variables, and of those of other threads it reads only what none of them changes
there. Then it does not matter which thread goes on when.

* `Proc`, `Move`, `Moves`, `Advances`: the threads, and what one of them can do;
* `Phased`: what is read between two barriers is not changed there;
* `exchanges`: **the steps of different threads can be exchanged**;
* `Alone`, `phase_steps`: a phase, one thread after the other;
* `Phased.ends`: **all orders of steps** lead to the end that one of them has;
* `Course`, `Phased.located`: **in all orders each thread goes the same way**, phase by phase.
-/

namespace Furious

/-- A thread: whether it waits at a barrier, the number of barriers that it has come to, and its variables. -/
structure Proc (S : Type*) where
  waiting : Bool
  reached : ℕ
  state : S

/-- What a thread does next: some work, or it comes to a barrier. -/
inductive Move (S : Type*) where
  | work (s : S)
  | wait (s : S)

/-- The variables afterwards. -/
def Move.state {S : Type*} : Move S → S
  | .work s | .wait s => s

/-- The same move of other variables. -/
def Move.map {S T : Type*} (f : S → T) : Move S → Move T
  | .work s => .work (f s)
  | .wait s => .wait (f s)

section Threads

variable {ι S V : Type*}

/-- The variables afterwards belong to phase `k`, or behind a barrier to the next one. -/
def Move.In (J : ℕ → S → Prop) (k : ℕ) : Move S → Prop
  | .work s => J k s
  | .wait s => J (k + 1) s

/-- What a thread becomes by its move. -/
def Move.proc (k : ℕ) : Move S → Proc S
  | .work s => ⟨false, k, s⟩
  | .wait s => ⟨true, k + 1, s⟩

variable (next : (ι → S) → S → Option (Move S))

/-- **What a thread can do**: its next move, or to leave a barrier that all threads have come to. -/
inductive Moves (c : ι → Proc S) (i : ι) : Proc S → Prop
  | move {m : Move S} (hrun : (c i).waiting = false) (hnext : next (fun j => (c j).state) (c i).state = some m) :
      Moves c i (m.proc (c i).reached)
  | leave (hwait : (c i).waiting = true) (hall : ∀ j, (c i).reached ≤ (c j).reached) :
      Moves c i ⟨false, (c i).reached, (c i).state⟩

/-- A step of one of the threads. -/
def Advances [DecidableEq ι] (c c' : ι → Proc S) : Prop := ∃ i p, Moves next c i p ∧ c' = Function.update c i p

/-- **Phases.** In phase `k` the variables are such that `J k`, and of those of other threads only `view k` is read, which
no thread changes in this phase. -/
structure Phased (J : ℕ → S → Prop) (view : ℕ → S → V) : Prop where
  leads : ∀ {k σ s m}, J k s → next σ s = some m → m.In J k
  reads : ∀ {k s} {σ σ' : ι → S}, J k s → (∀ j, view k (σ j) = view k (σ' j)) → next σ s = next σ' s
  keeps : ∀ {k σ s m}, J k s → next σ s = some m → view k m.state = view k s

/-- The threads are in their phases, and one that does not wait is not ahead of any other. -/
structure InPhase (J : ℕ → S → Prop) (c : ι → Proc S) : Prop where
  phase : ∀ i, J (c i).reached (c i).state
  behind : ∀ i, (c i).waiting = false → ∀ j, (c i).reached ≤ (c j).reached

/-- All threads at the beginning of phase `k`. -/
def together (k : ℕ) (σ : ι → S) : ι → Proc S := fun i => ⟨false, k, σ i⟩

variable {next} {J : ℕ → S → Prop} {view : ℕ → S → V} {c c' : ι → Proc S} {i j : ι} {p q : Proc S} {k : ℕ}

lemma InPhase.together {σ : ι → S} (h : ∀ i, J k (σ i)) : InPhase J (together k σ) := ⟨h, fun _ _ _ => le_rfl⟩

/-- A thread never goes back. -/
lemma Moves.reached_le (h : Moves next c i p) : (c i).reached ≤ p.reached := by
  cases h with
  | @move m hrun hnext =>
      cases m with
      | work s => exact le_rfl
      | wait s => exact Nat.le_succ _
  | leave hwait hall => exact le_rfl

/-- A thread has one thing to do. -/
lemma Moves.unique (hi : Moves next c i p) (hi' : Moves next c i q) : p = q := by
  cases hi with
  | move hrun hnext =>
      cases hi' with
      | move hrun' hnext' => rw [Option.some.inj (hnext.symm.trans hnext')]
      | leave hwait hall =>
          rw [hrun] at hwait
          cases hwait
  | leave hwait hall =>
      cases hi' with
      | move hrun hnext =>
          rw [hwait] at hrun
          cases hrun
      | leave hwait' hall' => rfl

variable [DecidableEq ι]

lemma reached_update (h : Moves next c i p) (j : ι) : (c j).reached ≤ (Function.update c i p j).reached := by
  by_cases hj : j = i
  · rw [hj, Function.update_self]
    exact h.reached_le
  · rw [Function.update_of_ne hj]

namespace Phased

variable (h : Phased next J view)

include h

/-- **A step** keeps the phases. -/
lemma inPhase (hc : InPhase J c) (hi : Moves next c i p) : InPhase J (Function.update c i p) where
  phase j := by
    by_cases hj : j = i
    · rw [hj, Function.update_self]
      cases hi with
      | @move m hrun hnext =>
          have hm := h.leads (hc.phase i) hnext
          cases m with
          | work s => exact hm
          | wait s => exact hm
      | leave hwait hall => exact hc.phase i
    · rw [Function.update_of_ne hj]
      exact hc.phase j
  behind j hrun l := by
    refine le_trans ?_ (reached_update hi l)
    by_cases hj : j = i
    · rw [hj, Function.update_self] at hrun ⊢
      cases hi with
      | @move m hrun' hnext =>
          cases m with
          | work s => exact hc.behind i hrun' l
          | wait s => exact absurd hrun (by rw [Move.proc]; exact Bool.noConfusion)
      | leave hwait hall => exact hall l
    · rw [Function.update_of_ne hj] at hrun ⊢
      exact hc.behind j hrun l

/-- What another thread reads is not changed. -/
lemma view_update (hc : InPhase J c) (hi : Moves next c i p) (hj : (c j).waiting = false) (l : ι) :
    view (c j).reached (Function.update c i p l).state = view (c j).reached (c l).state := by
  by_cases hl : l = i
  · rw [hl, Function.update_self]
    cases hi with
    | @move m hrun hnext =>
        have heq : (c j).reached = (c i).reached := le_antisymm (hc.behind j hj i) (hc.behind i hrun j)
        have hstate : (m.proc (c i).reached).state = m.state := by cases m <;> rfl
        rw [hstate, heq]
        exact h.keeps (hc.phase i) hnext
    | leave hwait hall => rfl
  · rw [Function.update_of_ne hl]

/-- A thread can do the same after a step of another one. -/
lemma moves_update (hc : InPhase J c) (hne : j ≠ i) (hi : Moves next c i p) (hj : Moves next c j q) :
    Moves next (Function.update c i p) j q := by
  have hsame : Function.update c i p j = c j := Function.update_of_ne hne _ _
  cases hj with
  | @move m hrun hnext =>
      have hreads : next (fun l => (Function.update c i p l).state) (c j).state = some m := by
        rw [h.reads (hc.phase j) fun l => h.view_update hc hi hrun l]
        exact hnext
      have hmove : Moves next (Function.update c i p) j (m.proc (Function.update c i p j).reached) :=
        .move (by rw [hsame]; exact hrun) (by rw [hsame]; exact hreads)
      rwa [hsame] at hmove
  | leave hwait hall =>
      have hleave : Moves next (Function.update c i p) j
          ⟨false, (Function.update c i p j).reached, (Function.update c i p j).state⟩ :=
        .leave (by rw [hsame]; exact hwait) fun l => by
          rw [hsame]
          exact (hall l).trans (reached_update hi l)
      rwa [hsame] at hleave

/-- **The steps of different threads can be exchanged.** -/
theorem exchanges : Exchanges (Advances next) (InPhase J) where
  keeps a b ha := by
    rintro ⟨i, p, hi, rfl⟩
    exact h.inPhase ha hi
  exchange a b c ha := by
    rintro ⟨i, p, hi, rfl⟩ ⟨j, q, hj, rfl⟩
    by_cases hij : i = j
    · subst hij
      exact .inl (by rw [hi.unique hj])
    · refine .inr ⟨_, ⟨j, q, h.moves_update ha (Ne.symm hij) hi hj, rfl⟩, i, p, h.moves_update ha hij hj hi, ?_⟩
      exact Function.update_comm hij _ _ _

end Phased

/-! ### One thread after the other -/

/-- A thread that is alone comes to the next barrier, while those of the others stay as in `σ`. -/
def Alone (next : (ι → S) → S → Option (Move S)) (σ : ι → S) : ℕ → S → S → Prop
  | 0, s, t => next σ s = some (.wait t)
  | n + 1, s, t => ∃ s', next σ s = some (.work s') ∧ Alone next σ n s' t

namespace Phased

variable (h : Phased next J view) {σ τ : ι → S} {s t : S} {n : ℕ}

include h

omit [DecidableEq ι] in
/-- What a thread leaves alone on its way to the next barrier. -/
lemma alone_view (hs : J k s) (halone : Alone next σ n s t) : view k t = view k s ∧ J (k + 1) t := by
  induction n generalizing s with
  | zero => exact ⟨h.keeps hs halone, h.leads hs halone⟩
  | succ n ih =>
      obtain ⟨s', hwork, hrest⟩ := halone
      obtain ⟨hview, ht⟩ := ih (h.leads hs hwork) hrest
      exact ⟨hview.trans (h.keeps hs hwork), ht⟩

/-- **The steps of one thread** up to the next barrier. -/
lemma alone_steps (hs : J k s) (halone : Alone next σ n s t) (hi : c i = ⟨false, k, s⟩)
    (hviews : ∀ j, view k (c j).state = view k (σ j)) :
    Steps (Advances next) (n + 1) c (Function.update c i ⟨true, k + 1, t⟩) := by
  have hnext {m : Move S} (hm : next σ s = some m) : Moves next c i (m.proc k) := by
    have hmove : Moves next c i (m.proc (c i).reached) := .move (by rw [hi]) (by rw [hi, ← hm, h.reads hs hviews])
    rwa [hi] at hmove
  induction n generalizing c s with
  | zero => exact .one ⟨i, _, hnext halone, rfl⟩
  | succ n ih =>
      obtain ⟨s', hwork, hrest⟩ := halone
      have hview : view k s' = view k s := h.keeps hs hwork
      have hi' : Function.update c i ⟨false, k, s'⟩ i = ⟨false, k, s'⟩ := Function.update_self _ _ _
      have hviews' : ∀ j, view k (Function.update c i ⟨false, k, s'⟩ j).state = view k (σ j) := by
        intro j
        by_cases hj : j = i
        · rw [hj, Function.update_self, hview, ← hviews i, hi]
        · rw [Function.update_of_ne hj]
          exact hviews j
      have hsteps := ih (h.leads hs hwork) hrest hi' hviews' fun {m} hm => by
        have hmove : Moves next (Function.update c i ⟨false, k, s'⟩) i
            (m.proc (Function.update c i ⟨false, k, s'⟩ i).reached) :=
          .move (by rw [hi']) (by rw [hi', ← hm, h.reads (h.leads hs hwork) hviews'])
        rwa [hi'] at hmove
      rw [Function.update_idem] at hsteps
      exact ⟨_, ⟨i, _, hnext hwork, rfl⟩, hsteps⟩

/-- **A phase**, in which each thread comes to the next barrier on its own. -/
theorem phase_steps [Finite ι] (hσ : ∀ i, J k (σ i)) (halone : ∀ i, ∃ n, Alone next σ n (σ i) (τ i)) :
    (∃ n, Steps (Advances next) n (together k σ) (together (k + 1) τ)) ∧ ∀ i, J (k + 1) (τ i) := by
  classical
  have : Fintype ι := Fintype.ofFinite ι
  have hend : ∀ i, view k (τ i) = view k (σ i) ∧ J (k + 1) (τ i) := fun i => by
    obtain ⟨n, hn⟩ := halone i
    exact h.alone_view (hσ i) hn
  -- the threads of `A` have come to the barrier
  have hcome : ∀ A : Finset ι, ∃ n, Steps (Advances next) n (together k σ)
      fun i => if i ∈ A then ⟨true, k + 1, τ i⟩ else ⟨false, k, σ i⟩ := by
    intro A
    induction A using Finset.induction_on with
    | empty => exact ⟨0, funext fun i => (if_neg (Finset.notMem_empty i)).symm⟩
    | @insert i A hi ih =>
        obtain ⟨n, hn⟩ := ih
        obtain ⟨m, hm⟩ := halone i
        have hsteps := h.alone_steps (hσ i) hm
          (c := fun j => if j ∈ A then ⟨true, k + 1, τ j⟩ else ⟨false, k, σ j⟩) (i := i) (if_neg hi) fun j => by
            split_ifs
            · exact (hend j).1
            · rfl
        refine ⟨n + (m + 1), hn.trans ((congrArg _ (funext fun j => ?_)).mp hsteps)⟩
        by_cases hj : j = i
        · rw [hj, Function.update_self, if_pos (Finset.mem_insert_self i A)]
        · rw [Function.update_of_ne hj]
          exact if_congr (by rw [Finset.mem_insert, or_iff_right hj]) rfl rfl
  -- the threads of `A` have left it
  have hleave : ∀ A : Finset ι, ∃ n, Steps (Advances next) n (fun i => ⟨true, k + 1, τ i⟩)
      fun i => ⟨decide (i ∉ A), k + 1, τ i⟩ := by
    intro A
    induction A using Finset.induction_on with
    | empty => exact ⟨0, by simp [Steps]⟩
    | @insert i A hi ih =>
        obtain ⟨n, hn⟩ := ih
        have hmove : Moves next (fun j => ⟨decide (j ∉ A), k + 1, τ j⟩) i ⟨false, k + 1, τ i⟩ :=
          .leave (decide_eq_true hi) fun _ => le_rfl
        refine ⟨n + 1, hn.trans (.one ⟨i, _, hmove, funext fun j => ?_⟩)⟩
        by_cases hj : j = i
        · rw [hj, Function.update_self]
          simp
        · rw [Function.update_of_ne hj]
          simp [hj]
  obtain ⟨n, hn⟩ := hcome Finset.univ
  obtain ⟨m, hm⟩ := hleave Finset.univ
  simp only [Finset.mem_univ, if_true] at hn
  refine ⟨⟨n + m, hn.trans ((congrArg _ (funext fun i => ?_)).mp hm)⟩, fun i => (hend i).2⟩
  simp [together]

/-- **All orders of steps** can be continued to an end at which all threads have stopped, and are equally long then. -/
theorem ends {l n : ℕ} (hσ : ∀ i, J k (σ i)) (hrun : Steps (Advances next) n (together k σ) (together l τ))
    (hstop : ∀ i, next τ (τ i) = none) {steps : ℕ} (hc : Steps (Advances next) steps (together k σ) c) :
    ∃ m, n = steps + m ∧ Steps (Advances next) m c (together l τ) := by
  refine h.exchanges.descent (InPhase.together hσ) hrun ?_ hc
  rintro y ⟨i, p, hi, -⟩
  cases hi with
  | move hgo hnext =>
      have hnone : some _ = none := hnext.symm.trans (hstop i)
      cases hnone
  | leave hwait hall => cases hwait

end Phased

/-! ### The way of a thread -/

/-- What a thread comes to by work alone, while the variables of the others are as in `σ`. -/
def Between (next : (ι → S) → S → Option (Move S)) (σ : ι → S) : S → S → Prop :=
  Relation.ReflTransGen fun s t => next σ s = some (.work t)

/-- **A course** of `l` phases: the threads begin phase `k` with `σ k`. -/
def Course (next : (ι → S) → S → Option (Move S)) (l : ℕ) (σ : ℕ → ι → S) : Prop :=
  ∀ k < l, ∀ i, ∃ n, Alone next (σ k) n (σ k i) (σ (k + 1) i)

/-- Each thread is on the way that the course has for it. -/
structure Located (next : (ι → S) → S → Option (Move S)) (l : ℕ) (σ : ℕ → ι → S) (c : ι → Proc S) : Prop where
  le : ∀ i, (c i).reached ≤ l
  near : ∀ i, (c i).waiting = true → ∀ j, (c i).reached ≤ (c j).reached + 1
  comes : ∀ i, (c i).waiting = true → (c i).state = σ (c i).reached i
  goes : ∀ i, (c i).waiting = false → Between next (σ (c i).reached) (σ (c i).reached i) (c i).state

omit [DecidableEq ι] in
/-- A thread that is on its way comes to the same barrier. -/
lemma Alone.rest {σ : ι → S} {s t u : S} {n : ℕ} (h : Alone next σ n s t) (hu : Between next σ s u) :
    ∃ m, Alone next σ m u t := by
  induction hu with
  | refl => exact ⟨n, h⟩
  | tail _ hwork ih =>
      obtain ⟨m, hm⟩ := ih
      cases m with
      | zero =>
          have hwait : next σ _ = some (.wait t) := hm
          rw [hwork] at hwait
          cases hwait
      | succ m =>
          obtain ⟨s', hs', hrest⟩ := hm
          rw [hwork] at hs'
          obtain rfl := Move.work.inj (Option.some.inj hs')
          exact ⟨m, hrest⟩

omit [DecidableEq ι] in
/-- A thread that is on its way comes to the barrier that is before it. -/
lemma Between.alone {σ : ι → S} {s t u : S} (hu : Between next σ s u) (h : ∃ n, Alone next σ n u t) :
    ∃ n, Alone next σ n s t := by
  induction hu using Relation.ReflTransGen.head_induction_on with
  | refl => exact h
  | head hwork _ ih =>
      obtain ⟨n, hn⟩ := ih
      exact ⟨n + 1, _, hwork, hn⟩

omit [DecidableEq ι] in
lemma Located.together {l : ℕ} {σ : ℕ → ι → S} : Located next l σ (together 0 (σ 0)) where
  le _ := Nat.zero_le l
  near _ hwait := Bool.noConfusion hwait
  comes _ hwait := Bool.noConfusion hwait
  goes _ _ := .refl

/-- One thread goes on, the others stay where they are. -/
lemma Located.update {l : ℕ} {σ : ℕ → ι → S} (hl : Located next l σ c) (hle : p.reached ≤ l)
    (hmono : (c i).reached ≤ p.reached) (hnear : p.waiting = true → ∀ j, p.reached ≤ (c j).reached + 1)
    (hcomes : p.waiting = true → p.state = σ p.reached i)
    (hgoes : p.waiting = false → Between next (σ p.reached) (σ p.reached i) p.state) :
    Located next l σ (Function.update c i p) := by
  have hreached (j : ι) : (c j).reached ≤ (Function.update c i p j).reached := by
    by_cases hj : j = i
    · rw [hj, Function.update_self]
      exact hmono
    · rw [Function.update_of_ne hj]
  refine ⟨fun j => ?_, fun j hw j' => ?_, fun j hw => ?_, fun j hw => ?_⟩
  · rcases eq_or_ne j i with rfl | hj
    · rwa [Function.update_self]
    · rw [Function.update_of_ne hj]
      exact hl.le j
  · refine le_trans ?_ (Nat.succ_le_succ (hreached j'))
    rcases eq_or_ne j i with rfl | hj
    · rw [Function.update_self] at hw ⊢
      exact hnear hw j'
    · rw [Function.update_of_ne hj] at hw ⊢
      exact hl.near j hw j'
  · rcases eq_or_ne j i with rfl | hj
    · rw [Function.update_self] at hw ⊢
      exact hcomes hw
    · rw [Function.update_of_ne hj] at hw ⊢
      exact hl.comes j hw
  · rcases eq_or_ne j i with rfl | hj
    · rw [Function.update_self] at hw ⊢
      exact hgoes hw
    · rw [Function.update_of_ne hj] at hw ⊢
      exact hl.goes j hw

namespace Phased

variable (h : Phased next J view) {l : ℕ} {σ : ℕ → ι → S}

include h

omit [DecidableEq ι] in
/-- The phases of a course. -/
lemma course_phase (hσ : ∀ i, J 0 (σ 0 i)) (hcourse : Course next l σ) (hk : k ≤ l) (i : ι) : J k (σ k i) := by
  induction k with
  | zero => exact hσ i
  | succ k ih =>
      obtain ⟨n, hn⟩ := hcourse k hk i
      exact (h.alone_view (ih (Nat.le_of_succ_le hk)) hn).2

/-- **A course is a run.** -/
theorem course_steps [Finite ι] (hσ : ∀ i, J 0 (σ 0 i)) (hcourse : Course next l σ) :
    ∃ n, Steps (Advances next) n (together 0 (σ 0)) (together l (σ l)) := by
  induction l with
  | zero => exact ⟨0, rfl⟩
  | succ l ih =>
      have hcourse' : Course next l σ := fun k hk => hcourse k (hk.trans (Nat.lt_succ_self l))
      obtain ⟨n, hn⟩ := ih hcourse'
      obtain ⟨⟨m, hm⟩, -⟩ := h.phase_steps (h.course_phase hσ hcourse' le_rfl) (hcourse l (Nat.lt_succ_self l))
      exact ⟨n + m, hn.trans hm⟩

omit [DecidableEq ι] in
lemma between_view {σ : ι → S} {s u : S} (hs : J k s) (hu : Between next σ s u) : J k u ∧ view k u = view k s := by
  induction hu with
  | refl => exact ⟨hs, rfl⟩
  | tail _ hwork ih => exact ⟨h.leads ih.1 hwork, (h.keeps ih.1 hwork).trans ih.2⟩

omit [DecidableEq ι] in
/-- What a thread that goes on reads of the others is what they began the phase with. -/
lemma located_view (hσ : ∀ i, J 0 (σ 0 i)) (hcourse : Course next l σ) (hc : InPhase J c) (hl : Located next l σ c)
    (hi : (c i).waiting = false) (j : ι) :
    view (c i).reached (c j).state = view (c i).reached (σ (c i).reached j) := by
  have hphase := h.course_phase hσ hcourse (hl.le i)
  cases hj : (c j).waiting with
  | false =>
      have heq : (c j).reached = (c i).reached := le_antisymm (hc.behind j hj i) (hc.behind i hi j)
      have hgoes := hl.goes j hj
      rw [heq] at hgoes
      exact (h.between_view (hphase j) hgoes).2
  | true =>
      rw [hl.comes j hj]
      rcases Nat.eq_or_lt_of_le (hc.behind i hi j) with heq | hlt
      · rw [← heq]
      · have heq : (c j).reached = (c i).reached + 1 := le_antisymm (hl.near j hj i) hlt
        obtain ⟨n, hn⟩ := hcourse _ (Nat.lt_of_lt_of_le hlt (hl.le j)) j
        rw [heq]
        exact (h.alone_view (hphase j) hn).1

/-- **A step** keeps the threads on their ways. -/
lemma located_step (hσ : ∀ i, J 0 (σ 0 i)) (hcourse : Course next l σ) (hstop : ∀ i, next (σ l) (σ l i) = none)
    (hc : InPhase J c) (hl : Located next l σ c) (hi : Moves next c i p) :
    Located next l σ (Function.update c i p) := by
  cases hi with
  | @move m hrun hnext =>
      have hlocal : next (σ (c i).reached) (c i).state = some m := by
        rw [← hnext]
        exact (h.reads (hc.phase i) (h.located_view hσ hcourse hc hl hrun)).symm
      have hgoes := hl.goes i hrun
      -- nothing is left to be done at the end of the course
      have hlt : (c i).reached < l := by
        refine lt_of_le_of_ne (hl.le i) fun heq => ?_
        rw [heq] at hgoes hlocal
        rcases hgoes.cases_head with hsame | ⟨u, hu, -⟩
        · rw [← hsame, hstop] at hlocal
          cases hlocal
        · rw [hstop] at hu
          cases hu
      cases m with
      | work s =>
          exact hl.update (hl.le i) le_rfl (fun hw => by cases hw) (fun hw => by cases hw) fun _ => hgoes.tail hlocal
      | wait s =>
          obtain ⟨n, hn⟩ := hcourse _ hlt i
          obtain ⟨m, hm⟩ := hn.rest hgoes
          have hend : s = σ ((c i).reached + 1) i := by
            cases m with
            | zero => exact Move.wait.inj (Option.some.inj (hlocal.symm.trans hm))
            | succ m =>
                obtain ⟨s', hs', -⟩ := hm
                cases Option.some.inj (hlocal.symm.trans hs')
          exact hl.update hlt (Nat.le_succ _) (fun _ j => Nat.succ_le_succ (hc.behind i hrun j)) (fun _ => hend)
            fun hw => by cases hw
  | leave hwait hall =>
      refine hl.update (hl.le i) le_rfl (fun hw => by cases hw) (fun hw => by cases hw) fun _ => ?_
      rw [hl.comes i hwait]
      exact .refl

/-- **In all orders of steps** each thread goes the way that the course has for it. -/
theorem located {steps : ℕ} {a : ι → Proc S} (hσ : ∀ i, J 0 (σ 0 i)) (hcourse : Course next l σ)
    (hstop : ∀ i, next (σ l) (σ l i) = none) (ha : InPhase J a) (hla : Located next l σ a)
    (hrun : Steps (Advances next) steps a c) : InPhase J c ∧ Located next l σ c := by
  induction steps generalizing a with
  | zero =>
      obtain rfl : a = c := hrun
      exact ⟨ha, hla⟩
  | succ steps ih =>
      obtain ⟨b, ⟨i, p, hi, rfl⟩, hrest⟩ := hrun
      exact ih (h.inPhase ha hi) (h.located_step hσ hcourse hstop ha hla hi) hrest

end Phased

end Threads

end Furious
