import Furious.Compiler.DepartureTimes

/-!
The execution sequence.

A node is marked when it joins a frontier and written when the frontier is
passed, so at any moment some marked nodes are still pending. Read as one list,
the written sequence followed by the pending nodes, the marks only ever append
to it, and emitting moves its boundary: that list is the invariant.

* `SeqState.order`, `SeqInv`: the list and what holds of it;
* `SeqInv.mark`, `emitNode_spec`, `frontierLoop_spec`, `startNode_pass`,
  `sequenceLoop_spec`: one lemma for each loop of the source;
* `getValidExecSequence_spec`: **the sequence ends; it lists nodes without
  repetition and parents first, and on an acyclic graph it lists all nodes**.
-/

namespace Furious

variable {p : ExecPlan}

/-! ### The order of marking -/

/-- The nodes marked so far in the order of marking: those written, those left
of the current frontier and those of the next one. -/
def SeqState.order (s : SeqState) (cur : List ℕ) : List ℕ :=
  s.seq ++ (cur ++ s.nextFrontier)

/-- The invariant of the sequencer. -/
structure SeqInv (p : ExecPlan) (s : SeqState) (cur : List ℕ) : Prop where
  nodup : (s.order cur).Nodup
  lt_nnodes : ∀ v ∈ s.order cur, v < p.nnodes
  visited_iff : ∀ v, s.visitedNodes v = true ↔ v ∈ s.order cur
  preceded : PrecededBy (fun v => (p.nodes v).parents) (s.order cur)

/-- Only inserted nodes are marked, each once. -/
lemma SeqInv.length_le {s : SeqState} {cur : List ℕ} (h : SeqInv p s cur) :
    (s.order cur).length ≤ p.nnodes := by
  have hsub : s.order cur ⊆ List.range p.nnodes := fun v hv =>
    List.mem_range.mpr (h.lt_nnodes v hv)
  simpa using (h.nodup.subperm hsub).length_le

lemma SeqInv.seq_length_le {s : SeqState} {cur : List ℕ} (h : SeqInv p s cur) :
    s.seq.length ≤ p.nnodes := by
  have := h.length_le
  simp only [SeqState.order, List.length_append] at this
  omega

/-- All parents of a node are marked when the check says so. -/
lemma SeqInv.parents_mem {s : SeqState} {cur : List ℕ} (h : SeqInv p s cur) {v : ℕ}
    (hv : allVisitedParents p v s.visitedNodes = true) :
    ∀ a ∈ (p.nodes v).parents, a ∈ s.order cur := by
  intro a ha
  rw [← h.visited_iff]
  exact List.all_eq_true.mp hv a ha

/-- Marking an unmarked node with marked parents, when the order grows by it. -/
lemma SeqInv.mark {s s' : SeqState} {cur cur' : List ℕ} (h : SeqInv p s cur) {v : ℕ}
    (hlt : v < p.nnodes) (hv : s.visitedNodes v = false)
    (hpar : allVisitedParents p v s.visitedNodes = true)
    (hmark : s'.visitedNodes = Function.update s.visitedNodes v true)
    (horder : s'.order cur' = s.order cur ++ [v]) : SeqInv p s' cur' := by
  have hnot : v ∉ s.order cur := by
    rw [← h.visited_iff, hv]
    simp
  refine ⟨?_, ?_, ?_, ?_⟩
  · rw [horder]
    exact List.nodup_append.mpr ⟨h.nodup, List.nodup_singleton v, fun a ha b hb e =>
      hnot (by rw [← List.mem_singleton.mp hb, ← e]; exact ha)⟩
  · rw [horder]
    simp only [List.mem_append, List.mem_singleton]
    rintro w (hw | rfl)
    · exact h.lt_nnodes w hw
    · exact hlt
  · intro w
    rw [horder, hmark, List.mem_append, List.mem_singleton]
    rcases eq_or_ne w v with rfl | hwv
    · simp
    · rw [Function.update_of_ne hwv, h.visited_iff]
      simp [hwv]
  · rw [horder]
    exact h.preceded.snoc (h.parents_mem hpar)

/-! ### One frontier -/

/-- A child that joins the next frontier extends the order at its end. -/
lemma pushChild_spec {s : SeqState} {cur : List ℕ} (h : SeqInv p s cur) {c : ℕ}
    (hc : c < p.nnodes) :
    SeqInv p (pushChild p s c) cur ∧ (pushChild p s c).seq = s.seq := by
  unfold pushChild
  split
  · next hcond =>
      simp only [Bool.and_eq_true, Bool.not_eq_true'] at hcond
      refine ⟨h.mark hc hcond.1 hcond.2 rfl ?_, rfl⟩
      simp [SeqState.order]
  · exact ⟨h, rfl⟩

/-- Emitting the first node of the frontier. -/
lemma emitNode_spec (hp : p.WellFormed) {s : SeqState} {a : ℕ} {cur : List ℕ}
    (h : SeqInv p s (a :: cur)) :
    SeqInv p (emitNode p s a) cur ∧ (emitNode p s a).seq = s.seq ++ [a] := by
  have h' : SeqInv p { s with seq := s.seq ++ [a] } cur := by
    have horder : SeqState.order { s with seq := s.seq ++ [a] } cur = s.order (a :: cur) := by
      simp [SeqState.order]
    exact ⟨horder ▸ h.nodup, horder ▸ h.lt_nnodes, fun v => horder ▸ h.visited_iff v,
      horder ▸ h.preceded⟩
  refine foldl_spec (fun _ t => SeqInv p t cur ∧ t.seq = s.seq ++ [a])
    (p.nodes a).children ⟨h', rfl⟩ ?_
  rintro done c rest t hl ⟨ht, hseq⟩
  have hc : c ∈ (p.nodes a).children := by rw [hl]; simp
  obtain ⟨h₁, h₂⟩ := pushChild_spec ht (hp.lt_right a c hc)
  exact ⟨h₁, h₂.trans hseq⟩

/-- A whole frontier is written in its order. -/
lemma emitFrontier_spec (hp : p.WellFormed) (cur : List ℕ) {s : SeqState}
    (h : SeqInv p s cur) :
    SeqInv p (cur.foldl (emitNode p) s) [] ∧
      (cur.foldl (emitNode p) s).seq = s.seq ++ cur := by
  induction cur generalizing s with
  | nil => exact ⟨h, by simp⟩
  | cons a cur ih =>
      obtain ⟨h₁, h₂⟩ := emitNode_spec hp h
      obtain ⟨h₃, h₄⟩ := ih h₁
      exact ⟨h₃, by rw [List.foldl_cons, h₄, h₂]; simp⟩

/-- The frontiers that follow from one end, and all their nodes are written. -/
lemma frontierLoop_spec (hp : p.WellFormed) : ∀ fuel (s : SeqState) (cur : List ℕ),
    SeqInv p s cur → s.nextFrontier = [] → p.nnodes < fuel + s.seq.length →
    ∃ s', frontierLoop p fuel s cur = some s' ∧ SeqInv p s' [] ∧ s'.nextFrontier = []
      ∧ s.seq.length + cur.length ≤ s'.seq.length := by
  intro fuel
  induction fuel with
  | zero =>
      intro s cur h _ hlt
      have := h.seq_length_le
      omega
  | succ fuel ih =>
      intro s cur h hnf hlt
      cases cur with
      | nil => exact ⟨s, rfl, h, hnf, by simp⟩
      | cons a cur =>
          obtain ⟨h₁, h₂⟩ := emitFrontier_spec hp (a :: cur) h
          set t := (a :: cur).foldl (emitNode p) s with ht
          have h₃ : SeqInv p { t with nextFrontier := [] } t.nextFrontier := by
            have horder : SeqState.order { t with nextFrontier := [] } t.nextFrontier
                = t.order [] := by
              simp [SeqState.order]
            exact ⟨horder ▸ h₁.nodup, horder ▸ h₁.lt_nnodes,
              fun v => horder ▸ h₁.visited_iff v, horder ▸ h₁.preceded⟩
          have hlen : t.seq.length = s.seq.length + (cur.length + 1) := by simp [h₂]
          obtain ⟨s', hs', hinv, hnf', hle⟩ := ih _ _ h₃ rfl (by simp only [hlen]; omega)
          refine ⟨s', hs', hinv, hnf', ?_⟩
          simp only [List.length_cons]
          simp only [hlen] at hle
          omega

/-! ### All nodes -/

/-- One pass over all nodes. When it found nothing the state is unchanged and no
unmarked node has all its parents marked. -/
lemma startNode_pass (hp : p.WellFormed) {s : SeqState} (h : SeqInv p s [])
    (hnf : s.nextFrontier = []) :
    ∃ r, (List.range p.nnodes).foldlM (startNode p) (false, s) = some r
      ∧ SeqInv p r.2 [] ∧ r.2.nextFrontier = []
      ∧ (r.1 = true → s.seq.length < r.2.seq.length)
      ∧ (r.1 = false → r.2 = s ∧ ∀ i < p.nnodes,
          allVisitedParents p i s.visitedNodes = true → s.visitedNodes i = true) := by
  obtain ⟨r, hr, hinv, hnf', hle, htrue, hfalse⟩ := foldlM_spec
    (P := fun done (r : Bool × SeqState) => SeqInv p r.2 [] ∧ r.2.nextFrontier = []
      ∧ s.seq.length ≤ r.2.seq.length
      ∧ (r.1 = true → s.seq.length < r.2.seq.length)
      ∧ (r.1 = false → r.2 = s ∧ ∀ i ∈ done,
          allVisitedParents p i s.visitedNodes = true → s.visitedNodes i = true))
    (f := startNode p) (List.range p.nnodes) (s := (false, s))
    ⟨h, hnf, le_rfl, by simp, by simp⟩
    (by
      rintro done i rest ⟨found, t⟩ hl ⟨hinv, hnf, hle, htrue, hfalse⟩
      have hi : i < p.nnodes := by rw [← List.mem_range, hl]; simp
      unfold startNode
      split
      · next hcond =>
          simp only [Bool.and_eq_true, Bool.not_eq_true'] at hcond
          have hmark : SeqInv p { t with
              visitedNodes := Function.update t.visitedNodes i true } [i] :=
            hinv.mark hi hcond.1 hcond.2 rfl (by
              have : t.nextFrontier = [] := hnf
              simp [SeqState.order, this])
          obtain ⟨t', ht', h₁, h₂, h₃⟩ := frontierLoop_spec hp (p.nnodes + 1) _ _ hmark hnf
            (by omega)
          have hlt : s.seq.length < t'.seq.length := by
            simp only [List.length_singleton] at h₃
            have : s.seq.length ≤ t.seq.length := hle
            omega
          refine ⟨(true, t'), ?_, h₁, h₂, hlt.le, fun _ => hlt, by simp⟩
          rw [Option.bind_eq_bind, ht', Option.bind_some]
      · next hcond =>
          refine ⟨(found, t), rfl, hinv, hnf, hle, htrue, fun hf => ?_⟩
          obtain ⟨rfl, hall⟩ := hfalse hf
          refine ⟨rfl, ?_⟩
          simp only [List.mem_append, List.mem_singleton]
          rintro j (hj | rfl) hpar
          · exact hall j hj hpar
          · simpa [hpar] using hcond)
  refine ⟨r, hr, hinv, hnf', htrue, fun hf => ?_⟩
  obtain ⟨h₁, h₂⟩ := hfalse hf
  exact ⟨h₁, fun i hi => h₂ i (List.mem_range.mpr hi)⟩

/-- The passes end, at a state that no pass changes. -/
lemma sequenceLoop_spec (hp : p.WellFormed) : ∀ fuel (s : SeqState),
    SeqInv p s [] → s.nextFrontier = [] → p.nnodes < fuel + s.seq.length →
    ∃ s', sequenceLoop p fuel s = some s' ∧ SeqInv p s' [] ∧ s'.nextFrontier = []
      ∧ ∀ i < p.nnodes,
          allVisitedParents p i s'.visitedNodes = true → s'.visitedNodes i = true := by
  intro fuel
  induction fuel with
  | zero =>
      intro s h _ hlt
      have := h.seq_length_le
      omega
  | succ fuel ih =>
      intro s h hnf hlt
      obtain ⟨⟨found, t⟩, hr, hinv, hnf', htrue, hfalse⟩ := startNode_pass hp h hnf
      cases found with
      | true =>
          have hlt' : s.seq.length < t.seq.length := htrue rfl
          obtain ⟨s', hs', h'⟩ := ih t hinv hnf' (by omega)
          refine ⟨s', ?_, h'⟩
          simp [sequenceLoop, hr, hs']
      | false =>
          obtain ⟨rfl, hall⟩ := hfalse rfl
          exact ⟨t, by simp [sequenceLoop, hr], hinv, hnf', hall⟩

/-- **The sequence of any plan**: it ends, has no repetition, lists only nodes of
the plan, and every node it lists comes after all its parents. On an acyclic
graph it lists every node. -/
theorem getValidExecSequence_spec (hp : p.WellFormed) :
    ∃ seq, p.getValidExecSequence = some seq ∧ seq.Nodup ∧ (∀ v ∈ seq, v < p.nnodes)
      ∧ PrecededBy (fun v => (p.nodes v).parents) seq
      ∧ (Acyclic p.Edge → seq.Perm (List.range p.nnodes)) := by
  obtain ⟨s, hs, hinv, hnf, hall⟩ := sequenceLoop_spec hp (p.nnodes + 1)
    ⟨fun _ => false, [], []⟩
    ⟨by simp [SeqState.order], by simp [SeqState.order], by simp [SeqState.order],
      PrecededBy.nil _⟩ rfl (by simp)
  have horder : s.order [] = s.seq := by simp [SeqState.order, hnf]
  have hnodup := horder ▸ hinv.nodup
  have hlt := horder ▸ hinv.lt_nnodes
  refine ⟨s.seq, by rw [ExecPlan.getValidExecSequence, hs]; rfl, hnodup, hlt,
    horder ▸ hinv.preceded, fun hac => ?_⟩
  have hwf := hac.wellFounded (Finset.range p.nnodes)
    (fun a b h => Finset.mem_range.mpr (hp.lt_left a b h))
  -- by induction along the edges, every node is marked in the final state
  have hvis : ∀ i, i < p.nnodes → s.visitedNodes i = true := by
    intro i
    induction i using hwf.induction with
    | _ i ih =>
        intro hi
        refine hall i hi (List.all_eq_true.mpr fun a ha => ?_)
        have hedge : p.Edge a i := (hp.mem_parents a i).mp ha
        exact ih a hedge (hp.lt_left a i hedge)
  refine (List.perm_ext_iff_of_nodup hnodup List.nodup_range).mpr fun v => ?_
  rw [List.mem_range]
  refine ⟨hlt v, fun hv => ?_⟩
  have := (hinv.visited_iff v).mp (hvis v hv)
  rwa [horder] at this

end Furious
