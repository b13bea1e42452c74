import Furious.Compiler.ExecPlan
import Furious.Library.Loops

/-!
The verdict of the planner.

`is_acyclic` searches from the roots only, so the departure time of a node that
no root reaches keeps its initial value, and the verdict compares the times
along every edge.

* `ExecPlan.Edge`, `ExecPlan.WellFormed`: the graph of a plan;
* `unvisited`: the nodes a search has left, the measure that bounds its depth;
* `DepartureInv`: the invariant of the search, relative to the nodes on its
  stack: a node that was left departed after all its children;
* `dfs_spec`: **the search is total and keeps the invariant when there is no
  cycle**;
* `isAcyclic_iff`: **the verdict is acyclicity**, for graphs with cycles that no
  root reaches as well.
-/

namespace Furious

variable {p : ExecPlan}

/-! ### The graph of a plan -/

/-- The arrow from a node to one that depends on it. -/
def ExecPlan.Edge (p : ExecPlan) (a b : ℕ) : Prop :=
  b ∈ (p.nodes a).children

/-- The two lists of neighbours describe one graph, on the inserted nodes. -/
structure ExecPlan.WellFormed (p : ExecPlan) : Prop where
  mem_parents : ∀ a b, a ∈ (p.nodes b).parents ↔ b ∈ (p.nodes a).children
  lt_left : ∀ a b, b ∈ (p.nodes a).children → a < p.nnodes
  lt_right : ∀ a b, b ∈ (p.nodes a).children → b < p.nnodes

/-! ### Totality of the search -/

/-- The nodes that are not visited yet. -/
def unvisited (p : ExecPlan) (visited : ℕ → Bool) : Finset ℕ :=
  {v ∈ Finset.range p.nnodes | visited v = false}

lemma card_unvisited_le (visited : ℕ → Bool) : (unvisited p visited).card ≤ p.nnodes :=
  (Finset.card_filter_le _ _).trans_eq (Finset.card_range _)

lemma unvisited_anti {v w : ℕ → Bool} (h : ∀ a, v a = true → w a = true) :
    unvisited p w ⊆ unvisited p v := by
  intro a ha
  simp only [unvisited, Finset.mem_filter] at ha ⊢
  refine ⟨ha.1, ?_⟩
  cases hv : v a with
  | false => rfl
  | true => rw [h a hv] at ha; exact absurd ha.2 (by simp)

/-- Visiting a node leaves fewer. -/
lemma card_unvisited_update {v : ℕ → Bool} {a : ℕ} (ha : a < p.nnodes) (hv : v a = false) :
    (unvisited p (Function.update v a true)).card < (unvisited p v).card := by
  refine Finset.card_lt_card ⟨unvisited_anti fun b hb => ?_, fun hsub => ?_⟩
  · rcases eq_or_ne b a with rfl | hba
    · simp
    · rwa [Function.update_of_ne hba]
  · have := hsub (by simp [unvisited, ha, hv] : a ∈ unvisited p v)
    simp [unvisited] at this

/-! ### The invariant of the search -/

/-- The invariant, with `gray` the nodes on the stack: every other visited node
departed, later than each of its children. -/
structure DepartureInv (p : ExecPlan) (gray : List ℕ) (s : DfsState) : Prop where
  lt_time : ∀ v, s.visited v = true → v ∉ gray → s.departure v < s.time
  child : ∀ v, s.visited v = true → v ∉ gray → ∀ c ∈ (p.nodes v).children,
    s.visited c = true ∧ c ∉ gray ∧ s.departure c < s.departure v

/-- Entering a node puts it on the stack. -/
lemma DepartureInv.enter {gray : List ℕ} {s : DfsState} {u : ℕ} (h : DepartureInv p gray s)
    (hu : s.visited u = false) :
    DepartureInv p (u :: gray) { s with visited := Function.update s.visited u true } := by
  have key : ∀ v, Function.update s.visited u true v = true → v ∉ u :: gray →
      s.visited v = true ∧ v ∉ gray := by
    intro v hv hg
    simp only [List.mem_cons, not_or] at hg
    rw [Function.update_of_ne hg.1] at hv
    exact ⟨hv, hg.2⟩
  refine ⟨fun v hv hg => h.lt_time v (key v hv hg).1 (key v hv hg).2, ?_⟩
  intro v hv hg c hc
  obtain ⟨hcv, hcg, hlt⟩ := h.child v (key v hv hg).1 (key v hv hg).2 c hc
  have hcu : c ≠ u := by
    rintro rfl
    rw [hu] at hcv
    exact absurd hcv (by simp)
  exact ⟨by simp [Function.update_of_ne hcu, hcv], by simp [hcu, hcg], hlt⟩

/-- Leaving a node, all of whose children departed, takes it off the stack. -/
lemma DepartureInv.leave {gray : List ℕ} {s : DfsState} {u : ℕ}
    (h : DepartureInv p (u :: gray) s)
    (hc : ∀ c ∈ (p.nodes u).children, s.visited c = true ∧ c ∉ u :: gray) :
    DepartureInv p gray { s with
      departure := Function.update s.departure u s.time
      time := s.time + 1 } := by
  have hdep : ∀ v, v ∉ u :: gray → Function.update s.departure u s.time v = s.departure v := by
    intro v hv
    exact Function.update_of_ne (fun e => hv (by simp [e])) _ _
  refine ⟨?_, ?_⟩
  · intro v hv hg
    rcases eq_or_ne v u with rfl | hvu
    · simp
    · have hg' : v ∉ u :: gray := by simp [hvu, hg]
      have := h.lt_time v hv hg'
      simp only [hdep v hg']
      omega
  · intro v hv hg c hcv
    rcases eq_or_ne v u with rfl | hvu
    · obtain ⟨hcvis, hcg⟩ := hc c hcv
      refine ⟨hcvis, fun hcg' => hcg (List.mem_cons_of_mem _ hcg'), ?_⟩
      simp only [hdep c hcg, Function.update_self]
      exact h.lt_time c hcvis hcg
    · have hg' : v ∉ u :: gray := by simp [hvu, hg]
      obtain ⟨hcvis, hcg, hlt⟩ := h.child v hv hg' c hcv
      refine ⟨hcvis, fun hcg' => hcg (List.mem_cons_of_mem _ hcg'), ?_⟩
      simpa only [hdep c hcg, hdep v hg'] using hlt

/-- **The search from an unvisited node.** It ends when the fuel exceeds the
number of nodes left, visits the node, forgets no mark, and on an acyclic graph
keeps the invariant when every node on the stack reaches the start. -/
theorem dfs_spec (hp : p.WellFormed) : ∀ fuel (s : DfsState) (u : ℕ),
    u < p.nnodes → s.visited u = false → (unvisited p s.visited).card < fuel →
    ∃ s', dfs p fuel s u = some s' ∧ s'.visited u = true
      ∧ (∀ v, s.visited v = true → s'.visited v = true)
      ∧ ∀ gray : List ℕ, Acyclic p.Edge → (∀ g ∈ gray, Relation.TransGen p.Edge g u) →
          DepartureInv p gray s → DepartureInv p gray s' := by
  intro fuel
  induction fuel with
  | zero => intro s u _ _ h; omega
  | succ fuel ih =>
      intro s u hlt hu hfuel
      set s₁ : DfsState := { s with visited := Function.update s.visited u true } with hs₁
      have hcard : (unvisited p s₁.visited).card < (unvisited p s.visited).card :=
        card_unvisited_update hlt hu
      -- the loop over the children: `done` are the ones passed so far
      obtain ⟨t, ht, hvis, hmono, hinv⟩ := foldlM_spec
        (P := fun done (t : DfsState) => (∀ c ∈ done, t.visited c = true)
          ∧ (∀ v, s₁.visited v = true → t.visited v = true)
          ∧ ∀ gray : List ℕ, Acyclic p.Edge → (∀ g ∈ gray, Relation.TransGen p.Edge g u) →
              DepartureInv p gray s → DepartureInv p (u :: gray) t)
        (f := fun t c => if t.visited c then some t else dfs p fuel t c)
        (p.nodes u).children (s := s₁)
        ⟨by simp, fun v hv => hv, fun gray _ _ h => h.enter hu⟩
        (by
          rintro done c rest t hl ⟨hdone, hmono, hinv⟩
          have hcmem : c ∈ (p.nodes u).children := by rw [hl]; simp
          by_cases hc : t.visited c = true
          · refine ⟨t, by simp [hc], ?_, hmono, hinv⟩
            simp only [List.mem_append, List.mem_singleton]
            rintro d (hd | rfl)
            · exact hdone d hd
            · exact hc
          · have hc' : t.visited c = false := by simpa using hc
            have hle := Finset.card_le_card (unvisited_anti (p := p) hmono)
            obtain ⟨t', ht', hc1, hm', hi'⟩ := ih t c (hp.lt_right u c hcmem) hc' (by omega)
            refine ⟨t', by simp [hc', ht'], ?_, fun v hv => hm' v (hmono v hv), ?_⟩
            · simp only [List.mem_append, List.mem_singleton]
              rintro d (hd | rfl)
              · exact hm' d (hdone d hd)
              · exact hc1
            · intro gray hac hg h
              refine hi' (u :: gray) hac ?_ (hinv gray hac hg h)
              simp only [List.mem_cons]
              rintro g (rfl | hg')
              · exact Relation.TransGen.single hcmem
              · exact (hg g hg').tail hcmem)
      refine ⟨{ t with departure := Function.update t.departure u t.time, time := t.time + 1 },
        ?_, hmono u (by simp [hs₁]), ?_, ?_⟩
      · rw [dfs, Option.bind_eq_bind]
        simp only [← hs₁, ht, Option.bind_some]
      · intro v hv
        refine hmono v ?_
        rcases eq_or_ne v u with rfl | hvu
        · simp [hs₁]
        · simpa [hs₁, Function.update_of_ne hvu] using hv
      · intro gray hac hg h
        refine (hinv gray hac hg h).leave fun c hc => ⟨hvis c hc, ?_⟩
        -- a child on the stack would close a cycle
        simp only [List.mem_cons, not_or]
        refine ⟨?_, fun hcg => hac c ((hg c hcg).tail hc)⟩
        rintro rfl
        exact hac c (Relation.TransGen.single hc)

/-! ### The verdict -/

/-- The searches from all roots: they end, every root is visited, and on an
acyclic graph the invariant holds with an empty stack. -/
lemma departureTimes_spec (hp : p.WellFormed) :
    ∃ s, departureTimes p = some s
      ∧ (∀ i < p.nnodes, (p.nodes i).parents = [] → s.visited i = true)
      ∧ (Acyclic p.Edge → DepartureInv p [] s) := by
  obtain ⟨s, hs, hvis, hinv⟩ := foldlM_spec
    (P := fun done (s : DfsState) =>
      (∀ i ∈ done, (p.nodes i).parents = [] → s.visited i = true)
        ∧ (Acyclic p.Edge → DepartureInv p [] s))
    (f := fun s i => if !s.visited i && (p.nodes i).parents.length == 0
      then dfs p (p.nnodes + 1) s i else some s)
    (List.range p.nnodes) (s := ⟨fun _ => false, fun _ => 0, 0⟩)
    ⟨by simp, fun _ => ⟨by simp, by simp⟩⟩
    (by
      rintro done i rest s hl ⟨hdone, hinv⟩
      have hi : i < p.nnodes := by
        rw [← List.mem_range, hl]; simp
      by_cases h : (!s.visited i && (p.nodes i).parents.length == 0) = true
      · have hvi : s.visited i = false := by simp_all
        have hcard := card_unvisited_le (p := p) s.visited
        obtain ⟨s', hs', hv, hm, hi'⟩ := dfs_spec hp (p.nnodes + 1) s i hi hvi (by omega)
        refine ⟨s', by rw [if_pos h, hs'], ?_, fun hac => hi' [] hac (by simp) (hinv hac)⟩
        simp only [List.mem_append, List.mem_singleton]
        rintro j (hj | rfl) hpar
        · exact hm j (hdone j hj hpar)
        · exact hv
      · refine ⟨s, by rw [if_neg h], ?_, hinv⟩
        simp only [List.mem_append, List.mem_singleton]
        rintro j (hj | rfl) hpar
        · exact hdone j hj hpar
        · simpa [hpar] using h)
  exact ⟨s, hs, fun i hi => hvis i (List.mem_range.mpr hi), hinv⟩

/-- On an acyclic graph the searches from the roots visit every node. -/
lemma DepartureInv.visited_all (hp : p.WellFormed) (hac : Acyclic p.Edge) {s : DfsState}
    (hroots : ∀ i < p.nnodes, (p.nodes i).parents = [] → s.visited i = true)
    (hinv : DepartureInv p [] s) {b : ℕ} (hb : b < p.nnodes) : s.visited b = true := by
  obtain ⟨a, hsrc, hab⟩ := hac.exists_source (Finset.range p.nnodes)
    (fun a b h => Finset.mem_range.mpr (hp.lt_left a b h)) b
  have hpar : (p.nodes a).parents = [] := by
    refine List.eq_nil_iff_forall_not_mem.mpr fun c hc => ?_
    exact hsrc c ((hp.mem_parents c a).mp hc)
  have ha : a < p.nnodes := by
    rcases hab.cases_head with rfl | ⟨c, hac', -⟩
    · exact hb
    · exact hp.lt_left a c hac'
  induction hab with
  | refl => exact hroots a ha hpar
  | @tail c d _ hcd ih =>
      exact (hinv.child c (ih (hp.lt_left c d hcd)) (by simp) d hcd).1

/-- **The verdict is acyclicity.** -/
theorem isAcyclic_iff (hp : p.WellFormed) :
    ∃ b, p.isAcyclic = some b ∧ (b = true ↔ Acyclic p.Edge) := by
  obtain ⟨s, hs, hroots, hinv⟩ := departureTimes_spec hp
  refine ⟨_, by rw [ExecPlan.isAcyclic, hs]; rfl, ?_⟩
  simp only [List.all_eq_true, List.mem_range, Bool.not_eq_true', decide_eq_false_iff_not, not_le]
  constructor
  · intro h
    -- the departure times are a rank
    exact acyclic_of_rank s.departure fun a b hab => h a (hp.lt_left a b hab) b hab
  · intro hac a ha c hc
    exact ((hinv hac).child a ((hinv hac).visited_all hp hac hroots ha) (by simp) c hc).2.2

end Furious
