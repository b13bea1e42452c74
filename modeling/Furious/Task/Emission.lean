import Furious.Compiler.Priorities
import Furious.Task.TaskGraph

/-!
The task graph that is generated from a plan.

For every node of the plan and every parent of it the compiler emits one call of
`fdb_task_graph_set_parent`. The arrays of a task have a fixed length; the assertion on
the children of the parent looks at its number of parents.

* `ExecPlan.setParentCalls`: the calls that `fcc_generate_task_graph` emits;
* `TaskGraph.Counted`: how full the arrays are after some calls;
* `calls_unchecked_iff`, `calls_checked_iff`: when no call writes behind an array;
* `setParent_inside`: **when the generated task graph stays inside the arrays**.
-/

namespace Furious

/-! ### The calls -/

/-- The calls of `fdb_task_graph_set_parent` that `fcc_generate_task_graph` emits. -/
def ExecPlan.setParentCalls (p : ExecPlan) : List (ℕ × ℕ) :=
  (List.range p.nnodes).flatMap fun i => (p.nodes i).parents.map fun parent => (i, parent)

/-! ### How full the arrays are -/

namespace TaskGraph

/-- The arrays after the calls `edges`: `m_num_parents` counts the calls for a task,
`m_num_children` the calls that name it as a parent. -/
structure Counted (g : TaskGraph) (numTasks : ℕ) (edges : List (ℕ × ℕ)) : Prop where
  numTasks : g.tasks.length = numTasks
  parents : ∀ t (h : t < g.tasks.length), g.tasks[t].parents.length = edges.countP (·.1 = t)
  children : ∀ t (h : t < g.tasks.length), g.tasks[t].children.length = edges.countP (·.2 = t)

lemma counted_init (n : ℕ) : (init n).Counted n [] where
  numTasks := List.length_replicate ..
  parents t h := by simp [init]
  children t h := by simp [init]

variable {g g' : TaskGraph} {n : ℕ} {edges : List (ℕ × ℕ)} {t p : ℕ}

/-- When both writes stay inside. -/
lemma Counted.append_isSome (h : g.Counted n edges) (ht : t < n) (hp : p < n) :
    (g.append t p).isSome ↔
      edges.countP (·.1 = t) < maxTaskParents ∧ edges.countP (·.2 = p) < maxTaskChildren := by
  have ht' : t < g.tasks.length := h.numTasks.symm ▸ ht
  have hp' : p < g.tasks.length := h.numTasks.symm ▸ hp
  have hc := h.parents t ht'
  have hd := h.children p hp'
  -- the first write leaves the children of the parent alone
  obtain ⟨q, hq, hqc⟩ : ∃ q, (g.tasks.set t ⟨g.tasks[t].parents ++ [p], g.tasks[t].children⟩)[p]?
      = some q ∧ q.children = g.tasks[p].children := by
    rcases eq_or_ne t p with rfl | hne
    · exact ⟨_, List.getElem?_set_self ht', rfl⟩
    · exact ⟨_, by rw [List.getElem?_set_ne hne, List.getElem?_eq_getElem hp'], rfl⟩
  rw [append, List.getElem?_eq_getElem ht', Option.bind_eq_bind, Option.bind_some, hc]
  by_cases hlt : edges.countP (·.1 = t) < maxTaskParents
  · simp only [hlt, if_true, hq, Option.bind_some, hqc, hd]
    by_cases hlt' : edges.countP (·.2 = p) < maxTaskChildren
    · simp [hlt']
    · simp [hlt']
  · simp [hlt]

/-- What a call that stays inside leaves. -/
lemma Counted.append (h : g.Counted n edges) (hcall : g.append t p = some g') :
    g'.Counted n (edges ++ [(t, p)]) := by
  obtain ⟨c, hc, hcall⟩ := Option.bind_eq_some_iff.mp hcall
  split at hcall
  swap
  · cases hcall
  obtain ⟨q, hq, hcall⟩ := Option.bind_eq_some_iff.mp hcall
  split at hcall
  swap
  · cases hcall
  obtain rfl := Option.some.inj hcall
  obtain ⟨ht, rfl⟩ := List.getElem?_eq_some_iff.mp hc
  obtain ⟨hp, rfl⟩ := List.getElem?_eq_some_iff.mp hq
  refine ⟨by simp [h.numTasks], fun s hs => ?_, fun s hs => ?_⟩
  · have hs' : s < g.tasks.length := by simpa using hs
    have hold := h.parents s hs'
    simp only [List.countP_append, List.countP_singleton, decide_eq_true_eq, ← hold]
    simp only [List.getElem_set]
    split <;> split <;> simp_all
  · have hs' : s < g.tasks.length := by simpa using hs
    have hold := h.children s hs'
    simp only [List.countP_append, List.countP_singleton, decide_eq_true_eq, ← hold]
    simp only [List.getElem_set]
    split <;> split <;> simp_all

/-- **One call** on tasks of the graph. -/
lemma Counted.call (h : g.Counted n edges) (ht : t < n) (hp : p < n) (checked : Bool) :
    (checked = true ∧ g.call checked t p = .error .assertion
        ∧ ¬ (edges.countP (·.1 = t) < maxTaskParents ∧ edges.countP (·.1 = p) < maxTaskChildren))
      ∨ (checked = true → edges.countP (·.1 = t) < maxTaskParents
          ∧ edges.countP (·.1 = p) < maxTaskChildren)
        ∧ ((edges.countP (·.1 = t) < maxTaskParents ∧ edges.countP (·.2 = p) < maxTaskChildren
              ∧ ∃ g', g.call checked t p = .ok g' ∧ g'.Counted n (edges ++ [(t, p)]))
          ∨ (¬ (edges.countP (·.1 = t) < maxTaskParents ∧ edges.countP (·.2 = p) < maxTaskChildren)
              ∧ g.call checked t p = .error .outside)) := by
  have ht' : t < g.tasks.length := h.numTasks.symm ▸ ht
  have hp' : p < g.tasks.length := h.numTasks.symm ▸ hp
  have hsome := h.append_isSome ht hp
  simp only [TaskGraph.call, List.getElem?_eq_getElem ht', List.getElem?_eq_getElem hp',
    h.parents t ht', h.parents p hp']
  split
  · next hfail => exact Or.inl ⟨hfail.1, rfl, hfail.2⟩
  · next hpass =>
      refine Or.inr ⟨fun hc => by_contra fun hn => hpass ⟨hc, hn⟩, ?_⟩
      cases happ : g.append t p with
      | some g' =>
          obtain ⟨h₁, h₂⟩ := hsome.mp (by rw [happ]; rfl)
          exact Or.inl ⟨h₁, h₂, g', rfl, h.append happ⟩
      | none =>
          refine Or.inr ⟨fun hin => ?_, rfl⟩
          have := hsome.mpr hin
          rw [happ] at this
          cases this

/-- A call on a task that the graph does not have. -/
lemma Counted.call_outside (h : g.Counted n edges) (hout : ¬ (t < n ∧ p < n)) (checked : Bool) :
    g.call checked t p = .error .outside := by
  unfold TaskGraph.call
  split
  · next c q hc hq =>
      have ht := (List.getElem?_eq_some_iff.mp hc).1
      have hp := (List.getElem?_eq_some_iff.mp hq).1
      exact absurd ⟨h.numTasks ▸ ht, h.numTasks ▸ hp⟩ hout
  · rfl

/-! ### A sequence of calls -/

/-- The calls name tasks of the graph. -/
def Named (n : ℕ) (edges : List (ℕ × ℕ)) : Prop := ∀ e ∈ edges, e.1 < n ∧ e.2 < n

lemma named_snoc (e : ℕ × ℕ) : Named n (edges ++ [e]) ↔ Named n edges ∧ e.1 < n ∧ e.2 < n := by
  simp only [Named, List.forall_mem_append, List.forall_mem_singleton]

lemma countP_snoc_le (q : ℕ × ℕ → Bool) (e : ℕ × ℕ) :
    edges.countP q ≤ (edges ++ [e]).countP q := by
  rw [List.countP_append]
  exact Nat.le_add_right _ _

/-- **What has been written stays inside**: after calls that all succeed. -/
theorem calls_ok {checked : Bool} (h : calls checked n edges = .ok g) :
    g.Counted n edges ∧ Named n edges ∧ (∀ t, edges.countP (·.1 = t) ≤ maxTaskParents)
      ∧ ∀ t, edges.countP (·.2 = t) ≤ maxTaskChildren := by
  induction edges using List.reverseRecOn generalizing g with
  | nil =>
      obtain rfl : init n = g := Except.ok.inj h
      exact ⟨counted_init n, by simp [Named], by simp, by simp⟩
  | append_singleton edges e ih =>
      rw [calls_snoc] at h
      cases hcalls : calls checked n edges with
      | error err =>
          rw [hcalls] at h
          cases h
      | ok g₁ =>
          rw [hcalls] at h
          change g₁.call checked e.1 e.2 = .ok g at h
          obtain ⟨hcounted, hnamed, hpar, hchild⟩ := ih hcalls
          by_cases hin : e.1 < n ∧ e.2 < n
          swap
          · rw [hcounted.call_outside hin] at h
            cases h
          rcases hcounted.call hin.1 hin.2 checked with ⟨-, hbad, -⟩ | ⟨-, hgood | ⟨-, hbad⟩⟩
          · rw [hbad] at h
            cases h
          · obtain ⟨h₁, h₂, g', hg', hcounted'⟩ := hgood
            obtain rfl : g' = g := Except.ok.inj (hg'.symm.trans h)
            refine ⟨hcounted', (named_snoc e).mpr ⟨hnamed, hin⟩, fun t => ?_, fun t => ?_⟩
            · rw [List.countP_append, List.countP_singleton]
              have := hpar t
              rcases eq_or_ne e.1 t with rfl | hne
              · simp only [decide_true, if_true]
                omega
              · simpa [hne] using this
            · rw [List.countP_append, List.countP_singleton]
              have := hchild t
              rcases eq_or_ne e.2 t with rfl | hne
              · simp only [decide_true, if_true]
                omega
              · simpa [hne] using this
          · rw [hbad] at h
            cases h

/-- **No write leaves the arrays**: an assertion may fail, and without assertions no task
may have too many parents. -/
theorem calls_inside (checked : Bool) (hnamed : Named n edges)
    (hpar : checked = false → ∀ t, edges.countP (·.1 = t) ≤ maxTaskParents)
    (hchild : ∀ t, edges.countP (·.2 = t) ≤ maxTaskChildren) :
    (checked = true ∧ calls checked n edges = .error .assertion)
      ∨ ∃ g, calls checked n edges = .ok g := by
  induction edges using List.reverseRecOn with
  | nil => exact Or.inr ⟨init n, rfl⟩
  | append_singleton edges e ih =>
      obtain ⟨hnamed, h₁, h₂⟩ := (named_snoc e).mp hnamed
      rw [calls_snoc]
      have hedges := ih hnamed (fun hc t => (countP_snoc_le _ e).trans (hpar hc t))
        fun t => (countP_snoc_le _ e).trans (hchild t)
      rcases hedges with ⟨hc, hfail⟩ | ⟨g, hg⟩
      · exact Or.inl ⟨hc, by rw [hfail]; rfl⟩
      have hroom : edges.countP (·.2 = e.2) < maxTaskChildren := by
        have := hchild e.2
        simp only [List.countP_append, List.countP_singleton, decide_true, if_true] at this
        omega
      rw [hg]
      change (_ ∧ g.call checked e.1 e.2 = _) ∨ ∃ g', g.call checked e.1 e.2 = .ok g'
      rcases (calls_ok hg).1.call h₁ h₂ checked with ⟨hc, hfail, -⟩ | ⟨hassert, hgood | ⟨hbad, -⟩⟩
      · exact Or.inl ⟨hc, hfail⟩
      · obtain ⟨-, -, g', hg', -⟩ := hgood
        exact Or.inr ⟨g', hg'⟩
      · refine absurd ⟨?_, hroom⟩ hbad
        cases checked with
        | true => exact (hassert rfl).1
        | false =>
            have := hpar rfl e.1
            simp only [List.countP_append, List.countP_singleton, decide_true, if_true] at this
            omega

/-- **Calls that succeed**, also with the assertions, which a task with as many parents as fit fails as soon as it gets
a child. -/
theorem calls_of_few {checked : Bool} (hnamed : Named n edges)
    (hpar : ∀ t, edges.countP (·.1 = t) ≤ maxTaskParents) (hchild : ∀ t, edges.countP (·.2 = t) ≤ maxTaskChildren)
    (hfew : checked = true → ∀ e ∈ edges, edges.countP (·.1 = e.2) < maxTaskChildren) :
    ∃ g, calls checked n edges = .ok g := by
  induction edges using List.reverseRecOn with
  | nil => exact ⟨init n, rfl⟩
  | append_singleton edges e ih =>
      obtain ⟨hnamed, h₁, h₂⟩ := (named_snoc e).mp hnamed
      have hfew' : checked = true → ∀ e' ∈ edges, edges.countP (·.1 = e'.2) < maxTaskChildren := fun hc e' he' =>
        (countP_snoc_le _ e).trans_lt (hfew hc e' (List.mem_append_left _ he'))
      obtain ⟨g, hg⟩ := ih hnamed (fun t => (countP_snoc_le _ e).trans (hpar t))
        (fun t => (countP_snoc_le _ e).trans (hchild t)) hfew'
      have hroom₁ : edges.countP (·.1 = e.1) < maxTaskParents := by
        have := hpar e.1
        simp only [List.countP_append, List.countP_singleton, decide_true, if_true] at this
        omega
      have hroom₂ : edges.countP (·.2 = e.2) < maxTaskChildren := by
        have := hchild e.2
        simp only [List.countP_append, List.countP_singleton, decide_true, if_true] at this
        omega
      rw [calls_snoc, hg]
      change ∃ g', g.call checked e.1 e.2 = .ok g'
      rcases (calls_ok hg).1.call h₁ h₂ checked with ⟨hc, -, hfail⟩ | ⟨-, ⟨-, -, g', hg', -⟩ | ⟨hbad, -⟩⟩
      · have hlast := hfew hc e (List.mem_append_right _ (List.mem_singleton_self e))
        exact (hfail ⟨hroom₁, (countP_snoc_le _ e).trans_lt hlast⟩).elim
      · exact ⟨g', hg'⟩
      · exact (hbad ⟨hroom₁, hroom₂⟩).elim

/-- Without assertions the calls stay inside if both arrays of every task suffice. -/
theorem calls_unchecked_iff : (∃ g, calls false n edges = .ok g) ↔ Named n edges
    ∧ (∀ t, edges.countP (·.1 = t) ≤ maxTaskParents) ∧ ∀ t, edges.countP (·.2 = t) ≤ maxTaskChildren := by
  constructor
  · rintro ⟨g, hg⟩
    exact (calls_ok hg).2
  · rintro ⟨hnamed, hpar, hchild⟩
    exact (calls_inside false hnamed (fun _ => hpar) hchild).resolve_left fun h => by cases h.1

/-- When the assertions pass, the calls stay inside if the children of every task suffice. -/
theorem calls_checked_iff (h : calls true n edges ≠ .error .assertion) :
    (∃ g, calls true n edges = .ok g) ↔
      Named n edges ∧ ∀ t, edges.countP (·.2 = t) ≤ maxTaskChildren := by
  constructor
  · rintro ⟨g, hg⟩
    obtain ⟨-, hnamed, -, hchild⟩ := calls_ok hg
    exact ⟨hnamed, hchild⟩
  · rintro ⟨hnamed, hchild⟩
    exact (calls_inside true hnamed (fun hc => by cases hc) hchild).resolve_left fun hf => h hf.2

end TaskGraph

/-! ### The emitted calls -/

/-- The emitted calls that are for a task are as many as its parents in the plan. -/
lemma countP_fst_setParentCalls (p : ExecPlan) (t : ℕ) :
    p.setParentCalls.countP (·.1 = t) = if t < p.nnodes then (p.nodes t).parents.length else 0 := by
  have key : ∀ k, ((List.range k).flatMap fun i => (p.nodes i).parents.map fun parent => (i, parent)).countP
      (·.1 = t) = if t < k then (p.nodes t).parents.length else 0 := by
    intro k
    induction k with
    | zero => simp
    | succ k ih =>
        rw [List.range_succ, List.flatMap_append, List.countP_append, ih, List.flatMap_singleton,
          List.countP_map]
        rcases lt_trichotomy t k with hlt | rfl | hgt
        · have hne : k ≠ t := by omega
          simp [hlt, hlt.trans (Nat.lt_succ_self k), Function.comp_def, hne]
        · simp [Function.comp_def]
        · have hne : k ≠ t := by omega
          have hge : ¬ t < k + 1 := by omega
          simp [hgt.not_gt, hge, Function.comp_def, hne]
  exact key p.nnodes

/-- The emitted calls that name a task as a parent are as many as its children. -/
lemma countP_snd_setParentCalls (m : ℕ) (stmts : List Stmt) (t : ℕ) :
    (planOf m stmts).setParentCalls.countP (·.2 = t) = (planNode stmts t).children.length := by
  have key : ∀ k, ((List.range k).flatMap fun i =>
      (planNode stmts i).parents.map fun parent => (i, parent)).countP (·.2 = t)
        = ((List.range k).filter fun j => dependent stmts j t).length := by
    intro k
    induction k with
    | zero => simp
    | succ k ih =>
        rw [List.range_succ, List.flatMap_append, List.countP_append, ih, List.flatMap_singleton,
          List.countP_map, List.filter_append, List.length_append]
        congr 1
        have hcount : (planNode stmts k).parents.countP
            ((fun e : ℕ × ℕ => decide (e.2 = t)) ∘ fun parent => (k, parent))
            = (planNode stmts k).parents.count t := by
          rw [List.count]
          exact List.countP_congr fun a _ => by simp
        have hnodup : (planNode stmts k).parents.Nodup := List.nodup_range.filter _
        rw [hcount, hnodup.count]
        simp only [mem_planNode_parents, List.filter_singleton]
        cases dependent stmts k t <;> simp
  exact key stmts.length

/-- **When the generated task graph stays inside the arrays**, for a plan that the compiler
accepts and for any calls that pass the assertions. -/
theorem setParent_inside {stmts : List Stmt} {plan : ExecPlan}
    (hplan : ExecPlan.init stmts = some (plan, .noError)) {n : ℕ} {edges : List (ℕ × ℕ)}
    (hassert : TaskGraph.calls true n edges ≠ .error .assertion) :
    ((∃ g, TaskGraph.calls false plan.nnodes plan.setParentCalls = .ok g) ↔
        ∀ i < plan.nnodes, (plan.nodes i).parents.length ≤ maxTaskParents
          ∧ (plan.nodes i).children.length ≤ maxTaskChildren)
      ∧ ((∃ g, TaskGraph.calls true n edges = .ok g) ↔
        TaskGraph.Named n edges ∧ ∀ t, edges.countP (·.2 = t) ≤ maxTaskChildren) := by
  refine ⟨?_, TaskGraph.calls_checked_iff hassert⟩
  obtain rfl := (init_some hplan).1
  have hwf := planOf_wellFormed stmts.length stmts
  have hnamed : TaskGraph.Named (planOf stmts.length stmts).nnodes
      (planOf stmts.length stmts).setParentCalls := by
    intro e he
    obtain ⟨i, hi, he⟩ := List.mem_flatMap.mp he
    obtain ⟨a, ha, rfl⟩ := List.mem_map.mp he
    exact ⟨List.mem_range.mp hi, hwf.lt_left a i ((hwf.mem_parents a i).mp ha)⟩
  -- beyond the list a node has no neighbours
  have hbeyond : ∀ t, ¬ t < stmts.length → (planNode stmts t).children = [] := by
    intro t ht
    rw [List.eq_nil_iff_forall_not_mem]
    intro j hj
    obtain ⟨-, ht', -⟩ := dependent_iff.mp (mem_planNode_children.mp hj)
    exact ht ht'
  rw [TaskGraph.calls_unchecked_iff]
  constructor
  · rintro ⟨-, hpar, hchild⟩ i hi
    have h₁ := hpar i
    have h₂ := hchild i
    rw [countP_fst_setParentCalls, if_pos hi] at h₁
    rw [countP_snd_setParentCalls] at h₂
    exact ⟨h₁, h₂⟩
  · intro h
    refine ⟨hnamed, fun t => ?_, fun t => ?_⟩
    · rw [countP_fst_setParentCalls]
      split
      · next ht => exact (h t ht).1
      · exact Nat.zero_le _
    · rw [countP_snd_setParentCalls]
      by_cases ht : t < stmts.length
      · exact (h t ht).2
      · simp [hbeyond t ht]

/-! ### One writer and many readers -/

/-- A statement of a system that reads one component. -/
def readerStmt (id : ℤ) : Stmt where
  operationType := .foreach
  ematches := [⟨[⟨⟨"ComponentA"⟩, true, false⟩], [], [], [], [], [], false, ""⟩]
  system := ⟨⟨"Reader"⟩, [⟨⟨"ComponentA"⟩, true, false⟩], id⟩
  priority := defaultPriority

/-- A writer and `n` readers of what it writes. -/
def writerAndReaders (n : ℕ) : List Stmt :=
  writerStmt 0 :: (List.range n).map fun i => readerStmt (i + 1)

/-- The readers come after the writer. -/
lemma acyclic_writerAndReaders (n : ℕ) : Acyclic (Dependency (writerAndReaders n)) := by
  have hwrite : ∀ a b, Dependency (writerAndReaders n) a b → a = 0 := by
    intro a b hab
    obtain ⟨-, ha, -, -, -, c, hc, hw, -⟩ := dependent_iff.mp hab
    cases a with
    | zero => rfl
    | succ a =>
        simp only [writerAndReaders, List.getElem_cons_succ, List.getElem_map, readerStmt,
          List.mem_singleton] at hc
        rw [hc] at hw
        cases hw
  refine acyclic_of_rank (fun a => if a = 0 then 1 else 0) fun a b hab => ?_
  obtain ⟨-, -, hne, -⟩ := dependent_iff.mp hab
  have ha := hwrite a b hab
  rw [if_pos ha, if_neg (by omega)]
  exact Nat.one_pos

/-- Each of them has two operators. -/
lemma plannable_writerAndReaders (n : ℕ) : ∀ s ∈ writerAndReaders n, s.Plannable := by
  refine List.forall_mem_cons.mpr ⟨by decide, fun s hs => ?_⟩
  obtain ⟨i, -, rfl⟩ := List.mem_map.mp hs
  exact of_decide_eq_true rfl

lemma init_writerAndReaders (n : ℕ) :
    ExecPlan.init (writerAndReaders n) = some (planOf (writerAndReaders n).length (writerAndReaders n), .noError) := by
  obtain ⟨err, hinit, hiff⟩ := init_spec (plannable_writerAndReaders n)
  rw [hinit, hiff.mpr (acyclic_writerAndReaders n)]

theorem setParent_inside_two :
    ((∃ g, TaskGraph.calls false 3 (planOf 3 (writerAndReaders 2)).setParentCalls = .ok g) ↔
        ∀ i < 3, (planNode (writerAndReaders 2) i).parents.length ≤ maxTaskParents
          ∧ (planNode (writerAndReaders 2) i).children.length ≤ maxTaskChildren)
      ∧ ((∃ g, TaskGraph.calls true 3 [(1, 0), (2, 0)] = .ok g) ↔
        TaskGraph.Named 3 [(1, 0), (2, 0)]
          ∧ ∀ t, [(1, 0), (2, 0)].countP (·.2 = t) ≤ maxTaskChildren) :=
  setParent_inside (init_writerAndReaders 2) (by decide)

/-- Seventeen readers do not fit into the children of their writer, and the assertion,
which looks at the parents of the writer, lets all of them pass. -/
theorem setParent_seventeen_outside :
    ¬ (∀ stmts plan, ExecPlan.init stmts = some (plan, .noError) →
        ∃ g, TaskGraph.calls false plan.nnodes plan.setParentCalls = .ok g)
      ∧ ¬ ∀ n edges, TaskGraph.calls true n edges ≠ .error .assertion →
        ∃ g, TaskGraph.calls true n edges = .ok g := by
  constructor
  · intro h
    obtain ⟨-, -, hchild⟩ := TaskGraph.calls_unchecked_iff.mp (h _ _ (init_writerAndReaders 17))
    have hcount := hchild 0
    rw [countP_snd_setParentCalls] at hcount
    revert hcount
    decide +kernel
  · intro h
    have houtside : TaskGraph.calls true 18 ((List.range 17).map fun i => (i + 1, 0))
        = .error .outside := by decide +kernel
    obtain ⟨g, hg⟩ := h 18 ((List.range 17).map fun i => (i + 1, 0)) (by rw [houtside]; simp)
    rw [houtside] at hg
    cases hg

end Furious
