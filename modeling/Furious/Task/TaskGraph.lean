import Furious.Library.Digraph
import Mathlib.Tactic

/-!
The task graph.

The generated code inserts one task for each subplan and names the parents of each.
A run goes over the tasks; from one whose parents have been visited it sweeps over
its descendants, level by level, in two arrays that are exchanged. A task counts as
visited when it is queued, and is executed later.

* `TaskGraph.init`, `TaskGraph.call`, `TaskGraph.calls`: the construction, with its
  assertions compiled in or not; an index out of range or a full array is a fault of its
  own;
* `TaskGraph.run`: `fdb_task_graph_run`, which gives the tasks in the order in which
  their functions are called; the functions leave the graph alone;
* `TaskGraph.Visits`: the invariant: what has been executed and what is queued, one
  after the other, are the visited tasks, and parents stand before their children;
* `run_tasks`: **every task runs once and after its parents**.
-/

namespace Furious

/-! ### The graph -/

/-- How a call can end badly. -/
inductive TaskFault where
  /-- An assertion fails. -/
  | assertion
  /-- A task or a cell of one of its arrays does not exist. -/
  | outside
deriving DecidableEq, Repr

/-- `FCC_MAX_TASK_PARENTS`. -/
abbrev maxTaskParents : ℕ := 16

/-- `FCC_MAX_TASK_CHILDREN`. -/
abbrev maxTaskChildren : ℕ := 16

/-- The arrays of `fdb_task_t`, up to their counters. -/
structure Task where
  parents : List ℕ
  children : List ℕ
deriving DecidableEq, Repr

/-- `fdb_task_graph_t`; the roots are not read by a run. -/
structure TaskGraph where
  tasks : List Task
deriving DecidableEq, Repr

namespace TaskGraph

/-- `fdb_task_graph_init`, and `fdb_task_graph_insert_task` for every task. -/
def init (numTasks : ℕ) : TaskGraph := ⟨List.replicate numTasks ⟨[], []⟩⟩

/-- `m_num_tasks`. -/
def numTasks (g : TaskGraph) : ℕ := g.tasks.length

/-- The write to `m_parents` of the task and then the one to `m_children` of the parent,
which can be the same task. -/
def append (g : TaskGraph) (taskId parentId : ℕ) : Option TaskGraph := do
  let c ← g.tasks[taskId]?
  if c.parents.length < maxTaskParents then do
    let tasks := g.tasks.set taskId { c with parents := c.parents ++ [parentId] }
    let p ← tasks[parentId]?
    if p.children.length < maxTaskChildren then
      some ⟨tasks.set parentId { p with children := p.children ++ [taskId] }⟩
    else none
  else none

/-- `fdb_task_graph_set_parent`, with its assertions if `checked`. -/
def call (checked : Bool) (g : TaskGraph) (taskId parentId : ℕ) : Except TaskFault TaskGraph :=
  match g.tasks[taskId]?, g.tasks[parentId]? with
  | some c, some p =>
      if checked ∧ ¬ (c.parents.length < maxTaskParents ∧ p.parents.length < maxTaskChildren) then
        .error .assertion
      else
        match g.append taskId parentId with
        | some g' => .ok g'
        | none => .error .outside
  | _, _ => .error .outside

/-- Calls one after the other, from pairs of a task and a parent of it. -/
def calls (checked : Bool) (numTasks : ℕ) (edges : List (ℕ × ℕ)) : Except TaskFault TaskGraph :=
  edges.foldlM (fun g e => g.call checked e.1 e.2) (init numTasks)

/-! ### A run -/

/-- The loop of `all_visited_parents`. -/
def allVisited (visited : List Bool) : List ℕ → Option Bool
  | [] => some true
  | p :: ps => do
      let v ← visited[p]?
      if v then allVisited visited ps else some false

/-- `all_visited_parents`. -/
def allVisitedParents (g : TaskGraph) (nodeId : ℕ) (visited : List Bool) : Option Bool := do
  let t ← g.tasks[nodeId]?
  allVisited visited t.parents

/-- `!visited_nodes[i] && all_visited_parents(..)`. -/
def ready (g : TaskGraph) (nodeId : ℕ) (visited : List Bool) : Option Bool := do
  let seen ← visited[nodeId]?
  if seen then some false else g.allVisitedParents nodeId visited

/-- A task is written behind the others of a frontier, which has a cell for each task. -/
def push (g : TaskGraph) (frontier : List ℕ) (nodeId : ℕ) : Option (List ℕ) :=
  if frontier.length < g.numTasks then some (frontier ++ [nodeId]) else none

/-- The loop over the children of a task that has been executed. -/
def visitChildren (g : TaskGraph) : List ℕ → List Bool → List ℕ → Option (List Bool × List ℕ)
  | [], visited, nfrontier => some (visited, nfrontier)
  | child :: children, visited, nfrontier => do
      let r ← g.ready child visited
      if r then do
        let nfrontier ← g.push nfrontier child
        visitChildren g children (visited.set child true) nfrontier
      else visitChildren g children visited nfrontier

/-- The loop over the current frontier; `trace` are the tasks executed so far. -/
def sweep (g : TaskGraph) : List ℕ → List Bool → List ℕ → List ℕ →
    Option (List Bool × List ℕ × List ℕ)
  | [], visited, nfrontier, trace => some (visited, nfrontier, trace)
  | node :: cfrontier, visited, nfrontier, trace => do
      let t ← g.tasks[node]?
      let (visited, nfrontier) ← g.visitChildren t.children visited nfrontier
      sweep g cfrontier visited nfrontier (trace ++ [node])

/-- The loop over the levels. -/
def levels (g : TaskGraph) : ℕ → List ℕ → List Bool → List ℕ → Option (List Bool × List ℕ)
  | _, [], visited, trace => some (visited, trace)
  | 0, _ :: _, _, _ => none
  | fuel + 1, node :: cfrontier, visited, trace => do
      let (visited, nfrontier, trace) ← g.sweep (node :: cfrontier) visited [] trace
      levels g fuel nfrontier visited trace

/-- The loop over all tasks; the flag is `found`. -/
def scan (g : TaskGraph) : List ℕ → List Bool → List ℕ → Bool → Option (List Bool × List ℕ × Bool)
  | [], visited, trace, found => some (visited, trace, found)
  | i :: is, visited, trace, found => do
      let r ← g.ready i visited
      if r then do
        let cfrontier ← g.push [] i
        let (visited, trace) ← g.levels (g.numTasks + 1) cfrontier (visited.set i true) trace
        scan g is visited trace true
      else scan g is visited trace found

/-- The outer loop. -/
def passes (g : TaskGraph) : ℕ → List Bool → List ℕ → Option (List ℕ)
  | 0, _, _ => none
  | fuel + 1, visited, trace => do
      let (visited, trace, found) ← g.scan (List.range g.numTasks) visited trace false
      if found then passes g fuel visited trace else some trace

/-- `fdb_task_graph_run`. -/
def run (g : TaskGraph) : Option (List ℕ) :=
  g.passes (g.numTasks + 1) (List.replicate g.numTasks false) []

/-! ### The graph that is built -/

/-- The parents of a task. -/
def parentsOf (g : TaskGraph) (t : ℕ) : List ℕ := (g.tasks[t]?.map Task.parents).getD []

/-- The arrays of all tasks name tasks of the graph. -/
structure Closed (g : TaskGraph) : Prop where
  parents : ∀ t ∈ g.tasks, ∀ p ∈ t.parents, p < g.numTasks
  children : ∀ t ∈ g.tasks, ∀ c ∈ t.children, c < g.numTasks

/-- The graph has been built from `edges`. -/
structure Built (g : TaskGraph) (numTasks : ℕ) (edges : List (ℕ × ℕ)) : Prop where
  numTasks : g.numTasks = numTasks
  closed : g.Closed
  parents : ∀ t p, p ∈ g.parentsOf t ↔ (t, p) ∈ edges

lemma built_init (n : ℕ) : (init n).Built n [] where
  numTasks := List.length_replicate ..
  closed := by
    refine ⟨fun t ht p hp => ?_, fun t ht c hc => ?_⟩
    · rw [List.eq_of_mem_replicate ht] at hp
      cases hp
    · rw [List.eq_of_mem_replicate ht] at hc
      cases hc
  parents t p := by
    have hnone : (init n).parentsOf t = [] := by
      rw [parentsOf, init, List.getElem?_replicate]
      split <;> rfl
    simp [hnone]

section Calls

variable {g g' : TaskGraph} {n t p : ℕ} {edges : List (ℕ × ℕ)}

/-- The parents of a task after another one, or the same, has changed. -/
lemma parentsOf_set {tasks : List Task} {task : Task} (h : tasks[t]? = some task) (new : Task) (s : ℕ) :
    (⟨tasks.set t new⟩ : TaskGraph).parentsOf s
      = if s = t then new.parents else (⟨tasks⟩ : TaskGraph).parentsOf s := by
  obtain ⟨hlt, -⟩ := List.getElem?_eq_some_iff.mp h
  by_cases hs : s = t
  · rw [if_pos hs, hs, parentsOf, List.getElem?_set_self hlt]
    rfl
  · rw [if_neg hs, parentsOf, parentsOf, List.getElem?_set_ne (Ne.symm hs)]

lemma parentsOf_eq {task : Task} (h : g.tasks[t]? = some task) : g.parentsOf t = task.parents := by
  rw [parentsOf, h]
  rfl

/-- **Two writes** to the arrays of a task and of its parent. -/
lemma Built.append (h : g.Built n edges) (hcall : g.append t p = some g') : g'.Built n (edges ++ [(t, p)]) := by
  obtain ⟨c, hc, hcall⟩ := Option.bind_eq_some_iff.mp hcall
  split at hcall
  swap
  · cases hcall
  obtain ⟨q, hq, hcall⟩ := Option.bind_eq_some_iff.mp hcall
  split at hcall
  swap
  · cases hcall
  obtain rfl := Option.some.inj hcall
  obtain ⟨htlt, -⟩ := List.getElem?_eq_some_iff.mp hc
  obtain ⟨hplt, -⟩ := List.getElem?_eq_some_iff.mp hq
  rw [List.length_set] at hplt
  have hcmem : c ∈ g.tasks := List.mem_of_getElem? hc
  have hmem : ∀ x ∈ g.tasks.set t ⟨c.parents ++ [p], c.children⟩, (∀ a ∈ x.parents, a < g.numTasks)
      ∧ ∀ a ∈ x.children, a < g.numTasks := fun x hx => by
    rcases List.mem_or_eq_of_mem_set hx with hx | rfl
    · exact ⟨h.closed.parents x hx, h.closed.children x hx⟩
    · refine ⟨fun a ha => ?_, h.closed.children c hcmem⟩
      rcases List.mem_append.mp ha with ha | ha
      · exact h.closed.parents c hcmem a ha
      · exact List.mem_singleton.mp ha ▸ hplt
  have hqmem := hmem q (List.mem_of_getElem? hq)
  have hnum : ∀ new, (⟨(g.tasks.set t ⟨c.parents ++ [p], c.children⟩).set p new⟩ : TaskGraph).numTasks = g.numTasks :=
    fun new => (List.length_set ..).trans (List.length_set ..)
  refine ⟨(hnum _).trans h.numTasks, ⟨fun x hx a ha => ?_, fun x hx a ha => ?_⟩, fun s a => ?_⟩
  · rw [hnum]
    rcases List.mem_or_eq_of_mem_set hx with hx | rfl
    · exact (hmem x hx).1 a ha
    · exact hqmem.1 a ha
  · rw [hnum]
    rcases List.mem_or_eq_of_mem_set hx with hx | rfl
    · exact (hmem x hx).2 a ha
    · rcases List.mem_append.mp ha with ha | ha
      · exact hqmem.2 a ha
      · exact List.mem_singleton.mp ha ▸ htlt
  · -- the second write leaves the parents alone
    have hparents : (⟨(g.tasks.set t ⟨c.parents ++ [p], c.children⟩).set p ⟨q.parents, q.children ++ [t]⟩⟩ :
        TaskGraph).parentsOf s = if s = t then g.parentsOf s ++ [p] else g.parentsOf s := by
      rw [parentsOf_set hq, ← parentsOf_eq (g := ⟨_⟩) hq, parentsOf_set hc, parentsOf_set hc]
      by_cases hs : s = t
      · rw [if_pos hs, if_pos hs, hs, parentsOf_eq hc]
        by_cases hp : t = p
        · rw [if_pos hp, if_pos hp.symm]
        · rw [if_neg hp]
      · rw [if_neg hs, if_neg hs]
        by_cases hp : s = p
        · rw [if_pos hp, ← hp, if_neg hs]
        · rw [if_neg hp]
    rw [hparents, List.mem_append, ← h.parents]
    by_cases hs : s = t
    · simp [hs]
    · simp [hs]

lemma calls_snoc (checked : Bool) (n : ℕ) (edges : List (ℕ × ℕ)) (e : ℕ × ℕ) :
    calls checked n (edges ++ [e]) = (calls checked n edges).bind fun g => g.call checked e.1 e.2 := by
  rw [calls, List.foldlM_append]
  change (calls checked n edges).bind _ = _
  cases calls checked n edges with
  | error err => rfl
  | ok g => cases hg : g.call checked e.1 e.2 <;> simp [Except.bind, hg, bind, pure, Except.pure]

/-- **The graph** that some calls make. -/
theorem calls_built {checked : Bool} (h : calls checked n edges = .ok g) : g.Built n edges := by
  induction edges using List.reverseRecOn generalizing g with
  | nil =>
      obtain rfl : init n = g := Except.ok.inj h
      exact built_init n
  | append_singleton edges e ih =>
      rw [calls_snoc] at h
      obtain ⟨g₁, hcalls, hcall⟩ : ∃ g₁, calls checked n edges = .ok g₁ ∧ g₁.call checked e.1 e.2 = .ok g := by
        cases hcalls : calls checked n edges with
        | error fault =>
            rw [hcalls] at h
            cases h
        | ok g₁ =>
            rw [hcalls] at h
            exact ⟨g₁, rfl, h⟩
      rw [TaskGraph.call] at hcall
      split at hcall
      swap
      · cases hcall
      split at hcall
      · cases hcall
      split at hcall
      · next g₂ happ =>
          obtain rfl := Except.ok.inj hcall
          exact (ih hcalls).append happ
      · cases hcall

end Calls

/-! ### Visited tasks -/

/-- The visited tasks are those of `l`, each after its parents. -/
structure Visits (g : TaskGraph) (visited : List Bool) (l : List ℕ) : Prop where
  length : visited.length = g.numTasks
  mem : ∀ t < g.numTasks, visited[t]? = some (decide (t ∈ l))
  lt : ∀ t ∈ l, t < g.numTasks
  nodup : l.Nodup
  preceded : PrecededBy g.parentsOf l

variable {g : TaskGraph} {visited : List Bool} {l : List ℕ}

lemma visits_init (g : TaskGraph) : g.Visits (List.replicate g.numTasks false) [] where
  length := List.length_replicate ..
  mem t ht := by simp [ht]
  lt := by simp
  nodup := List.nodup_nil
  preceded := PrecededBy.nil _

namespace Visits

/-- There are no more visited tasks than tasks. -/
lemma length_le (h : g.Visits visited l) : l.length ≤ g.numTasks := by
  have hsub : l ⊆ List.range g.numTasks := fun t ht => List.mem_range.mpr (h.lt t ht)
  simpa using (h.nodup.subperm hsub).length_le

lemma allVisited_eq (h : g.Visits visited l) {ps : List ℕ} (hps : ∀ p ∈ ps, p < g.numTasks) :
    allVisited visited ps = some (decide (∀ p ∈ ps, p ∈ l)) := by
  induction ps with
  | nil => simp [allVisited]
  | cons p ps ih =>
      have hp := h.mem p (hps p List.mem_cons_self)
      rw [allVisited, hp, Option.bind_eq_bind, Option.bind_some]
      by_cases hmem : p ∈ l
      · rw [if_pos (by simpa using hmem), ih fun q hq => hps q (List.mem_cons_of_mem _ hq)]
        simp [hmem]
      · rw [if_neg (by simpa using hmem)]
        simp [hmem]

/-- What `ready` tells. -/
lemma ready_eq (h : g.Visits visited l) (hg : g.Closed) {t : ℕ} (ht : t < g.numTasks) :
    g.ready t visited = some (decide (t ∉ l ∧ ∀ p ∈ g.parentsOf t, p ∈ l)) := by
  have hget : g.tasks[t]? = some g.tasks[t] := List.getElem?_eq_getElem ht
  have hparents : g.parentsOf t = g.tasks[t].parents := by
    rw [parentsOf, hget]
    rfl
  have hall := h.allVisited_eq (hg.parents _ (List.getElem_mem ht))
  rw [ready, h.mem t ht, Option.bind_eq_bind, Option.bind_some]
  by_cases hmem : t ∈ l
  · simp [hmem]
  · simp only [hmem, decide_false, Bool.false_eq_true, if_false, allVisitedParents, hget,
      Option.bind_eq_bind, Option.bind_some, hall, hparents, not_false_eq_true, true_and]

/-- A task that is ready is visited. -/
lemma visit (h : g.Visits visited l) {t : ℕ} (ht : t < g.numTasks)
    (hready : t ∉ l ∧ ∀ p ∈ g.parentsOf t, p ∈ l) : g.Visits (visited.set t true) (l ++ [t]) where
  length := (List.length_set ..).trans h.length
  mem s hs := by
    rcases eq_or_ne s t with rfl | hne
    · rw [List.getElem?_set_self (h.length.symm ▸ ht)]
      simp
    · rw [List.getElem?_set_ne hne.symm, h.mem s hs]
      simp [hne]
  lt s hs := by
    rcases List.mem_append.mp hs with hs | hs
    · exact h.lt s hs
    · rw [List.mem_singleton.mp hs]
      exact ht
  nodup := by
    rw [List.nodup_append]
    refine ⟨h.nodup, List.nodup_singleton t, ?_⟩
    rintro s hs _ hs' rfl
    exact hready.1 (List.mem_singleton.mp hs' ▸ hs)
  preceded := h.preceded.snoc hready.2

/-- There is room in a frontier for a task that has not been visited. -/
lemma push_eq (h : g.Visits visited l) {t : ℕ} (ht : t < g.numTasks) (hnew : t ∉ l)
    (done : List ℕ) {frontier : List ℕ} (hl : l = done ++ frontier) : g.push frontier t = some (frontier ++ [t]) := by
  have hnd : (l ++ [t]).Nodup := by
    rw [List.nodup_append]
    refine ⟨h.nodup, List.nodup_singleton t, ?_⟩
    rintro s hs _ hs' rfl
    exact hnew (List.mem_singleton.mp hs' ▸ hs)
  have hsub : l ++ [t] ⊆ List.range g.numTasks := by
    intro s hs
    rcases List.mem_append.mp hs with hs | hs
    · exact List.mem_range.mpr (h.lt s hs)
    · exact List.mem_range.mpr (List.mem_singleton.mp hs ▸ ht)
  have hle := (hnd.subperm hsub).length_le
  rw [List.length_range, List.length_append, List.length_singleton, hl, List.length_append] at hle
  rw [push, if_pos (by omega)]

/-! ### The loops -/

/-- **The children of a task**: those that become ready are queued. -/
theorem visitChildren_spec (hg : g.Closed) {children : List ℕ} (hc : ∀ c ∈ children, c < g.numTasks) :
    ∀ {visited : List Bool} {done nf : List ℕ}, g.Visits visited (done ++ nf) →
      ∃ visited' new, g.visitChildren children visited nf = some (visited', nf ++ new)
        ∧ g.Visits visited' (done ++ (nf ++ new)) := by
  induction children with
  | nil => exact fun {visited done nf} h => ⟨visited, [], by simp [visitChildren], by simpa using h⟩
  | cons c children ih =>
      intro visited done nf h
      have hclt := hc c List.mem_cons_self
      have hrest : ∀ d ∈ children, d < g.numTasks := fun d hd => hc d (List.mem_cons_of_mem _ hd)
      have hready := h.ready_eq hg hclt
      by_cases hr : c ∉ done ++ nf ∧ ∀ p ∈ g.parentsOf c, p ∈ done ++ nf
      · have hpush := h.push_eq hclt hr.1 done rfl
        have hvisit := h.visit hclt hr
        rw [List.append_assoc] at hvisit
        obtain ⟨visited', new, heq, hv⟩ := ih hrest hvisit
        refine ⟨visited', c :: new, ?_, by simpa using hv⟩
        simp only [visitChildren, hready, Option.bind_eq_bind, Option.bind_some, decide_eq_true hr,
          if_true, hpush, heq]
        simp
      · obtain ⟨visited', new, heq, hv⟩ := ih hrest h
        refine ⟨visited', new, ?_, hv⟩
        simp only [visitChildren, hready, Option.bind_eq_bind, Option.bind_some, decide_eq_false hr,
          Bool.false_eq_true, if_false, heq]

/-- **A level**: its tasks are executed, and the next level is queued behind them. -/
theorem sweep_spec (hg : g.Closed) {cf : List ℕ} : ∀ {visited : List Bool} {trace nf : List ℕ},
    g.Visits visited (trace ++ cf ++ nf) →
    ∃ visited' nf', g.sweep cf visited nf trace = some (visited', nf', trace ++ cf)
      ∧ g.Visits visited' (trace ++ cf ++ nf') := by
  induction cf with
  | nil => exact fun {visited trace nf} h => ⟨visited, nf, by simp [sweep], h⟩
  | cons node cf ih =>
      intro visited trace nf h
      have hlt := h.lt node (by simp)
      have hget : g.tasks[node]? = some g.tasks[node] := List.getElem?_eq_getElem hlt
      obtain ⟨visited₁, new, heq, hv⟩ := visitChildren_spec hg
        (hg.children _ (List.getElem_mem hlt)) h
      have hassoc : trace ++ node :: cf = (trace ++ [node]) ++ cf := by simp
      rw [hassoc] at hv ⊢
      obtain ⟨visited', nf', hsweep, hv'⟩ := ih hv
      refine ⟨visited', nf', ?_, hv'⟩
      simp only [sweep, hget, Option.bind_eq_bind, Option.bind_some, heq, hsweep]

/-- **The levels** end, with everything executed that has been visited. -/
theorem levels_spec (hg : g.Closed) (fuel : ℕ) : ∀ {cf : List ℕ} {visited : List Bool} {trace : List ℕ},
    g.Visits visited (trace ++ cf) → g.numTasks < trace.length + fuel →
    ∃ visited' trace', g.levels fuel cf visited trace = some (visited', trace')
      ∧ trace ++ cf <+: trace' ∧ g.Visits visited' trace' := by
  induction fuel with
  | zero =>
      intro cf visited trace h hfuel
      have := h.length_le
      rw [List.length_append] at this
      omega
  | succ fuel ih =>
      intro cf visited trace h hfuel
      cases cf with
      | nil => exact ⟨visited, trace, by simp [levels], by simp, by simpa using h⟩
      | cons node cf =>
          have hlevel : g.Visits visited (trace ++ node :: cf ++ []) := by simpa using h
          obtain ⟨visited₁, nf, hsweep, hv⟩ := sweep_spec hg hlevel
          have hlen : g.numTasks < (trace ++ node :: cf).length + fuel := by
            rw [List.length_append, List.length_cons]
            omega
          obtain ⟨visited', trace', hlevels, hpre, hv'⟩ := ih hv hlen
          refine ⟨visited', trace', ?_, (List.prefix_append _ _).trans hpre, hv'⟩
          simp only [levels, hsweep, Option.bind_eq_bind, Option.bind_some, hlevels]

/-- **The loop over all tasks**: something is found if and only if more is executed, and
if nothing is found then no task was ready. -/
theorem scan_spec (hg : g.Closed) (is : List ℕ) (his : ∀ i ∈ is, i < g.numTasks) :
    ∀ {visited : List Bool} {trace : List ℕ} (found : Bool), g.Visits visited trace →
    ∃ visited' trace' found', g.scan is visited trace found = some (visited', trace', found')
      ∧ g.Visits visited' trace' ∧ (found = true → found' = true)
      ∧ (found' = true → found = true ∨ trace.length < trace'.length)
      ∧ trace.length ≤ trace'.length
      ∧ (found' = false → trace' = trace
        ∧ ∀ i ∈ is, ¬ (i ∉ trace ∧ ∀ p ∈ g.parentsOf i, p ∈ trace)) := by
  induction is with
  | nil =>
      intro visited trace found h
      exact ⟨visited, trace, found, rfl, h, id, Or.inl, le_rfl, fun _ => ⟨rfl, by simp⟩⟩
  | cons i is ih =>
      intro visited trace found h
      have hi := his i List.mem_cons_self
      have hrest : ∀ j ∈ is, j < g.numTasks := fun j hj => his j (List.mem_cons_of_mem _ hj)
      have hready := h.ready_eq hg hi
      by_cases hr : i ∉ trace ∧ ∀ p ∈ g.parentsOf i, p ∈ trace
      · have hpush : g.push [] i = some [i] := h.push_eq hi hr.1 trace (by simp)
        obtain ⟨visited₁, trace₁, hlevels, hpre, hv⟩ :=
          levels_spec hg (g.numTasks + 1) (h.visit hi hr) (by omega)
        have hlen := hpre.length_le
        rw [List.length_append, List.length_singleton] at hlen
        obtain ⟨visited', trace', found', hscan, hv', hkeep, -, hle, hnone⟩ :=
          ih hrest true hv
        refine ⟨visited', trace', found', ?_, hv', fun _ => hkeep rfl, fun _ => Or.inr (by omega),
          by omega, fun hf => ?_⟩
        · simp only [scan, hready, Option.bind_eq_bind, Option.bind_some, decide_eq_true hr,
            if_true, hpush, hlevels, hscan]
        · rw [hkeep rfl] at hf
          cases hf
      · obtain ⟨visited', trace', found', hscan, hv', hkeep, hmore, hle, hnone⟩ :=
          ih hrest found h
        refine ⟨visited', trace', found', ?_, hv', hkeep, hmore, hle, fun hf => ?_⟩
        · simp only [scan, hready, Option.bind_eq_bind, Option.bind_some, decide_eq_false hr,
            Bool.false_eq_true, if_false, hscan]
        · obtain ⟨heq, hall⟩ := hnone hf
          refine ⟨heq, fun j hj => ?_⟩
          rcases List.mem_cons.mp hj with rfl | hj
          · exact hr
          · exact hall j hj

/-- **The passes** end, at a trace after which no task is ready. -/
theorem passes_spec (hg : g.Closed) (fuel : ℕ) : ∀ {visited : List Bool} {trace : List ℕ},
    g.Visits visited trace → g.numTasks < trace.length + fuel →
    ∃ visited' trace', g.passes fuel visited trace = some trace' ∧ g.Visits visited' trace'
      ∧ ∀ i < g.numTasks, ¬ (i ∉ trace' ∧ ∀ p ∈ g.parentsOf i, p ∈ trace') := by
  induction fuel with
  | zero =>
      intro visited trace h hfuel
      have := h.length_le
      omega
  | succ fuel ih =>
      intro visited trace h hfuel
      obtain ⟨visited₁, trace₁, found, hscan, hv, -, hmore, -, hnone⟩ :=
        scan_spec hg (List.range g.numTasks) (fun i hi => List.mem_range.mp hi) false h
      cases found with
      | true =>
          have hlt := (hmore rfl).resolve_left Bool.false_ne_true
          obtain ⟨visited', trace', hpasses, hrest⟩ := ih hv (by omega)
          refine ⟨visited', trace', ?_, hrest⟩
          simp only [passes, hscan, Option.bind_eq_bind, Option.bind_some, if_true, hpasses]
      | false =>
          obtain ⟨rfl, hall⟩ := hnone rfl
          refine ⟨visited₁, trace₁, ?_, hv, fun i hi => hall i (List.mem_range.mpr hi)⟩
          simp only [passes, hscan, Option.bind_eq_bind, Option.bind_some, Bool.false_eq_true, if_false]

end Visits

/-- **A run of a graph**: no task runs twice or before one of its parents, and without cycles every task runs. -/
theorem Built.run_spec {n : ℕ} {edges : List (ℕ × ℕ)} (h : g.Built n edges) :
    ∃ trace, g.run = some trace ∧ trace.Nodup ∧ (∀ t ∈ trace, t < n) ∧ PrecededBy g.parentsOf trace
      ∧ (Acyclic (fun p t => (t, p) ∈ edges) → ∀ t < n, t ∈ trace) := by
  obtain ⟨visited, trace, hrun, hv, hstuck⟩ :=
    Visits.passes_spec h.closed (g.numTasks + 1) (visits_init g) (by simp)
  refine ⟨trace, hrun, hv.nodup, fun t ht => h.numTasks ▸ hv.lt t ht, hv.preceded, fun hac t ht => ?_⟩
  -- a task that has not run has a parent that has not run
  have hlt : ∀ t p, (t, p) ∈ edges → p < g.numTasks := by
    intro t p hp
    have hmem := (h.parents t p).mpr hp
    cases hget : g.tasks[t]? with
    | none =>
        rw [parentsOf, hget] at hmem
        cases hmem
    | some task =>
        rw [parentsOf_eq hget] at hmem
        exact h.closed.parents task (List.mem_of_getElem? hget) p hmem
  have hwf := hac.wellFounded (Finset.range g.numTasks) fun p t hpt =>
    Finset.mem_range.mpr (hlt t p hpt)
  rw [← h.numTasks] at ht
  induction t using hwf.induction with
  | _ t ih =>
      by_contra hnot
      refine hstuck t ht ⟨hnot, fun p hp => ?_⟩
      have hpt := (h.parents t p).mp hp
      exact ih p hpt (hlt t p hpt)

end TaskGraph

/-! ### The run -/

/-- **Every task runs once and after its parents.** For every graph that can be built, with the assertions
compiled in or not, the run ends and no index is out of range; no task runs twice, and when a task runs all its
parents have run. Without cycles every task runs. -/
theorem run_tasks {checked : Bool} {n : ℕ} {edges : List (ℕ × ℕ)} {g : TaskGraph}
    (h : TaskGraph.calls checked n edges = .ok g) :
    ∃ trace, g.run = some trace ∧ trace.Nodup ∧ (∀ t ∈ trace, t < n)
      ∧ (∀ l₁ t l₂, trace = l₁ ++ t :: l₂ → ∀ p, (t, p) ∈ edges → p ∈ l₁)
      ∧ (Acyclic (fun p t => (t, p) ∈ edges) → ∀ t < n, t ∈ trace) := by
  have hb := TaskGraph.calls_built h
  obtain ⟨trace, hrun, hnd, hlt, hpreceded, hall⟩ := hb.run_spec
  exact ⟨trace, hrun, hnd, hlt, fun l₁ t l₂ hl p hp => hpreceded l₁ t l₂ hl p ((hb.parents t p).mpr hp), hall⟩

/-- A diamond, and a task below two levels of it. -/
def diamond : List (ℕ × ℕ) := [(1, 4), (2, 4), (0, 1), (0, 2), (3, 0), (3, 4)]

example : (TaskGraph.calls true 5 diamond).toOption.bind TaskGraph.run = some [4, 1, 2, 0, 3] := by decide

theorem run_tasks_diamond : ∃ g trace, TaskGraph.calls true 5 diamond = .ok g ∧ g.run = some trace
    ∧ ∀ t < 5, t ∈ trace := by
  obtain ⟨g, hg⟩ : ∃ g, TaskGraph.calls true 5 diamond = .ok g := ⟨_, rfl⟩
  obtain ⟨trace, hrun, -, -, -, hall⟩ := run_tasks hg
  refine ⟨g, trace, hg, hrun, hall (acyclic_of_rank (fun t => [2, 3, 3, 1, 4].getD t 0) ?_)⟩
  intro p t hpt
  simp only [diamond, List.mem_cons, Prod.mk.injEq, List.not_mem_nil, or_false] at hpt
  rcases hpt with ⟨rfl, rfl⟩ | ⟨rfl, rfl⟩ | ⟨rfl, rfl⟩ | ⟨rfl, rfl⟩ | ⟨rfl, rfl⟩ | ⟨rfl, rfl⟩ <;> decide

end Furious
