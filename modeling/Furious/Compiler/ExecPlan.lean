import Furious.Compiler.Room
import Furious.Library.Digraph

/-!
The execution plan: the dependency graph of the statements of a program.

* `isDependent`, `ExecPlan.insert`, `ExecPlan.init`: the construction, one
  statement at a time, each compared with the earlier ones in both directions;
* `dfs`, `ExecPlan.isAcyclic`: the verdict, read off departure times;
* `ExecPlan.getValidExecSequence`: the sequence, frontier by frontier;
* `Stmt.DependsOn`: the relation that `isDependent` computes, said without
  loops, `Stmt.isDependent_iff` the connection;
* `planOf`: the plan of a list of statements in closed form, and
  `init_eq_planOf`: **the incremental construction arrives at it**, if it
  arrives at all; `plannable_of_init`: then every statement is plannable.

No function of the graph reads the subplans that `fcc_exec_plan_insert` also
makes; they matter because making one can fail.
-/

namespace Furious

/-! ### The data -/

/-- The neighbours of a node, in the order they were appended
(`fcc_exec_plan_node_t`). -/
structure ExecPlanNode where
  parents : List ℕ
  children : List ℕ
deriving DecidableEq, Repr

/-- The plan (`fcc_exec_plan_t`). The arrays `m_nodes` and `m_roots` have
`maxnodes` cells; the statements inserted so far are `m_nnodes` many, and the
`m_id` of a subplan is its position. -/
structure ExecPlan where
  nodes : ℕ → ExecPlanNode
  roots : List ℕ
  stmts : List Stmt
  subplans : List Subplan
  maxnodes : ℕ

/-- The number of inserted statements (`m_nnodes`). -/
def ExecPlan.nnodes (p : ExecPlan) : ℕ := p.stmts.length

/-- The verdict of the planner, the two values it can return of
`fcc_compilation_error_type_t`. -/
inductive CompilationError where
  | cyclicDependencyGraph
  | noError
deriving DecidableEq, Repr

/-! ### Construction -/

/-- Whether the statement `a` depends on the statement `b`, by the loops of
`is_dependent`: over the types `b` writes, for each type `a` accesses. -/
def Stmt.isDependent (a b : Stmt) : Bool :=
  let writeTypesB := (b.system.cmatches.filter fun c => !c.isReadOnly).map (·.type)
  a.system.cmatches.any fun ca =>
    writeTypesB.any fun typeB =>
      (ca.type.name == typeB.name && ca.isReadOnly)
        || (ca.type.name == typeB.name && decide (b.priority ≤ a.priority))

/-- `is_dependent` on two nodes of the plan. -/
def isDependent (p : ExecPlan) (nodeA nodeB : ℕ) : Bool :=
  match p.stmts[nodeA]?, p.stmts[nodeB]? with
  | some a, some b => a.isDependent b
  | _, _ => false

/-- Appends `child` to the children of `parent` and `parent` to the parents of
`child`. -/
def ExecPlan.addEdge (p : ExecPlan) (parent child : ℕ) : ExecPlan :=
  let nodes := Function.update p.nodes parent
    { p.nodes parent with children := (p.nodes parent).children ++ [child] }
  { p with
    nodes := Function.update nodes child
      { nodes child with parents := (nodes child).parents ++ [parent] } }

/-- One iteration of the loop of `fcc_exec_plan_insert`: the new node `id`
against the older node `i`, in both directions. -/
def ExecPlan.link (id : ℕ) (p : ExecPlan) (i : ℕ) : ExecPlan :=
  let p := if isDependent p id i then p.addEdge i id else p
  if isDependent p i id then p.addEdge id i else p

/-- The loop that collects the roots anew, with the assertion on the length of
`m_roots`. -/
def ExecPlan.reevaluateRoots (p : ExecPlan) : Option ExecPlan := do
  let roots ← (List.range p.nnodes).foldlM (fun roots i =>
    if (p.nodes i).parents.length = 0 then
      if roots.length < p.maxnodes then some (roots ++ [i]) else none
    else some roots) []
  some { p with roots := roots }

/-- `fcc_exec_plan_insert`; `none` is a failed permanent assertion, or an
operator of the statement that is written outside of the array of its subplan. -/
def ExecPlan.insert (p : ExecPlan) (stmt : Stmt) : Option ExecPlan :=
  if p.nnodes < p.maxnodes then do
    let id := p.nnodes
    let subplan ← subplanInit stmt
    let p := { p with stmts := p.stmts ++ [stmt], subplans := p.subplans ++ [subplan] }
    ((List.range id).foldl (ExecPlan.link id) p).reevaluateRoots
  else none

/-- The plan before the first insertion. -/
def ExecPlan.empty (maxnodes : ℕ) : ExecPlan where
  nodes := fun _ => ⟨[], []⟩
  roots := []
  stmts := []
  subplans := []
  maxnodes := maxnodes

/-! ### Departure times -/

/-- The arrays of `is_acyclic` and the clock. -/
structure DfsState where
  visited : ℕ → Bool
  departure : ℕ → ℕ
  time : ℕ

/-- `dfs`; `none` when the fuel does not last. -/
def dfs (p : ExecPlan) : ℕ → DfsState → ℕ → Option DfsState
  | 0, _, _ => none
  | fuel + 1, s, nodeId => do
      let s := { s with visited := Function.update s.visited nodeId true }
      let s ← (p.nodes nodeId).children.foldlM (fun s childId =>
        if s.visited childId then some s else dfs p fuel s childId) s
      some { s with
        departure := Function.update s.departure nodeId s.time
        time := s.time + 1 }

/-- The first loop of `is_acyclic`: a search from every unvisited root. The
fuel of a search is one more than the number of nodes. -/
def departureTimes (p : ExecPlan) : Option DfsState :=
  (List.range p.nnodes).foldlM (fun s i =>
    if !s.visited i && (p.nodes i).parents.length == 0
    then dfs p (p.nnodes + 1) s i else some s)
    ⟨fun _ => false, fun _ => 0, 0⟩

/-- `is_acyclic`. -/
def ExecPlan.isAcyclic (p : ExecPlan) : Option Bool := do
  let s ← departureTimes p
  some ((List.range p.nnodes).all fun nodeId =>
    (p.nodes nodeId).children.all fun childId =>
      !decide (s.departure nodeId ≤ s.departure childId))

/-- `fcc_exec_plan_init`: every statement is inserted in turn, then the graph is
checked. -/
def ExecPlan.init (stmts : List Stmt) : Option (ExecPlan × CompilationError) := do
  let p ← stmts.foldlM ExecPlan.insert (ExecPlan.empty stmts.length)
  let acyclic ← p.isAcyclic
  some (p, if !acyclic then .cyclicDependencyGraph else .noError)

/-! ### The execution sequence -/

/-- `all_visited_parents`. -/
def allVisitedParents (p : ExecPlan) (nodeId : ℕ) (visited : ℕ → Bool) : Bool :=
  (p.nodes nodeId).parents.all visited

/-- The marks, the sequence written so far and the next frontier. -/
structure SeqState where
  visitedNodes : ℕ → Bool
  seq : List ℕ
  nextFrontier : List ℕ

/-- The loop over the children of an emitted node: a child joins the next
frontier, and is marked, once all its parents are marked. -/
def pushChild (p : ExecPlan) (s : SeqState) (childId : ℕ) : SeqState :=
  if !s.visitedNodes childId && allVisitedParents p childId s.visitedNodes then
    { s with
      visitedNodes := Function.update s.visitedNodes childId true
      nextFrontier := s.nextFrontier ++ [childId] }
  else s

/-- One node of the current frontier: it is emitted and its children are
considered. -/
def emitNode (p : ExecPlan) (s : SeqState) (nodeId : ℕ) : SeqState :=
  (p.nodes nodeId).children.foldl (pushChild p) { s with seq := s.seq ++ [nodeId] }

/-- The loop `while(cfsize > 0)` over the frontiers. -/
def frontierLoop (p : ExecPlan) : ℕ → SeqState → List ℕ → Option SeqState
  | _, s, [] => some s
  | 0, _, _ :: _ => none
  | fuel + 1, s, currentFrontier@(_ :: _) =>
      let s := currentFrontier.foldl (emitNode p) s
      frontierLoop p fuel { s with nextFrontier := [] } s.nextFrontier

/-- One iteration of the loop over all nodes; the flag is `found`. -/
def startNode (p : ExecPlan) (s : Bool × SeqState) (i : ℕ) : Option (Bool × SeqState) :=
  if !s.2.visitedNodes i && allVisitedParents p i s.2.visitedNodes then do
    let s' ← frontierLoop p (p.nnodes + 1)
      { s.2 with visitedNodes := Function.update s.2.visitedNodes i true } [i]
    some (true, s')
  else some s

/-- The loop `while(found)`. -/
def sequenceLoop (p : ExecPlan) : ℕ → SeqState → Option SeqState
  | 0, _ => none
  | fuel + 1, s => do
      let (found, s) ← (List.range p.nnodes).foldlM (startNode p) (false, s)
      if found then sequenceLoop p fuel s else some s

/-- `fcc_exec_plan_get_valid_exec_sequence`: what is written to `seq`. -/
def ExecPlan.getValidExecSequence (p : ExecPlan) : Option (List ℕ) := do
  let s ← sequenceLoop p (p.nnodes + 1) ⟨fun _ => false, [], []⟩
  some s.seq

/-! ### The dependency relation -/

/-- **What the comparison decides**: `a` accesses a type that `b` writes, and
does so read-only or with a priority value that is not the smaller one. -/
def Stmt.DependsOn (a b : Stmt) : Prop :=
  ∃ ca ∈ a.system.cmatches, ∃ cb ∈ b.system.cmatches,
    cb.isReadOnly = false ∧ ca.type.name = cb.type.name ∧
      (ca.isReadOnly = true ∨ b.priority ≤ a.priority)

lemma Stmt.isDependent_iff {a b : Stmt} : a.isDependent b = true ↔ a.DependsOn b := by
  simp only [Stmt.isDependent, Stmt.DependsOn, List.any_eq_true, List.mem_map, List.mem_filter,
    Bool.or_eq_true, Bool.and_eq_true, beq_iff_eq, decide_eq_true_eq, Bool.not_eq_true',
    exists_exists_and_eq_and]
  constructor
  · rintro ⟨ca, hca, cb, ⟨hcb, hw⟩, ⟨hn, hr⟩ | ⟨hn, hp⟩⟩
    · exact ⟨ca, hca, cb, hcb, hw, hn, Or.inl hr⟩
    · exact ⟨ca, hca, cb, hcb, hw, hn, Or.inr hp⟩
  · rintro ⟨ca, hca, cb, hcb, hw, hn, hr | hp⟩
    · exact ⟨ca, hca, cb, ⟨hcb, hw⟩, Or.inl ⟨hn, hr⟩⟩
    · exact ⟨ca, hca, cb, ⟨hcb, hw⟩, Or.inr ⟨hn, hp⟩⟩

instance (a b : Stmt) : Decidable (a.DependsOn b) :=
  decidable_of_iff _ Stmt.isDependent_iff

/-- Whether the statement at `a` depends on the one at `b`, for two different
positions of the list. -/
def dependent (stmts : List Stmt) (a b : ℕ) : Bool :=
  match stmts[a]?, stmts[b]? with
  | some sa, some sb => decide (a ≠ b) && sa.isDependent sb
  | _, _ => false

lemma dependent_iff {stmts : List Stmt} {a b : ℕ} :
    dependent stmts a b = true ↔
      ∃ (ha : a < stmts.length) (hb : b < stmts.length), a ≠ b ∧ stmts[a].DependsOn stmts[b] := by
  unfold dependent
  split
  · next sa sb ha hb =>
      obtain ⟨ha', rfl⟩ := List.getElem?_eq_some_iff.mp ha
      obtain ⟨hb', rfl⟩ := List.getElem?_eq_some_iff.mp hb
      simp [ha', hb', Stmt.isDependent_iff]
  · next h =>
      constructor
      · simp
      · rintro ⟨ha, hb, -⟩
        exact absurd (List.getElem?_eq_getElem hb) (h _ _ (List.getElem?_eq_getElem ha))

lemma isDependent_eq_dependent (p : ExecPlan) {a b : ℕ} (h : a ≠ b) :
    isDependent p a b = dependent p.stmts a b := by
  unfold isDependent dependent
  split <;> simp [h]

/-- Positions beyond the list take no part. -/
lemma dependent_eq_false {stmts : List Stmt} {a b : ℕ}
    (h : ¬ (a < stmts.length ∧ b < stmts.length)) : dependent stmts a b = false := by
  rw [Bool.eq_false_iff, Ne, dependent_iff]
  rintro ⟨ha, hb, -⟩
  exact h ⟨ha, hb⟩

lemma dependent_self (stmts : List Stmt) (a : ℕ) : dependent stmts a a = false := by
  rw [Bool.eq_false_iff, Ne, dependent_iff]
  rintro ⟨_, _, h, -⟩
  exact h rfl

/-- Appending a statement changes nothing between the other positions. -/
lemma dependent_append (stmts : List Stmt) (s : Stmt) {a b : ℕ} (ha : a ≠ stmts.length)
    (hb : b ≠ stmts.length) : dependent (stmts ++ [s]) a b = dependent stmts a b := by
  by_cases h : a < stmts.length ∧ b < stmts.length
  · unfold dependent
    rw [List.getElem?_append_left h.1, List.getElem?_append_left h.2]
  · rw [dependent_eq_false h, dependent_eq_false]
    rw [List.length_append, List.length_singleton]
    omega

/-! ### The plan in closed form -/

/-- The neighbours of a position: what it depends on and what depends on it. -/
def planNode (stmts : List Stmt) (i : ℕ) : ExecPlanNode where
  parents := (List.range stmts.length).filter fun j => dependent stmts i j
  children := (List.range stmts.length).filter fun j => dependent stmts j i

/-- The plan of a list of statements. -/
def planOf (maxnodes : ℕ) (stmts : List Stmt) : ExecPlan where
  nodes := planNode stmts
  roots := (List.range stmts.length).filter fun i => (planNode stmts i).parents.length = 0
  stmts := stmts
  subplans := stmts.filterMap subplanInit
  maxnodes := maxnodes

lemma mem_planNode_children {stmts : List Stmt} {i j : ℕ} :
    j ∈ (planNode stmts i).children ↔ dependent stmts j i = true := by
  simp only [planNode, List.mem_filter, List.mem_range, and_iff_right_iff_imp]
  intro h
  obtain ⟨hj, -⟩ := dependent_iff.mp h
  exact hj

lemma mem_planNode_parents {stmts : List Stmt} {i j : ℕ} :
    j ∈ (planNode stmts i).parents ↔ dependent stmts i j = true := by
  simp only [planNode, List.mem_filter, List.mem_range, and_iff_right_iff_imp]
  intro h
  obtain ⟨-, hj, -⟩ := dependent_iff.mp h
  exact hj

/-- What one edge adds to the neighbours of a node. -/
lemma addEdge_nodes (p : ExecPlan) {a b : ℕ} (h : a ≠ b) (i : ℕ) :
    (p.addEdge a b).nodes i =
      ⟨(p.nodes i).parents ++ (if i = b then [a] else []),
        (p.nodes i).children ++ (if i = a then [b] else [])⟩ := by
  rcases eq_or_ne i b with rfl | hb
  · simp [ExecPlan.addEdge, h.symm]
  · rcases eq_or_ne i a with rfl | ha
    · simp [ExecPlan.addEdge, hb]
    · simp [ExecPlan.addEdge, ha, hb]

@[simp] lemma addEdge_stmts (p : ExecPlan) (a b : ℕ) : (p.addEdge a b).stmts = p.stmts := rfl

/-- What one iteration of the insertion adds to the neighbours of a node. -/
lemma link_nodes (p : ExecPlan) {id k : ℕ} (h : id ≠ k) (i : ℕ) :
    (p.link id k).nodes i =
      ⟨(p.nodes i).parents ++ (if i = id ∧ dependent p.stmts id k then [k] else [])
          ++ (if i = k ∧ dependent p.stmts k id then [id] else []),
        (p.nodes i).children ++ (if i = k ∧ dependent p.stmts id k then [id] else [])
          ++ (if i = id ∧ dependent p.stmts k id then [k] else [])⟩ := by
  unfold ExecPlan.link
  simp only [isDependent_eq_dependent _ h, isDependent_eq_dependent _ h.symm]
  cases h₁ : dependent p.stmts id k <;> cases h₂ : dependent p.stmts k id <;>
    simp [addEdge_nodes _ h, addEdge_nodes _ h.symm, h₂]

lemma link_eq (p : ExecPlan) (id k : ℕ) :
    p.link id k = { p with nodes := (p.link id k).nodes } := by
  unfold ExecPlan.link
  cases isDependent p id k <;> simp only [Bool.false_eq_true, if_true, if_false] <;>
    split <;> rfl

/-- The neighbours of a node when the new statement `s` has been compared with
the first `k` older ones. -/
def linkedNode (stmts : List Stmt) (s : Stmt) (k i : ℕ) : ExecPlanNode :=
  let id := stmts.length
  let dep := dependent (stmts ++ [s])
  if i = id then
    ⟨(List.range k).filter fun j => dep id j, (List.range k).filter fun j => dep j id⟩
  else
    ⟨(planNode stmts i).parents ++ (if i < k ∧ dep i id then [id] else []),
      (planNode stmts i).children ++ (if i < k ∧ dep id i then [id] else [])⟩

/-- The nodes the loop of an insertion starts from. -/
lemma linkedNode_zero (stmts : List Stmt) (s : Stmt) :
    linkedNode stmts s 0 = planNode stmts := by
  funext i
  rcases eq_or_ne i stmts.length with rfl | hi
  · simp [linkedNode, planNode, dependent_eq_false]
  · simp [linkedNode, hi]

/-- One iteration of the loop. -/
lemma linkedNode_succ {stmts : List Stmt} {s : Stmt} {k : ℕ} (hk : k < stmts.length)
    (p : ExecPlan) (hn : p.nodes = linkedNode stmts s k) (hs : p.stmts = stmts ++ [s]) :
    (p.link stmts.length k).nodes = linkedNode stmts s (k + 1) := by
  funext i
  rw [link_nodes p (by omega), hn, hs]
  unfold linkedNode
  rcases eq_or_ne i stmts.length with rfl | hi
  · have hk' : ¬ stmts.length = k := by omega
    simp only [if_true, true_and, hk', false_and, if_false, List.append_nil,
      List.range_succ, List.filter_append, List.filter_singleton]
    split <;> split <;> simp_all
  · rcases eq_or_ne i k with rfl | hik
    · simp [hi]
    · have hlt : i < k + 1 ↔ i < k := by omega
      simp [hi, hik, hlt]

/-- The loop of an insertion, over the first `k` older nodes. -/
lemma link_loop {stmts : List Stmt} {s : Stmt} {k : ℕ} (hk : k ≤ stmts.length)
    (p : ExecPlan) (hn : p.nodes = planNode stmts) (hs : p.stmts = stmts ++ [s]) :
    (List.range k).foldl (ExecPlan.link stmts.length) p
      = { p with nodes := linkedNode stmts s k } := by
  induction k with
  | zero => rw [linkedNode_zero, ← hn]; rfl
  | succ k ih =>
      have h := linkedNode_succ (s := s) (by omega : k < stmts.length)
        { p with nodes := linkedNode stmts s k } rfl hs
      rw [List.range_succ, List.foldl_append, ih (by omega), List.foldl_cons, List.foldl_nil,
        link_eq, h]

/-- After the whole loop the nodes are those of the extended list. -/
lemma linkedNode_length (stmts : List Stmt) (s : Stmt) :
    linkedNode stmts s stmts.length = planNode (stmts ++ [s]) := by
  funext i
  rcases eq_or_ne i stmts.length with rfl | hi
  · simp [linkedNode, planNode, List.range_succ, dependent_self]
  · -- the older positions see the new one only when they are in range
    have hout : ¬ i < stmts.length → dependent (stmts ++ [s]) i stmts.length = false ∧
        dependent (stmts ++ [s]) stmts.length i = false := by
      intro h
      constructor <;> exact dependent_eq_false (by simp; omega)
    have hp : ∀ j ∈ List.range stmts.length,
        dependent (stmts ++ [s]) i j = dependent stmts i j ∧
          dependent (stmts ++ [s]) j i = dependent stmts j i := by
      intro j hj
      have hj' : j ≠ stmts.length := by have := List.mem_range.mp hj; omega
      exact ⟨dependent_append stmts s hi hj', dependent_append stmts s hj' hi⟩
    simp only [linkedNode, planNode, hi, if_false, List.length_append, List.length_singleton,
      List.range_succ, List.filter_append, List.filter_singleton,
      List.filter_congr fun j hj => (hp j hj).1, List.filter_congr fun j hj => (hp j hj).2]
    by_cases h : i < stmts.length
    · simp [h]
    · simp [h, hout h]

/-- The roots are the nodes without parents; the assertion on their number never
fails. -/
lemma reevaluateRoots_eq (p : ExecPlan) (h : p.nnodes ≤ p.maxnodes) :
    p.reevaluateRoots = some { p with
      roots := (List.range p.nnodes).filter fun i => (p.nodes i).parents.length = 0 } := by
  have key : ∀ k ≤ p.nnodes, (List.range k).foldlM (fun roots i =>
      if (p.nodes i).parents.length = 0 then
        if roots.length < p.maxnodes then some (roots ++ [i]) else none
      else some roots) []
      = some ((List.range k).filter fun i => (p.nodes i).parents.length = 0) := by
    intro k
    induction k with
    | zero => intro _; rfl
    | succ k ih =>
        intro hk
        have hlen : ((List.range k).filter fun i => (p.nodes i).parents.length = 0).length ≤ k :=
          (List.length_filter_le _ _).trans_eq List.length_range
        have hlt := lt_of_le_of_lt hlen (by omega : k < p.maxnodes)
        rw [List.range_succ, List.foldlM_append, ih (by omega), List.filter_append]
        simp only [Option.bind_eq_bind, Option.bind_some, List.foldlM_cons, List.foldlM_nil, hlt]
        by_cases hr : (p.nodes k).parents = [] <;> simp [hr]
  rw [ExecPlan.reevaluateRoots, key p.nnodes le_rfl]
  rfl

/-- **One insertion** of a plannable statement. -/
lemma insert_planOf {m : ℕ} {stmts : List Stmt} {s : Stmt} (hs : s.Plannable) (h : stmts.length < m) :
    (planOf m stmts).insert s = some (planOf m (stmts ++ [s])) := by
  have hn : (planOf m stmts).nnodes < (planOf m stmts).maxnodes := h
  obtain ⟨subplan, hsub⟩ := Option.isSome_iff_exists.mp ((isSome_subplanInit_iff s).mpr hs)
  have hsubs : (stmts ++ [s]).filterMap subplanInit = stmts.filterMap subplanInit ++ [subplan] := by
    rw [List.filterMap_append, List.filterMap_cons, hsub, List.filterMap_nil]
  have hplan : planOf m (stmts ++ [s]) = { planOf m (stmts ++ [s]) with
      subplans := stmts.filterMap subplanInit ++ [subplan] } := by
    rw [← hsubs]
    rfl
  rw [ExecPlan.insert, if_pos hn, hsub, Option.bind_eq_bind, Option.bind_some]
  change (List.foldl (ExecPlan.link stmts.length) _ (List.range stmts.length)).reevaluateRoots = _
  rw [link_loop le_rfl _ rfl rfl, linkedNode_length, reevaluateRoots_eq, hplan]
  · rfl
  · simp only [ExecPlan.nnodes, planOf, List.length_append, List.length_singleton]
    omega

/-- Only plannable statements are inserted. -/
lemma plannable_of_insert {p p' : ExecPlan} {s : Stmt} (h : p.insert s = some p') : s.Plannable := by
  rw [ExecPlan.insert] at h
  split at h
  · obtain ⟨subplan, hsub, -⟩ := Option.bind_eq_some_iff.mp h
    exact (isSome_subplanInit_iff s).mp (Option.isSome_iff_exists.mpr ⟨subplan, hsub⟩)
  · simp at h

/-- Insertions one after the other. -/
lemma foldlM_insert {m : ℕ} (l stmts : List Stmt) (hl : ∀ s ∈ l, s.Plannable)
    (h : stmts.length + l.length ≤ m) :
    l.foldlM ExecPlan.insert (planOf m stmts) = some (planOf m (stmts ++ l)) := by
  induction l generalizing stmts with
  | nil => simp
  | cons s l ih =>
      simp only [List.length_cons] at h
      rw [List.foldlM_cons, insert_planOf (hl s List.mem_cons_self) (by omega)]
      simp only [Option.bind_eq_bind, Option.bind_some]
      have hrest : ∀ s ∈ l, s.Plannable := fun s hs => hl s (List.mem_cons_of_mem _ hs)
      rw [ih (stmts ++ [s]) hrest (by simp; omega), List.append_assoc, List.singleton_append]

/-- What has been inserted is plannable. -/
lemma plannable_of_foldlM {l : List Stmt} {p p' : ExecPlan} (h : l.foldlM ExecPlan.insert p = some p') :
    ∀ s ∈ l, s.Plannable := by
  induction l generalizing p with
  | nil => simp
  | cons s l ih =>
      rw [List.foldlM_cons] at h
      obtain ⟨q, hq, hrest⟩ := Option.bind_eq_some_iff.mp h
      exact List.forall_mem_cons.mpr ⟨plannable_of_insert hq, ih hrest⟩

lemma planOf_nil (m : ℕ) : planOf m [] = ExecPlan.empty m := rfl

/-- **The planner arrives at the closed form**, and then checks it. -/
theorem init_eq_planOf {stmts : List Stmt} (hs : ∀ s ∈ stmts, s.Plannable) :
    ExecPlan.init stmts = (planOf stmts.length stmts).isAcyclic.map fun acyclic =>
      (planOf stmts.length stmts,
        if !acyclic then CompilationError.cyclicDependencyGraph else .noError) := by
  have h := foldlM_insert (m := stmts.length) stmts [] hs (by simp)
  rw [List.nil_append, planOf_nil] at h
  rw [ExecPlan.init, h]
  rw [Option.bind_eq_bind, Option.bind_some, Option.map_eq_bind]
  rfl

/-- **A plan is only made of plannable statements.** -/
theorem plannable_of_init {stmts : List Stmt} {r : ExecPlan × CompilationError}
    (h : ExecPlan.init stmts = some r) : ∀ s ∈ stmts, s.Plannable := by
  obtain ⟨p, hp, -⟩ := Option.bind_eq_some_iff.mp h
  exact plannable_of_foldlM hp

end Furious
