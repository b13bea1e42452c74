import Furious.Library.Commuting
import Furious.Task.Emission

/-!
Frames of a generated program.

The statements of a script are compiled to two plans, one for a frame and one for what comes behind it, and the
generated program makes a task graph from each. A frame runs one of them, task by task. What a task does is not known
here, but that it uses the components as its system declares.

* `Script`, `fccRun`: the statements with their places, and the plans;
* `Generated`, `furiousInit`, `Generated.call`, `Generated.run`: the task graphs, a frame, many frames;
* `Stmt.Confines`: what a task may do; `exchangeable_of_confines`: **tasks of which none depends on the other**;
* `Schedules`, `Schedules.run_perm`: a graph that is made from a list of statements, and how it runs;
* `frames_any_order`: **what frames do depends neither on the order of the statements nor on that of the tasks**.
-/

namespace Furious

/-! ### The program -/

/-- `fcc_stmt_place_t`. -/
inductive StmtPlace where
  | frame
  | postFrame
deriving DecidableEq, Repr

/-- The statements of the context, in the order in which they are parsed, with their places. -/
abbrev Script := List (StmtPlace × Stmt)

/-- The loop of `fcc_run` that collects the statements of a place. -/
def Script.stmtsAt (script : Script) (place : StmtPlace) : List Stmt :=
  (script.filter fun s => s.1 = place).map Prod.snd

/-- The plans that `fcc_run` makes; `handle_compilation_error` does not return. -/
def fccRun (script : Script) : Option (Except CompilationError (ExecPlan × ExecPlan)) := do
  let (execPlan, err) ← ExecPlan.init (script.stmtsAt .frame)
  if err ≠ .noError then some (.error err) else do
    let (postExecPlan, err) ← ExecPlan.init (script.stmtsAt .postFrame)
    if err ≠ .noError then some (.error err) else some (.ok (execPlan, postExecPlan))

/-- The plan of a place. -/
def planAt (plans : ExecPlan × ExecPlan) : StmtPlace → ExecPlan
  | .frame => plans.1
  | .postFrame => plans.2

/-- How a program can fail to be there. -/
inductive ProgramFault where
  /-- The function of a task behind a frame is printed with the type `databaset`, which there is not. -/
  | compile
  /-- A call of `fdb_task_graph_set_parent`. -/
  | task (fault : TaskFault)
deriving DecidableEq, Repr

/-- The task graphs of the generated program, and the statements that the tasks of a frame are made from. There are
no tasks behind a frame. -/
structure Generated where
  taskGraph : TaskGraph
  tasks : List Stmt
  postTaskGraph : TaskGraph

/-- The program that is generated, and its `furious_init`, of which the code of `fcc_generate_task_graph`. -/
def furiousInit (checked : Bool) (plans : ExecPlan × ExecPlan) : Except ProgramFault Generated :=
  if plans.2.nnodes ≠ 0 then .error .compile
  else
    match TaskGraph.calls checked plans.1.nnodes plans.1.setParentCalls with
    | .error fault => .error (.task fault)
    | .ok taskGraph => .ok ⟨taskGraph, plans.1.stmts, TaskGraph.init 0⟩

/-- The functions of some tasks are called, one after the other. -/
def executeTasks {S : Type} (effect : Stmt → S → S) (tasks : List Stmt) (seq : List ℕ) (s : S) : Option S :=
  seq.foldlM (fun s i => tasks[i]?.map fun stmt => effect stmt s) s

namespace Generated

/-- The task graph of a place. -/
def graph (gen : Generated) : StmtPlace → TaskGraph
  | .frame => gen.taskGraph
  | .postFrame => gen.postTaskGraph

/-- The statements of a place. -/
def stmts (gen : Generated) : StmtPlace → List Stmt
  | .frame => gen.tasks
  | .postFrame => []

/-- `furious_frame` and `furious_post_frame`. -/
def call {S : Type} (gen : Generated) (effect : Stmt → S → S) (place : StmtPlace) (s : S) : Option S := do
  let trace ← (gen.graph place).run
  executeTasks effect (gen.stmts place) trace s

/-- Calls of the two functions, one after the other. -/
def run {S : Type} (gen : Generated) (effect : Stmt → S → S) (calls : List StmtPlace) (s : S) : Option S :=
  calls.foldlM (fun s place => gen.call effect place s) s

end Generated

/-! ### What tasks do -/

/-- What the task of a statement does with the components, by the names of their types: it writes those that its system
takes in a writable position, and it reads only those that its system takes. -/
def Stmt.Confines {V : Type} (stmt : Stmt) (f : (String → V) → String → V) : Prop :=
  Confined stmt.system.Accesses stmt.system.Writes f

/-- Statements of which none depends on the other do not share what one of them writes. -/
lemma not_accesses {a b : Stmt} (hab : ¬ a.DependsOn b) (hba : ¬ b.DependsOn a) {T : String} (hw : a.system.Writes T) :
    ¬ b.system.Accesses T ∧ ¬ b.system.Writes T := by
  obtain ⟨ca, hca, hna, hwa⟩ := hw
  have hnot : ¬ b.system.Writes T := by
    rintro ⟨cb, hcb, hnb, hwb⟩
    rcases le_total a.priority b.priority with hle | hle
    · exact hba ⟨cb, hcb, ca, hca, hwa, hnb.trans hna.symm, Or.inr hle⟩
    · exact hab ⟨ca, hca, cb, hcb, hwb, hna.trans hnb.symm, Or.inr hle⟩
  refine ⟨fun hacc => ?_, hnot⟩
  obtain ⟨cb, hcb, hnb, hro⟩ := System.PureReader.exists_readOnly ⟨hacc, hnot⟩
  exact hba ⟨cb, hcb, ca, hca, hwa, hnb.trans hna.symm, Or.inl hro⟩

section Effects

variable {V : Type} {effect : Stmt → (String → V) → String → V} {stmts stmts' : List Stmt}

/-- **Tasks can be exchanged** if none of their statements depends on the other. -/
theorem exchangeable_of_confines (h : ∀ stmt ∈ stmts, stmt.Confines (effect stmt)) :
    Exchangeable Stmt.DependsOn (fun s stmt => effect stmt s) stmts :=
  fun a ha b hb hab hba s =>
    (h a ha).comm (h b hb) (fun _ hw => not_accesses hab hba hw) (fun _ hw => not_accesses hba hab hw) s

/-- A type that no task writes keeps its components. -/
lemma foldl_frame (h : ∀ stmt ∈ stmts, stmt.Confines (effect stmt)) {T : String}
    (hT : ∀ stmt ∈ stmts, ¬ stmt.system.Writes T) (s : String → V) :
    stmts.foldl (fun s stmt => effect stmt s) s T = s T := by
  induction stmts generalizing s with
  | nil => rfl
  | cons a l ih =>
      have hrest : ∀ stmt ∈ l, stmt.Confines (effect stmt) := fun b hb => h b (List.mem_cons_of_mem a hb)
      rw [List.foldl_cons, ih hrest fun b hb => hT b (List.mem_cons_of_mem a hb)]
      exact (h a List.mem_cons_self).frame s T (hT a List.mem_cons_self)

end Effects

/-! ### The graph of a list of statements -/

namespace TaskGraph

/-- **A run** of a graph without cycles goes through all tasks, each of them behind its parents. -/
theorem Built.run_perm {g : TaskGraph} {n : ℕ} {edges : List (ℕ × ℕ)} (h : g.Built n edges)
    (hac : Acyclic fun p t => (t, p) ∈ edges) :
    ∃ trace, g.run = some trace ∧ trace.Perm (List.range n) ∧ PrecededBy g.parentsOf trace := by
  obtain ⟨trace, hrun, hnd, hlt, hpreceded, hall⟩ := h.run_spec
  refine ⟨trace, hrun, (List.perm_ext_iff_of_nodup hnd List.nodup_range).mpr fun t => ?_, hpreceded⟩
  rw [List.mem_range]
  exact ⟨hlt t, hall hac t⟩

end TaskGraph

/-- The graph has been made from the plan of some statements, whose dependencies have no cycle. -/
structure Schedules (g : TaskGraph) (stmts : List Stmt) : Prop where
  built : g.Built stmts.length (planOf stmts.length stmts).setParentCalls
  acyclic : Acyclic (Dependency stmts)

/-- The parents that the emitted calls name. -/
lemma mem_setParentCalls {m t p : ℕ} {stmts : List Stmt} :
    (t, p) ∈ (planOf m stmts).setParentCalls ↔ Dependency stmts p t := by
  rw [ExecPlan.setParentCalls, List.mem_flatMap]
  constructor
  · rintro ⟨i, -, hi⟩
    obtain ⟨a, ha, heq⟩ := List.mem_map.mp hi
    obtain ⟨rfl, rfl⟩ := Prod.mk.inj heq
    exact mem_planNode_parents.mp ha
  · intro h
    obtain ⟨ht, -⟩ := dependent_iff.mp h
    exact ⟨t, List.mem_range.mpr ht, List.mem_map.mpr ⟨p, mem_planNode_parents.mpr h, rfl⟩⟩

section Orders

variable {g : TaskGraph} {stmts : List Stmt} {seq : List ℕ}

/-- The tasks of a sequence. -/
def tasksOf (stmts : List Stmt) (seq : List ℕ) : List Stmt := seq.filterMap fun i => stmts[i]?

lemma executeTasks_eq {S : Type} (effect : Stmt → S → S) (hseq : ∀ i ∈ seq, i < stmts.length) (s : S) :
    executeTasks effect stmts seq s = some ((tasksOf stmts seq).foldl (fun s stmt => effect stmt s) s) := by
  induction seq generalizing s with
  | nil => rfl
  | cons i seq ih =>
      have hlt := hseq i List.mem_cons_self
      have hi : stmts[i]? = some stmts[i] := List.getElem?_eq_getElem hlt
      rw [executeTasks, List.foldlM_cons, hi, Option.map_some, tasksOf, List.filterMap_cons_some hi]
      exact ih (fun j hj => hseq j (List.mem_cons_of_mem i hj)) _

lemma tasksOf_range (stmts : List Stmt) : tasksOf stmts (List.range stmts.length) = stmts := by
  induction stmts using List.reverseRecOn with
  | nil => rfl
  | append_singleton stmts a ih =>
      have hfirst : tasksOf (stmts ++ [a]) (List.range stmts.length) = tasksOf stmts (List.range stmts.length) :=
        List.filterMap_congr fun i hi => List.getElem?_append_left (List.mem_range.mp hi)
      rw [List.length_append, List.length_singleton, List.range_succ]
      calc tasksOf (stmts ++ [a]) (List.range stmts.length ++ [stmts.length])
          = tasksOf (stmts ++ [a]) (List.range stmts.length) ++ tasksOf (stmts ++ [a]) [stmts.length] :=
            List.filterMap_append
        _ = stmts ++ tasksOf (stmts ++ [a]) [stmts.length] := by rw [hfirst, ih]
        _ = stmts ++ [a] := by simp [tasksOf]

lemma perm_tasksOf (hseq : seq.Perm (List.range stmts.length)) : (tasksOf stmts seq).Perm stmts :=
  (hseq.filterMap _).trans (List.Perm.of_eq (tasksOf_range stmts))

/-- In a sequence of all tasks, each behind its parents, no statement comes before one that it depends on. -/
lemma Schedules.respects (h : Schedules g stmts) (hseq : seq.Perm (List.range stmts.length))
    (hparents : PrecededBy g.parentsOf seq) : Respects Stmt.DependsOn (tasksOf stmts seq) := by
  have hnd : seq.Nodup := hseq.nodup_iff.mpr List.nodup_range
  rw [Respects, tasksOf, List.pairwise_filterMap]
  refine ((hparents.pairwise hnd).and hnd).imp fun {i j} hij a ha b hb hdep => hij.1 ?_
  obtain ⟨hi, rfl⟩ := List.getElem?_eq_some_iff.mp ha
  obtain ⟨hj, rfl⟩ := List.getElem?_eq_some_iff.mp hb
  exact (h.built.parents i j).mpr (mem_setParentCalls.mpr (dependent_iff.mpr ⟨hi, hj, hij.2, hdep⟩))

/-- **How the graph runs.** -/
theorem Schedules.run_perm (h : Schedules g stmts) : ∃ trace, g.run = some trace
    ∧ trace.Perm (List.range stmts.length) ∧ PrecededBy g.parentsOf trace := by
  refine h.built.run_perm ?_
  have heq : (fun p t => (t, p) ∈ (planOf stmts.length stmts).setParentCalls) = Dependency stmts :=
    funext fun p => funext fun t => propext mem_setParentCalls
  rw [heq]
  exact h.acyclic

/-- **All orders** of the tasks of two graphs, of the same statements, do the same. -/
theorem Schedules.executes {g' : TaskGraph} {stmts' : List Stmt} {seq' : List ℕ} (h : Schedules g stmts)
    (h' : Schedules g' stmts') (hp : stmts.Perm stmts') (hseq : seq.Perm (List.range stmts.length))
    (hparents : PrecededBy g.parentsOf seq) (hseq' : seq'.Perm (List.range stmts'.length))
    (hparents' : PrecededBy g'.parentsOf seq') {V : Type} {effect : Stmt → (String → V) → String → V}
    (heffect : ∀ stmt ∈ stmts, stmt.Confines (effect stmt)) (s : String → V) :
    executeTasks effect stmts seq s = executeTasks effect stmts' seq' s := by
  have htasks := perm_tasksOf hseq
  have hperm : (tasksOf stmts seq).Perm (tasksOf stmts' seq') :=
    htasks.trans (hp.trans (perm_tasksOf hseq').symm)
  have hexchange := exchangeable_of_confines fun stmt hstmt => heffect stmt (htasks.mem_iff.mp hstmt)
  rw [executeTasks_eq effect (fun i hi => List.mem_range.mp (hseq.mem_iff.mp hi)),
    executeTasks_eq effect (fun i hi => List.mem_range.mp (hseq'.mem_iff.mp hi)),
    foldl_eq_of_respects hexchange hperm (h.respects hseq hparents) (h'.respects hseq' hparents')]

/-- **What a reader sees.** A task that only reads a type sees what is in its components when all tasks are done. -/
theorem Schedules.reader {l l' : List ℕ} {i : ℕ} (h : Schedules g stmts)
    (hseq : (l ++ i :: l').Perm (List.range stmts.length)) (hparents : PrecededBy g.parentsOf (l ++ i :: l'))
    {V : Type} {effect : Stmt → (String → V) → String → V} (heffect : ∀ stmt ∈ stmts, stmt.Confines (effect stmt))
    {stmt : Stmt} (hi : stmts[i]? = some stmt) {T : String} (hT : stmt.system.PureReader T) (s : String → V) :
    ∃ s₁ s₂, executeTasks effect stmts l s = some s₁ ∧ executeTasks effect stmts (l ++ i :: l') s = some s₂
      ∧ s₁ T = s₂ T := by
  have hlt : ∀ j ∈ l ++ i :: l', j < stmts.length := fun j hj => List.mem_range.mp (hseq.mem_iff.mp hj)
  have hsplit : tasksOf stmts (l ++ i :: l') = tasksOf stmts l ++ stmt :: tasksOf stmts l' := by
    rw [tasksOf, List.filterMap_append, List.filterMap_cons_some hi]
    rfl
  have hbehind := h.respects hseq hparents
  rw [hsplit] at hbehind
  -- what comes behind the reader does not write the type
  have hnot : ∀ a ∈ stmt :: tasksOf stmts l', ¬ a.system.Writes T := fun a ha hw => by
    rcases List.mem_cons.mp ha with rfl | ha
    · exact hT.2 hw
    · exact (List.pairwise_cons.mp (List.pairwise_append.mp hbehind).2.1).1 a ha (hT.dependsOn hw)
  have hmem : ∀ a ∈ stmt :: tasksOf stmts l', a.Confines (effect a) := fun a ha =>
    heffect a ((perm_tasksOf hseq).mem_iff.mp (hsplit ▸ List.mem_append_right _ ha))
  refine ⟨_, _, executeTasks_eq effect (fun j hj => hlt j (List.mem_append_left _ hj)) s,
    executeTasks_eq effect hlt s, ?_⟩
  rw [hsplit, List.foldl_append, foldl_frame hmem hnot]

end Orders

/-! ### Another order of the statements -/

section Positions

variable {stmts stmts' : List Stmt} {f : ℕ → ℕ}

/-- Where the entries of a list stand in another order of it. -/
lemma exists_positions {α : Type*} {l l' : List α} (h : l.Perm l') :
    ∃ f : ℕ → ℕ, Function.Injective f ∧ ∀ i, l[f i]? = l'[i]? := by
  induction h with
  | nil => exact ⟨id, Function.injective_id, fun i => rfl⟩
  | cons a _ ih =>
      obtain ⟨f, hf, hget⟩ := ih
      refine ⟨fun i => i.casesOn 0 fun i => f i + 1, fun i j hij => ?_, fun i => ?_⟩
      · cases i <;> cases j <;> simp_all [hf.eq_iff]
      · cases i with
        | zero => rfl
        | succ i => exact hget i
  | swap a b l =>
      refine ⟨Equiv.swap 0 1, (Equiv.swap 0 1).injective, fun i => ?_⟩
      rcases eq_or_ne i 0 with rfl | h₀
      · rw [Equiv.swap_apply_left]
        rfl
      · rcases eq_or_ne i 1 with rfl | h₁
        · rw [Equiv.swap_apply_right]
          rfl
        · obtain ⟨k, rfl⟩ : ∃ k, i = k + 2 := ⟨i - 2, by omega⟩
          rw [Equiv.swap_apply_of_ne_of_ne h₀ h₁]
          rfl
  | trans _ _ ih ih' =>
      obtain ⟨f, hf, hget⟩ := ih
      obtain ⟨f', hf', hget'⟩ := ih'
      exact ⟨f ∘ f', hf.comp hf', fun i => (hget _).trans (hget' i)⟩

/-- A dependency between statements that stand elsewhere. -/
lemma dependent_positions (hf : Function.Injective f) (hget : ∀ i, stmts[f i]? = stmts'[i]?) (i j : ℕ) :
    dependent stmts' i j = dependent stmts (f i) (f j) := by
  rw [dependent, dependent, hget, hget]
  split
  · simp only [ne_eq, hf.eq_iff]
  · rfl

/-- No more statements than before depend on one, or are depended on by it. -/
lemma length_filter_positions (hf : Function.Injective f) (hget : ∀ i, stmts[f i]? = stmts'[i]?) {P P' : ℕ → Bool}
    (hP : ∀ i, P' i = P (f i)) :
    ((List.range stmts'.length).filter P').length ≤ ((List.range stmts.length).filter P).length := by
  have hnd : (((List.range stmts'.length).filter P').map f).Nodup := (List.nodup_range.filter _).map hf
  have hsub : ((List.range stmts'.length).filter P').map f ⊆ (List.range stmts.length).filter P := fun j hj => by
    obtain ⟨i, hi, rfl⟩ := List.mem_map.mp hj
    obtain ⟨hlt, hPi⟩ := List.mem_filter.mp hi
    refine List.mem_filter.mpr ⟨List.mem_range.mpr ?_, hP i ▸ hPi⟩
    have hsome : stmts[f i]? = some _ := (hget i).trans (List.getElem?_eq_getElem (List.mem_range.mp hlt))
    exact (List.getElem?_eq_some_iff.mp hsome).1
  calc ((List.range stmts'.length).filter P').length = (((List.range stmts'.length).filter P').map f).length :=
        (List.length_map _).symm
    _ ≤ ((List.range stmts.length).filter P).length := (hnd.subperm hsub).length_le

/-- How many parents a task has, that comes from a statement elsewhere, and how many children. -/
lemma countP_setParentCalls_le (hf : Function.Injective f) (hget : ∀ i, stmts[f i]? = stmts'[i]?) (m m' t : ℕ) :
    (planOf m' stmts').setParentCalls.countP (·.1 = t) ≤ (planOf m stmts).setParentCalls.countP (·.1 = f t)
      ∧ (planOf m' stmts').setParentCalls.countP (·.2 = t) ≤ (planOf m stmts).setParentCalls.countP (·.2 = f t) := by
  constructor
  · rw [countP_fst_setParentCalls, countP_fst_setParentCalls]
    by_cases ht : t < stmts'.length
    · have hsome : stmts[f t]? = some _ := (hget t).trans (List.getElem?_eq_getElem ht)
      have hft : f t < stmts.length := (List.getElem?_eq_some_iff.mp hsome).1
      rw [if_pos (show f t < (planOf m stmts).nnodes from hft), if_pos (show t < (planOf m' stmts').nnodes from ht)]
      exact length_filter_positions hf hget fun j => dependent_positions hf hget t j
    · rw [if_neg (show ¬ t < (planOf m' stmts').nnodes from ht)]
      exact Nat.zero_le _
  · rw [countP_snd_setParentCalls, countP_snd_setParentCalls]
    exact length_filter_positions hf hget fun j => dependent_positions hf hget j t

/-- **The calls of a plan succeed** if those of another order of the statements stay inside the arrays, and if, with
assertions, no task with a child has as many parents as fit. -/
lemma exists_calls (hp : stmts.Perm stmts') (m' : ℕ) {m : ℕ} {checked checked' : Bool} {g : TaskGraph}
    (h : TaskGraph.calls checked stmts.length (planOf m stmts).setParentCalls = .ok g)
    (hfew : checked' = true → ∀ t, (planNode stmts t).children ≠ []
      → (planNode stmts t).parents.length < maxTaskParents) :
    ∃ g', TaskGraph.calls checked' stmts'.length (planOf m' stmts').setParentCalls = .ok g' := by
  obtain ⟨f, hf, hget⟩ := exists_positions hp
  obtain ⟨-, -, hpar, hchild⟩ := TaskGraph.calls_ok h
  have hle (t : ℕ) := countP_setParentCalls_le hf hget m m' t
  refine TaskGraph.calls_of_few (fun e he => ?_) (fun t => (hle t).1.trans (hpar _))
    (fun t => (hle t).2.trans (hchild _)) fun hc e he => ?_
  · obtain ⟨ht, hp', -⟩ := dependent_iff.mp (mem_setParentCalls.mp he)
    exact ⟨ht, hp'⟩
  · have hdep : dependent stmts (f e.1) (f e.2) = true := by
      rw [← dependent_positions hf hget]
      exact mem_setParentCalls.mp he
    have hmem := mem_planNode_children.mpr hdep
    have hlt := hfew hc (f e.2) (List.ne_nil_of_mem hmem)
    refine ((hle e.2).1.trans ?_).trans_lt hlt
    rw [countP_fst_setParentCalls]
    split_ifs
    · exact le_refl _
    · exact Nat.zero_le _

/-- Cycles do not depend on the order. -/
lemma acyclic_of_perm (hp : stmts.Perm stmts') (h : Acyclic (Dependency stmts)) : Acyclic (Dependency stmts') := by
  obtain ⟨f, hf, hget⟩ := exists_positions hp
  refine h.of_map f fun a b hab => ?_
  rw [Dependency, ← dependent_positions hf hget]
  exact hab

end Positions

/-! ### Frames -/

section Frames

variable {script script' : Script} {plans : ExecPlan × ExecPlan} {checked : Bool} {gen gen' : Generated}

/-- **The plans** of a script without cycles, whose operators can be made. -/
lemma fccRun_eq : fccRun script = some (.ok plans)
    ↔ (∀ place, (∀ s ∈ script.stmtsAt place, s.Plannable) ∧ Acyclic (Dependency (script.stmtsAt place)))
      ∧ plans = (planOf (script.stmtsAt .frame).length (script.stmtsAt .frame),
        planOf (script.stmtsAt .postFrame).length (script.stmtsAt .postFrame)) := by
  constructor
  · intro h
    obtain ⟨⟨p, err⟩, hinit, h⟩ := Option.bind_eq_some_iff.mp h
    obtain ⟨rfl, hiff⟩ := init_some hinit
    dsimp only at h
    split at h
    · cases h
    · next herr =>
        obtain ⟨⟨p', err'⟩, hinit', h⟩ := Option.bind_eq_some_iff.mp h
        obtain ⟨rfl, hiff'⟩ := init_some hinit'
        dsimp only at h
        split at h
        · cases h
        · next herr' =>
            obtain rfl := Except.ok.inj (Option.some.inj h)
            refine ⟨fun place => ?_, rfl⟩
            cases place with
            | frame => exact ⟨plannable_of_init hinit, hiff.mp (not_not.mp herr)⟩
            | postFrame => exact ⟨plannable_of_init hinit', hiff'.mp (not_not.mp herr')⟩
  · rintro ⟨hplaces, rfl⟩
    obtain ⟨err, hinit, hiff⟩ := init_spec (hplaces .frame).1
    obtain ⟨err', hinit', hiff'⟩ := init_spec (hplaces .postFrame).1
    have herr : err = .noError := hiff.mpr (hplaces .frame).2
    have herr' : err' = .noError := hiff'.mpr (hplaces .postFrame).2
    simp [fccRun, hinit, hinit', herr, herr']

/-- The generated program of a script: there is nothing behind its frames, and its graph is that of its statements. -/
structure Generated.Of (gen : Generated) (script : Script) : Prop where
  stmts : ∀ place, gen.stmts place = script.stmtsAt place
  schedules : ∀ place, Schedules (gen.graph place) (script.stmtsAt place)

lemma furiousInit_spec (hplans : fccRun script = some (.ok plans)) (hgen : furiousInit checked plans = .ok gen) :
    gen.Of script ∧ script.stmtsAt .postFrame = []
      ∧ TaskGraph.calls checked (script.stmtsAt .frame).length plans.1.setParentCalls = .ok gen.taskGraph := by
  obtain ⟨hplaces, rfl⟩ := fccRun_eq.mp hplans
  rw [furiousInit] at hgen
  split at hgen
  · cases hgen
  · next hnone =>
      have hpost : script.stmtsAt .postFrame = [] := List.length_eq_zero_iff.mp (not_not.mp hnone)
      split at hgen
      · cases hgen
      · next g hg =>
          obtain rfl := Except.ok.inj hgen
          refine ⟨⟨fun place => ?_, fun place => ?_⟩, hpost, hg⟩
          · cases place with
            | frame => rfl
            | postFrame => exact hpost.symm
          · cases place with
            | frame => exact ⟨TaskGraph.calls_built hg, (hplaces .frame).2⟩
            | postFrame =>
                refine ⟨?_, (hplaces .postFrame).2⟩
                rw [hpost]
                exact TaskGraph.built_init 0

lemma furiousInit_eq {g : TaskGraph} (hpost : plans.2.nnodes = 0)
    (hcalls : TaskGraph.calls checked plans.1.nnodes plans.1.setParentCalls = .ok g) :
    furiousInit checked plans = .ok ⟨g, plans.1.stmts, TaskGraph.init 0⟩ := by
  rw [furiousInit, if_neg (not_not.mpr hpost), hcalls]

/-- **The program of another order of the statements.** -/
lemma exists_generated (hp : script.Perm script') (hplans : fccRun script = some (.ok plans))
    (hgen : furiousInit checked plans = .ok gen) :
    ∃ plans', fccRun script' = some (.ok plans')
      ∧ ∀ checked' : Bool, (checked' = true → ∀ t, (plans.1.nodes t).children ≠ []
          → (plans.1.nodes t).parents.length < maxTaskParents) →
        ∃ gen', furiousInit checked' plans' = .ok gen' := by
  have hperm : ∀ place, (script.stmtsAt place).Perm (script'.stmtsAt place) := fun place => (hp.filter _).map _
  obtain ⟨-, hpost, hcalls⟩ := furiousInit_spec hplans hgen
  obtain ⟨hplaces, rfl⟩ := fccRun_eq.mp hplans
  have hpost' : script'.stmtsAt .postFrame = [] := by
    have hnil := hperm .postFrame
    rw [hpost] at hnil
    exact hnil.symm.eq_nil
  refine ⟨_, fccRun_eq.mpr ⟨fun place => ⟨fun s hs => ?_, acyclic_of_perm (hperm place) (hplaces place).2⟩, rfl⟩,
    fun checked' hfew => ?_⟩
  · exact (hplaces place).1 s ((hperm place).mem_iff.mpr hs)
  · obtain ⟨g, hg⟩ := exists_calls (hperm .frame) (script'.stmtsAt .frame).length hcalls hfew
    have hnodes : (planOf (script'.stmtsAt .postFrame).length (script'.stmtsAt .postFrame)).nnodes = 0 := by
      rw [hpost']
      rfl
    exact ⟨_, furiousInit_eq hnodes hg⟩

variable {V : Type} {effect : Stmt → (String → V) → String → V}

lemma confines_stmtsAt (h : ∀ s ∈ script, s.2.Confines (effect s.2)) (place : StmtPlace) :
    ∀ stmt ∈ script.stmtsAt place, stmt.Confines (effect stmt) := by
  intro stmt hstmt
  obtain ⟨e, he, rfl⟩ := List.mem_map.mp hstmt
  exact h e (List.mem_filter.mp he).1

/-- **A call** does what any order of the tasks does, of a program of the same statements. -/
lemma Generated.Of.call_eq (h : gen.Of script) (h' : gen'.Of script') (hp : script.Perm script')
    (heffect : ∀ s ∈ script, s.2.Confines (effect s.2)) (place : StmtPlace) {seq : List ℕ}
    (hseq : seq.Perm (List.range (script'.stmtsAt place).length))
    (hparents : PrecededBy (gen'.graph place).parentsOf seq) (s : String → V) :
    gen.call effect place s = executeTasks effect (script'.stmtsAt place) seq s := by
  obtain ⟨trace, hrun, htrace, hpreceded⟩ := (h.schedules place).run_perm
  rw [Generated.call, hrun, Option.bind_eq_bind, Option.bind_some, h.stmts]
  exact (h.schedules place).executes (h'.schedules place) ((hp.filter _).map _) htrace hpreceded hseq hparents
    (confines_stmtsAt heffect place) s

/-- **Two programs** of the same statements lead to the same states. -/
lemma Generated.Of.run_eq (h : gen.Of script) (h' : gen'.Of script') (hp : script.Perm script')
    (heffect : ∀ s ∈ script, s.2.Confines (effect s.2)) (calls : List StmtPlace) (s : String → V) :
    ∃ s', gen.run effect calls s = some s' ∧ gen'.run effect calls s = some s' := by
  induction calls generalizing s with
  | nil => exact ⟨s, rfl, rfl⟩
  | cons place calls ih =>
      obtain ⟨trace, hrun, htrace, hparents⟩ := (h'.schedules place).run_perm
      have hcall := h.call_eq h' hp heffect place htrace hparents s
      have hcall' : gen'.call effect place s = executeTasks effect (script'.stmtsAt place) trace s := by
        rw [Generated.call, hrun, Option.bind_eq_bind, Option.bind_some, h'.stmts]
      have hsome := executeTasks_eq effect (fun i hi => List.mem_range.mp (htrace.mem_iff.mp hi)) s
      obtain ⟨s', hs', hs''⟩ := ih ((tasksOf (script'.stmtsAt place) trace).foldl (fun s stmt => effect stmt s) s)
      refine ⟨s', ?_, ?_⟩
      · rw [Generated.run, List.foldlM_cons, hcall, hsome]
        exact hs'
      · rw [Generated.run, List.foldlM_cons, hcall', hsome]
        exact hs''

/-- **Frames do not depend on orders.** For every script whose program is initialised, and whatever its tasks do with the
components that their systems take: there are also plans for every other order of the statements, and their program is
initialised, with the assertions too if no task with a child has as many parents as fit; however it is initialised, any
calls of the two functions lead to a state, and to the same one; each call does what any order of its tasks does in
which no task comes before its parents, among them the sequence that the compiler prints; and a task that only reads a
type sees in it what is there at the end of the call. -/
theorem frames_any_order (hperm : script.Perm script') (hplans : fccRun script = some (.ok plans))
    (hgen : furiousInit checked plans = .ok gen) (heffect : ∀ s ∈ script, s.2.Confines (effect s.2)) :
    (∃ plans', fccRun script' = some (.ok plans')
        ∧ (∀ checked' : Bool, (checked' = true → ∀ t, (plans.1.nodes t).children ≠ []
            → (plans.1.nodes t).parents.length < maxTaskParents) → ∃ gen', furiousInit checked' plans' = .ok gen')
        ∧ ∀ (checked' : Bool) (gen' : Generated), furiousInit checked' plans' = .ok gen' →
          ∀ calls s, ∃ s', gen.run effect calls s = some s' ∧ gen'.run effect calls s = some s')
      ∧ (∀ place seq, seq.Perm (List.range (gen.stmts place).length) → PrecededBy (gen.graph place).parentsOf seq →
        ∀ s, gen.call effect place s = executeTasks effect (gen.stmts place) seq s)
      ∧ (∀ place, ∃ seq, (planAt plans place).getValidExecSequence = some seq
        ∧ ∀ s, gen.call effect place s = executeTasks effect (gen.stmts place) seq s)
      ∧ ∀ place, ∃ trace, (gen.graph place).run = some trace
        ∧ ∀ l i l' stmt T, trace = l ++ i :: l' → (gen.stmts place)[i]? = some stmt → stmt.system.PureReader T →
          ∀ s, ∃ s₁ s₂, executeTasks effect (gen.stmts place) l s = some s₁ ∧ gen.call effect place s = some s₂
            ∧ s₁ T = s₂ T := by
  obtain ⟨hof, -, -⟩ := furiousInit_spec hplans hgen
  refine ⟨?_, fun place seq hseq hparents s => ?_, fun place => ?_, fun place => ?_⟩
  · obtain ⟨plans', hplans', hexists⟩ := exists_generated hperm hplans hgen
    refine ⟨plans', hplans', hexists, fun checked' gen' hgen' calls s => ?_⟩
    exact hof.run_eq (furiousInit_spec hplans' hgen').1 hperm heffect calls s
  · rw [hof.stmts] at hseq ⊢
    exact hof.call_eq hof (List.Perm.refl _) heffect place hseq hparents s
  · obtain ⟨hplaces, rfl⟩ := fccRun_eq.mp hplans
    have hplan : planAt (planOf (script.stmtsAt .frame).length (script.stmtsAt .frame),
        planOf (script.stmtsAt .postFrame).length (script.stmtsAt .postFrame)) place
        = planOf (script.stmtsAt place).length (script.stmtsAt place) := by
      cases place <;> rfl
    obtain ⟨seq, hseq, -, -, hprec, hperm'⟩ :=
      getValidExecSequence_spec (planOf_wellFormed (script.stmtsAt place).length (script.stmtsAt place))
    have hac := (hplaces place).2
    rw [← planOf_edge (script.stmtsAt place).length] at hac
    refine ⟨seq, hplan ▸ hseq, fun s => ?_⟩
    rw [hof.stmts]
    refine hof.call_eq hof (List.Perm.refl _) heffect place (hperm' hac) (fun l i l' hl p hp => ?_) s
    exact hprec l i l' hl p (mem_planNode_parents.mpr
      (mem_setParentCalls.mp (((hof.schedules place).built.parents i p).mp hp)))
  · obtain ⟨trace, hrun, htrace, hparents⟩ := (hof.schedules place).run_perm
    refine ⟨trace, hrun, fun l i l' stmt T hl hi hT s => ?_⟩
    subst hl
    rw [hof.stmts] at hi ⊢
    obtain ⟨s₁, s₂, h₁, h₂, hT⟩ :=
      (hof.schedules place).reader htrace hparents (confines_stmtsAt heffect place) hi hT s
    refine ⟨s₁, s₂, h₁, ?_, hT⟩
    rw [Generated.call, hrun, Option.bind_eq_bind, Option.bind_some, hof.stmts, h₂]

end Frames

/-! ### A script of three statements -/

/-- A statement whose system copies one component to another. -/
def copierStmt : Stmt where
  operationType := .foreach
  ematches := [⟨[⟨⟨"ComponentA"⟩, true, false⟩, ⟨⟨"ComponentB"⟩, false, false⟩], [], [], [], [], [], false, ""⟩]
  system := ⟨⟨"Copier"⟩, [⟨⟨"ComponentA"⟩, true, false⟩, ⟨⟨"ComponentB"⟩, false, false⟩], 1⟩
  priority := defaultPriority

/-- A writer, a copier of what it writes, and a writer behind them. -/
def copyScript : Script :=
  [(.frame, copierStmt), (.frame, writerStmt 0), (.frame, (writerStmt 2).setPriority 2)]

/-- The writers count; the copier copies. -/
def copyEffect (stmt : Stmt) (s : String → ℕ) : String → ℕ :=
  if stmt.system.id = 1 then Function.update s "ComponentB" (s "ComponentA")
  else Function.update s "ComponentA" (s "ComponentA" + 1)

/-- The plans of the script. -/
lemma fccRun_copyScript : fccRun copyScript = some (.ok
    (planOf 3 [copierStmt, writerStmt 0, (writerStmt 2).setPriority 2], planOf 0 [])) := by
  refine fccRun_eq.mpr ⟨fun place => ⟨?_, ?_⟩, rfl⟩
  · cases place <;> decide
  · cases place with
    | frame =>
        -- the writers run first, the one with the default priority before the other
        refine acyclic_of_rank (fun a => [0, 2, 1].getD a 0) fun a b hab => ?_
        obtain ⟨hb, ha, -⟩ := dependent_iff.mp hab
        have hedges : ∀ a < 3, ∀ b < 3, dependent [copierStmt, writerStmt 0, (writerStmt 2).setPriority 2] b a = true →
            [0, 2, 1].getD b 0 < [0, 2, 1].getD a 0 := by decide +kernel
        exact hedges a ha b hb hab
    | postFrame =>
        refine acyclic_of_rank id fun a b hab => ?_
        obtain ⟨hb, -⟩ := dependent_iff.mp hab
        exact absurd hb (Nat.not_lt_zero b)

/-- The generated program. -/
def copyProgram : Generated :=
  ⟨⟨[⟨[1, 2], []⟩, ⟨[], [0, 2]⟩, ⟨[1], [0]⟩]⟩, [copierStmt, writerStmt 0, (writerStmt 2).setPriority 2],
    TaskGraph.init 0⟩

lemma furiousInit_copyScript : furiousInit true
    (planOf 3 [copierStmt, writerStmt 0, (writerStmt 2).setPriority 2], planOf 0 []) = .ok copyProgram := by
  have hcalls : TaskGraph.calls true 3
      (planOf 3 [copierStmt, writerStmt 0, (writerStmt 2).setPriority 2]).setParentCalls
      = .ok copyProgram.taskGraph := by decide +kernel
  exact furiousInit_eq rfl hcalls

lemma confines_writer (id : ℤ) (hid : id ≠ 1) (priority : ℕ) :
    ((writerStmt id).setPriority priority).Confines (copyEffect ((writerStmt id).setPriority priority)) := by
  have heq : copyEffect ((writerStmt id).setPriority priority)
      = fun s => Function.update s "ComponentA" (s "ComponentA" + 1) := by
    funext s
    exact if_neg hid
  have hacc : ((writerStmt id).setPriority priority).system.Accesses "ComponentA" :=
    ⟨_, List.mem_singleton_self _, rfl⟩
  refine heq ▸ Confined.update (fun T => ⟨fun hT => ?_, fun hT => ?_⟩) fun s s' hs => congrArg (· + 1) (hs _ hacc)
  · obtain ⟨c, hc, rfl, -⟩ := hT
    rw [List.mem_singleton.mp hc]
  · exact ⟨_, List.mem_singleton_self _, hT.symm, rfl⟩

lemma confines_copier : copierStmt.Confines (copyEffect copierStmt) := by
  have heq : copyEffect copierStmt = fun s => Function.update s "ComponentB" (s "ComponentA") := by
    funext s
    exact if_pos rfl
  have hacc : copierStmt.system.Accesses "ComponentA" := ⟨_, List.mem_cons_self, rfl⟩
  refine heq ▸ Confined.update (fun T => ⟨fun hT => ?_, fun hT => ?_⟩) fun s s' hs => hs _ hacc
  · obtain ⟨c, hc, rfl, hro⟩ := hT
    rcases List.mem_cons.mp hc with rfl | hc
    · cases hro
    · rw [List.mem_singleton.mp hc]
  · exact ⟨_, List.mem_cons_of_mem _ (List.mem_singleton_self _), hT.symm, rfl⟩

lemma confines_copyScript : ∀ s ∈ copyScript, s.2.Confines (copyEffect s.2) := by
  intro s hs
  simp only [copyScript, List.mem_cons, List.not_mem_nil, or_false] at hs
  rcases hs with rfl | rfl | rfl
  · exact confines_copier
  · exact confines_writer 0 (by decide) defaultPriority
  · exact confines_writer 2 (by decide) 2

/-- No task has more than two parents. -/
theorem frames_any_order_copier : ∃ plans' gen', fccRun copyScript.reverse = some (.ok plans')
    ∧ furiousInit true plans' = .ok gen'
    ∧ (∀ s, ∃ s', copyProgram.run copyEffect [.frame, .postFrame, .frame] s = some s'
      ∧ gen'.run copyEffect [.frame, .postFrame, .frame] s = some s')
    ∧ ∀ s, ∃ s', copyProgram.call copyEffect .frame s = some s' ∧ s' "ComponentB" = s "ComponentA" + 1 + 1 := by
  obtain ⟨⟨plans', hplans', hinit, hrun⟩, horders, -, -⟩ := frames_any_order
    (List.reverse_perm copyScript).symm fccRun_copyScript furiousInit_copyScript confines_copyScript
  have hfew : ∀ t, (planNode [copierStmt, writerStmt 0, (writerStmt 2).setPriority 2] t).parents.length
      < maxTaskParents := fun t => (List.length_filter_le _ _).trans_lt (by decide)
  obtain ⟨gen', hgen'⟩ := hinit true fun _ t _ => hfew t
  refine ⟨plans', gen', hplans', hgen', hrun true gen' hgen' _, fun s => ?_⟩
  rw [horders .frame [1, 2, 0] (by decide) ?_]
  · exact ⟨_, rfl, rfl⟩
  · refine (((PrecededBy.nil _).snoc fun p hp => by cases hp).snoc ?_).snoc ?_
    · decide
    · decide

end Furious
