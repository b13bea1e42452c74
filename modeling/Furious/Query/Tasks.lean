import Furious.Data.Runs
import Furious.Query.Streams

/-!
Tasks.

A task is the code of a plan with a system on top. It calls the system on the entities of the blocks that the
thread takes for which the plan has a row, each of them once; so the threads share the calls of one thread
that is alone.

* `QueryDb.Reached`: the tables, references and tags that the functions of the database can make;
* `Subplan.Runs`: a subplan whose operators are a plan with a system on top;
* `QueryDb.threadCalls`: the calls that a thread has to make, and `runTask_spec`: **a task makes them**;
* `partition`: **what is split among threads** is neither lost nor done twice.
-/

namespace Furious

/-! ### Databases that can be reached -/

/-- A table as its functions leave it, whatever has been written to its components. -/
def Table.Reached (t : Table) : Prop :=
  ∃ t₀ hist memory, TableRun (fun _ _ => True) t₀ hist ∧ t = { t₀ with memory := memory }

/-- **A database** in which tables, references and bittables have been changed by their functions only. -/
structure QueryDb.Reached (db : QueryDb) : Prop where
  tables : ∀ type, (db.tables type).Reached
  refs : ∀ name, (db.refs name).table.Reached ∧ (db.refs name).table.esize = Reftable.entityIdSize
  tags : ∀ tag, ∃ calls bts i, (∀ c ∈ calls, BitCall.Legal c) ∧ BitCall.run calls = some bts ∧ db.tags tag = bts i

lemma Table.Reached.sound {t : Table} (h : t.Reached) : ∃ M, t.Sound M := by
  obtain ⟨t₀, hist, memory, hrun, rfl⟩ := h
  obtain ⟨⟨M, hM⟩, -⟩ := hrun.keeps
  exact ⟨M, hM.shows, hM.block, hM.inj, hM.lt⟩

lemma QueryDb.Reached.sound {db : QueryDb} (h : db.Reached) : db.Sound where
  tables type := (h.tables type).sound
  refs name := (h.refs name).1.sound
  refs_esize name := (h.refs name).2
  tags tag := by
    obtain ⟨calls, bts, i, hlegal, hrun, heq⟩ := h.tags tag
    obtain ⟨bts', hrun', hden⟩ := BitCall.run_spec hlegal
    obtain rfl := Option.some.inj (hrun.symm.trans hrun')
    exact ⟨_, heq ▸ hden i⟩

/-- A database whose tables are alike, without references and tags. -/
def QueryDb.ofTable (t : Table) (globals : FccType → Option ℕ) : QueryDb :=
  ⟨fun _ => t, fun _ => Reftable.init fun _ => 0, fun _ => Bittable.init, globals, fun _ _ => true⟩

lemma QueryDb.reached_ofTable {t : Table} {hist : History} (h : TableRun (fun _ _ => True) t hist)
    (globals : FccType → Option ℕ) : (QueryDb.ofTable t globals).Reached where
  tables _ := ⟨t, hist, t.memory, h, rfl⟩
  refs _ := ⟨⟨_, ⟨∅, 0⟩, _, TableRun.init Reftable.entityIdSize false fun _ => 0, rfl⟩, rfl⟩
  tags _ := ⟨[], _, 0, by simp, rfl, rfl⟩

/-! ### The calls of a task -/

/-- The operators of the subplan are those of the plan `t`, and a foreach above them, and code is generated for
them. -/
structure Subplan.Runs (plan : Subplan) (system : System) (t : PlanTree) : Prop where
  laidOut : LaidOut upColumns joinColumns plan.nodes (.unary (.foreach system) t) 0 fccInvalidId
  root : plan.root = t.size
  plain : t.Plain
  check : checkForeach t.columns = .ok []

instance (thread : Thread) : DecidablePred thread.Takes := fun b =>
  inferInstanceAs (Decidable (blockGetOffset b thread.chunkSize thread.stride = thread.offset))

namespace QueryDb

variable (db : QueryDb) (t : PlanTree)

/-- **The calls that a thread has to make**: those of the blocks that it takes. What has globals only is for the
first thread. -/
def threadCalls (thread : Thread) : List SystemCall :=
  if t.isGlobal = true then if thread.offset = 0 then db.globalCalls t else []
  else ((List.range numBlocks).filter fun b => thread.Takes b).flatMap (db.blockCalls t)

/-- The calls for a cluster. -/
def keyCalls (k : Option ℕ) : List SystemCall := k.elim (db.globalCalls t) (db.blockCalls t)

variable {db t}

/-- Elements that yield nothing can be left out. -/
lemma flatMap_filter {α β : Type} {f : α → List β} {p : α → Bool} {l : List α}
    (h : ∀ a ∈ l, p a = false → f a = []) : (l.filter p).flatMap f = l.flatMap f := by
  induction l with
  | nil => rfl
  | cons a l ih =>
      have htail := ih fun b hb => h b (List.mem_cons_of_mem _ hb)
      cases hp : p a with
      | true => rw [List.filter_cons_of_pos hp, List.flatMap_cons, List.flatMap_cons, htail]
      | false =>
          rw [List.filter_cons_of_neg (by rw [hp]; exact Bool.false_ne_true), List.flatMap_cons,
            h a List.mem_cons_self hp, htail]
          rfl

lemma blockCalls_eq_nil {b : ℕ} (h : ∀ o < tableBlockSize, db.row t (b * tableBlockSize + o) = none) :
    db.blockCalls t b = [] := by
  rw [blockCalls, List.filterMap_eq_nil_iff]
  intro o ho
  rw [callAt, h o (List.mem_range.mp ho)]
  rfl

end QueryDb

section Tasks

variable {db : QueryDb} {t : PlanTree}

open QueryDb in
/-- **What is handed on** has the calls of the thread. -/
theorem Streams.calls {thread : Thread} {out : List (Option ℕ)} (h : Streams db t thread out)
    (hthread : t.isGlobal = true → thread.offset = 0) :
    (out.flatMap (db.keyCalls t)).Perm (db.threadCalls t thread) := by
  have hkind := h.covers.kind
  rw [threadCalls]
  cases hglobal : t.isGlobal with
  | true =>
      rw [if_pos rfl, if_pos (hthread hglobal)]
      have hnone : ∀ k ∈ out, k = none := fun k hk => by
        rw [← Option.isNone_iff_eq_none, ← hkind k hk, hglobal]
      cases out with
      | nil =>
          rw [globalCalls, h.globals List.not_mem_nil]
          exact List.Perm.nil
      | cons k out =>
          cases out with
          | nil =>
              rw [hnone k List.mem_cons_self, List.flatMap_singleton]
              exact List.Perm.refl _
          | cons k' out =>
              have hnodup := h.covers.nodup
              simp [hnone k (by simp), hnone k' (by simp)] at hnodup
  | false =>
      rw [if_neg Bool.false_ne_true, ← flatMap_filter (p := fun b => decide (some b ∈ out)) fun b hb hnot => ?_]
      · have hsome : ∀ k ∈ out, ∃ b, k = some b := fun k hk => by
          rw [← Option.isSome_iff_exists, ← Option.not_isNone, ← hkind k hk, hglobal]
          rfl
        have hperm : out.Perm ((((List.range numBlocks).filter fun b => thread.Takes b).filter
            fun b => decide (some b ∈ out)).map some) := by
          rw [List.perm_ext_iff_of_nodup (List.Nodup.of_map _ h.covers.nodup)
            (((List.nodup_range.filter _).filter _).map (Option.some_injective _))]
          intro k
          simp only [List.mem_map, List.mem_filter, List.mem_range, decide_eq_true_iff]
          constructor
          · intro hk
            obtain ⟨b, rfl⟩ := hsome k hk
            exact ⟨b, ⟨⟨h.covers.lt b hk, h.covers.taken b hk⟩, hk⟩, rfl⟩
          · rintro ⟨b, ⟨-, hk⟩, rfl⟩
            exact hk
        refine (hperm.flatMap_right _).trans ?_
        rw [List.flatMap_map]
        exact List.Perm.refl _
      · have htakes := of_decide_eq_true (List.mem_filter.mp hb).2
        exact blockCalls_eq_nil fun o ho => h.covers.rows b htakes trivial (of_decide_eq_false hnot) o ho

variable {plan : Subplan} {system : System}

/-- The code of the system makes the calls for a cluster. -/
lemma consumes_foreach (hplan : plan.Runs system t) (thread : Thread) :
    Consumes db plan.nodes thread t t.size (t.size - 1) 1 t.size
      (fun out st => st.calls = out.flatMap (db.keyCalls t)) := by
  intro d hd out k bc st hst hc _ _
  obtain ⟨d, rfl⟩ : ∃ d', d = d' + 1 := ⟨d - 1, by omega⟩
  have hroot := hplan.laidOut.unary.1
  rw [Nat.zero_add] at hroot
  have hcalls : db.foreachCalls t.columns bc = some (db.keyCalls t k) := by
    cases k with
    | none => exact hc.foreachCalls_global hplan.check
    | some b => exact hc.foreachCalls hplan.check
  refine ⟨{ st with calls := st.calls ++ db.keyCalls t k }, ?_, ?_, fun _ _ => rfl⟩
  · rw [Exec.consume, hroot]
    have hcols : upColumns (.foreach system) (t.value upColumns joinColumns) = t.columns := rfl
    simp only [Option.bind_eq_bind, Option.bind_some, hcols, hcalls, ne_eq, not_true_eq_false, if_false]
  · show st.calls ++ db.keyCalls t k = (out ++ [k]).flatMap (db.keyCalls t)
    rw [List.flatMap_append, List.flatMap_singleton, hst]

/-- **A task** makes the calls of its thread. -/
theorem runTask_spec (hdb : db.Sound) (hplan : plan.Runs system t) {thread : Thread} (hthread : thread.Valid) {depth : ℕ}
    (hdepth : 2 * t.size + 2 ≤ depth) :
    ∃ calls, runTask db plan thread depth = some calls ∧ calls.Perm (db.threadCalls t thread) := by
  obtain ⟨depth, rfl⟩ : ∃ d, depth = d + 1 := ⟨depth - 1, by omega⟩
  obtain ⟨hroot, hchild⟩ := hplan.laidOut.unary
  rw [Nat.zero_add] at hroot hchild
  have hcols : upColumns (.foreach system) (t.value upColumns joinColumns) = t.columns := rfl
  have hproduce : Exec.produce db plan.nodes thread (depth + 1) plan.root true TaskState.init
      = if t.isGlobal = true ∧ thread.offset ≠ 0 then some TaskState.init
        else Exec.produce db plan.nodes thread depth (t.size - 1) true TaskState.init := by
    rw [hplan.root, Exec.produce, hroot]
    rfl
  by_cases hidle : t.isGlobal = true ∧ thread.offset ≠ 0
  · refine ⟨[], by rw [runTask, hproduce, if_pos hidle]; rfl, ?_⟩
    rw [QueryDb.threadCalls, if_pos hidle.1, if_neg hidle.2]
  · have hblind : Blind 0 t.size (fun out st => st.calls = out.flatMap (db.keyCalls t)) :=
      fun out st st' hst _ hcalls => hcalls.trans hst
    have hid : 0 + t.size - 1 = t.size - 1 := by rw [Nat.zero_add]
    have hproduces := produce_spec hdb hthread hplan.plain hchild hblind (by omega)
      (hid ▸ consumes_foreach hplan thread)
    rw [hid] at hproduces
    obtain ⟨out, st', hrun, hst', hstreams⟩ := hproduces depth (by omega) TaskState.init rfl
    refine ⟨st'.calls, by rw [runTask, hproduce, if_neg hidle, hrun]; rfl, ?_⟩
    rw [hst']
    refine hstreams.calls fun hglobal => ?_
    by_contra hne
    exact hidle ⟨hglobal, hne⟩

/-! ### Many threads -/

/-- The threads share the calls of one that is alone. -/
lemma threadCalls_perm {chunkSize stride : ℕ} (hstride : 1 ≤ stride) :
    ((List.range stride).flatMap fun offset => db.threadCalls t ⟨chunkSize, offset, stride⟩).Perm
      (db.threadCalls t Thread.single) := by
  cases hglobal : t.isGlobal with
  | true =>
      obtain ⟨n, rfl⟩ : ∃ n, stride = n + 1 := ⟨stride - 1, by omega⟩
      have hfirst : ∀ offset, db.threadCalls t ⟨chunkSize, offset, n + 1⟩
          = if offset = 0 then db.threadCalls t Thread.single else [] := fun offset => by
        rw [QueryDb.threadCalls, QueryDb.threadCalls, if_pos hglobal, if_pos hglobal]
        rfl
      have hrest : ((List.range n).map Nat.succ).flatMap
          (fun offset => if offset = 0 then db.threadCalls t Thread.single else []) = [] := by
        rw [List.flatMap_map]
        exact List.flatMap_eq_nil_iff.mpr fun _ _ => rfl
      rw [List.flatMap_congr fun offset _ => hfirst offset, List.range_succ_eq_map, List.flatMap_cons, hrest, if_pos rfl,
        List.append_nil]
  | false =>
      have hall : ∀ offset, db.threadCalls t ⟨chunkSize, offset, stride⟩
          = ((List.range numBlocks).filter fun b => blockGetOffset b chunkSize stride = offset).flatMap
            (db.blockCalls t) := fun offset => by
        rw [QueryDb.threadCalls, hglobal, if_neg Bool.false_ne_true]
        rfl
      have hsingle : (List.range numBlocks).filter (fun b => Thread.single.Takes b) = List.range numBlocks :=
        List.filter_eq_self.mpr fun b _ => decide_eq_true (Nat.mod_one _)
      have hassoc : ((List.range stride).flatMap fun offset => db.threadCalls t ⟨chunkSize, offset, stride⟩)
          = ((List.range stride).flatMap fun offset =>
            (List.range numBlocks).filter fun b => blockGetOffset b chunkSize stride = offset).flatMap
            (db.blockCalls t) := by
        rw [List.flatMap_assoc]
        exact List.flatMap_congr fun offset _ => hall offset
      rw [hassoc, QueryDb.threadCalls, hglobal, if_neg Bool.false_ne_true, hsingle]
      exact (perm_parts (List.range numBlocks) (fun b => blockGetOffset b chunkSize stride)
        fun _ => Nat.mod_lt _ hstride).flatMap_right _

/-- The tasks of all offsets together make the calls of a thread that is alone. -/
lemma tasks_perm (hdb : db.Sound) (hplan : plan.Runs system t) {chunkSize stride : ℕ} (hchunk : 1 ≤ chunkSize)
    (hstride : 1 ≤ stride) (hle : stride ≤ 2 ^ 31) {depth : ℕ} (hdepth : 2 * t.size + 2 ≤ depth) : ∃ runs,
      (List.range stride).mapM (fun offset => runTask db plan ⟨chunkSize, offset, stride⟩ depth) = some runs
      ∧ runs.flatten.Perm (db.threadCalls t Thread.single) := by
  obtain ⟨runs, hruns, hall⟩ := mapM_spec
    (fun offset (calls : List SystemCall) => calls.Perm (db.threadCalls t ⟨chunkSize, offset, stride⟩))
    (l := List.range stride) fun offset hoffset =>
      runTask_spec hdb hplan
        (show Thread.Valid ⟨chunkSize, offset, stride⟩ from ⟨hchunk, List.mem_range.mp hoffset, hle⟩) hdepth
  refine ⟨runs, hruns, ?_⟩
  have hflatten : runs.flatten.Perm ((List.range stride).flatMap fun offset =>
      db.threadCalls t ⟨chunkSize, offset, stride⟩) := by
    clear hruns
    generalize List.range stride = offsets at hall ⊢
    induction hall with
    | nil => exact List.Perm.nil
    | cons hhead htail ih =>
        rw [List.flatten_cons, List.flatMap_cons]
        exact hhead.append ih
  exact hflatten.trans (threadCalls_perm hstride)

/-- **What is split among threads**: for any chunk size and stride, the tasks of all offsets together make the
calls of the task that is alone, each as often. -/
theorem partition (hdb : db.Reached) (hplan : plan.Runs system t) {chunkSize stride : ℕ} (hchunk : 1 ≤ chunkSize)
    (hstride : 1 ≤ stride) (hle : stride ≤ 2 ^ 31) : ∃ n, ∀ depth, n ≤ depth → ∃ runs single,
      (List.range stride).mapM (fun offset => runTask db plan ⟨chunkSize, offset, stride⟩ depth) = some runs
      ∧ runTask db plan Thread.single depth = some single
      ∧ runs.flatten.Perm single := by
  refine ⟨2 * t.size + 2, fun depth hdepth => ?_⟩
  obtain ⟨runs, hruns, hflatten⟩ := tasks_perm hdb.sound hplan hchunk hstride hle hdepth
  obtain ⟨single, hsingle, hperm⟩ := runTask_spec hdb.sound hplan
    (show Thread.single.Valid from ⟨le_rfl, Nat.one_pos, by decide⟩) hdepth
  exact ⟨runs, single, hruns, hsingle, hflatten.trans hperm.symm⟩

/-- Two components that are joined. -/
theorem partition_join : ∃ (t : Table) (plan : Subplan), (QueryDb.ofTable t fun _ => none).Reached
    ∧ t.numComponents = 2
    ∧ plan.Runs ⟨⟨"S"⟩, [], 0⟩ (.binary .join (.leaf .scan [⟨.component, ⟨"A"⟩, "", .read⟩])
      (.leaf .scan [⟨.component, ⟨"B"⟩, "", .readWrite⟩]))
    ∧ ∃ n, ∀ depth, n ≤ depth → ∃ runs single,
      (List.range 3).mapM (fun offset => runTask (QueryDb.ofTable t fun _ => none) plan ⟨2, offset, 3⟩ depth)
        = some runs
      ∧ runTask (QueryDb.ofTable t fun _ => none) plan Thread.single depth = some single
      ∧ runs.flatten.Perm single := by
  obtain ⟨t, hist, h, hM⟩ := TableRun.exists_of_map (fun _ _ => True) [.create 3, .create 1280]
    (f := fun r => r.1.numComponents) (x := 2) (by decide +kernel)
  have hreached := QueryDb.reached_ofTable h fun _ => none
  have hruns : Subplan.Runs ⟨OpTree.cells upColumns joinColumns (.unary (.foreach ⟨⟨"S"⟩, [], 0⟩)
      (.binary .join (.leaf .scan [⟨.component, ⟨"A"⟩, "", .read⟩])
        (.leaf .scan [⟨.component, ⟨"B"⟩, "", .readWrite⟩]))) 0 fccInvalidId, false, 3⟩ ⟨⟨"S"⟩, [], 0⟩
      (.binary .join (.leaf .scan [⟨.component, ⟨"A"⟩, "", .read⟩])
        (.leaf .scan [⟨.component, ⟨"B"⟩, "", .readWrite⟩])) :=
    ⟨laidOut_self _ _ _ _, rfl, ⟨⟨_, rfl, .inl rfl⟩, ⟨_, rfl, .inl rfl⟩, by decide⟩, rfl⟩
  exact ⟨t, _, hreached, hM, hruns, partition hreached hruns (by decide) (by decide) (by decide)⟩

end Tasks

end Furious
