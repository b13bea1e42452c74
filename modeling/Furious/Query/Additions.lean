import Furious.Query.Globals
import Furious.Query.Programs

/-!
Globals that are added to a statement.

Globals that are there are added to the match of a statement, before, between or behind what it matches. The
statement may have globals already, and no expand; filters by components are reported, so no code is generated
for it if it has them.

* `fails_above`, `Stmt.Accepted.onlyTags_of_settles`: **a query with code** has no filters by components;
* `unmarked`, `SystemCall.unmarked`: a list and a call without what is marked;
* `matchedArgs_unmarked`: **the arguments of what is not added**;
* `Stmt.Adds`, `Stmt.SameCalls`: globals that are added, and what must not change;
* `globals_added_iff`: **when added globals change nothing**.
-/

namespace Furious

/-! ### Filters by components -/

section Reports

variable {nodes : List Operator}

/-- A filter by components is reported, and so is what any other filter stands below. -/
lemma fails_consume_unary {i p child : ℕ} {type : UnaryType} {cols : List FccColumn}
    (hi : nodes[i]? = some ⟨.unary type child, p, cols⟩) (htype : ∀ system, type ≠ .foreach system)
    (hstop : (∃ filterType opType onColumn, type = .componentFilter filterType opType onColumn)
      ∨ Fails fun d => consume nodes d p i) (caller : ℕ) : Fails fun d => consume nodes d i caller := by
  refine Fails.of_succ ⟨_, rfl⟩ (fun n => by rw [consume, hi]) (Fails.andThen_right _ ?_)
  rcases hstop with ⟨filterType, opType, onColumn, rfl⟩ | hparent
  · exact Fails.andThen_left (fun _ => ⟨_, rfl⟩) _
  · cases type with
    | foreach system => exact (htype system rfl).elim
    | tagFilter tag opType onColumn => exact Fails.andThen_right _ hparent
    | predicateFilter decl => exact Fails.andThen_right _ hparent
    | componentFilter filterType opType onColumn => exact Fails.andThen_right _ hparent

/-- **A plan is not produced** if what it hands on is reported. -/
lemma fails_plain {t : PlanTree} (ht : t.Plain) {o p : ℕ} (h : LaidOut upColumns joinColumns nodes t o p)
    (hparent : Fails fun d => consume nodes d p (o + t.size - 1)) (parallelStream : Bool) :
    Fails fun d => produce nodes d (o + t.size - 1) parallelStream := by
  induction t generalizing o p with
  | leaf type cols =>
      exact Fails.of_succ ⟨_, rfl⟩ (fun n => by rw [OpTree.size, Nat.add_sub_cancel, produce, h.leaf])
        (Fails.andThen_right _ hparent)
  | unary type t ih =>
      obtain ⟨hroot, hlaid⟩ := h.unary
      have hid : o + (OpTree.unary type t).size - 1 = o + t.size := by rw [OpTree.size]; omega
      rw [hid] at hparent
      refine Fails.of_succ ⟨_, rfl⟩ (fun n => by rw [hid, produce, hroot]) (Fails.andThen_right _ ?_)
      cases type with
      | foreach system => exact ht.elim
      | componentFilter filterType opType onColumn => exact ht.elim
      | tagFilter tag opType onColumn =>
          exact ih ht.1 hlaid (fails_consume_unary hroot (fun _ h => by cases h) (.inr hparent) _)
      | predicateFilter decl =>
          exact ih ht.1 hlaid (fails_consume_unary hroot (fun _ h => by cases h) (.inr hparent) _)
  | binary type l r ihl ihr =>
      obtain ⟨hroot, hlaidl, hlaidr⟩ := h.binary
      have hid : o + (OpTree.binary type l r).size - 1 = o + l.size + r.size := by rw [OpTree.size]; omega
      rw [hid] at hparent
      -- what comes from the right is handed on
      have hright (hr : PlanTree.Plain r) (htype : type = .join ∨ type = .leftFilterJoin) :
          Fails fun d => produce nodes d (o + l.size + r.size - 1) parallelStream := by
        refine ihr hr hlaidr (Fails.of_succ ⟨_, rfl⟩ (fun n => by rw [consume, hroot]) (Fails.andThen_right _ ?_))
        have hne : o + l.size + r.size - 1 ≠ o + l.size - 1 := by
          have hl := l.size_pos
          have hr := r.size_pos
          omega
        rcases htype with rfl | rfl
        · simp only [if_neg hne]
          exact hparent
        · simp only [if_neg hne]
          exact hparent
      refine Fails.of_succ ⟨_, rfl⟩ (fun n => by rw [hid, produce, hroot]) (Fails.andThen_right _ ?_)
      cases type with
      | join => exact Fails.andThen_right _ (hright ht.2.1 (.inl rfl))
      | leftFilterJoin => exact Fails.andThen_right _ (hright ht.2 (.inr rfl))
      | crossJoin => exact Fails.andThen_right _ hparent
      | gather => exact ht.elim
      | cascadingGather => exact ht.elim

/-- **Filters above a plan**, of which one is by components, or which stand below something that is reported. -/
lemma fails_above {t : PlanTree} (ht : t.Plain) {types : List UnaryType}
    (htypes : ∀ type ∈ types, ∀ system, type ≠ .foreach system) {o p : ℕ}
    (h : LaidOut upColumns joinColumns nodes (t.above types) o p)
    (hstop : (∃ filterType opType onColumn, .componentFilter filterType opType onColumn ∈ types)
      ∨ Fails fun d => consume nodes d p (o + (t.above types).size - 1)) (parallelStream : Bool) :
    Fails fun d => produce nodes d (o + (t.above types).size - 1) parallelStream := by
  induction types using List.reverseRecOn generalizing p with
  | nil =>
      refine fails_plain ht h (hstop.resolve_left ?_) _
      rintro ⟨_, _, _, hmem⟩
      exact List.not_mem_nil hmem
  | append_singleton types type ih =>
      have habove : t.above (types ++ [type]) = .unary type (t.above types) := by
        rw [PlanTree.above, List.foldl_append]
        rfl
      rw [habove] at h hstop ⊢
      obtain ⟨hroot, hlaid⟩ := h.unary
      have hid : o + (OpTree.unary type (t.above types)).size - 1 = o + (t.above types).size := by
        rw [OpTree.size]
        omega
      rw [hid] at hstop ⊢
      have htype := htypes type (List.mem_append_right _ (List.mem_singleton_self _))
      have hchild : Fails fun d => produce nodes d (o + (t.above types).size - 1) parallelStream := by
        refine ih (fun type' hmem => htypes type' (List.mem_append_left _ hmem)) hlaid ?_
        rcases hstop with ⟨filterType, opType, onColumn, hmem⟩ | hparent
        · rcases List.mem_append.mp hmem with hmem | hmem
          · exact .inl ⟨_, _, _, hmem⟩
          · exact .inr (fails_consume_unary hroot htype (.inl ⟨_, _, _, (List.mem_singleton.mp hmem).symm⟩) _)
        · exact .inr (fails_consume_unary hroot htype (.inr hparent) _)
      refine Fails.of_succ ⟨_, rfl⟩ (fun n => by rw [produce, hroot]) (Fails.andThen_right _ ?_)
      cases type with
      | foreach system => exact (htype system rfl).elim
      | _ => exact hchild

end Reports

/-- **A query with code** has no filters by components. -/
lemma Stmt.Accepted.onlyTags_of_settles {stmt : Stmt} {main : EntityMatch} (h : stmt.Accepted main none)
    (hm : main.cmatches ≠ []) (hsettles : Settles (fun _ => True) (generate stmt)) : main.OnlyTags := by
  by_contra honly
  have hfilter : main.cmatches = [] → main.filterFunc = [] := fun hnil => (hm hnil).elim
  obtain ⟨t, ht⟩ := h.exists_tree (.inl hm)
  obtain ⟨u, hu, rfl⟩ := h.tree_cases hm (fun m hmem => (Option.not_mem_none m hmem).elim) ht
  obtain ⟨v, hv, rfl⟩ := Option.map_eq_some_iff.mp hu
  obtain ⟨j, hjoined, rfl⟩ := h.exists_joined (QueryDb.ofTable (Table.init 0 false fun _ => 0) fun _ => none) hv
  obtain ⟨sync, hinit⟩ := h.subplanInit_eq ht hfilter
  rw [PlanTree.above, PlanTree.above, ← List.foldl_append, ← PlanTree.above] at hinit
  refine Fails.not_settles ?_ hsettles
  split_ifs at hinit with hroom
  · obtain ⟨nodes, hnodes⟩ : ∃ nodes, OpTree.cells upColumns joinColumns
        (.unary (.foreach stmt.system) (j.above (main.filters false ++ main.predicates))) 0 fccInvalidId = nodes :=
      ⟨_, rfl⟩
    have hlaid : LaidOut upColumns joinColumns nodes
        (.unary (.foreach stmt.system) (j.above (main.filters false ++ main.predicates))) 0 fccInvalidId :=
      hnodes ▸ laidOut_self _ _ _ _
    obtain ⟨hroot, hchild⟩ := hlaid.unary
    rw [Nat.zero_add] at hroot hchild
    rw [hnodes] at hinit
    have hstop : ∃ filterType opType onColumn,
        UnaryType.componentFilter filterType opType onColumn ∈ main.filters false ++ main.predicates := by
      rw [EntityMatch.OnlyTags, not_and_or] at honly
      simp only [EntityMatch.filters, List.mem_append, List.mem_map]
      rcases honly with hne | hne
      · obtain ⟨type, htype⟩ := List.exists_mem_of_ne_nil _ hne
        exact ⟨type, .has, false, .inl (.inr ⟨type, htype, rfl⟩)⟩
      · obtain ⟨type, htype⟩ := List.exists_mem_of_ne_nil _ hne
        exact ⟨type, .hasNot, false, .inl (.inl (.inr ⟨type, htype, rfl⟩))⟩
    have hproduce := fails_above hjoined.plain (fun type htype system heq => ?_) hchild (.inl hstop) true
    · rw [Nat.zero_add] at hproduce
      have hgenerate (depth : ℕ) : generate stmt depth
          = produce nodes depth (j.above (main.filters false ++ main.predicates)).size true := by
        rw [generate, hinit]
      exact Fails.of_succ ⟨_, hgenerate 0⟩ (fun n => by rw [hgenerate, produce, hroot]) (Fails.andThen_right _ hproduce)
    · subst heq
      simp [EntityMatch.filters, EntityMatch.predicates] at htype
  · exact fun n => ⟨_, by rw [generate, hinit]⟩

/-! ### What is added -/

/-- What is left of a list without the elements that are marked. -/
def unmarked {α : Type} : List Bool → List α → List α
  | mark :: marks, a :: l => if mark = true then unmarked marks l else a :: unmarked marks l
  | _, _ => []

/-- A call without the arguments that are marked. -/
def SystemCall.unmarked (marks : List Bool) (call : SystemCall) : SystemCall :=
  { call with args := Furious.unmarked marks call.args }

/-- What is marked are globals that are there. -/
def MarksGlobals (db : QueryDb) (marks : List Bool) (cs : List CompMatch) : Prop :=
  List.Forall₂ (fun mark c => mark = true → c.isGlobal = true ∧ (db.globals c.type).isSome = true) marks cs

section Marked

variable {db : QueryDb} {marks : List Bool} {cs : List CompMatch} {e : ℕ}

lemma unmarked_subset {α : Type} (marks : List Bool) (l : List α) : unmarked marks l ⊆ l := by
  induction l generalizing marks with
  | nil => cases marks <;> exact List.Subset.refl _
  | cons a l ih =>
      cases marks with
      | nil => exact List.nil_subset _
      | cons mark marks =>
          rw [unmarked]
          split_ifs
          · exact List.subset_cons_of_subset _ (ih marks)
          · exact List.cons_subset_cons _ (ih marks)

/-- **The arguments of what is not added.** -/
lemma matchedArgs_unmarked (h : MarksGlobals db marks cs) (args : List Arg) :
    db.matchedArgs (unmarked marks cs) e = some args
      ↔ ∃ args', db.matchedArgs cs e = some args' ∧ unmarked marks args' = args := by
  simp only [QueryDb.matchedArgs_eq_some_iff]
  induction h generalizing args with
  | nil =>
      rw [show unmarked [] ([] : List CompMatch) = [] from rfl, List.forall₂_nil_left_iff]
      constructor
      · rintro rfl
        exact ⟨[], .nil, rfl⟩
      · rintro ⟨args', -, rfl⟩
        rfl
  | @cons mark c marks cs hhead htail ih =>
      cases mark with
      | true =>
          obtain ⟨hglobal, hsome⟩ := hhead rfl
          obtain ⟨ptr, hptr⟩ := Option.isSome_iff_exists.mp hsome
          have hmatched : db.matched e c = some (.global ptr) := by
            rw [QueryDb.matched, hglobal, if_pos rfl, hptr, Option.map_some]
          rw [unmarked, if_pos rfl, ih]
          constructor
          · rintro ⟨args', hargs', rfl⟩
            exact ⟨.global ptr :: args', .cons hmatched hargs', rfl⟩
          · rintro ⟨args', hargs', rfl⟩
            cases hargs' with
            | cons harg hrest => exact ⟨_, hrest, rfl⟩
      | false =>
          rw [unmarked, if_neg Bool.false_ne_true]
          constructor
          · intro hargs
            cases hargs with
            | cons harg hrest =>
                obtain ⟨args', hargs', rfl⟩ := (ih _).mp hrest
                exact ⟨_ :: args', .cons harg hargs', rfl⟩
          · rintro ⟨args', hargs', rfl⟩
            cases hargs' with
            | cons harg hrest => exact .cons harg ((ih _).mpr ⟨_, hrest, rfl⟩)

/-- Globals are added to the globals at the beginning. -/
lemma leading_unmarked_le (h : MarksGlobals db marks cs) : leading (unmarked marks cs) ≤ leading cs := by
  induction h with
  | nil => exact le_rfl
  | @cons mark c marks cs hhead htail ih =>
      cases mark with
      | true =>
          rw [unmarked, if_pos rfl, leading, leading, List.takeWhile_cons_of_pos (hhead rfl).1, List.length_cons]
          exact Nat.le_succ_of_le ih
      | false =>
          rw [unmarked, if_neg Bool.false_ne_true, leading, leading]
          cases hc : c.isGlobal with
          | true =>
              rw [List.takeWhile_cons_of_pos hc, List.takeWhile_cons_of_pos hc, List.length_cons, List.length_cons]
              exact Nat.succ_le_succ ih
          | false =>
              rw [List.takeWhile_cons_of_neg (by rw [hc]; exact Bool.false_ne_true)]
              exact Nat.zero_le _

/-- The components are those that there were. -/
lemma locals_unmarked (h : MarksGlobals db marks cs) : locals (unmarked marks cs) = locals cs := by
  induction h with
  | nil => rfl
  | @cons mark c marks cs hhead htail ih =>
      cases mark with
      | true =>
          rw [unmarked, if_pos rfl, ih, locals, locals, List.filter_cons_of_neg]
          rw [(hhead rfl).1]
          exact Bool.false_ne_true
      | false =>
          rw [unmarked, if_neg Bool.false_ne_true, locals, locals, List.filter_cons, List.filter_cons, ← locals,
            ← locals, ih]

end Marked

/-! ### What is called -/

section Calls

variable {stmt stmt' : Stmt} {main main' : EntityMatch} {m : EntityMatch} {cs : List CompMatch} {marks : List Bool}
  {db : QueryDb}

/-- The match of a statement without an expand. -/
lemma Stmt.main_of_single (hm : stmt.ematches = [m]) : stmt.main = m := by
  rw [Stmt.main, hm]
  rfl

/-- **Globals are added** to the match of the first statement, where they are marked. The functions of its filters
take no notice of them. -/
structure Stmt.Adds (stmt stmt' : Stmt) (db : QueryDb) (m : EntityMatch) (marks : List Bool) (cs : List CompMatch) :
    Prop where
  ematches_eq : stmt.ematches = [m]
  ematches_eq' : stmt'.ematches = [{ m with cmatches := cs }]
  globals : MarksGlobals db marks cs
  unmarked_eq : unmarked marks cs = m.cmatches
  exists_local : ∃ c ∈ m.cmatches, c.isGlobal = false
  functions : ∀ f ∈ m.filterFunc, ∀ args, args.length = cs.length →
    db.predicates f args = db.predicates f (unmarked marks args)

/-- All threads of the second statement together make the calls of those of the first one, each of them with the
addresses of the globals at their places, and none twice for an entity. -/
def Stmt.SameCalls (stmt stmt' : Stmt) (db : QueryDb) (marks : List Bool) (cs : List CompMatch) (chunkSize stride : ℕ) :
    Prop :=
  ∃ plan plan' n, subplanInit stmt = some plan ∧ subplanInit stmt' = some plan' ∧ ∀ depth, n ≤ depth → ∃ runs runs',
    (List.range stride).mapM (fun offset => runTask db plan ⟨chunkSize, offset, stride⟩ depth) = some runs
    ∧ (List.range stride).mapM (fun offset => runTask db plan' ⟨chunkSize, offset, stride⟩ depth) = some runs'
    ∧ (runs'.flatten.map (SystemCall.unmarked marks)).Perm runs.flatten
    ∧ (runs'.flatten.map SystemCall.entity).Nodup
    ∧ ∀ call ∈ runs'.flatten, ∀ (i : ℕ) (c : CompMatch), cs[i]? = some c → c.isGlobal = true →
      ∃ ptr, db.globals c.type = some ptr ∧ call.args[i]? = some (.global ptr)

/-- Behind so many globals nothing is lost that has not been lost before. -/
def Stmt.KeepsAll (stmt : Stmt) (db : QueryDb) (m : EntityMatch) (cs : List CompMatch) : Prop :=
  leading cs ≤ 1 ∨ 2 ≤ leading m.cmatches ∨ ∀ e args, stmt.Matches db e args → e / tableBlockSize = lastBlock

namespace Stmt.Adds

lemma fromExpand_eq (hadds : stmt.Adds stmt' db m marks cs) (hacc : stmt.Accepted main none) : m.fromExpand = false := by
  have hmain : main = m := by rw [← hacc.main_eq, Stmt.main_of_single hadds.ematches_eq]
  rw [← hmain, hacc.main_expand]

/-- **What the statements match.** -/
lemma matches_iff (hadds : stmt.Adds stmt' db m marks cs) (hfrom : m.fromExpand = false) (e : ℕ) (args : List Arg) :
    stmt.Matches db e args ↔ ∃ args', stmt'.Matches db e args' ∧ unmarked marks args' = args := by
  refine matches_drop hadds.ematches_eq hadds.ematches_eq' hfrom (fun args => ?_) fun f hf args hargs => ?_
  · rw [← hadds.unmarked_eq]
    exact matchedArgs_unmarked hadds.globals args
  · exact hadds.functions f hf args (QueryDb.matchedArgs_eq_some_iff.mp hargs).length_eq.symm

/-- The second statement has a component too. -/
lemma exists_local' (hadds : stmt.Adds stmt' db m marks cs) : ∃ c ∈ cs, c.isGlobal = false := by
  obtain ⟨c, hc, hlocal⟩ := hadds.exists_local
  rw [← hadds.unmarked_eq] at hc
  exact ⟨c, unmarked_subset marks cs hc, hlocal⟩

/-- What can be named can be named with globals. -/
lemma nameable (hadds : stmt.Adds stmt' db m marks cs) (hname : stmt.Nameable) : stmt'.Nameable := by
  have hmain := Stmt.main_of_single hadds.ematches_eq
  have hmain' := Stmt.main_of_single hadds.ematches_eq'
  have hlocals : (cs.filter fun c => !c.isGlobal) = m.cmatches.filter fun c => !c.isGlobal := by
    rw [← locals, ← locals, ← hadds.unmarked_eq, locals_unmarked hadds.globals]
  have hused : stmt'.used = stmt.used := by
    rw [Stmt.used, Stmt.used, hmain, hmain', hadds.ematches_eq, hadds.ematches_eq', hlocals, List.flatMap_singleton,
      List.flatMap_singleton]
    rfl
  have hmem : ∀ c ∈ cs, c.isGlobal = false → c ∈ m.cmatches := fun c hc hlocal => by
    have hfilter : c ∈ m.cmatches.filter fun c => !c.isGlobal :=
      hlocals ▸ List.mem_filter.mpr ⟨hc, by rw [hlocal]; rfl⟩
    exact (List.mem_filter.mp hfilter).1
  obtain ⟨htags, htypes, hwritable⟩ := hname
  rw [hmain] at htypes
  refine ⟨?_, ?_, hused ▸ hwritable⟩
  · rw [hadds.ematches_eq, List.flatMap_singleton] at htags
    rw [hadds.ematches_eq', List.flatMap_singleton]
    exact htags
  · rw [hmain']
    exact fun c hc d hd hcl hdl => htypes c (hmem c hc hcl) d (hmem d hd hdl) hcl hdl

/-- **Where nothing is lost, the calls are the same.** -/
lemma sameCalls (hadds : stmt.Adds stmt' db m marks cs) (hacc : stmt.Accepted main none)
    (hacc' : stmt'.Accepted main' none) (honly : m.OnlyTags) (hsize : stmt.numNodes ≤ maxSubplanNodes)
    (hsize' : stmt'.numNodes ≤ maxSubplanNodes) (hdb : db.Sound) {chunkSize stride : ℕ} (hchunk : 1 ≤ chunkSize)
    (hstride : 1 ≤ stride) (hle : stride ≤ 2 ^ 31) :
    stmt.SameCalls stmt' db marks cs chunkSize stride ↔ stmt.KeepsAll db m cs := by
  have hfrom := hadds.fromExpand_eq hacc
  have hone : ∀ m' ∈ stmt.ematches, m' = m := fun m' hmem => List.mem_singleton.mp (hadds.ematches_eq ▸ hmem)
  have hone' : ∀ m' ∈ stmt'.ematches, m' = { m with cmatches := cs } := fun m' hmem =>
    List.mem_singleton.mp (hadds.ematches_eq' ▸ hmem)
  have hmain := Stmt.main_of_single hadds.ematches_eq
  have hmain' := Stmt.main_of_single hadds.ematches_eq'
  obtain ⟨plan, n, hplan, hruns⟩ := hacc.callsExactly (onlyGlobals_eq_false (hmain ▸ hadds.exists_local))
    (fun m' hmem => hone m' hmem ▸ honly)
    (fun m' hmem hexpand => absurd hexpand (by rw [hone m' hmem, hfrom]; exact Bool.false_ne_true))
    hsize hdb hchunk hstride hle
  obtain ⟨plan', n', hplan', hruns'⟩ := hacc'.callsExactly (onlyGlobals_eq_false (hmain' ▸ hadds.exists_local'))
    (fun m' hmem => hone' m' hmem ▸ honly)
    (fun m' hmem hexpand => absurd hexpand (by rw [hone' m' hmem, hfrom]; exact Bool.false_ne_true))
    hsize' hdb hchunk hstride hle
  rw [hmain] at hruns
  rw [hmain'] at hruns'
  have hlead : leading m.cmatches ≤ leading cs := hadds.unmarked_eq ▸ leading_unmarked_le hadds.globals
  constructor
  · rintro ⟨plan₁, plan₁', n₁, hplan₁, hplan₁', hsame⟩
    obtain rfl := Option.some.inj (hplan.symm.trans hplan₁)
    obtain rfl := Option.some.inj (hplan'.symm.trans hplan₁')
    obtain ⟨runs, runs', hmap, hmap', hperm, -⟩ := hsame (n₁ + n + n') (by omega)
    obtain ⟨made, hmade, -, hcalls⟩ := hruns (n₁ + n + n') (by omega)
    obtain ⟨made', hmade', -, hcalls'⟩ := hruns' (n₁ + n + n') (by omega)
    obtain rfl := Option.some.inj (hmade.symm.trans hmap)
    obtain rfl := Option.some.inj (hmade'.symm.trans hmap')
    by_contra hnot
    rw [Stmt.KeepsAll, not_or, not_or] at hnot
    obtain ⟨hmany, hfew, hlost⟩ := hnot
    push Not at hlost
    obtain ⟨e, args, hmatch, hblock⟩ := hlost
    -- the first statement calls for this entity, the second one does not
    have hcall := (hcalls ⟨e, args⟩).mpr ⟨.inl (by omega), hmatch⟩
    obtain ⟨call', hcall', heq⟩ := List.mem_map.mp (hperm.mem_iff.mpr hcall)
    have hentity : call'.entity = e := congrArg SystemCall.entity heq
    rcases ((hcalls' call').mp hcall').1 with hfew' | hlast
    · exact hmany hfew'
    · exact hblock (hentity ▸ hlast)
  · intro hkeeps
    refine ⟨plan, plan', n + n', hplan, hplan', fun depth hdepth => ?_⟩
    obtain ⟨runs, hmap, hnodup, hcalls⟩ := hruns depth (by omega)
    obtain ⟨runs', hmap', hnodup', hcalls'⟩ := hruns' depth (by omega)
    refine ⟨runs, runs', hmap, hmap', ?_, hnodup', fun call hcall i c hi hglobal => ?_⟩
    · refine perm_drop
        (P := fun e args => (leading m.cmatches ≤ 1 ∨ e / tableBlockSize = lastBlock) ∧ stmt.Matches db e args)
        (R := fun e args => (leading cs ≤ 1 ∨ e / tableBlockSize = lastBlock) ∧ stmt'.Matches db e args)
        hnodup hnodup' hcalls hcalls' fun e args => ?_
      rw [hadds.matches_iff hfrom]
      constructor
      · rintro ⟨hlead', args', hmatch, rfl⟩
        refine ⟨args', ⟨?_, hmatch⟩, rfl⟩
        have hmatched := (hadds.matches_iff hfrom e _).mpr ⟨args', hmatch, rfl⟩
        rcases hkeeps with hfew | hmany | hlast
        · exact .inl hfew
        · exact .inr (hlead'.resolve_left (by omega))
        · exact .inr (hlast e _ hmatched)
      · rintro ⟨args', ⟨hlead', hmatch⟩, rfl⟩
        exact ⟨hlead'.imp_left hlead.trans, args', hmatch, rfl⟩
    · have hmatch := ((hcalls' call).mp hcall).2.args_eq
      rw [hmain'] at hmatch
      exact getElem?_global hmatch hi hglobal

end Stmt.Adds

end Calls

section Parsed

variable {start start' : Option (List TypeArg)} {calls calls' : List Call} {decl decl' : SystemDecl}
  {priorities priorities' : List ℕ} {stmt stmt' : Stmt} {m : EntityMatch} {cs : List CompMatch} {marks : List Bool}
  {db : QueryDb}

/-- A statement with one match has no expand. -/
lemma accepted_of_single (hargs : ∀ args ∈ clauses start calls, args.length < 2 ^ 32)
    (h : parse (.query start calls decl priorities) = .ok stmt) (hvalid : validate stmt = .ok ())
    (hm : stmt.ematches = [m]) : stmt.Accepted m none := by
  obtain ⟨main, expand, hacc, -, -⟩ := accepted_of_parse hargs h hvalid
  have heq := hacc.ematches_eq
  rw [hm] at heq
  cases expand with
  | none =>
      obtain rfl : m = main := (List.cons.inj heq).1
      exact hacc
  | some e => cases heq

/-- The names of `localStmt`. -/
lemma compiles_localStmt : localStmt.Compiles := by
  have hacc := accepted_of_single (by simp [clauses, expands]) parse_localStmt rfl rfl
  refine (hacc.compiles_iff (by decide) (by simp [localStmt, EntityMatch.OnlyTags]) (by simp [localStmt])).mpr
    ⟨by decide, by decide, ?_, fun i hi => ?_⟩
  · simp [localStmt, Stmt.main]
  · obtain rfl : i = .comp "A" := by
      rw [show localStmt.used = [.comp "A"] by decide] at hi
      exact List.mem_singleton.mp hi
    simp only [TableVar.Writable]
    decide +kernel

/-- What the query of a component matches. -/
lemma matches_localStmt {t : Table} {data : Address} (henabled : t.enabledAt 3 = true) (hdata : t.place 3 = some data) :
    localStmt.Matches (QueryDb.ofTable t fun _ => some 64) 3 [.component data] where
  args_eq := by
    simp [localStmt, Stmt.main, QueryDb.matchedArgs, QueryDb.matched, QueryDb.ofTable, henabled, hdata]
  tags := by simp [localStmt, Stmt.main, EntityMatch.Tags]
  functions := by simp [localStmt, EntityMatch.Functions]
  expands := by simp [localStmt]

/-- The components of `match<Global<G>, Global<H>, A>().foreach<T>()`. -/
def frontMatches : List CompMatch := [⟨⟨"G"⟩, true, true⟩, ⟨⟨"H"⟩, true, true⟩, ⟨⟨"A"⟩, false, false⟩]

/-- Its statement. -/
def frontStmt : Stmt :=
  ⟨.foreach, [⟨frontMatches, [], [], [], [], [], false, ""⟩], ⟨⟨"T"⟩, frontMatches, 0⟩, defaultPriority⟩

lemma parse_frontStmt : parse (.query (some [⟨⟨"G"⟩, some "Global"⟩, ⟨⟨"H"⟩, some "Global"⟩, ⟨⟨"A"⟩, none⟩]) []
    ⟨⟨"T"⟩, [⟨⟨⟨"G"⟩, some "Global"⟩, true⟩, ⟨⟨⟨"H"⟩, some "Global"⟩, true⟩, ⟨⟨⟨"A"⟩, none⟩, false⟩], 0⟩ [])
    = .ok frontStmt := rfl

end Parsed

end Furious
