import Furious.Compiler.Subplan

/-!
The subplans of the statements that the front end accepts.

* `accepted_of_parse`: what such a statement looks like;
* `Stmt.numNodes`: the number of its operators;
* `subplan_inOrder`: **its operators are a tree, with a column for every parameter of the system**;
* `subplan_inBounds_iff`: **when it is made without a write outside of an array**.
-/

namespace Furious

section Parsed

variable {start : Option (List TypeArg)} {calls : List Call} {decl : SystemDecl} {priorities : List ℕ} {stmt : Stmt}

/-- **A statement that is accepted** has at most two entity matches, which have the parameters of the
system as their components. -/
lemma accepted_of_parse (hargs : ∀ args ∈ clauses start calls, args.length < 2 ^ 32)
    (h : parse (.query start calls decl priorities) = .ok stmt) (hvalid : validate stmt = .ok ()) :
    ∃ main expand, stmt.Accepted main expand
      ∧ stmt.system.cmatches = main.cmatches ++ expand.elim [] EntityMatch.cmatches
      ∧ stmt.system.cmatches.map (fun c => (c.type, c.isReadOnly))
        = decl.params.map fun p => (p.arg.type, p.isConst) := by
  have hp := parse_spec hargs h
  obtain ⟨cs, hcs⟩ : ∃ cs, decl.params.map Param.toMatch = cs := ⟨_, rfl⟩
  rw [hcs] at hp
  obtain ⟨-, -, htwo, hnum, -⟩ := (validate_ok_iff stmt).mp hvalid
  obtain ⟨done, main, hematches, hdone, hmain⟩ := hp.expand_eq
  -- every parameter has been given to an entity match
  have hlen : stmt.system.cmatches.length = cs.length := by
    have hle := used_length_le cs.length (clauses start calls)
    rw [hp.system_eq, List.length_append, List.length_take, length_flatten_parts]
    omega
  have hused : (used cs.length (clauses start calls)).length = cs.length := by
    rw [← numComponents_eq hp.cmatches_eq, hnum, hlen]
  have hsys := hp.system_eq
  rw [hused, Nat.sub_self, List.take_zero, List.nil_append] at hsys
  have hflat : stmt.system.cmatches = (stmt.ematches.map fun e => e.cmatches).reverse.flatten := by
    rw [hsys, hp.cmatches_eq, List.reverse_reverse]
  have hparams : stmt.system.cmatches.map (fun c => (c.type, c.isReadOnly))
      = decl.params.map fun p => (p.arg.type, p.isConst) := by
    obtain ⟨names, hnames⟩ : ∃ names, used cs.length (clauses start calls) = names := ⟨_, rfl⟩
    have hlen : decl.params.length ≤ names.length := by rw [← hnames, hused, ← hcs, List.length_map]
    rw [hsys, parts_flatten, hused, hnames, Nat.sub_self, List.drop_zero, ← hcs, zipWith_toMatch, List.map_map]
    conv_rhs => rw [← List.map_snd_zip hlen, List.map_map]
    rfl
  obtain ⟨expand, rfl⟩ : ∃ expand : Option EntityMatch, done = expand.toList := by
    cases done with
    | nil => exact ⟨none, rfl⟩
    | cons e done =>
        cases done with
        | nil => exact ⟨some e, rfl⟩
        | cons e' done =>
            rw [hematches, List.length_append, List.length_cons, List.length_cons, List.length_singleton] at htwo
            omega
  have hboth : stmt.system.cmatches = main.cmatches ++ expand.elim [] EntityMatch.cmatches := by
    rw [hflat, hematches]
    cases expand with
    | none => rfl
    | some e =>
        show main.cmatches ++ (e.cmatches ++ []) = _
        rw [List.append_nil]
        rfl
  refine ⟨main, expand, ?_, hboth, hparams⟩
  exact {
    operation_eq := hp.operation_eq
    ematches_eq := hematches
    main_expand := hmain
    expand_expand := fun e he => hdone e (Option.mem_toList.mpr he)
    columns_le := by
      have hle := hp.length_le
      rw [← hlen, hboth, List.length_append] at hle
      cases expand <;> exact hle }

end Parsed

/-! ### The number of operators -/

/-- The last entity match, that of the `match` of a query. -/
def Stmt.main (stmt : Stmt) : EntityMatch := stmt.ematches.getLastD EntityMatch.init

/-- The number of operators of a statement. -/
def Stmt.numNodes (stmt : Stmt) : ℕ :=
  (stmt.ematches.map EntityMatch.numNodes).sum
  + (if stmt.main.cmatches = [] then 0 else stmt.ematches.length - 1) + 1

namespace Stmt.Accepted

variable {stmt : Stmt} {main : EntityMatch} {expand : Option EntityMatch}

lemma main_eq (h : stmt.Accepted main expand) : stmt.main = main := by
  rw [Stmt.main, h.ematches_eq, List.getLastD_concat]

lemma length_filters (m : EntityMatch) (onColumn : Bool) : (m.filters onColumn).length = m.numFilters := by
  simp only [EntityMatch.filters, EntityMatch.numFilters, List.length_append, List.length_map]

lemma size_componentTree {m : EntityMatch} {u : PlanTree} (hu : m.componentTree = some u) :
    m.cmatches ≠ [] ∧ u.size = 2 * m.cmatches.length - 1 + m.numFilters := by
  rw [EntityMatch.componentTree] at hu
  cases hm : m.cmatches with
  | nil =>
      rw [hm] at hu
      cases hu
  | cons c cs =>
      rw [hm] at hu
      obtain rfl := Option.some.inj hu
      have hleaf : c.tree.size = 1 := rfl
      refine ⟨List.cons_ne_nil _ _, ?_⟩
      rw [Subplan.size_above, Subplan.size_components, hleaf, length_filters, List.length_cons]
      omega

lemma size_localTree {m : EntityMatch} {l : PlanTree} (hexpand : m.fromExpand = true)
    (hl : m.localTree main = some l) :
    l.size + m.filterFunc.length = m.numNodes := by
  rw [EntityMatch.localTree, if_pos hexpand] at hl
  obtain rfl := Option.some.inj hl
  have hscan : m.refScan.size = 1 := rfl
  rw [EntityMatch.numNodes, hexpand, cond_true, cond_true]
  cases hc : m.componentTree with
  | none =>
      rw [if_pos (Subplan.componentTree_eq_none_iff.mp hc), Option.elim_none, Subplan.size_above, hscan,
        length_filters]
  | some u =>
      obtain ⟨hm, hsize⟩ := size_componentTree hc
      rw [if_neg hm, Option.elim_some, OpTree.size, hscan, hsize]

/-- **The number of operators is the size of the tree.** -/
lemma size_tree (h : stmt.Accepted main expand) {t : PlanTree} (ht : stmt.tree = some t)
    (hfilter : main.cmatches = [] → main.filterFunc = []) : t.size + 1 = stmt.numNodes := by
  have hpred (m : EntityMatch) : m.predicates.length = m.filterFunc.length := List.length_map _
  have hmain : main.numNodes = (main.componentTree.map (·.above main.predicates)).elim 0 OpTree.size := by
    rw [EntityMatch.numNodes, h.main_expand, cond_false, cond_false]
    cases hc : main.componentTree with
    | none =>
        have hm := Subplan.componentTree_eq_none_iff.mp hc
        rw [if_pos hm, hfilter hm]
        rfl
    | some u =>
        obtain ⟨hm, hsize⟩ := size_componentTree hc
        rw [if_neg hm, Option.map_some, Option.elim_some, Subplan.size_above, hsize, hpred]
        omega
  rw [h.tree_eq] at ht
  rw [Stmt.numNodes, h.main_eq, h.ematches_eq, List.map_append, List.sum_append, List.length_append,
    List.map_singleton, List.sum_singleton, hmain, List.length_singleton, Nat.add_sub_cancel]
  cases expand with
  | none =>
      rw [Option.elim_none] at ht
      simp only [ht, Option.elim_some, Option.toList_none, List.map_nil, List.sum_nil, List.length_nil, ite_self]
      omega
  | some e =>
      obtain ⟨l, hl⟩ := h.exists_localTree rfl
      have hsize := size_localTree (h.expand_expand e rfl) hl
      rw [Option.elim_some, addTree_eq hl] at ht
      obtain rfl := Option.some.inj ht
      rw [Subplan.size_above, hpred, Option.toList_some, List.map_singleton, List.sum_singleton,
        List.length_singleton]
      cases hc : main.componentTree with
      | none =>
          rw [if_pos (Subplan.componentTree_eq_none_iff.mp hc), Option.map_none, Option.elim_none, Option.elim_none]
          omega
      | some u =>
          rw [if_neg (size_componentTree hc).1, Option.map_some, Option.elim_some, Option.elim_some, OpTree.size]
          omega

/-- **When a subplan is made.** -/
lemma isSome_subplanInit_iff (h : stmt.Accepted main expand) :
    (subplanInit stmt).isSome = true
      ↔ stmt.numNodes ≤ maxSubplanNodes ∧ (main.cmatches = [] → main.filterFunc = []) := by
  by_cases hfilter : main.cmatches = [] → main.filterFunc = []
  · by_cases hsome : main.cmatches ≠ [] ∨ expand ≠ none
    · obtain ⟨t, ht⟩ := h.exists_tree hsome
      obtain ⟨sync, hinit⟩ := h.subplanInit_eq ht hfilter
      rw [hinit, ← h.size_tree ht hfilter]
      split_ifs with hroom
      · exact ⟨fun _ => ⟨hroom, hfilter⟩, fun _ => rfl⟩
      · exact ⟨fun h => (Bool.false_ne_true h).elim, fun h => (hroom h.1).elim⟩
    · push Not at hsome
      obtain ⟨hm, rfl⟩ := hsome
      have hone : stmt.numNodes = 1 := by
        rw [Stmt.numNodes, h.main_eq, if_pos hm, h.ematches_eq, Option.toList_none, List.nil_append,
          List.map_singleton, List.sum_singleton, EntityMatch.numNodes, if_pos hm, h.main_expand, hfilter hm]
        rfl
      rw [h.subplanInit_loop hm (hfilter hm), hone]
      exact ⟨fun _ => ⟨by decide, hfilter⟩, fun _ => rfl⟩
  · have hm : main.cmatches = [] := by
      by_contra hm
      exact hfilter fun hnil => (hm hnil).elim
    rw [h.subplanInit_filter hm fun hnil => hfilter fun _ => hnil]
    exact ⟨fun h => (Bool.false_ne_true h).elim, fun h => (hfilter h.2).elim⟩

end Stmt.Accepted

/-! ### The operators of an accepted statement -/

/-- What is given to the `foreach` in a column. -/
structure FccColumn.Gives (col : FccColumn) (p : Param) (matched : Option CompMatch) : Prop where
  componentType_eq : col.componentType = p.arg.type
  accessMode_eq : col.accessMode = if p.isConst then .read else .readWrite
  -- what is matched is a component or a global, what is expanded a reference
  type_eq : col.type = matched.elim .reference fun c => if c.isGlobal then .global else .component

/-- The operators are a tree, and its `foreach` has a column for every parameter. -/
structure Subplan.WellFormed (plan : Subplan) (stmt : Stmt) (decl : SystemDecl) : Prop where
  inOrder : OpTree.InOrder plan.nodes plan.root fccInvalidId
  one_parent : ∀ i < plan.nodes.length, i ≠ plan.root →
    ∃! j : ℕ, ∃ op : Operator, plan.nodes[j]? = some op ∧ i ∈ op.body.children
  columns : ∃ child cols, plan.nodes[plan.root]? = some ⟨.unary (.foreach stmt.system) child, fccInvalidId, cols⟩
    ∧ cols.length = decl.params.length
    ∧ ∀ (i : ℕ) (p : Param), decl.params[i]? = some p → ∃ col, cols[i]? = some col ∧ col.Gives p stmt.main.cmatches[i]?

section Parsed

variable {start : Option (List TypeArg)} {calls : List Call} {decl : SystemDecl} {priorities : List ℕ} {stmt : Stmt}

/-- **The operators of an accepted statement**, whose match has a component or a global and which has room for
them, are a tree in which every operator comes behind its children, and the `foreach` gets the parameters of
its system. -/
theorem subplan_wellFormed (hargs : ∀ args ∈ clauses start calls, args.length < 2 ^ 32)
    (h : parse (.query start calls decl priorities) = .ok stmt) (hvalid : validate stmt = .ok ())
    (hmatch : stmt.main.cmatches ≠ []) (hsize : stmt.numNodes ≤ maxSubplanNodes) :
    ∃ plan, subplanInit stmt = some plan ∧ plan.WellFormed stmt decl := by
  obtain ⟨main, expand, hacc, hboth, hparams⟩ := accepted_of_parse hargs h hvalid
  have hmain := hacc.main_eq
  rw [hmain] at hmatch
  have hfilter : main.cmatches = [] → main.filterFunc = [] := fun hnil => (hmatch hnil).elim
  obtain ⟨t, ht⟩ := hacc.exists_tree (.inl hmatch)
  obtain ⟨sync, hinit⟩ := hacc.subplanInit_eq ht hfilter
  have hroom : t.size + 1 ≤ maxSubplanNodes := by rwa [hacc.size_tree ht hfilter]
  rw [if_pos hroom] at hinit
  refine ⟨_, hinit, ?_⟩
  have horder := OpTree.inOrder upColumns joinColumns (.unary (.foreach stmt.system) t) fccInvalidId
  have hcols := hacc.columns_tree ht (.inl hmatch)
  have hexpand : (expand.elim [] fun e => e.cmatches.map fun c => c.column.toReference)
      = (expand.elim [] EntityMatch.cmatches).map fun c => c.column.toReference := by
    cases expand <;> rfl
  obtain ⟨ex, hex⟩ : ∃ ex, expand.elim [] EntityMatch.cmatches = ex := ⟨_, rfl⟩
  rw [hex] at hboth
  rw [hexpand, hex] at hcols
  have hroot := (laidOut_self upColumns joinColumns (.unary (.foreach stmt.system) t) fccInvalidId).unary.1
  rw [Nat.zero_add] at hroot
  refine ⟨horder, fun i hi hne => horder.existsUnique hi hne, _, t.columns, hroot, ?_, ?_⟩
  · have hlen := congrArg List.length hparams
    rw [List.length_map, List.length_map, hboth, List.length_append] at hlen
    rw [hcols, List.length_append, List.length_map, List.length_map, hlen]
  · intro i p hp
    have hcs := congrArg (fun l : List (FccType × Bool) => l[i]?) hparams
    simp only [List.getElem?_map, hp, Option.map_some] at hcs
    obtain ⟨c, hc, hcp⟩ := Option.map_eq_some_iff.mp hcs
    obtain ⟨htype, hconst⟩ := Prod.mk.inj hcp
    rw [hboth] at hc
    rw [hmain, hcols]
    by_cases hi : i < main.cmatches.length
    · rw [List.getElem?_append_left hi] at hc
      refine ⟨c.column, ?_, htype, ?_, ?_⟩
      · rw [List.getElem?_append_left (by rwa [List.length_map]), List.getElem?_map, hc, Option.map_some]
      · rw [← hconst]
        rfl
      · rw [hc]
        rfl
    · rw [List.getElem?_append_right (by omega)] at hc
      refine ⟨c.column.toReference, ?_, htype, ?_, ?_⟩
      · rw [List.getElem?_append_right (by rw [List.length_map]; omega), List.length_map, List.getElem?_map, hc,
          Option.map_some]
      · rw [← hconst]
        rfl
      · rw [List.getElem?_eq_none (by omega)]
        rfl

/-- `expandQuery` with a const `B`. -/
theorem subplan_wellFormed_const : ∃ plan, subplanInit (expandStmt true) = some plan
    ∧ plan.WellFormed (expandStmt true) ⟨⟨"S"⟩, [⟨⟨⟨"A"⟩, none⟩, false⟩, ⟨⟨⟨"B"⟩, none⟩, true⟩], 0⟩ :=
  subplan_wellFormed (by simp [clauses, expands]) (parse_expandQuery true) rfl (by decide) (by decide)

/-- **No write of `subplan_init` is outside of an array** where there is room for the operators, and the match
has components or no filter functions. -/
theorem subplan_inBounds_iff (hargs : ∀ args ∈ clauses start calls, args.length < 2 ^ 32)
    (h : parse (.query start calls decl priorities) = .ok stmt) (hvalid : validate stmt = .ok ()) :
    (subplanInit stmt).isSome = true
      ↔ stmt.numNodes ≤ maxSubplanNodes ∧ (stmt.main.cmatches = [] → stmt.main.filterFunc = []) := by
  obtain ⟨main, expand, hacc, -, -⟩ := accepted_of_parse hargs h hvalid
  rw [hacc.main_eq]
  exact hacc.isSome_subplanInit_iff

/-- `expandQuery` with a const `B`. -/
theorem subplan_inBounds_iff_const : (subplanInit (expandStmt true)).isSome = true
    ↔ (expandStmt true).numNodes ≤ maxSubplanNodes
      ∧ ((expandStmt true).main.cmatches = [] → (expandStmt true).main.filterFunc = []) :=
  subplan_inBounds_iff (by simp [clauses, expands]) (parse_expandQuery true) rfl

end Parsed

/-- Sixteen components. -/
def wideNames : List String := ["A", "B", "C", "D", "E", "F", "G", "H", "I", "J", "K", "L", "M", "N", "O", "P"]

/-- The statement `match<A,…,P>().has_tag("t").foreach<S>()`, where `S::run` takes the sixteen components. -/
def wideStmt : Stmt :=
  ⟨.foreach, [⟨wideNames.map fun name => ⟨⟨name⟩, false, false⟩, [], [], ["t"], [], [], false, ""⟩],
    ⟨⟨"S"⟩, wideNames.map fun name => ⟨⟨name⟩, false, false⟩, 0⟩, defaultPriority⟩

lemma parse_wide : parse (.query (some (wideNames.map fun name => ⟨⟨name⟩, none⟩)) [.hasTag (some "t")]
    ⟨⟨"S"⟩, wideNames.map fun name => ⟨⟨⟨name⟩, none⟩, false⟩, 0⟩ []) = .ok wideStmt := by
  rfl

/-- Sixteen components and a tag have 33 operators. -/
theorem subplan_outOfBounds : ¬ ∀ (start : Option (List TypeArg)) (calls : List Call) (decl : SystemDecl)
    (priorities : List ℕ) (stmt : Stmt), (∀ args ∈ clauses start calls, args.length < 2 ^ 32) →
    parse (.query start calls decl priorities) = .ok stmt → validate stmt = .ok () →
    (subplanInit stmt).isSome = true := by
  intro h
  have hwide := h _ _ _ _ _ (by decide) parse_wide rfl
  have hnone : (subplanInit wideStmt).isSome = false := by decide +kernel
  rw [hwide] at hnone
  cases hnone

end Furious
