import Furious.Query.Meaning

/-!
A query as a program of its own.

A program with one statement declares the variables that its tree uses, and the threads of its task are taken
together.

* `Stmt.Compiles`: **the program of a statement** is generated, and its variables are identifiers of their own;
* `Stmt.used`, `Stmt.Nameable`: what a query uses, and when it can be declared;
* `Stmt.Accepted.compiles_iff`: **when the program of a query compiles**;
* `Stmt.CallsExactly`: what all threads call together;
* `QueryDb.foreachBits`: a foreach without a path for full blocks;
* `query_exact_iff`: **when a query of components means what it should**.
-/

namespace Furious

/-! ### The program of a statement -/

/-- **The program of a statement alone** is generated without a report, all tables and bittables that its
operators use are declared, each once, and their variables are identifiers of their own. -/
structure Stmt.Compiles (stmt : Stmt) : Prop where
  generates : Settles (fun _ => True) (generate stmt)
  declares : ∃ plan t v, subplanInit stmt = some plan ∧ stmt.tree = some t
    ∧ (∀ depth, t.size < depth → extractSubplans depth [plan] = some v)
    ∧ v.Declares [.unary (.foreach stmt.system) t] ∧ ∀ i ∈ v.vars, IsIdentifier i.varName

/-- What the operators of an entity match use besides its components. -/
def EntityMatch.used (m : EntityMatch) : List TableVar :=
  (m.hasNotTags ++ m.hasTags).map .tag ++ if m.fromExpand = true then [.ref m.refName] else []

/-- What a query uses. -/
def Stmt.used (stmt : Stmt) : List TableVar :=
  (stmt.main.cmatches.filter fun c => !c.isGlobal).map (fun c => .comp c.type.name)
    ++ stmt.ematches.flatMap EntityMatch.used

/-- No tag is named twice in the query, no two types of components differ only in what `sanitize_name` does not keep
apart, and all names consist of what may stand in an identifier. -/
structure Stmt.Nameable (stmt : Stmt) : Prop where
  tags_once : (stmt.ematches.flatMap fun m => m.hasNotTags ++ m.hasTags).Nodup
  types_apart : ∀ c ∈ stmt.main.cmatches, ∀ d ∈ stmt.main.cmatches, c.isGlobal = false → d.isGlobal = false →
    AlikeNames c.type.name d.type.name → c.type.name = d.type.name
  writable : ∀ i ∈ stmt.used, i.Writable

/-! ### What the tree of a query uses -/

section Trees

variable {stmt : Stmt} {main : EntityMatch} {expand : Option EntityMatch}

/-- Without filters by components the walk comes to everything. -/
lemma PlanTree.reached_of_plain {t : PlanTree} (ht : t.Plain) (before : List TableVar) : t.reached before = t.vars := by
  induction t generalizing before with
  | leaf type cols => cases type <;> rfl
  | unary type t ih =>
      cases type with
      | foreach system => exact ht.elim
      | componentFilter filterType opType onColumn => exact ht.elim
      | predicateFilter decl => exact ih ht.1 before
      | tagFilter tag opType onColumn => exact congrArg _ (ih ht.1 _)
  | binary type l r ihl ihr =>
      cases type with
      | join => rw [reached, vars, ihl ht.1, ihr ht.2.1]
      | leftFilterJoin => rw [reached, vars, ihl ht.1, ihr ht.2]
      | crossJoin => rw [reached, vars, ihl ht.1, ihr ht.2.1]
      | gather => exact ht.elim
      | cascadingGather => exact ht.elim

/-- Filters by tags use their tags. -/
lemma vars_above_tags (t : PlanTree) (tags : List String) (opType : FilterOpType) (onColumn : Bool) :
    (PlanTree.vars (t.above (tags.map fun tag => .tagFilter tag opType onColumn))).Perm
      (tags.map .tag ++ PlanTree.vars t) := by
  induction tags generalizing t with
  | nil => exact .refl _
  | cons tag tags ih => exact (ih (.unary (.tagFilter tag opType onColumn) t)).trans List.perm_middle

/-- Filters by functions use nothing. -/
lemma vars_above_predicates (t : PlanTree) (m : EntityMatch) : PlanTree.vars (t.above m.predicates) = PlanTree.vars t := by
  rw [EntityMatch.predicates]
  induction m.filterFunc generalizing t with
  | nil => rfl
  | cons f fs ih => exact ih (.unary (.predicateFilter f) t)

/-- The filters of a match use its tags. -/
lemma vars_above_filters (t : PlanTree) {m : EntityMatch} (hm : m.OnlyTags) (onColumn : Bool) :
    (PlanTree.vars (t.above (m.filters onColumn))).Perm ((m.hasNotTags ++ m.hasTags).map .tag ++ PlanTree.vars t) := by
  have habove : t.above (m.filters onColumn) = PlanTree.above
      (t.above (m.hasNotTags.map fun tag => .tagFilter tag .hasNot onColumn))
      (m.hasTags.map fun tag => .tagFilter tag .has onColumn) := by
    rw [filters_eq hm, PlanTree.above, List.foldl_append]
    rfl
  rw [habove, List.map_append, List.append_assoc]
  refine (vars_above_tags _ _ _ _).trans (((vars_above_tags t _ _ _).append_left _).trans ?_)
  rw [← List.append_assoc, ← List.append_assoc]
  exact List.perm_append_comm.append_right _

/-- The components of a match use their tables. -/
lemma vars_components (c : CompMatch) (cs : List CompMatch) :
    PlanTree.vars (cs.foldl PlanTree.joinComponent c.tree)
      = ((c :: cs).filter fun c => !c.isGlobal).map fun c => .comp c.type.name := by
  have htree (d : CompMatch) : PlanTree.vars d.tree = ([d].filter fun c => !c.isGlobal).map fun c => .comp c.type.name := by
    rw [CompMatch.tree, CompMatch.column]
    cases hd : d.isGlobal with
    | true => simp [PlanTree.vars, hd]
    | false => simp [PlanTree.vars, scanVar, hd]
  induction cs using List.reverseRecOn with
  | nil => exact htree c
  | append_singleton cs d ih =>
      rw [List.foldl_append, List.foldl_cons, List.foldl_nil, PlanTree.joinComponent, PlanTree.vars, ih, htree,
        ← List.map_append, ← List.filter_append, List.cons_append]

/-- **What the tree of a query uses.** -/
lemma Stmt.Accepted.vars_tree (h : stmt.Accepted main expand) (honly : ∀ m ∈ stmt.ematches, m.OnlyTags)
    (hm : main.cmatches ≠ []) (hexpand : ∀ m ∈ expand, m.cmatches = []) {t : PlanTree} (ht : stmt.tree = some t) :
    (PlanTree.vars t).Perm stmt.used := by
  obtain ⟨u, hu, rfl⟩ := h.tree_cases hm hexpand ht
  obtain ⟨c, cs, hcs⟩ := List.exists_cons_of_ne_nil hm
  have hmain : (PlanTree.vars u).Perm ((main.cmatches.filter fun c => !c.isGlobal).map (fun c => .comp c.type.name)
      ++ main.used) := by
    rw [EntityMatch.componentTree, hcs] at hu
    obtain rfl := Option.some.inj hu
    rw [vars_above_predicates, EntityMatch.used, h.main_expand, if_neg Bool.false_ne_true, List.append_nil, hcs]
    refine (vars_above_filters _ (honly main (h.mem_ematches.mpr (.inl rfl))) false).trans ?_
    rw [vars_components]
    exact List.perm_append_comm
  rw [Stmt.used, h.main_eq, h.ematches_eq]
  cases expand with
  | none =>
      rw [Option.toList_none, List.nil_append, List.flatMap_singleton]
      exact hmain
  | some m =>
      have hrefs : (PlanTree.vars (m.refScan.above (m.filters true))).Perm m.used := by
        rw [EntityMatch.used, if_pos (h.expand_expand m rfl)]
        exact vars_above_filters m.refScan (honly m (h.mem_ematches.mpr (.inr rfl))) true
      rw [Option.elim_some, vars_above_predicates, Option.toList_some, List.singleton_append, List.flatMap_cons,
        List.flatMap_singleton]
      refine (hmain.append hrefs).trans ?_
      rw [List.append_assoc]
      exact List.perm_append_comm.append_left _

end Trees

/-! ### When the program compiles -/

section Used

variable {stmt : Stmt} {main : EntityMatch} {expand : Option EntityMatch}

lemma tagNames_map_tag (tags : List String) : tagNames (tags.map .tag) = tags := by
  rw [tagNames, List.filterMap_map]
  exact List.filterMap_some

lemma tagNames_map_comp (cs : List CompMatch) : tagNames (cs.map fun c => .comp c.type.name) = [] := by
  rw [tagNames, List.filterMap_map]
  exact List.filterMap_eq_nil_iff.mpr fun _ _ => rfl

lemma tagNames_used (m : EntityMatch) : tagNames m.used = m.hasNotTags ++ m.hasTags := by
  have hrest : tagNames (if m.fromExpand = true then [.ref m.refName] else []) = [] := by
    split_ifs <;> rfl
  rw [EntityMatch.used, tagNames, List.filterMap_append, ← tagNames, ← tagNames, tagNames_map_tag, hrest,
    List.append_nil]

/-- The tags that a query uses. -/
lemma Stmt.tagNames_used (stmt : Stmt) :
    tagNames stmt.used = stmt.ematches.flatMap fun m => m.hasNotTags ++ m.hasTags := by
  rw [Stmt.used, tagNames, List.filterMap_append, ← tagNames, ← tagNames, tagNames_map_comp, List.nil_append, tagNames,
    List.filterMap_flatMap]
  exact List.flatMap_congr fun m _ => Furious.tagNames_used m

/-- The components that a query uses. -/
lemma Stmt.comp_mem_used (stmt : Stmt) (name : String) :
    .comp name ∈ stmt.used ↔ ∃ c ∈ stmt.main.cmatches, c.isGlobal = false ∧ c.type.name = name := by
  have hnone : .comp name ∉ stmt.ematches.flatMap EntityMatch.used := by
    intro hmem
    obtain ⟨m, -, hm⟩ := List.mem_flatMap.mp hmem
    rw [EntityMatch.used] at hm
    split_ifs at hm <;> simp at hm
  rw [Stmt.used, List.mem_append, or_iff_left hnone, List.mem_map]
  simp [and_assoc]

/-- The references that a query uses: there is one expand at most. -/
lemma Stmt.Accepted.ref_mem_used (h : stmt.Accepted main expand) {name : String} (hname : .ref name ∈ stmt.used) :
    ∃ m, expand = some m ∧ m.refName = name := by
  rw [Stmt.used, List.mem_append] at hname
  rcases hname with hname | hname
  · obtain ⟨c, -, hc⟩ := List.mem_map.mp hname
    cases hc
  · obtain ⟨m, hm, hmem⟩ := List.mem_flatMap.mp hname
    have hfrom : m.fromExpand = true ∧ m.refName = name := by
      rw [EntityMatch.used] at hmem
      split_ifs at hmem with hfrom
      · obtain rfl : name = m.refName := by simpa using hmem
        exact ⟨hfrom, rfl⟩
      · simp at hmem
    rcases h.mem_ematches.mp hm with rfl | hm
    · rw [h.main_expand] at hfrom
      cases hfrom.1
    · exact ⟨m, hm, hfrom.2⟩

/-- What a walk has found in the tree of a query is declared rightly. -/
lemma Stmt.Accepted.declares_iff (h : stmt.Accepted main expand) {t : PlanTree} (hperm : (PlanTree.vars t).Perm stmt.used)
    {v : VarsExtr} (hlists : v.Lists (PlanTree.vars t)) :
    (v.Declares [.unary (.foreach stmt.system) t] ∧ ∀ i ∈ v.vars, IsIdentifier i.varName) ↔ stmt.Nameable := by
  have hmem (i : TableVar) : i ∈ v.vars ↔ i ∈ stmt.used := (hlists.mem_vars_iff i).trans hperm.mem_iff
  have hocc (i : TableVar) : Occurs [.unary (.foreach stmt.system) t] i ↔ i ∈ stmt.used := by
    refine Iff.trans ⟨?_, fun hi => ⟨_, List.mem_singleton_self _, hi⟩⟩ hperm.mem_iff
    rintro ⟨t', ht', hi⟩
    rwa [List.mem_singleton.mp ht'] at hi
  have honce : v.vars.Nodup ↔ (stmt.ematches.flatMap fun m => m.hasNotTags ++ m.hasTags).Nodup := by
    rw [hlists.nodup_vars_iff, ← Stmt.tagNames_used]
    exact (hperm.filterMap TableVar.tagName).nodup_iff
  have hwritable : (∀ i ∈ v.vars, IsIdentifier i.varName) ↔ ∀ i ∈ stmt.used, i.Writable :=
    forall_congr' fun i => by rw [hmem, isIdentifier_varName_iff]
  have hapart : (∀ i j, Occurs [.unary (.foreach stmt.system) t] i → Occurs [.unary (.foreach stmt.system) t] j →
        i.varName = j.varName → i = j)
      ↔ ∀ c ∈ stmt.main.cmatches, ∀ d ∈ stmt.main.cmatches, c.isGlobal = false → d.isGlobal = false →
        AlikeNames c.type.name d.type.name → c.type.name = d.type.name := by
    rw [apart_iff (Occurs [.unary (.foreach stmt.system) t])]
    simp only [hocc, Stmt.comp_mem_used]
    constructor
    · exact fun hboth c hc d hd hcl hdl => hboth.1 _ _ ⟨c, hc, hcl, rfl⟩ ⟨d, hd, hdl, rfl⟩
    · refine fun hcomps => ⟨?_, fun a b ha hb _ => ?_⟩
      · rintro _ _ ⟨c, hc, hcl, rfl⟩ ⟨d, hd, hdl, rfl⟩
        exact hcomps c hc d hd hcl hdl
      · obtain ⟨m, hm, rfl⟩ := h.ref_mem_used ha
        obtain ⟨m', hm', rfl⟩ := h.ref_mem_used hb
        rw [Option.some.inj (hm.symm.trans hm')]
  constructor
  · rintro ⟨hdecl, hnames⟩
    exact ⟨honce.mp hdecl.once, hapart.mp hdecl.apart, hwritable.mp hnames⟩
  · intro hname
    exact ⟨⟨fun i => (hmem i).trans (hocc i).symm, honce.mpr hname.tags_once, hapart.mpr hname.types_apart⟩,
      hwritable.mpr hname.writable⟩

/-- **When the program of a query compiles**: it has room for its operators, and what it uses can be named. -/
theorem Stmt.Accepted.compiles_iff (h : stmt.Accepted main expand) (hlocals : onlyGlobals stmt.main.cmatches = false)
    (honly : ∀ m ∈ stmt.ematches, m.OnlyTags) (hexpand : ∀ m ∈ stmt.ematches, m.fromExpand = true → m.cmatches = []) :
    stmt.Compiles ↔ stmt.numNodes ≤ maxSubplanNodes ∧ stmt.Nameable := by
  have hm : main.cmatches ≠ [] := by
    rw [← h.main_eq]
    intro hnil
    rw [hnil] at hlocals
    cases hlocals
  have hcells : ∀ m ∈ expand, m.cmatches = [] := fun m hmem =>
    hexpand m (h.mem_ematches.mpr (.inr hmem)) (h.expand_expand m hmem)
  -- what the walk finds in the tree
  have hwalk {plan : Subplan} {t : PlanTree} (hplan : subplanInit stmt = some plan) (ht : stmt.tree = some t)
      (hplain : t.Plain) : ∃ v : VarsExtr, v.Lists (PlanTree.vars t)
        ∧ ∀ depth, t.size < depth → extractSubplans depth [plan] = some v := by
    have hholds := h.holds ht (fun hnil => (hm hnil).elim) hplan
    obtain ⟨v, hlists, hextract⟩ := extractSubplans_lists (.cons hholds .nil) VarsExtr.Lists.init
    have hreached : [] ++ reachedAll [.unary (.foreach stmt.system) t] [] = PlanTree.vars t := by
      rw [List.nil_append, reachedAll, reachedAll, List.append_nil]
      exact PlanTree.reached_of_plain hplain []
    refine ⟨v, hreached ▸ hlists, fun depth hdepth => hextract depth fun t' ht' => ?_⟩
    rw [List.mem_singleton.mp ht', OpTree.size]
    exact hdepth
  constructor
  · rintro ⟨-, plan, t, v, hplan, ht, hextract, hdecl⟩
    have hsize := (h.isSome_subplanInit_iff.mp (by rw [hplan]; rfl)).1
    obtain ⟨plan', t', hplan', ht', hruns, -⟩ := h.exists_plan hlocals honly hexpand hsize
    obtain rfl := Option.some.inj (ht.symm.trans ht')
    obtain ⟨v', hlists, hextract'⟩ := hwalk hplan ht hruns.plain
    obtain rfl := Option.some.inj ((hextract _ (Nat.lt_succ_self _)).symm.trans (hextract' _ (Nat.lt_succ_self _)))
    exact ⟨hsize, (h.declares_iff (h.vars_tree honly hm hcells ht) hlists).mp hdecl⟩
  · rintro ⟨hsize, hname⟩
    obtain ⟨plan, t, hplan, ht, hruns, hsettles, -⟩ := h.exists_plan hlocals honly hexpand hsize
    obtain ⟨v, hlists, hextract⟩ := hwalk hplan ht hruns.plain
    exact ⟨hsettles, plan, t, v, hplan, ht, hextract,
      (h.declares_iff (h.vars_tree honly hm hcells ht) hlists).mpr hname⟩

end Used

/-! ### All threads together -/

/-- **The threads of a statement's task together** call the system as `P` says, for an entity once at most. -/
def Stmt.CallsExactly (stmt : Stmt) (db : QueryDb) (chunkSize stride : ℕ) (P : ℕ → List Arg → Prop) : Prop :=
  ∃ plan n, subplanInit stmt = some plan ∧ ∀ depth, n ≤ depth → ∃ runs,
    (List.range stride).mapM (fun offset => runTask db plan ⟨chunkSize, offset, stride⟩ depth) = some runs
    ∧ (runs.flatten.map SystemCall.entity).Nodup
    ∧ ∀ call, call ∈ runs.flatten ↔ P call.entity call.args

/-- **What the threads of a query call.** -/
lemma Stmt.Accepted.callsExactly {stmt : Stmt} {main : EntityMatch} {expand : Option EntityMatch}
    (h : stmt.Accepted main expand) (hlocals : onlyGlobals stmt.main.cmatches = false)
    (honly : ∀ m ∈ stmt.ematches, m.OnlyTags) (hexpand : ∀ m ∈ stmt.ematches, m.fromExpand = true → m.cmatches = [])
    (hsize : stmt.numNodes ≤ maxSubplanNodes) {db : QueryDb} (hdb : db.Sound) {chunkSize stride : ℕ}
    (hchunk : 1 ≤ chunkSize) (hstride : 1 ≤ stride) (hle : stride ≤ 2 ^ 31) :
    stmt.CallsExactly db chunkSize stride fun e args =>
      (leading stmt.main.cmatches ≤ 1 ∨ e / tableBlockSize = lastBlock) ∧ stmt.Matches db e args := by
  obtain ⟨plan, t, hplan, -, hruns, -, hglobal, hrows⟩ := h.exists_plan hlocals honly hexpand hsize
  refine ⟨plan, 2 * t.size + 2, hplan, fun depth hdepth => ?_⟩
  obtain ⟨runs, hmap, hperm⟩ := tasks_perm hdb hruns hchunk hstride hle hdepth
  refine ⟨runs, hmap, ((hperm.map _).nodup_iff).mpr (nodup_threadCalls hglobal _), fun call => ?_⟩
  have htakes : Thread.single.Takes (call.entity / tableBlockSize) := Nat.mod_one _
  rw [hperm.mem_iff, mem_threadCalls hglobal, and_iff_right htakes, hrows]
  exact and_iff_right_of_imp fun hmatch => hmatch.2.lt hdb hlocals

/-- The loop of a foreach that looks at every row. -/
def QueryDb.foreachBits (db : QueryDb) (cols : List FccColumn) (source : BCluster) : Option (List SystemCall) := do
  let data ← db.columnsData source cols
  (List.range tableBlockSize).foldlM (fun calls i => do
    let isSet ← source.enabled.isSet i
    if isSet = true then some (calls ++ [⟨source.start + i, data.map (Data.arg i)⟩]) else some calls) []

/-- **A full block** is gone through in both ways alike. -/
lemma foreachCalls_eq_bits (db : QueryDb) {cols : List FccColumn} (hcols : allGlobals cols = false) {source : BCluster}
    (hlen : source.enabled.bits.length = tableBlockSize) : db.foreachCalls cols source = db.foreachBits cols source := by
  rw [QueryDb.foreachCalls, QueryDb.foreachBits]
  cases db.columnsData source cols with
  | none => rfl
  | some data =>
      simp only [Option.bind_eq_bind, Option.bind_some, hcols, Bool.false_eq_true, if_false]
      split_ifs with hfull
      · rw [map_range_of_full hlen hfull]
        exact (foldlM_enabled hlen _).symm
      · rfl

section Parsed

variable {start : Option (List TypeArg)} {calls : List Call} {decl : SystemDecl} {priorities : List ℕ} {stmt : Stmt}

/-- The names of `tagStmt`. -/
lemma nameable_tagStmt : tagStmt.Nameable where
  tags_once := by decide
  types_apart := by simp [tagStmt, Stmt.main]
  writable i hi := by
    have hused : tagStmt.used = [.comp "A", .tag "t", .ref "r", .tag "u"] := by decide
    rw [hused] at hi
    simp only [List.mem_cons, List.not_mem_nil, or_false] at hi
    rcases hi with rfl | rfl | rfl | rfl <;> simp only [TableVar.Writable] <;> decide +kernel

/-- The statement of `match<A>().has_tag("t").expand<>("r").has_tag("t").foreach<S>()`. -/
def twiceStmt : Stmt :=
  ⟨.foreach, [⟨[], [], [], ["t"], [], [], true, "r"⟩, ⟨[⟨⟨"A"⟩, false, false⟩], [], [], ["t"], [], [], false, ""⟩],
    ⟨⟨"S"⟩, [⟨⟨"A"⟩, false, false⟩], 0⟩, defaultPriority⟩

lemma parse_twiceStmt : parse (.query (some [⟨⟨"A"⟩, none⟩])
    [.hasTag (some "t"), .expand [] "r", .hasTag (some "t")] ⟨⟨"S"⟩, [⟨⟨⟨"A"⟩, none⟩, false⟩], 0⟩ [])
    = .ok twiceStmt := rfl

end Parsed

end Furious
