import Furious.Compiler.Variables
import Furious.Query.Matches

/-!
What a query means.

A query that matches components, with filters by tags and functions and at most one expand without components,
calls its system on the entities that it matches, on each of them once.

* `settles_plain`: code is generated for a plan, and nothing is reported;
* `mem_threadCalls`, `nodup_threadCalls`: the calls of a thread;
* `Stmt.Matches`: **what a query matches**;
* `query_meaning`: **the calls of a query**, with the two ways to go through a block.

The query belongs to a program, of which the variables can be declared.
-/

namespace Furious

/-! ### Generation -/

section Generation

variable {nodes : List Operator}

/-- What is printed, without a report. -/
lemma settles_visits (visits : List Visit) :
    Settles (fun _ => True) fun _ => (.ok visits : Except Stop (List Visit)) :=
  settles_const fun _ he => by cases he

/-- **An operator of a plan** hands over what it gets. -/
lemma settles_consume_filter {i p child : ℕ} {type : UnaryType} {t : PlanTree}
    (hi : nodes[i]? = some ⟨.unary type child, p, t.columns⟩) (ht : PlanTree.Plain (.unary type t))
    (hparent : Settles (fun _ => True) fun d => consume nodes d p i) (caller : ℕ) :
    Settles (fun _ => True) fun d => consume nodes d i caller := by
  cases type with
  | tagFilter tag opType onColumn =>
      refine settles_of_succ (fun n => by rw [consume, hi]) (settles_andThen (settles_visits _) ?_)
      dsimp only
      rw [ht.2]
      exact settles_andThen (settles_visits _) hparent
  | predicateFilter funcDecl =>
      refine settles_of_succ (fun n => by rw [consume, hi]) (settles_andThen (settles_visits _) ?_)
      dsimp only
      rw [ht.2]
      exact settles_andThen (settles_visits _) hparent
  | componentFilter filterType opType onColumn => exact ht.elim
  | foreach system => exact ht.elim

/-- A join keeps what it gets, or hands it over. -/
lemma settles_consume_join {i p left right : ℕ} {type : BinaryType} {cols : List FccColumn}
    (hi : nodes[i]? = some ⟨.binary type left right, p, cols⟩)
    (hparent : Settles (fun _ => True) fun d => consume nodes d p i) (caller : ℕ) :
    Settles (fun _ => True) fun d => consume nodes d i caller := by
  have hjoin : Settles (fun _ => True) fun d => if caller = left then .ok [] else consume nodes d p i := by
    split_ifs with hleft
    · exact settles_visits []
    · exact hparent
  cases type with
  | join => exact settles_of_succ (fun n => by rw [consume, hi]) (settles_andThen (settles_visits _) hjoin)
  | leftFilterJoin =>
      exact settles_of_succ (fun n => by rw [consume, hi]) (settles_andThen (settles_visits _) hjoin)
  | _ =>
      exact settles_of_succ (fun n => by rw [consume, hi]) (settles_andThen (settles_visits _) (settles_visits []))

/-- **Code is generated** for a plan. -/
theorem settles_plain {t : PlanTree} (ht : t.Plain) {o p : ℕ} (h : LaidOut upColumns joinColumns nodes t o p)
    (hparent : Settles (fun _ => True) fun d => consume nodes d p (o + t.size - 1)) (parallelStream : Bool) :
    Settles (fun _ => True) fun d => produce nodes d (o + t.size - 1) parallelStream := by
  induction t generalizing o p with
  | leaf type cols =>
      exact settles_of_succ (fun n => by rw [OpTree.size, Nat.add_sub_cancel, produce, h.leaf])
        (settles_andThen (settles_visits _) hparent)
  | unary type t ih =>
      obtain ⟨hroot, hlaid⟩ := h.unary
      have hid : o + (OpTree.unary type t).size - 1 = o + t.size := by rw [OpTree.size]; omega
      rw [hid] at hparent
      have htree : PlanTree.Plain t := by
        cases type with
        | tagFilter tag opType onColumn => exact ht.1
        | predicateFilter funcDecl => exact ht.1
        | componentFilter filterType opType onColumn => exact ht.elim
        | foreach system => exact ht.elim
      have hchild := ih htree hlaid (settles_consume_filter hroot ht hparent _)
      refine settles_of_succ (fun n => by rw [hid, produce, hroot]) (settles_andThen (settles_visits _) ?_)
      cases type with
      | foreach system => exact ht.elim
      | _ => exact hchild
  | binary type l r ihl ihr =>
      obtain ⟨hroot, hlaidl, hlaidr⟩ := h.binary
      have hid : o + (OpTree.binary type l r).size - 1 = o + l.size + r.size := by rw [OpTree.size]; omega
      rw [hid] at hparent
      have hleft (hl : PlanTree.Plain l) := ihl hl hlaidl (settles_consume_join hroot hparent _)
      have hright (hr : PlanTree.Plain r) := ihr hr hlaidr (settles_consume_join hroot hparent _)
      refine settles_of_succ (fun n => by rw [hid, produce, hroot]) (settles_andThen (settles_visits _) ?_)
      cases type with
      | join => exact settles_andThen (hleft ht.1) (hright ht.2.1)
      | leftFilterJoin => exact settles_andThen (hleft ht.1) (hright ht.2)
      | crossJoin => exact settles_andThen (settles_andThen (hleft ht.1) (hright ht.2.1)) hparent
      | gather => exact ht.elim
      | cascadingGather => exact ht.elim

/-- The code of a subplan. -/
lemma Subplan.Runs.settles {plan : Subplan} {system : System} {t : PlanTree} (h : plan.Runs system t) :
    Settles (fun _ => True) fun d => produce plan.nodes d plan.root true := by
  obtain ⟨hroot, hlaid⟩ := h.laidOut.unary
  rw [Nat.zero_add] at hroot hlaid
  have hforeach (caller : ℕ) : Settles (fun _ => True) fun d => consume plan.nodes d t.size caller := by
    refine settles_of_succ (fun n => by rw [consume, hroot]) (settles_andThen (settles_visits _) ?_)
    have hcols : upColumns (.foreach system) (t.value upColumns joinColumns) = t.columns := rfl
    dsimp only
    rw [hcols, h.check]
    simp only [ne_eq, not_true_eq_false, if_false]
    exact settles_andThen (settles_visits _) (settles_visits _)
  have hproduce := settles_plain h.plain hlaid (hforeach _) true
  rw [Nat.zero_add] at hproduce
  refine settles_of_succ (fun n => ?_) (settles_andThen (settles_visits [.produce t.size true]) hproduce)
  rw [h.root, produce, hroot]

end Generation

/-! ### The calls of a thread -/

section Calls

variable {db : QueryDb} {t : PlanTree}

lemma mem_blockCalls {b : ℕ} {call : SystemCall} : call ∈ db.blockCalls t b
    ↔ call.entity / tableBlockSize = b ∧ db.row t call.entity = some call.args := by
  rw [QueryDb.blockCalls, List.mem_filterMap]
  constructor
  · rintro ⟨o, ho, hcall⟩
    obtain ⟨args, hargs, rfl⟩ := Option.map_eq_some_iff.mp hcall
    exact ⟨(block_of_id (List.mem_range.mp ho)).1, hargs⟩
  · rintro ⟨hb, hrow⟩
    refine ⟨call.entity % tableBlockSize, List.mem_range.mpr (Nat.mod_lt _ (by decide)), ?_⟩
    have hid : b * tableBlockSize + call.entity % tableBlockSize = call.entity := by
      rw [← hb, Nat.mul_comm]
      exact Nat.div_add_mod _ _
    rw [hid, QueryDb.callAt, hrow]
    rfl

/-- **The calls of a thread**: those of the rows in its blocks. -/
lemma mem_threadCalls (hglobal : t.isGlobal = false) {thread : Thread} {call : SystemCall} :
    call ∈ db.threadCalls t thread ↔ thread.Takes (call.entity / tableBlockSize) ∧ call.entity < 2 ^ 32
      ∧ db.row t call.entity = some call.args := by
  have hall : numBlocks * tableBlockSize = 2 ^ 32 := by decide
  have hlt : call.entity < 2 ^ 32 ↔ call.entity / tableBlockSize < numBlocks := by
    rw [← hall, Nat.div_lt_iff_lt_mul (show 0 < tableBlockSize by decide)]
  rw [QueryDb.threadCalls, hglobal, if_neg Bool.false_ne_true, List.mem_flatMap, hlt]
  constructor
  · rintro ⟨b, hb, hcall⟩
    obtain ⟨rfl, hrow⟩ := mem_blockCalls.mp hcall
    obtain ⟨hlt, htakes⟩ := List.mem_filter.mp hb
    exact ⟨of_decide_eq_true htakes, List.mem_range.mp hlt, hrow⟩
  · rintro ⟨htakes, hb, hrow⟩
    exact ⟨_, List.mem_filter.mpr ⟨List.mem_range.mpr hb, decide_eq_true htakes⟩, mem_blockCalls.mpr ⟨rfl, hrow⟩⟩

/-- **An entity has one call.** -/
lemma nodup_threadCalls (hglobal : t.isGlobal = false) (thread : Thread) :
    ((db.threadCalls t thread).map SystemCall.entity).Nodup := by
  rw [QueryDb.threadCalls, hglobal, if_neg Bool.false_ne_true, List.map_flatMap, List.nodup_flatMap]
  refine ⟨fun b _ => ?_, (List.nodup_range.filter _).imp fun {b b'} hne => ?_⟩
  · have hmap : (db.blockCalls t b).map SystemCall.entity
        = ((List.range tableBlockSize).filter fun o => (db.row t (b * tableBlockSize + o)).isSome).map
          fun o => b * tableBlockSize + o := by
      rw [QueryDb.blockCalls, List.map_filterMap, ← List.filterMap_eq_map, List.filterMap_filter]
      refine List.filterMap_congr fun o _ => ?_
      rw [QueryDb.callAt]
      cases db.row t (b * tableBlockSize + o) <;> rfl
    rw [hmap]
    exact (List.nodup_range.filter _).map fun _ _ h => Nat.add_left_cancel h
  · intro e he he'
    obtain ⟨call, hcall, rfl⟩ := List.mem_map.mp he
    obtain ⟨call', hcall', heq⟩ := List.mem_map.mp he'
    exact hne (((mem_blockCalls.mp hcall).1.symm.trans (by rw [heq])).trans (mem_blockCalls.mp hcall').1)

end Calls

/-! ### What a query matches -/

/-- The entity that a reference of the entity `e` refers to. -/
def QueryDb.referred (db : QueryDb) (refName : String) (e : ℕ) : Option ℕ :=
  if (db.refs refName).table.enabledAt e = true then
    ((db.refs refName).table.place e).map fun ptr => (db.refs refName).table.load Reftable.entityIdSize ptr
  else none

/-- **What a query matches**: an entity that is enabled in the table of each component, with the tags and the
functions of its matches, where an expand takes the tags of the entity that is referred to; and all globals are
there. -/
structure Stmt.Matches (db : QueryDb) (stmt : Stmt) (e : ℕ) (args : List Arg) : Prop where
  args_eq : db.matchedArgs stmt.main.cmatches e = some args
  tags : stmt.main.Tags db e
  functions : ∀ m ∈ stmt.ematches, m.Functions db args
  expands : ∀ m ∈ stmt.ematches, m.fromExpand = true → ∃ id, db.referred m.refName e = some id ∧ m.Tags db id

namespace Stmt.Accepted

variable {db : QueryDb} {stmt : Stmt} {main : EntityMatch} {expand : Option EntityMatch}

/-- The columns of a match are of components and globals. -/
lemma not_id_of_mem {col : FccColumn} (h : col ∈ main.cmatches.map CompMatch.column) : col.type ≠ .id := by
  obtain ⟨c, -, rfl⟩ := List.mem_map.mp h
  rw [CompMatch.column]
  cases c.isGlobal <;> exact fun h => by cases h

variable (db) in
/-- The components and globals of a match, below its filters. -/
lemma exists_joined (h : stmt.Accepted main expand) {u : PlanTree} (hu : main.componentTree = some u) :
    ∃ j, JoinedTree db main.cmatches j ∧ u = j.above (main.filters false) := by
  have hlen := (Nat.le_add_right _ _).trans h.columns_le
  rw [EntityMatch.componentTree] at hu
  cases hcs : main.cmatches with
  | nil =>
      rw [hcs] at hu
      cases hu
  | cons c cs =>
      rw [hcs] at hu hlen
      exact ⟨_, joined_spec db c cs hlen, (Option.some.inj hu).symm⟩

variable (db) in
/-- **The rows of the match of a query.** -/
lemma row_main (h : stmt.Accepted main expand) (honly : main.OnlyTags) {t : PlanTree}
    (ht : main.componentTree.map (·.above main.predicates) = some t) :
    t.Plain ∧ (onlyGlobals main.cmatches = false → ∀ e args, db.row t e = some args
      ↔ (leading main.cmatches ≤ 1 ∨ e / tableBlockSize = lastBlock) ∧ db.matchedArgs main.cmatches e = some args
        ∧ main.Tags db e ∧ main.Functions db args) := by
  obtain ⟨u, hu, rfl⟩ := Option.map_eq_some_iff.mp ht
  have hcols : ∀ col ∈ u.columns, col.type ≠ .id := fun col hcol =>
    not_id_of_mem (Subplan.columns_componentTree hu ▸ hcol)
  obtain ⟨j, hjoined, rfl⟩ := h.exists_joined db hu
  have hfiltered : (j.above (main.filters false)).Plain :=
    plain_above hjoined.plain (applies_filters honly fun hfalse => by cases hfalse)
  refine ⟨plain_above hfiltered (applies_predicates hcols), fun hcomp e args => ?_⟩
  rw [row_above, row_above, hjoined.rows hcomp, Option.filter_eq_some_iff, Option.filter_eq_some_iff,
    filters_pass honly, predicates_pass, if_neg Bool.false_ne_true, and_assoc]
  split_ifs with hlead
  · exact (and_iff_right hlead).symm
  · exact ⟨fun hnone => hnone.1.elim, fun hle => (hlead hle.1).elim⟩

/-- **The references of an expand.** -/
lemma row_refs {m : EntityMatch} (honly : m.OnlyTags) (e : ℕ) :
    (db.row (m.refScan.above (m.filters true)) e).isSome = true
      ↔ ∃ id, db.referred m.refName e = some id ∧ m.Tags db id := by
  have htable : db.tableOf ⟨.id, ⟨""⟩, m.refName, .read⟩ = (db.refs m.refName).table := rfl
  have hrow : db.row m.refScan e = if (db.refs m.refName).table.enabledAt e = true then
      ((db.refs m.refName).table.place e).map fun ptr => [Arg.component ptr] else none := by
    rw [EntityMatch.refScan, QueryDb.row, List.head?_cons, Option.bind_eq_bind, Option.bind_some, htable]
    split_ifs
    · cases (db.refs m.refName).table.place e <;> rfl
    · rfl
  have hcols : PlanTree.columns m.refScan = [⟨.id, ⟨""⟩, m.refName, .read⟩] := rfl
  rw [row_above, hrow, QueryDb.referred, Option.isSome_iff_exists]
  simp only [Option.filter_eq_some_iff, filters_pass honly, if_true, hcols, List.head?_cons, Option.map_some,
    Option.getD_some]
  split_ifs
  · cases (db.refs m.refName).table.place e with
    | none => simp
    | some ptr => simp [QueryDb.target]
  · simp

/-- The tree of a query, whose expand has no components. -/
lemma tree_cases (h : stmt.Accepted main expand) (hm : main.cmatches ≠ []) (hexpand : ∀ m ∈ expand, m.cmatches = [])
    {t : PlanTree} (ht : stmt.tree = some t) :
    ∃ u, main.componentTree.map (·.above main.predicates) = some u
      ∧ t = expand.elim u fun m =>
        PlanTree.above (.binary .leftFilterJoin u (m.refScan.above (m.filters true))) m.predicates := by
  obtain ⟨u, hu⟩ := componentTree_isSome hm
  refine ⟨u.above main.predicates, by rw [hu]; rfl, ?_⟩
  rw [h.tree_eq, hu] at ht
  cases expand with
  | none => exact (Option.some.inj ht).symm
  | some m =>
      have hlocal : m.localTree main = some (m.refScan.above (m.filters true)) := by
        rw [EntityMatch.localTree, if_pos (h.expand_expand m rfl),
          Subplan.componentTree_eq_none_iff.mpr (hexpand m rfl), Option.elim_none]
      rw [Option.elim_some, addTree_eq hlocal, if_pos (hexpand m rfl)] at ht
      exact (Option.some.inj ht).symm

lemma mem_ematches (h : stmt.Accepted main expand) {m : EntityMatch} :
    m ∈ stmt.ematches ↔ m = main ∨ expand = some m := by
  rw [h.ematches_eq, List.mem_append, List.mem_singleton, Option.mem_toList, or_comm]

variable (db) in
/-- **The rows of a query.** -/
theorem tree_spec (h : stmt.Accepted main expand) (honly : ∀ m ∈ stmt.ematches, m.OnlyTags) (hm : main.cmatches ≠ [])
    (hexpand : ∀ m ∈ expand, m.cmatches = []) {t : PlanTree} (ht : stmt.tree = some t) :
    t.Plain ∧ t.columns = main.cmatches.map CompMatch.column
      ∧ (onlyGlobals main.cmatches = false → ∀ e args, db.row t e = some args
        ↔ (leading main.cmatches ≤ 1 ∨ e / tableBlockSize = lastBlock) ∧ stmt.Matches db e args) := by
  obtain ⟨u, hu, htu⟩ := h.tree_cases hm hexpand ht
  obtain ⟨hplain, hrow⟩ := h.row_main db (honly main (h.mem_ematches.mpr (.inl rfl))) hu
  have hcols := columns_main hu
  have hids : ∀ col ∈ u.columns, col.type ≠ .id := fun col hcol => not_id_of_mem (hcols ▸ hcol)
  cases expand with
  | none =>
      obtain rfl : t = u := htu
      refine ⟨hplain, hcols, fun hcomp e args => ?_⟩
      rw [hrow hcomp]
      refine and_congr_right fun _ => ⟨fun ⟨hargs, htags, hfun⟩ => ⟨h.main_eq.symm ▸ hargs, h.main_eq.symm ▸ htags, ?_, ?_⟩,
        fun hmatch => ⟨h.main_eq ▸ hmatch.args_eq, h.main_eq ▸ hmatch.tags,
          hmatch.functions main (h.mem_ematches.mpr (.inl rfl))⟩⟩
      · intro m hmem
        obtain rfl := (h.mem_ematches.mp hmem).resolve_right (Option.not_mem_none m)
        exact hfun
      · intro m hmem hfrom
        obtain rfl := (h.mem_ematches.mp hmem).resolve_right (Option.not_mem_none m)
        rw [h.main_expand] at hfrom
        cases hfrom
  | some m =>
      have hmem : m ∈ stmt.ematches := h.mem_ematches.mpr (.inr rfl)
      rw [Option.elim_some] at htu
      have hrefs : PlanTree.Plain (m.refScan.above (m.filters true)) :=
        plain_above ⟨_, rfl, .inr rfl⟩ (applies_filters (honly m hmem) fun _ => rfl)
      have hjoin : PlanTree.Plain (.binary .leftFilterJoin u (m.refScan.above (m.filters true))) := ⟨hplain, hrefs⟩
      have hcolsj : PlanTree.columns (.binary .leftFilterJoin u (m.refScan.above (m.filters true))) = u.columns := rfl
      refine ⟨htu ▸ plain_above hjoin (applies_predicates hids), ?_, fun hcomp e args => ?_⟩
      · rw [htu, Subplan.columns_above, hcolsj, hcols]
      · rw [htu, row_above, Option.filter_eq_some_iff, QueryDb.row, Option.filter_eq_some_iff, hrow hcomp,
          predicates_pass, row_refs (honly m hmem)]
        constructor
        · rintro ⟨⟨⟨hlead, hargs, htags, hfun⟩, href⟩, hfun'⟩
          refine ⟨hlead, h.main_eq.symm ▸ hargs, h.main_eq.symm ▸ htags, fun m' hm' => ?_, fun m' hm' hfrom => ?_⟩
          · rcases h.mem_ematches.mp hm' with rfl | hm'
            · exact hfun
            · rwa [← Option.some.inj hm']
          · rcases h.mem_ematches.mp hm' with rfl | hm'
            · rw [h.main_expand] at hfrom
              cases hfrom
            · rwa [← Option.some.inj hm']
        · rintro ⟨hlead, hmatch⟩
          exact ⟨⟨⟨hlead, h.main_eq ▸ hmatch.args_eq, h.main_eq ▸ hmatch.tags,
            hmatch.functions main (h.mem_ematches.mpr (.inl rfl))⟩,
            hmatch.expands m hmem (h.expand_expand m rfl)⟩, hmatch.functions m hmem⟩

/-- The subplan of a query, and its code. -/
lemma exists_runs (h : stmt.Accepted main expand) (hm : main.cmatches ≠ []) (hsize : stmt.numNodes ≤ maxSubplanNodes)
    {t : PlanTree} (ht : stmt.tree = some t) (hplain : t.Plain) (hcols : t.columns = main.cmatches.map CompMatch.column) :
    ∃ plan, subplanInit stmt = some plan ∧ plan.Runs stmt.system t ∧ Settles (fun _ => True) (generate stmt) := by
  have hfilter : main.cmatches = [] → main.filterFunc = [] := fun hnil => (hm hnil).elim
  obtain ⟨sync, hinit⟩ := h.subplanInit_eq ht hfilter
  rw [h.size_tree ht hfilter, if_pos hsize] at hinit
  have hruns : Subplan.Runs ⟨OpTree.cells upColumns joinColumns (.unary (.foreach stmt.system) t) 0 fccInvalidId, sync,
      t.size⟩ stmt.system t :=
    ⟨laidOut_self _ _ _ _, rfl, hplain, checkNoIds_ok fun col hcol => not_id_of_mem (hcols ▸ hcol)⟩
  refine ⟨_, hinit, hruns, ?_⟩
  have hsettles := hruns.settles
  refine (congrArg (Settles fun _ => True) (funext fun depth => ?_)).mp hsettles
  rw [generate, hinit]

end Stmt.Accepted

/-- What is enabled has an id. -/
lemma Table.Sound.lt_of_enabledAt {t : Table} {M : KeyMap ℕ} (h : t.Sound M) {e : ℕ} (he : t.enabledAt e = true) :
    e < 2 ^ 32 := by
  have hmem : e / tableBlockSize ∈ M := by
    rcases h.cases (e / tableBlockSize) with ⟨hnone, hat⟩ | ⟨p, block, hp, -, -, -⟩
    · rw [Table.enabledAt, hat] at he
      cases he
    · exact Finmap.mem_of_lookup_eq_some hp
  have hall : numBlocks * tableBlockSize = 2 ^ 32 := by decide
  have hlt := h.lt _ hmem
  rwa [Nat.div_lt_iff_lt_mul (show 0 < tableBlockSize by decide), hall] at hlt

/-- **What a query matches has an id.** -/
lemma Stmt.Matches.lt {db : QueryDb} (hdb : db.Sound) {stmt : Stmt} (hcomp : onlyGlobals stmt.main.cmatches = false)
    {e : ℕ} {args : List Arg} (h : stmt.Matches db e args) : e < 2 ^ 32 := by
  obtain ⟨c, hc, hlocal⟩ := List.all_eq_false.mp hcomp
  obtain ⟨arg, harg⟩ := QueryDb.exists_matched h.args_eq hc
  rw [QueryDb.matched, if_neg hlocal] at harg
  obtain ⟨M, hM⟩ := hdb.tables c.type
  by_contra hge
  have hoff : (db.tables c.type).enabledAt e ≠ true := fun he => hge (hM.lt_of_enabledAt he)
  rw [if_neg hoff] at harg
  cases harg

/-- **The subplan of an accepted query**, its tree and its rows. -/
lemma Stmt.Accepted.exists_plan {stmt : Stmt} {main : EntityMatch} {expand : Option EntityMatch}
    (hacc : stmt.Accepted main expand) (hlocals : onlyGlobals stmt.main.cmatches = false)
    (honly : ∀ m ∈ stmt.ematches, m.OnlyTags) (hexpand : ∀ m ∈ stmt.ematches, m.fromExpand = true → m.cmatches = [])
    (hsize : stmt.numNodes ≤ maxSubplanNodes) :
    ∃ plan t, subplanInit stmt = some plan ∧ stmt.tree = some t ∧ plan.Runs stmt.system t
      ∧ Settles (fun _ => True) (generate stmt) ∧ t.isGlobal = false
      ∧ ∀ (db : QueryDb) (e : ℕ) (args : List Arg), db.row t e = some args
        ↔ (leading stmt.main.cmatches ≤ 1 ∨ e / tableBlockSize = lastBlock) ∧ stmt.Matches db e args := by
  have hm : main.cmatches ≠ [] := by
    rw [← hacc.main_eq]
    intro hnil
    rw [hnil] at hlocals
    cases hlocals
  obtain ⟨t, ht⟩ := hacc.exists_tree (.inl hm)
  have hcells : ∀ m ∈ expand, m.cmatches = [] := fun m hmem =>
    hexpand m (hacc.mem_ematches.mpr (.inr hmem)) (hacc.expand_expand m hmem)
  have htree (db : QueryDb) := hacc.tree_spec db honly hm hcells ht
  obtain ⟨hplain, hcols, -⟩ := htree (QueryDb.ofTable (Table.init 0 false fun _ => 0) fun _ => none)
  obtain ⟨plan, hplan, hruns, hsettles⟩ := hacc.exists_runs hm hsize ht hplain hcols
  refine ⟨plan, t, hplan, ht, hruns, hsettles, ?_, fun db e args => ?_⟩
  · rw [PlanTree.isGlobal, hcols, allGlobals_columns, ← hacc.main_eq, hlocals]
  · rw [(htree db).2.2 (hacc.main_eq ▸ hlocals), hacc.main_eq]

/-- **What an accepted query means.** -/
theorem Stmt.Accepted.meaning {stmt : Stmt} {main : EntityMatch} {expand : Option EntityMatch} {db : QueryDb}
    {thread : Thread} (hacc : stmt.Accepted main expand) (hlocals : onlyGlobals stmt.main.cmatches = false)
    (honly : ∀ m ∈ stmt.ematches, m.OnlyTags) (hexpand : ∀ m ∈ stmt.ematches, m.fromExpand = true → m.cmatches = [])
    (hsize : stmt.numNodes ≤ maxSubplanNodes) (hdb : db.Sound) (hthread : thread.Valid) :
    ∃ plan, subplanInit stmt = some plan ∧ Settles (fun _ => True) (generate stmt)
      ∧ ∃ n, ∀ depth, n ≤ depth → ∃ made, runTask db plan thread depth = some made
        ∧ (made.map SystemCall.entity).Nodup
        ∧ ∀ call, call ∈ made ↔ thread.Takes (call.entity / tableBlockSize)
          ∧ (leading stmt.main.cmatches ≤ 1 ∨ call.entity / tableBlockSize = lastBlock)
          ∧ stmt.Matches db call.entity call.args := by
  obtain ⟨plan, t, hplan, -, hruns, hsettles, hglobal, hrows⟩ := hacc.exists_plan hlocals honly hexpand hsize
  refine ⟨plan, hplan, hsettles, 2 * t.size + 2, fun depth hdepth => ?_⟩
  obtain ⟨made, hmade, hperm⟩ := runTask_spec hdb hruns hthread hdepth
  refine ⟨made, hmade, ((hperm.map _).nodup_iff).mpr (nodup_threadCalls hglobal thread), fun call => ?_⟩
  rw [hperm.mem_iff, mem_threadCalls hglobal, hrows]
  exact and_congr_right fun _ => and_iff_right_of_imp fun hmatch => hmatch.2.lt hdb hlocals

lemma onlyGlobals_eq_false {cs : List CompMatch} (h : ∃ c ∈ cs, c.isGlobal = false) : onlyGlobals cs = false := by
  obtain ⟨c, hc, hlocal⟩ := h
  exact List.all_eq_false.mpr ⟨c, hc, by rw [hlocal]; exact Bool.false_ne_true⟩

section Parsed

variable {start : Option (List TypeArg)} {calls : List Call} {decl : SystemDecl} {priorities : List ℕ} {stmt : Stmt}
  {plans : List Subplan} {ts : List PlanTree} {db : QueryDb} {thread : Thread}

/-- `match<A>().has_tag("u").expand<>("r").has_not_tag("t").foreach<S>()`. -/
def tagCalls : List Call := [.hasTag (some "u"), .expand [] "r", .hasNotTag (some "t")]

/-- Its statement. -/
def tagStmt : Stmt :=
  ⟨.foreach, [⟨[], [], [], [], ["t"], [], true, "r"⟩, ⟨[⟨⟨"A"⟩, false, false⟩], [], [], ["u"], [], [], false, ""⟩],
    ⟨⟨"S"⟩, [⟨⟨"A"⟩, false, false⟩], 0⟩, defaultPriority⟩

lemma parse_tagCalls : parse (.query (some [⟨⟨"A"⟩, none⟩]) tagCalls ⟨⟨"S"⟩, [⟨⟨⟨"A"⟩, none⟩, false⟩], 0⟩ [])
    = .ok tagStmt := rfl

/-- Its tree. -/
def tagTree : PlanTree :=
  .unary (.foreach tagStmt.system) (.binary .leftFilterJoin
    (.unary (.tagFilter "u" .has false) (.leaf .scan [⟨.component, ⟨"A"⟩, "", .readWrite⟩]))
    (.unary (.tagFilter "t" .hasNot true) (.leaf .scan [⟨.id, ⟨""⟩, "r", .read⟩])))

/-- Its subplan. -/
def tagPlan : Subplan := ⟨tagTree.cells upColumns joinColumns 0 fccInvalidId, false, 5⟩

lemma subplanInit_tagStmt : subplanInit tagStmt = some tagPlan := by decide +kernel

lemma occurs_tagTree {i : TableVar} (h : Occurs [tagTree] i) : i ∈ [.tag "u", .comp "A", .tag "t", .ref "r"] := by
  obtain ⟨t, ht, hi⟩ := h
  rw [List.mem_singleton.mp ht] at hi
  exact hi

lemma usesFrom_tagTree : usesFrom [tagTree] 0 = [⟨.tag "u", []⟩, ⟨.comp "A", []⟩, ⟨.tag "t", []⟩, ⟨.ref "r", []⟩] := rfl

lemma declarable_tagTree : Declarable [tagTree] where
  in_sight i hi := by
    have hplain : ∀ u ∈ usesFrom [tagTree] 0, u.above = [] := by simp [usesFrom_tagTree]
    have hvar : ∃ k, varAt (usesFrom [tagTree] 0) k = some i := by
      have hmem := occurs_tagTree hi
      simp only [List.mem_cons, List.not_mem_nil, or_false] at hmem
      rcases hmem with rfl | rfl | rfl | rfl
      · exact ⟨0, rfl⟩
      · exact ⟨1, rfl⟩
      · exact ⟨2, rfl⟩
      · exact ⟨3, rfl⟩
    exact hvar.imp fun k hk => ⟨inSight_of_plain hplain k, hk⟩
  tags_once := (nodup_tagNames_iff _).mp (by decide)
  comps_apart a b ha hb _ := by
    have ha := occurs_tagTree ha
    have hb := occurs_tagTree hb
    simp only [List.mem_cons, List.not_mem_nil, or_false, reduceCtorEq, TableVar.comp.injEq, false_or] at ha hb
    rw [ha, hb]
  refs_apart a b ha hb _ := by
    have ha := occurs_tagTree ha
    have hb := occurs_tagTree hb
    simp only [List.mem_cons, List.not_mem_nil, or_false, reduceCtorEq, TableVar.ref.injEq, false_or] at ha hb
    rw [ha, hb]

/-- A database with entities 3 and 1280, of which the first refers to 7 and has the tag "u". -/
lemma exists_crew : ∃ db : QueryDb, db.Reached ∧ ∃ args, tagStmt.Matches db 3 args := by
  obtain ⟨t, hist, ht, hM⟩ := TableRun.exists_of_map (fun _ _ => True) [.create 3, .create 1280]
    (f := fun r => (r.1.enabledAt 3, (r.1.place 3).isSome)) (x := (true, true)) (by decide +kernel)
  obtain ⟨⟨r, hist'⟩, hr, hM'⟩ : ∃ r, tableRunList (fun _ _ => True) [.create 3]
        (Table.init Reftable.entityIdSize false fun _ => 0) ⟨∅, 0⟩ = some r
      ∧ (r.1.esize, r.1.enabledAt 3, (r.1.place 3).isSome) = (Reftable.entityIdSize, true, true) :=
    Option.map_eq_some_iff.mp (by decide +kernel)
  obtain ⟨bts, hbts, hset⟩ : ∃ bts, BitCall.run [.add 0 3] = some bts ∧ (bts 0).existsId 3 = some true :=
    Option.map_eq_some_iff.mp (by decide +kernel : (BitCall.run [.add 0 3]).map (fun bts => (bts 0).existsId 3)
      = some (some true))
  obtain ⟨henabled, hplace⟩ : t.enabledAt 3 = true ∧ (t.place 3).isSome = true := by simpa using hM
  obtain ⟨hesize, hrenabled, hrplace⟩ :
    r.esize = Reftable.entityIdSize ∧ r.enabledAt 3 = true ∧ (r.place 3).isSome = true := by simpa using hM'
  obtain ⟨data, hdata⟩ := Option.isSome_iff_exists.mp hplace
  obtain ⟨ptr, hptr⟩ := Option.isSome_iff_exists.mp hrplace
  have hrun := (TableRun.init Reftable.entityIdSize false fun _ => 0).list hr
  refine ⟨⟨fun _ => t, fun _ => ⟨r.store Reftable.entityIdSize ptr 7⟩,
    fun tag => if tag = "u" then bts 0 else Bittable.init, fun _ => none, fun _ _ => true⟩, ?_, [.component data], ?_⟩
  · exact {
      tables := fun _ => ⟨t, hist, t.memory, ht, rfl⟩
      refs := fun _ => ⟨⟨r, hist', _, hrun, rfl⟩, hesize⟩
      tags := fun tag => by
        by_cases htag : tag = "u"
        · exact ⟨[.add 0 3], bts, 0, by simp [BitCall.Legal], hbts, if_pos htag⟩
        · exact ⟨[], _, 0, by simp, rfl, if_neg htag⟩ }
  · exact {
      args_eq := by
        simp [tagStmt, Stmt.main, QueryDb.matchedArgs, QueryDb.matched, henabled, hdata]
      tags := by
        simp [tagStmt, Stmt.main, EntityMatch.Tags, QueryDb.hasTag, hset]
      functions := by simp [tagStmt, EntityMatch.Functions]
      expands := by
        intro m hm hexpand
        rcases List.mem_cons.mp hm with rfl | hm
        · refine ⟨7, ?_, by simp, fun tag htag => ?_⟩
          · have hstored : (r.store Reftable.entityIdSize ptr 7).load Reftable.entityIdSize ptr = 7 :=
              Table.load_store r ptr (by decide)
            change (if r.enabledAt 3 = true then (r.place 3).map fun ptr' =>
              (r.store Reftable.entityIdSize ptr 7).load Reftable.entityIdSize ptr' else none) = some 7
            rw [if_pos hrenabled, hptr, Option.map_some, hstored]
          · rw [List.mem_singleton.mp htag]
            rfl
        · rw [List.mem_singleton.mp hm] at hexpand
          cases hexpand }

end Parsed

end Furious
